import ExprFront.Proofs.Grammar.Exact
import ExprFront.Proofs.Lexical.Names
import ExprFront.Proofs.Parser.Run

/-!
# Reading back what is written

The written form of an expression is read as its tokens, wherever it ends at a separator (`Reads`),
so that parsing it gives the expression back up to spans; and what is parsed from any source is an
expression that can be written down (`parse_text`).
-/

namespace ExprFront

/-- The name is spelled like one and is no keyword, nor the underscore. -/
def IsPlainName (name : String) : Prop :=
  IsName name.toList ∧ TokenKind.keyword? name = none ∧ name ≠ "_"

/-- A name is plain if it is read as a name on its own. -/
lemma isPlainName_iff {name : String} :
    IsPlainName name ↔ IsLongestWord .ident name.toList [] := by
  constructor
  · rintro ⟨hname, hkeyword, hunderscore⟩
    obtain ⟨c, hc⟩ := hname.exists_isLongestWord
    have hkind := hc.kind_eq_ofWord hname
    rw [String.ofList_toList,
      TokenKind.ofWord_eq_ident_iff.2 ⟨rfl, hkeyword, hunderscore⟩] at hkind
    cases c with
    | ident => exact hc
    | _ => cases hkind
  · intro h
    have hkind := h.kind_eq_ofWord h.word
    obtain ⟨-, hkeyword, hunderscore⟩ := TokenKind.ofWord_eq_ident_iff.1 hkind.symm
    rw [String.ofList_toList] at hkeyword hunderscore
    exact ⟨h.word, hkeyword, hunderscore⟩

/-- A number or a string is written with one token, which is read as the literal. -/
def Literal.IsWritten : Literal → Prop
  | nil | boolean _ => True
  | l => ∃ t e, lex l.text.toList = [t, e] ∧ e.kind = .eof ∧
    (Grammar.literal [t, e]).value = .matched (.literal l t.span) 1

/-- A token is matched as a literal if this is its value. -/
lemma Grammar.value_literal_iff {t : Token} {ts : TokenList} {l : Literal} :
    (literal (t :: ts)).value = .matched (.literal l t.span) 1 ↔
      (literalValue t.kind).value = some l := by
  rw [value_literal]
  cases (literalValue t.kind).value <;> simp

/-- A text is read back as one literal if it is a longest word with its value. -/
lemma Literal.exists_lex_iff {l : Literal} :
    (∃ t e, lex l.text.toList = [t, e] ∧ e.kind = .eof ∧
      (Grammar.literal [t, e]).value = .matched (.literal l t.span) 1) ↔
    l.IsRead ∧ ∃ c, IsLongestWord c l.text.toList [] ∧ c.kind l.text.toList = l.tokenKind := by
  have hkinds := kinds_lex l.text.toList
  refine ⟨?_, ?_⟩
  · intro h
    obtain ⟨t, e, hlex, he, hvalue⟩ := h
    rw [Grammar.value_literal_iff] at hvalue
    have ht := tokenKind_of_value hvalue
    have hmem : t.kind ∈ tokenKinds l.text.toList := by
      rw [hlex] at hkinds
      -- the token is all there is before the end of file
      have happend : [t.kind] ++ [e.kind] = tokenKinds l.text.toList ++ [.eof] := hkinds
      rw [← (List.append_inj' happend rfl).1]
      exact List.mem_cons_self
    have herror : t.kind ≠ .error := by
      intro herror
      rw [herror] at hvalue
      cases hvalue
    obtain ⟨c, hw, hk⟩ := exists_word_of_mem_tokenKinds hmem herror
    rw [← ht, text_tokenKind] at hw hk
    exact ⟨by rwa [IsRead, ht], c, hw, hk⟩
  · intro h
    obtain ⟨hread, c, hw, hk⟩ := h
    have hword := tokenKinds_word hw
    rw [List.append_nil, tokenKinds_nil] at hword
    rw [hword] at hkinds
    obtain ⟨t, v, hlex, ht, hv⟩ := List.map_eq_cons_iff.1 hkinds
    obtain ⟨e, rfl, he⟩ := List.map_eq_singleton_iff.1 hv
    refine ⟨t, e, hlex, he, Grammar.value_literal_iff.2 ?_⟩
    rw [ht, hk]
    exact hread

/-- A literal can be written if it is read from its token and a word makes this token. -/
lemma Literal.isWritten_iff {l : Literal} :
    l.IsWritten ↔ l.IsRead ∧ ∃ c, IsLongestWord c l.text.toList [] ∧
      c.kind l.text.toList = l.tokenKind := by
  cases l with
  | nil => exact iff_of_true trivial ⟨rfl, _, .keyword_alone .nil, rfl⟩
  | boolean b =>
    cases b with
    | false => exact iff_of_true trivial ⟨rfl, _, .keyword_alone .false, rfl⟩
    | true => exact iff_of_true trivial ⟨rfl, _, .keyword_alone .true, rfl⟩
  | integer | floatingPoint | string => exact exists_lex_iff

/-- The text does not begin with a blank, and is read as tokens of the given kinds in front of the
end of the source or a separator. -/
structure Reads (cs : List Char) (ks : List TokenKind) : Prop where
  front : ∃ a v, cs = a :: v ∧ Lexeme.isBlank a = false
  kinds : ∀ rest : List Char, (∀ x ∈ rest.head?, Rule.isSeparator x = true) →
    tokenKinds (cs ++ rest) = ks ++ tokenKinds rest

namespace Reads

/-- A longest word is read as its token. -/
lemma word {c : WordClass} {w : List Char} (h : IsLongestWord c w []) : Reads w [c.kind w] where
  front := by
    obtain ⟨a, v, rfl, -⟩ := h.word.exists_cons
    exact ⟨a, v, rfl, h.word.not_isBlank.1⟩
  kinds rest hrest := tokenKinds_word (h.append_separator hrest)

/-- A receiver with a continuation after it. -/
lemma receiver (r : Receiver) {cs : List Char} {ks : List TokenKind}
    (hfront : ∃ a v, cs = a :: v ∧ Rule.isWordPart a = false)
    (hkinds : ∀ rest : List Char, (∀ x ∈ rest.head?, Rule.isSeparator x = true) →
      tokenKinds (cs ++ rest) = ks ++ tokenKinds rest) :
    Reads (r.text.toList ++ cs) (.keyword r.keyword :: ks) where
  front := by
    cases r <;> exact ⟨_, _, rfl, by decide⟩
  kinds rest hrest := by
    obtain ⟨a, v, rfl, ha⟩ := hfront
    have hword : IsLongestWord (.keyword r.keyword) r.keyword.text.toList (a :: v ++ rest) :=
      .keyword _ fun x hx => by
        cases hx
        exact ha
    rw [r.text_keyword] at hword
    rw [List.append_assoc, tokenKinds_word hword, hkinds rest hrest]
    rfl

/-- A receiver, a dot and a word are read as three tokens. -/
lemma dot {c : WordClass} {a : Char} {w : List Char} (h : IsLongestWord c (a :: w) [])
    (ha : Rule.isWordStart a = true) (r : Receiver) :
    Reads (r.text.toList ++ '.' :: a :: w)
      [.keyword r.keyword, .punct .dot, c.kind (a :: w)] := by
  refine receiver r ⟨'.', _, rfl, by decide⟩ fun rest hrest => ?_
  have hdot : IsLongestWord (.punct .dot) ['.'] (a :: w ++ rest) := .dot fun x hx => by
    cases hx
    rintro rfl
    exact absurd ha (by decide)
  have hkinds := tokenKinds_word hdot
  rw [tokenKinds_word (h.append_separator hrest)] at hkinds
  exact hkinds

/-- Two texts with a comma between them are read one after the other. -/
lemma comma {cs ds : List Char} {ks ls : List TokenKind} (h : Reads cs ks) (h' : Reads ds ls) :
    Reads (cs ++ ',' :: ' ' :: ds) (ks ++ .punct .comma :: ls) where
  front := by
    obtain ⟨a, v, rfl, ha⟩ := h.front
    exact ⟨a, _, rfl, ha⟩
  kinds rest hrest := by
    have hcomma : IsLongestWord (.punct .comma) [','] (' ' :: (ds ++ rest)) :=
      .separator rfl (by decide)
    have hblank : ∀ x ∈ (ds ++ rest).head?, Lexeme.isBlank x = false := by
      obtain ⟨a, v, rfl, ha⟩ := h'.front
      intro x hx
      cases hx
      exact ha
    rw [List.append_assoc, List.cons_append, List.cons_append, h.kinds _ fun x hx => by
      cases hx
      decide]
    have hkinds := tokenKinds_word hcomma
    rw [tokenKinds_space hblank, h'.kinds rest hrest] at hkinds
    rw [List.append_assoc]
    exact congrArg (ks ++ ·) hkinds

/-- A text between brackets behind a receiver is read with them. -/
lemma brackets (r : Receiver) {cs : List Char} {ks : List TokenKind} (h : Reads cs ks) :
    Reads (r.text.toList ++ '[' :: (cs ++ [']']))
      (.keyword r.keyword :: .punct .lbracket :: (ks ++ [.punct .rbracket])) := by
  refine receiver r ⟨'[', _, rfl, by decide⟩ fun rest hrest => ?_
  have hopen : IsLongestWord (.punct .lbracket) ['['] (cs ++ ']' :: rest) :=
    .separator rfl (by decide)
  have hclose : IsLongestWord (.punct .rbracket) [']'] rest := .separator rfl (by decide)
  have hrest' : ∀ x ∈ (']' :: rest).head?, Rule.isSeparator x = true := fun x hx => by
    cases hx
    decide
  have hkinds := tokenKinds_word hopen
  rw [h.kinds _ hrest', show ']' :: rest = [']'] ++ rest from rfl, tokenKinds_word hclose] at hkinds
  simpa [WordClass.kind] using hkinds

/-- Texts with commas between them are read one after the other. -/
lemma intercalate {es : List Expr} (hne : es ≠ [])
    (h : ∀ e ∈ es, Reads e.text.toList e.flatten) :
    Reads (", ".intercalate (es.map Expr.text)).toList (Expr.flattenAll es) := by
  induction es with
  | nil => exact absurd rfl hne
  | cons e es ih =>
    obtain ⟨he, hes⟩ := List.forall_mem_cons.1 h
    cases es with
    | nil => simpa [Expr.flattenAll] using he
    | cons e' es =>
      have hcomma := he.comma (ih (List.cons_ne_nil _ _) hes)
      simpa [Expr.flattenAll, String.intercalate_cons_cons] using hcomma

end Reads

/-- An expression that can be written is read as its tokens. -/
lemma Expr.Built.reads {e : Expr} (h : e.Built IsPlainName Literal.IsWritten) :
    Reads e.text.toList e.flatten := by
  induction h with
  | identifier h =>
    have hr := Reads.word (isPlainName_iff.1 h)
    simpa [WordClass.kind, flatten] using hr
  | literal h =>
    obtain ⟨-, c, hw, hk⟩ := Literal.isWritten_iff.1 h
    have hr := Reads.word hw
    rw [hk] at hr
    simpa [flatten] using hr
  | selfRef =>
    rw [text_selfRef]
    exact Reads.word (.keyword_alone .self)
  | @method r name s h =>
    have hw := isPlainName_iff.1 h
    obtain ⟨a, v, heq, ha, -⟩ := h.1
    rw [heq] at hw
    have hr := Reads.dot hw ha r
    rw [← heq] at hr
    simpa [WordClass.kind, flatten] using hr
  | @initializer r s =>
    have hw : IsLongestWord (.keyword .init) ['i', 'n', 'i', 't'] [] := .keyword_alone .init
    have hr := Reads.dot hw (by decide) r
    simpa [WordClass.kind, flatten] using hr
  | @subscript r args s hne _ ih =>
    have hr := Reads.brackets r (Reads.intercalate hne ih)
    simpa [flatten] using hr

/-- The text of a tree is read as the tokens that it is written with. -/
lemma kinds_lex_text {e : Expr} (h : e.Built IsPlainName Literal.IsWritten) :
    (lex e.text.toList).kinds = e.flatten ++ [.eof] := by
  have hkinds := h.reads.kinds [] nofun
  rw [List.append_nil, tokenKinds_nil, List.append_nil] at hkinds
  rw [kinds_lex, hkinds]

/-- A parser reads a well-formed expression from its tokens to the end. -/
lemma parseExpression_of_kinds {e : Expr} (h : e.WellFormed) {ts : TokenList}
    (hts : ts.kinds = e.flatten ++ [.eof]) :
    ∃ e' next, (Cursor.start ts).parseExpression.value = (.ok e', next) ∧
      e'.eraseSpans = e.eraseSpans ∧ next.isAtEnd = true := by
  obtain ⟨u, v, rfl, hu, hv⟩ := List.map_eq_append_iff.1 hts
  obtain ⟨t, rfl, ht⟩ := List.map_eq_singleton_iff.1 hv
  obtain ⟨e', he, hspell⟩ := Grammar.exists_spells h hu
  obtain ⟨houtcome, hend⟩ := Cursor.outcome_of_spells hspell ht
  exact ⟨e', (Cursor.start (u ++ [t])).next, Prod.ext houtcome rfl, he, hend⟩

/-- An expression that is parsed from a source can be written. -/
lemma built_of_parseExpression {source : List Char} {c next : Cursor} {e : Expr}
    (hc : c.tokens = lex source) (h : c.parseExpression.value = (.ok e, next)) :
    e.Built IsPlainName Literal.IsWritten := by
  obtain ⟨u, hu⟩ := Cursor.stepsOver_of_outcome (congrArg Prod.fst h)
  obtain ⟨hwf, -, hkinds⟩ := Grammar.expression_sound hu.found
  -- the tokens of the expression are words of the source
  have hmem : ∀ k ∈ e.flatten, k ≠ .eof →
      ∃ c, IsLongestWord c k.text.toList [] ∧ c.kind k.text.toList = k := by
    intro k hk hne
    have herror : k ≠ .error := fun herror => e.error_not_mem_flatten (herror ▸ hk)
    have hlex : k ∈ (lex source).kinds := by
      rw [← hkinds, Cursor.remaining, hc] at hk
      obtain ⟨t, ht, rfl⟩ := List.mem_map.1 hk
      exact List.mem_map_of_mem (List.mem_of_mem_drop (List.mem_of_mem_take ht))
    rw [kinds_lex, List.mem_append, List.mem_singleton, or_iff_left hne] at hlex
    exact exists_word_of_mem_tokenKinds hlex herror
  refine .of_flatten hwf (fun name hname => ?_) fun l hread hl => ?_
  · obtain ⟨c, hw, hk⟩ := hmem _ hname (by simp)
    cases c with
    | ident => exact isPlainName_iff.2 hw
    | _ => cases hk
  · have heof : l.tokenKind ≠ .eof := by
      intro heof
      rw [Literal.IsRead, heof] at hread
      cases hread
    obtain ⟨c, hw, hk⟩ := hmem _ hl heof
    rw [l.text_tokenKind] at hw hk
    exact Literal.isWritten_iff.2 ⟨hread, c, hw, hk⟩

/-- Reading back what is written is the identity. An expression with plain names, with literals that
can be written and without empty subscripts is lexed without errors, and parsing it gives the
expression, up to spans, and ends at the end of the source. Whatever is parsed from a source is such
an expression, and parsing its written form gives one that is written the same. -/
theorem parse_text :
    (∀ e : Expr, e.Built IsPlainName Literal.IsWritten →
      (∀ t ∈ lex e.text.toList, t.kind ≠ .error) ∧
      ∃ e' next, (Cursor.start (lex e.text.toList)).parseExpression.value = (.ok e', next) ∧
        e'.eraseSpans = e.eraseSpans ∧ next.isAtEnd = true) ∧
    (∀ (source : List Char) (c next : Cursor) (e : Expr), c.tokens = lex source →
      c.parseExpression.value = (.ok e, next) →
      e.Built IsPlainName Literal.IsWritten ∧
      ∃ e' next', (Cursor.start (lex e.text.toList)).parseExpression.value = (.ok e', next') ∧
        e'.text = e.text) := by
  have hparse : ∀ e : Expr, e.Built IsPlainName Literal.IsWritten →
      ∃ e' next, (Cursor.start (lex e.text.toList)).parseExpression.value = (.ok e', next) ∧
        e'.eraseSpans = e.eraseSpans ∧ next.isAtEnd = true := by
    intro e h
    have hwf : e.WellFormed :=
      h.mono (fun _ _ => trivial) fun _ hl => (Literal.isWritten_iff.1 hl).1
    exact parseExpression_of_kinds hwf (kinds_lex_text h)
  refine ⟨fun e h => ⟨fun t ht herror => ?_, hparse e h⟩, fun source c next e hc h => ?_⟩
  · have hmem : TokenKind.error ∈ (lex e.text.toList).kinds := by
      rw [← herror]
      exact List.mem_map_of_mem ht
    rw [kinds_lex_text h, List.mem_append] at hmem
    obtain hmem | hmem := hmem
    · exact e.error_not_mem_flatten hmem
    · cases List.mem_singleton.1 hmem
  · have hbuilt := built_of_parseExpression hc h
    obtain ⟨e', next', hvalue, he, -⟩ := hparse e hbuilt
    refine ⟨hbuilt, e', next', hvalue, ?_⟩
    rw [← Expr.text_eraseSpans, he, Expr.text_eraseSpans]

/-- The text `super[x, 1]` is read as the expression that it is written for. -/
theorem parse_text_subscript :
    let e : Expr := .subscript .super
      [.identifier "x" .dummy, .literal (.integer 1 "1") .dummy] .dummy
    e.Built IsPlainName Literal.IsWritten ∧ e.text = "super[x, 1]" ∧
      ∃ e' next, (Cursor.start (lex e.text.toList)).parseExpression.value = (.ok e', next) ∧
        e'.eraseSpans = e.eraseSpans ∧ next.isAtEnd = true := by
  intro e
  have hname : IsPlainName "x" := ⟨⟨'x', [], rfl, by decide, nofun⟩, by decide, by decide⟩
  have hint : IsInt ['1'] := .inr (.inr (.inr ⟨'1', [], rfl, by decide, nofun⟩))
  have hliteral : (Literal.integer 1 "1").IsWritten :=
    Literal.isWritten_iff.2 ⟨rfl, .int, .of_word hint nofun, rfl⟩
  have hbuilt : e.Built IsPlainName Literal.IsWritten := by
    refine .subscript (List.cons_ne_nil _ _) fun e he => ?_
    obtain rfl | he := List.mem_cons.1 he
    · exact .identifier hname
    · obtain rfl := List.mem_singleton.1 he
      exact .literal hliteral
  exact ⟨hbuilt, by decide, (parse_text.1 e hbuilt).2⟩

end ExprFront
