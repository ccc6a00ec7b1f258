import ExprFront.Proofs.Parser.RoundTrip
import ExprFront.Proofs.Text.Front

/-!
# Reading written expressions back

An expression is written as a word, which says whether it is a name, a literal or a reference to a
receiver, and for a reference what continues it. The word is the longest one at its place and so can
be read off the front of a text, and with it the whole expression, up to spans
(`Expr.Built.isReadOff`). Names need not be those that the lexer reads as names: the underscore is
one of them here.
-/

namespace ExprFront

/-- The name is spelled like one and is no keyword. -/
def IsUnreserved (name : String) : Prop := IsName name.toList ∧ TokenKind.keyword? name = none

/-- An unreserved name is read as itself, and the lone underscore as the mark. -/
lemma IsUnreserved.ofWord {name : String} (h : IsUnreserved name) :
    TokenKind.ofWord name = .ident name ∨ TokenKind.ofWord name = .punct .underscore := by
  rw [TokenKind.ofWord, h.2]
  by_cases hname : name = "_"
  · exact .inr (if_pos hname)
  · exact .inl (if_neg hname)

/-- Unreserved names are told apart by the tokens that they are read as. -/
lemma IsUnreserved.ofWord_inj {name name' : String} (h : IsUnreserved name)
    (h' : IsUnreserved name') (heq : TokenKind.ofWord name = .ofWord name') : name = name' := by
  rw [TokenKind.ofWord, TokenKind.ofWord, h.2, h'.2] at heq
  dsimp only at heq
  split at heq
  next hname =>
    split at heq
    next hname' => exact hname.trans hname'.symm
    next => cases heq
  next =>
    split at heq
    next => cases heq
    next => exact TokenKind.ident.inj heq

/-- No unreserved name is read as a keyword. -/
lemma IsUnreserved.ofWord_ne_keyword {name : String} (h : IsUnreserved name) (k : Keyword) :
    TokenKind.ofWord name ≠ .keyword k := by
  obtain heq | heq := h.ofWord <;> simp [heq]

/-- No literal is read as a punctuation mark. -/
lemma Literal.tokenKind_ne_punct (l : Literal) (p : Punct) : l.tokenKind ≠ .punct p := by
  cases l with
  | boolean b => cases b <;> simp [tokenKind]
  | _ => simp [tokenKind]

/-- Literals that are read from one token are the same. -/
lemma Literal.IsRead.eq_of_tokenKind {l l' : Literal} (h : l.IsRead) (h' : l'.IsRead)
    (heq : l.tokenKind = l'.tokenKind) : l = l' := by
  rw [IsRead, heq] at h
  exact Option.some.inj (h.symm.trans h')

/-- The receivers have different keywords. -/
lemma Receiver.keyword_inj {r r' : Receiver}
    (h : TokenKind.keyword r.keyword = .keyword r'.keyword) : r = r' := by
  cases r <;> cases r' <;> first | rfl | cases h

/-- No unreserved name is read as a literal. -/
lemma IsUnreserved.ofWord_ne_literal {name : String} (h : IsUnreserved name) (l : Literal) :
    TokenKind.ofWord name ≠ l.tokenKind := by
  obtain heq | heq := h.ofWord
  · rw [heq]
    exact (l.tokenKind_ne_ident name).symm
  · rw [heq]
    exact (l.tokenKind_ne_punct .underscore).symm

/-- The word that calls an initializer is no name. -/
lemma IsUnreserved.ne_init {name : String} (h : IsUnreserved name) : name ≠ "init" := by
  rintro rfl
  exact absurd h.2 (by decide)

namespace Expr

/-- The kind of the first word of an expression. -/
def frontKind : Expr → TokenKind
  | identifier name _ => .ofWord name
  | literal l _ => l.tokenKind
  | selfRef _ => .keyword .self
  | method r _ _ | initializer r _ | subscript r _ _ => .keyword r.keyword

/-- What stands behind the first word of an expression. -/
def continuationText : Expr → List Char
  | identifier _ _ | literal _ _ | selfRef _ => []
  | method _ name _ => '.' :: name.toList
  | initializer _ _ => '.' :: "init".toList
  | subscript _ args _ => '[' :: ((commaSeparated (args.map text)).toList ++ [']'])

/-- The characters that can stand behind a whole expression, but the comma. -/
def ends : List Char := [')', ']']

section

variable {e : Expr} {r s : List Char}

/-- What may stand behind an argument separates words. -/
lemma isSeparator_of_mem : ∀ c ∈ ',' :: ends, Rule.isSeparator c = true :=
  List.all_eq_true.1 (by decide)

/-- What may stand behind an argument belongs to no word. -/
lemma not_isWordPart_of_mem (c : Char) (hc : c ∈ ',' :: ends) : Rule.isWordPart c = false :=
  (Rule.isSeparator_iff.1 (isSeparator_of_mem c hc)).1

/-- The first word of the expression is the longest at its place in front of the text. -/
def HasFront (e : Expr) (r : List Char) : Prop :=
  ∃ c w, e.text.toList = w ++ e.continuationText ∧ c.kind w = e.frontKind ∧
    IsLongestWord c w (e.continuationText ++ r)

/-- A text that begins with a receiver has its keyword as the first word. -/
lemma hasFront_receiver (rcv : Receiver)
    (htext : e.text.toList = rcv.text.toList ++ e.continuationText)
    (hkind : e.frontKind = .keyword rcv.keyword)
    (hcont : ∀ c ∈ (e.continuationText ++ r).head?, Rule.isWordPart c = false) : e.HasFront r := by
  have hword := IsLongestWord.keyword rcv.keyword hcont
  rw [rcv.text_keyword] at hword
  exact ⟨.keyword rcv.keyword, _, htext, hkind.symm, hword⟩

/-- The text of every tree begins with a word that is known from the tree. -/
lemma Built.hasFront (h : e.Built IsUnreserved Literal.IsWritten) (hr : StopsAt (',' :: ends) r) :
    e.HasFront r := by
  have hmark : ∀ {a : Char} {x : List Char}, Rule.isWordPart a = false →
      ∀ c ∈ (a :: x).head?, Rule.isWordPart c = false := by
    rintro a x ha c ⟨⟩
    exact ha
  cases h with
  | @identifier name s h =>
    obtain ⟨c, hc⟩ := h.1.exists_isLongestWord
    refine ⟨c, name.toList, by simp [continuationText], ?_,
      hc.append_separator fun c hc => isSeparator_of_mem c (hr c hc)⟩
    rw [hc.kind_eq_ofWord h.1, String.ofList_toList]
    rfl
  | @literal l s h =>
    obtain ⟨-, c, hw, hk⟩ := Literal.isWritten_iff.1 h
    exact ⟨c, l.text.toList, by simp [continuationText], hk,
      hw.append_separator fun c hc => isSeparator_of_mem c (hr c hc)⟩
  | selfRef =>
    exact hasFront_receiver .self (by simp [continuationText, Receiver.text]) rfl
      fun c hc => not_isWordPart_of_mem c (hr c hc)
  | @method rcv name s h =>
    exact hasFront_receiver rcv (by simp [continuationText]) rfl (hmark (a := '.') (by decide))
  | @initializer rcv s =>
    exact hasFront_receiver rcv (by simp [continuationText]) rfl (hmark (a := '.') (by decide))
  | @subscript rcv args s hne h =>
    exact hasFront_receiver rcv (by simp [continuationText, commaSeparated]) rfl
      (hmark (a := '[') (by decide))

/-- The first word can be read off the front of a text. -/
lemma Built.front_inj (h : e.Built IsUnreserved Literal.IsWritten) {e' : Expr}
    (h' : e'.Built IsUnreserved Literal.IsWritten) (hr : StopsAt (',' :: ends) r)
    (hs : StopsAt (',' :: ends) s) (heq : e.text.toList ++ r = e'.text.toList ++ s) :
    e.frontKind = e'.frontKind ∧ e.continuationText ++ r = e'.continuationText ++ s := by
  obtain ⟨c, w, htext, hkind, hword⟩ := h.hasFront hr
  obtain ⟨c', w', htext', hkind', hword'⟩ := h'.hasFront hs
  rw [htext, htext', List.append_assoc, List.append_assoc] at heq
  obtain ⟨rfl, rfl⟩ := hword.unique hword' heq
  exact ⟨hkind.symm.trans hkind', List.append_cancel_left heq⟩

/-- No expression begins with a mark, but the underscore. -/
lemma Built.eq_underscore (h : e.Built IsUnreserved Literal.IsWritten) {p : Punct}
    (hp : e.frontKind = .punct p) : p = .underscore := by
  cases h with
  | identifier h =>
    obtain heq | heq := h.ofWord
    · cases heq.symm.trans hp
    · exact (TokenKind.punct.inj (heq.symm.trans hp)).symm
  | @literal l s h => exact absurd hp (l.tokenKind_ne_punct p)
  | selfRef | method | initializer | subscript => cases hp

/-- The text of no tree begins like the end of a list. -/
lemma Built.beginsUnlike (h : e.Built IsUnreserved Literal.IsWritten) :
    BeginsUnlike text ends e := by
  obtain ⟨c, w, htext, hkind, hword⟩ := h.hasFront (r := []) nofun
  obtain ⟨a, v, rfl, -⟩ := hword.word.exists_cons
  -- a bracket that closes would be the first word
  have hmark : ∀ p : Punct, p.text.toList = [a] → Rule.isSeparator a = true → p = .underscore := by
    intro p hp ha
    obtain ⟨rfl, -⟩ := hword.unique (.separator hp ha) rfl
    exact h.eq_underscore hkind.symm
  refine ⟨a, _, htext, fun hends => ?_⟩
  simp only [ends, List.mem_cons, List.not_mem_nil, or_false] at hends
  obtain rfl | rfl := hends
  · cases hmark .rparen rfl (by decide)
  · cases hmark .rbracket rfl (by decide)

/-- The expression can be read off the front of a text that goes on with a comma or another end. -/
abbrev IsReadOff (e : Expr) : Prop :=
  ReadsOff text eraseSpans (Built IsUnreserved Literal.IsWritten) (',' :: ends) e

/-- An identifier is read off the front of a text. -/
lemma isReadOff_identifier {name : String} {span : Span} (h : IsUnreserved name) :
    IsReadOff (identifier name span) := by
  intro e' r s h' hr hs heq
  obtain ⟨hkind, hrest⟩ := (Built.identifier h).front_inj h' hr hs heq
  cases h' with
  | identifier h' =>
    obtain rfl := h.ofWord_inj h' hkind
    exact ⟨rfl, hrest⟩
  | literal => exact absurd hkind (h.ofWord_ne_literal _)
  | selfRef | method | initializer | subscript => exact absurd hkind (h.ofWord_ne_keyword _)

/-- A literal is read off the front of a text. -/
lemma isReadOff_literal {l : Literal} {span : Span} (h : l.IsWritten) :
    IsReadOff (literal l span) := by
  intro e' r s h' hr hs heq
  obtain ⟨hkind, hrest⟩ := (Built.literal h).front_inj h' hr hs heq
  cases h' with
  | identifier h' => exact absurd hkind.symm (h'.ofWord_ne_literal _)
  | @literal l' span' h' =>
    obtain rfl := (Literal.isWritten_iff.1 h).1.eq_of_tokenKind (Literal.isWritten_iff.1 h').1 hkind
    exact ⟨rfl, hrest⟩
  | selfRef => exact absurd hkind (l.tokenKind_ne_receiver .self)
  | method | initializer | subscript => exact absurd hkind (l.tokenKind_ne_receiver _)

/-- The current object is read off the front of a text. -/
lemma isReadOff_selfRef {span : Span} : IsReadOff (selfRef span) := by
  intro e' r s h' hr hs heq
  obtain ⟨hkind, hrest⟩ := Built.selfRef.front_inj h' hr hs heq
  cases h' with
  | identifier h' => exact absurd hkind.symm (h'.ofWord_ne_keyword _)
  | @literal l => exact absurd hkind.symm (l.tokenKind_ne_receiver .self)
  | selfRef => exact ⟨rfl, hrest⟩
  | method | initializer | subscript =>
    exact absurd hrest (hr.ne_cons (by decide))

/-- A member is read off the front of a text. -/
lemma isReadOff_method {rcv : Receiver} {name : String} {span : Span} (h : IsUnreserved name) :
    IsReadOff (method rcv name span) := by
  intro e' r s h' hr hs heq
  obtain ⟨hkind, hrest⟩ := (Built.method h).front_inj h' hr hs heq
  have hname : ∀ {w : List Char}, IsName w → name.toList ++ r = w ++ s → name.toList = w ∧ r = s :=
    fun hw => h.1.append_inj hw (by decide) hr hs
  cases h' with
  | identifier h' => exact absurd hkind.symm (h'.ofWord_ne_keyword _)
  | @literal l => exact absurd hkind.symm (l.tokenKind_ne_receiver _)
  | selfRef => exact absurd hrest.symm (hs.ne_cons (by decide))
  | method h' =>
    obtain rfl := Receiver.keyword_inj hkind
    obtain ⟨hnames, rfl⟩ := hname h'.1 (List.cons.inj hrest).2
    obtain rfl := String.toList_inj.1 hnames
    exact ⟨rfl, rfl⟩
  | initializer =>
    obtain ⟨hnames, -⟩ := hname Keyword.init.isName_text (List.cons.inj hrest).2
    exact absurd (String.toList_inj.1 hnames) h.ne_init
  | subscript => exact absurd (List.cons.inj hrest).1 (by decide)

/-- An initializer is read off the front of a text. -/
lemma isReadOff_initializer {rcv : Receiver} {span : Span} : IsReadOff (initializer rcv span) := by
  intro e' r s h' hr hs heq
  obtain ⟨hkind, hrest⟩ := Built.initializer.front_inj h' hr hs heq
  cases h' with
  | identifier h' => exact absurd hkind.symm (h'.ofWord_ne_keyword _)
  | @literal l => exact absurd hkind.symm (l.tokenKind_ne_receiver _)
  | selfRef => exact absurd hrest.symm (hs.ne_cons (by decide))
  | method h' =>
    obtain ⟨hnames, -⟩ := Keyword.init.isName_text.append_inj h'.1 (by decide) hr hs
      (List.cons.inj hrest).2
    exact absurd (String.toList_inj.1 hnames).symm h'.ne_init
  | initializer =>
    obtain rfl := Receiver.keyword_inj hkind
    exact ⟨rfl, List.append_cancel_left hrest⟩
  | subscript => exact absurd (List.cons.inj hrest).1 (by decide)

/-- A subscript is read off the front of a text if its arguments are. -/
lemma isReadOff_subscript {rcv : Receiver} {args : List Expr} {span : Span} (hne : args ≠ [])
    (h : ∀ e ∈ args, e.Built IsUnreserved Literal.IsWritten) (ih : ∀ e ∈ args, e.IsReadOff) :
    IsReadOff (subscript rcv args span) := by
  intro e' r s h' hr hs heq
  obtain ⟨hkind, hrest⟩ := (Built.subscript hne h).front_inj h' hr hs heq
  cases h' with
  | identifier h' => exact absurd hkind.symm (h'.ofWord_ne_keyword _)
  | @literal l => exact absurd hkind.symm (l.tokenKind_ne_receiver _)
  | selfRef => exact absurd hrest.symm (hs.ne_cons (by decide))
  | method | initializer => exact absurd (List.cons.inj hrest).1 (by decide)
  | subscript hne' h' =>
    obtain rfl := Receiver.keyword_inj hkind
    simp only [continuationText, List.cons_append, List.append_assoc] at hrest
    obtain ⟨hargs, hclose⟩ := readsOff_list (by decide) ih h' (fun e he => (h e he).beginsUnlike)
      (fun e he => (h' e he).beginsUnlike) (by decide) (List.cons.inj hrest).2
    rw [eraseSpans_subscript, eraseSpans_subscript, hargs]
    exact ⟨rfl, hclose⟩

end

/-- What an expression is written as can be read off the front of every text that goes on with a
stop, and the expression with it, up to spans. -/
theorem Built.isReadOff {e : Expr} (h : e.Built IsUnreserved Literal.IsWritten) : e.IsReadOff := by
  induction h with
  | identifier h => exact isReadOff_identifier h
  | literal h => exact isReadOff_literal h
  | selfRef => exact isReadOff_selfRef
  | method h => exact isReadOff_method h
  | initializer => exact isReadOff_initializer
  | subscript hne h ih => exact isReadOff_subscript hne h ih

end Expr

end ExprFront
