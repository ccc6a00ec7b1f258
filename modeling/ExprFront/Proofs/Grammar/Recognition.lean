import ExprFront.Proofs.Grammar.Spelling

/-!
# The recognizers and the grammar

What the recognizers find is spelled by the tokens they step over (`primary_spells`), and what is
spelled at the front of a token list is found there (`Spells.primary`), unless it is a bare `self`
that goes on as a longer expression. Each recognizer has one lemma for the value it computes; the
events it notes play no part here.
-/

namespace ExprFront.Grammar

/-- The tracing of an expression does not change what is found. -/
@[simp]
lemma value_expression (ts : TokenList) : (expression ts).value = (primary ts).value := rfl

/-- No expression is found without tokens. -/
@[simp]
lemma value_primary_nil : (primary []).value = .noMatch := by
  rw [primary]
  rfl

/-- A name is an expression. -/
@[simp]
lemma value_primary_identifier (name : String) (s : Span) (rest : TokenList) :
    (primary (⟨.ident name, s⟩ :: rest)).value = .matched (.identifier name s) 1 := by
  rw [primary]
  rfl

/-- After `super` a continuation has to follow; a `self` without one stands for itself. -/
lemma value_primary_receiver (r : Receiver) (s : Span) (rest : TokenList) :
    (primary (⟨.keyword r.keyword, s⟩ :: rest)).value =
      match (continuation rest).value, r with
      | .matched (c, stop) n, r => .matched (c.toExpr r (s.merge stop)) (n + 1)
      | .noMatch, .super => .noMatch
      | .noMatch, .self => .matched (.selfRef s) 1 := by
  cases r with
  | super =>
    simp only [primary, Receiver.keyword, superReference]
    split <;> simp_all
  | self =>
    simp only [primary, Receiver.keyword, selfReference]
    split <;> simp_all

/-- A token with a value is a literal. -/
lemma value_literal (head : Token) (rest : TokenList) :
    (literal (head :: rest)).value =
      match (literalValue head.kind).value with
      | some l => .matched (.literal l head.span) 1
      | none => .noMatch := by
  rw [literal, Traced.value_bind]
  cases (literalValue head.kind).value <;> rfl

/-- Any other token stands for the literal that is read from it, if there is one. -/
lemma value_primary_literal {head : Token} (rest : TokenList)
    (hi : ∀ name, head.kind ≠ .ident name) (hr : ∀ r : Receiver, head.kind ≠ .keyword r.keyword) :
    (primary (head :: rest)).value =
      match (literalValue head.kind).value with
      | some l => .matched (.literal l head.span) 1
      | none => .noMatch := by
  rw [primary]
  split
  · exact absurd ‹_› (hi _)
  · exact absurd ‹_› (hr .super)
  · exact absurd ‹_› (hr .self)
  · exact value_literal head rest

/-- A dot and a name continue a receiver. -/
lemma value_continuation_method (d : Span) (name : String) (t : Span) (rest : TokenList) :
    (continuation (⟨.punct .dot, d⟩ :: ⟨.ident name, t⟩ :: rest)).value =
      .matched (.method name, t) 2 := by
  rw [continuation]
  rfl

/-- A dot and `init` continue a receiver. -/
lemma value_continuation_initializer (d t : Span) (rest : TokenList) :
    (continuation (⟨.punct .dot, d⟩ :: ⟨.keyword .init, t⟩ :: rest)).value =
      .matched (.initializer, t) 2 := by
  rw [continuation]
  rfl

/-- A subscript is read to the end of its list, and matches only if this is closed. -/
lemma value_continuation_subscript (o : Span) (rest : TokenList) :
    (continuation (⟨.punct .lbracket, o⟩ :: rest)).value =
      match (elements [] 1 .none rest).value with
      | .closed es c position => .matched (.subscript es, o.merge c) (position + 1)
      | _ => .noMatch := by
  simp only [continuation, bracketedList]
  split <;> simp_all [Recognized.map]

/-- Nothing but a dot or an opening bracket continues a receiver. -/
lemma value_continuation_other {ts : TokenList}
    (h : ∀ t ∈ ts.head?, t.kind ≠ .punct .dot ∧ t.kind ≠ .punct .lbracket) :
    (continuation ts).value = .noMatch := by
  unfold continuation
  split
  · exact absurd rfl (h _ rfl).1
  · exact absurd rfl (h _ rfl).2
  · rfl

/-- A comma does not continue a receiver. -/
lemma value_continuation_comma (c : Span) (rest : TokenList) :
    (continuation (⟨.punct .comma, c⟩ :: rest)).value = .noMatch :=
  value_continuation_other (by simp)

/-- A closing bracket does not continue a receiver. -/
lemma value_continuation_rbracket (c : Span) (rest : TokenList) :
    (continuation (⟨.punct .rbracket, c⟩ :: rest)).value = .noMatch :=
  value_continuation_other (by simp)

/-- The end of file does not continue a receiver. -/
lemma value_continuation_eof {t : Token} (ht : t.kind = .eof) (rest : TokenList) :
    (continuation (t :: rest)).value = .noMatch :=
  value_continuation_other (by simp [ht])

/-- Behind a dot one token is looked at. -/
lemma value_continuation_member (d : Span) (member : Token) (rest : TokenList) :
    (continuation (⟨.punct .dot, d⟩ :: member :: rest)).value =
      (continuation [⟨.punct .dot, d⟩, member]).value := by
  rw [continuation, continuation]

/-- A continuation is a dot with a name or `init` after it, or a closed list. -/
lemma continuation_eq_matched {ts : TokenList} {c : Continuation} {stop : Span} {n : Nat}
    (h : (continuation ts).value = .matched (c, stop) n) :
    (∃ d name rest, ts = ⟨.punct .dot, d⟩ :: ⟨.ident name, stop⟩ :: rest ∧
      c = .method name ∧ n = 2) ∨
    (∃ d rest, ts = ⟨.punct .dot, d⟩ :: ⟨.keyword .init, stop⟩ :: rest ∧
      c = .initializer ∧ n = 2) ∨
    (∃ o rest es b position, ts = ⟨.punct .lbracket, o⟩ :: rest ∧
      (elements [] 1 .none rest).value = .closed es b position ∧
      c = .subscript es ∧ stop = o.merge b ∧ n = position + 1) := by
  unfold continuation at h
  split at h
  next d member rest =>
    obtain ⟨kind, t⟩ := member
    split at h
    next hk =>
      cases hk
      cases h
      exact .inr (.inl ⟨d, rest, rfl, rfl, rfl⟩)
    next name hk =>
      cases hk
      cases h
      exact .inl ⟨d, name, rest, rfl, rfl, rfl⟩
    next => cases h
  next o rest =>
    have hlist := value_continuation_subscript o rest
    rw [continuation] at hlist
    rw [hlist] at h
    split at h
    next es b position hl =>
      cases h
      exact .inr (.inr ⟨o, rest, es, b, position, rfl, hl, rfl, rfl, rfl⟩)
    next => cases h
  next => cases h

/-- What a primary expression is: an identifier, a literal, a receiver with its continuation, or a
`self` without one. -/
lemma primary_eq_matched {ts : TokenList} {e : Expr} {n : Nat}
    (h : (primary ts).value = .matched e n) :
    (∃ name s rest, ts = ⟨.ident name, s⟩ :: rest ∧ e = .identifier name s ∧ n = 1) ∨
    (∃ l k s rest, ts = ⟨k, s⟩ :: rest ∧ (literalValue k).value = some l ∧
      e = .literal l s ∧ n = 1) ∨
    (∃ r s rest c stop m, ts = ⟨.keyword r.keyword, s⟩ :: rest ∧
      (continuation rest).value = .matched (c, stop) m ∧
      e = c.toExpr r (s.merge stop) ∧ n = m + 1) ∨
    (∃ s rest, ts = ⟨.keyword .self, s⟩ :: rest ∧ (continuation rest).value = .noMatch ∧
      e = .selfRef s ∧ n = 1) := by
  cases ts with
  | nil =>
    rw [value_primary_nil] at h
    cases h
  | cons head rest =>
    obtain ⟨k, s⟩ := head
    by_cases hi : ∃ name, k = .ident name
    · obtain ⟨name, rfl⟩ := hi
      rw [value_primary_identifier] at h
      cases h
      exact .inl ⟨name, s, rest, rfl, rfl, rfl⟩
    · by_cases hr : ∃ r : Receiver, k = .keyword r.keyword
      · obtain ⟨r, rfl⟩ := hr
        rw [value_primary_receiver] at h
        split at h
        next hc =>
          cases h
          exact .inr (.inr (.inl ⟨_, s, rest, _, _, _, rfl, hc, rfl, rfl⟩))
        next => cases h
        next hc =>
          cases h
          exact .inr (.inr (.inr ⟨s, rest, rfl, hc, rfl, rfl⟩))
      · rw [value_primary_literal rest (fun name hk => hi ⟨name, hk⟩)
          (fun r hk => hr ⟨r, hk⟩)] at h
        split at h
        next l hl =>
          cases h
          exact .inr (.inl ⟨l, k, s, rest, rfl, hl, rfl, rfl⟩)
        next => cases h

section Elements

variable {done : List Expr} {position : Nat} {log : Log} {ts : TokenList} {e : Expr} {n : Nat}

/-- Behind an element and a comma the list goes on. -/
lemma elements_comma {c : Span} {rest : TokenList} (h : (primary ts).value = .matched e n)
    (hrest : ts.drop n = ⟨.punct .comma, c⟩ :: rest) :
    elements done position log ts =
      elements (e :: done) (position + n + 1) (log ++ (primary ts).log) rest := by
  rw [elements]
  simp only [h]
  split
  · simp_all
  · simp_all
  · simp_all

/-- Behind an element and a closing bracket the list is complete. -/
lemma elements_rbracket {c : Span} {rest : TokenList} (h : (primary ts).value = .matched e n)
    (hrest : ts.drop n = ⟨.punct .rbracket, c⟩ :: rest) :
    elements done position log ts =
      ⟨.closed (e :: done).reverse c (position + n), log ++ (primary ts).log⟩ := by
  rw [elements]
  simp only [h]
  split
  · simp_all
  · simp_all
  · simp_all

/-- The list ends where no element is found. -/
lemma elements_noElement (h : (primary ts).value = .noMatch) :
    elements done position log ts = ⟨.noElement done.length ts, log ++ (primary ts).log⟩ := by
  rw [elements]
  simp only [h]

/-- The list ends behind an element that no comma and no bracket follows. -/
lemma elements_noSeparator (h : (primary ts).value = .matched e n)
    (hnext : ∀ t ∈ (ts.drop n).head?, t.kind ≠ .punct .comma ∧ t.kind ≠ .punct .rbracket) :
    elements done position log ts =
      ⟨.noSeparator (position + n) (ts.drop n), log ++ (primary ts).log⟩ := by
  rw [elements]
  simp only [h]
  split
  · simp_all
  · simp_all
  · simp_all

/-- A closed list has an element at its front, and a comma or its end after it. -/
lemma elements_eq_closed {es : List Expr} {b : Span} {p : Nat}
    (h : (elements done position log ts).value = .closed es b p) :
    ∃ e n, (primary ts).value = .matched e n ∧
      ((∃ c rest log', ts.drop n = ⟨.punct .comma, c⟩ :: rest ∧
        (elements (e :: done) (position + n + 1) log' rest).value = .closed es b p) ∨
      (∃ rest, ts.drop n = ⟨.punct .rbracket, b⟩ :: rest ∧
        es = (e :: done).reverse ∧ p = position + n)) := by
  rw [elements] at h
  split at h
  next => cases h
  next e n he =>
    refine ⟨e, n, he, ?_⟩
    split at h
    next c rest hrest => exact .inl ⟨c, rest, _, hrest, h⟩
    next c rest hrest =>
      cases h
      exact .inr ⟨rest, hrest, rfl, rfl⟩
    next => cases h

end Elements

mutual

/-- The tokens that a primary expression steps over spell it. -/
theorem primary_spells {ts : TokenList} {e : Expr} {n : Nat}
    (h : (primary ts).value = .matched e n) :
    ∃ u rest, ts = u ++ rest ∧ n = u.length ∧ Spells e u := by
  obtain ⟨name, s, rest, hts, rfl, rfl⟩ | ⟨l, k, s, rest, hts, hl, rfl, rfl⟩ |
    ⟨r, s, rest, c, stop, m, hts, hc, rfl, rfl⟩ | ⟨s, rest, hts, -, rfl, rfl⟩ :=
    primary_eq_matched h
  · exact ⟨[_], rest, hts, rfl, .identifier⟩
  · obtain rfl := Literal.tokenKind_of_value hl
    exact ⟨[_], rest, hts, rfl, .literal hl⟩
  · obtain ⟨u, rest', hrest, rfl, hspell⟩ := continuation_spells hc r s
    exact ⟨_ :: u, rest', by rw [hts, hrest]; rfl, rfl, hspell⟩
  · exact ⟨[_], rest, hts, rfl, .selfRef⟩
termination_by 3 * ts.length + 1
decreasing_by simp only [hts, List.length_cons]; omega

/-- A receiver and the tokens of its continuation spell the expression they make. -/
theorem continuation_spells {ts : TokenList} {c : Continuation} {stop : Span} {n : Nat}
    (h : (continuation ts).value = .matched (c, stop) n) (r : Receiver) (s : Span) :
    ∃ u rest, ts = u ++ rest ∧ n = u.length ∧
      Spells (c.toExpr r (s.merge stop)) (⟨.keyword r.keyword, s⟩ :: u) := by
  obtain ⟨d, name, rest, hts, rfl, rfl⟩ | ⟨d, rest, hts, rfl, rfl⟩ |
    ⟨o, rest, es, b, position, hts, hl, rfl, rfl, rfl⟩ := continuation_eq_matched h
  · exact ⟨[_, _], rest, hts, rfl, .method⟩
  · exact ⟨[_, _], rest, hts, rfl, .initializer⟩
  · obtain ⟨fs, u, rest', hes, hrest, rfl, hspells⟩ := elements_spell hl
    obtain rfl : es = fs := hes
    refine ⟨⟨.punct .lbracket, o⟩ :: (u ++ [⟨.punct .rbracket, b⟩]), rest', ?_, ?_, ?_⟩
    · simp [hts, hrest]
    · simp [Nat.add_comm]
    · exact .subscript hspells
termination_by 3 * ts.length
decreasing_by simp only [hts, List.length_cons]; omega

/-- The tokens before the end of a closed list spell its elements. -/
theorem elements_spell {done : List Expr} {position : Nat} {log : Log} {ts : TokenList}
    {es : List Expr} {b : Span} {p : Nat}
    (h : (elements done position log ts).value = .closed es b p) :
    ∃ fs u rest, es = done.reverse ++ fs ∧ ts = u ++ ⟨.punct .rbracket, b⟩ :: rest ∧
      p = position + u.length ∧ SpellsAll fs u := by
  -- an element stands at the front; the list goes on after a comma, or is closed
  obtain ⟨e, n, he, hend⟩ := elements_eq_closed h
  obtain ⟨u, rest, hts, rfl, hspell⟩ := primary_spells he
  rw [hts, List.drop_left] at hend
  obtain ⟨c, rest', log', hrest, htail⟩ | ⟨rest', hrest, rfl, rfl⟩ := hend
  · obtain ⟨fs, v, rest, rfl, hrest', rfl, hspells⟩ := elements_spell htail
    refine ⟨e :: fs, u ++ ⟨.punct .comma, c⟩ :: v, rest, ?_, ?_, ?_, .more hspell hspells⟩
    · simp
    · simp [hts, hrest, hrest']
    · simp only [List.length_append, List.length_cons]
      omega
  · exact ⟨[e], u, rest', by simp, hrest ▸ hts, rfl, .last hspell⟩
termination_by 3 * ts.length + 2
decreasing_by
  · omega
  · simp only [hts, hrest, List.length_append, List.length_cons]
    omega

end

/-- One step through a list. Either no element stands at the front, or the tokens of one do, and
then the list goes on behind a comma, or is closed, or stops at what follows. -/
lemma elements_step (done : List Expr) (position : Nat) (log : Log) (ts : TokenList) :
    ((primary ts).value = .noMatch ∧
      elements done position log ts = ⟨.noElement done.length ts, log ++ (primary ts).log⟩) ∨
    ∃ e u rest, ts = u ++ rest ∧ (primary ts).value = .matched e u.length ∧ Spells e u ∧
      ((∃ c v, rest = ⟨.punct .comma, c⟩ :: v ∧ elements done position log ts =
        elements (e :: done) (position + u.length + 1) (log ++ (primary ts).log) v) ∨
      (∃ c v, rest = ⟨.punct .rbracket, c⟩ :: v ∧ elements done position log ts =
        ⟨.closed (e :: done).reverse c (position + u.length), log ++ (primary ts).log⟩) ∨
      ((∀ t ∈ rest.head?, t.kind ≠ .punct .comma ∧ t.kind ≠ .punct .rbracket) ∧
        elements done position log ts =
          ⟨.noSeparator (position + u.length) rest, log ++ (primary ts).log⟩)) := by
  cases h : (primary ts).value with
  | noMatch => exact .inl ⟨rfl, elements_noElement h⟩
  | matched e n =>
    obtain ⟨u, rest, hts, rfl, hspell⟩ := primary_spells h
    have hdrop : ts.drop u.length = rest := by rw [hts, List.drop_left]
    refine .inr ⟨e, u, rest, hts, rfl, hspell, ?_⟩
    by_cases hnext : ∀ t ∈ rest.head?, t.kind ≠ .punct .comma ∧ t.kind ≠ .punct .rbracket
    · refine .inr (.inr ⟨hnext, ?_⟩)
      rw [elements_noSeparator h (by rwa [hdrop]), hdrop]
    obtain ⟨⟨kind, c⟩, v, rfl⟩ : ∃ t v, rest = t :: v := by
      cases rest with
      | nil => exact absurd nofun hnext
      | cons t v => exact ⟨t, v, rfl⟩
    by_cases hcomma : kind = .punct .comma
    · subst hcomma
      exact .inl ⟨c, v, rfl, elements_comma h hdrop⟩
    · obtain rfl : kind = .punct .rbracket := by simpa [hcomma] using hnext
      exact .inr (.inl ⟨c, v, rfl, elements_rbracket h hdrop⟩)

/-- An expression that is spelled at the front of a token list is found there; a bare `self` only
where nothing continues it. Since no comma and no bracket continues a `self`, this holds for all
elements of a list. -/
theorem Spells.primary {e : Expr} {u : TokenList} (h : Spells e u) {rest : TokenList}
    (hself : e.IsSelfRef → (continuation rest).value = .noMatch) :
    (primary (u ++ rest)).value = .matched e u.length := by
  -- the loop over a list is generalized over what it has read, since each element adds to it
  induction h using Spells.induct (Q := fun es u _ =>
    ∀ done position log b rest,
      (elements done position log (u ++ ⟨.punct .rbracket, b⟩ :: rest)).value =
        .closed (done.reverse ++ es) b (position + u.length)) generalizing rest with
  | identifier name s => exact value_primary_identifier name s rest
  | literal l s h =>
    have hv := @value_primary_literal ⟨l.tokenKind, s⟩ rest
      (l.tokenKind_ne_ident ·) (l.tokenKind_ne_receiver ·)
    rw [show (literalValue l.tokenKind).value = some l from h] at hv
    exact hv
  | selfRef s =>
    have hv := value_primary_receiver .self s rest
    rw [hself trivial] at hv
    exact hv
  | method r name s d t =>
    rw [List.cons_append, value_primary_receiver, List.cons_append, List.cons_append,
      value_continuation_method]
    rfl
  | initializer r s d t =>
    rw [List.cons_append, value_primary_receiver, List.cons_append, List.cons_append,
      value_continuation_initializer]
    rfl
  | subscript r args s o u c h ih =>
    rw [List.cons_append, List.cons_append, List.append_assoc, value_primary_receiver,
      value_continuation_subscript, List.singleton_append, ih [] 1 .none c rest]
    simp [Continuation.toExpr, Nat.add_comm]
  | last e u h ih =>
    rename_i done position log b rest
    rw [elements_rbracket (ih fun _ => value_continuation_rbracket b rest) List.drop_left,
      List.reverse_cons]
  | more e u c es v h hs ih ihs =>
    rename_i done position log b rest
    rw [List.append_assoc, List.cons_append,
      elements_comma (ih fun _ => value_continuation_comma c _) List.drop_left, ihs]
    simp [Nat.add_assoc, Nat.add_comm, Nat.add_left_comm]

end ExprFront.Grammar
