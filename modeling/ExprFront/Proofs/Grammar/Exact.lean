import ExprFront.Proofs.Grammar.Recognition

/-!
# The language of the expression recognizer

The recognizer stated over token kinds: it finds exactly the well-formed expressions whose kinds
stand at the front of a token list, and the longest one where a bare `self` is the beginning of
another. Its outcome is a function of the kinds, up to spans.
-/

namespace ExprFront.Grammar

open ExprFront.Expr

/-- A match is a well-formed expression, written with the tokens that it steps over. -/
lemma expression_sound {ts : TokenList} {e : Expr} {n : Nat}
    (h : (expression ts).value = .matched e n) :
    e.WellFormed ∧ n ≤ ts.length ∧ TokenList.kinds (ts.take n) = e.flatten := by
  obtain ⟨u, rest, rfl, rfl, hspell⟩ := primary_spells h
  refine ⟨hspell.wellFormed, ?_, ?_⟩
  · simp
  · rw [List.take_left, hspell.kinds]

/-- A match has read the spelling of its tree. -/
lemma kinds_eq_of_matched {ts : TokenList} {e : Expr} {n : Nat}
    (h : (expression ts).value = .matched e n) :
    n = e.flatten.length ∧ ∃ rest, ts.kinds = e.flatten ++ rest := by
  obtain ⟨u, rest, rfl, rfl, hspell⟩ := primary_spells h
  refine ⟨hspell.length_eq, rest.kinds, ?_⟩
  rw [← hspell.kinds]
  exact List.map_append

/-- A well-formed expression other than a bare `self` is found where its kinds stand. -/
lemma expression_complete {ts : TokenList} {e : Expr} {rest : List TokenKind} (hwf : e.WellFormed)
    (hself : ¬ e.IsSelfRef) (hts : ts.kinds = e.flatten ++ rest) :
    (expression ts).value.map eraseSpans = .matched e.eraseSpans e.flatten.length := by
  -- the tokens of these kinds spell an expression, which is the given one but for its spans
  obtain ⟨u, v, rfl, hu, -⟩ := List.map_eq_append_iff.1 hts
  obtain ⟨e', he, hspell⟩ := exists_spells hwf hu
  have hself' : ¬ e'.IsSelfRef := by
    rw [← isSelfRef_eraseSpans, he, isSelfRef_eraseSpans]
    exact hself
  rw [value_expression, hspell.primary (absurd · hself'), Recognized.map, he]
  rw [← hu, List.length_map]

/-- What continues a receiver is no bare current object. -/
lemma not_isSelfRef_toExpr (c : Continuation) (r : Receiver) (s : Span) :
    ¬ (c.toExpr r s).IsSelfRef := by
  cases c <;> exact id

/-- A `self` at the front is found with a continuation, or alone where no longer expression
stands. -/
lemma expression_selfRef {ts : TokenList} {rest : List TokenKind}
    (hts : ts.kinds = .keyword .self :: rest) :
    (∃ (e : Expr) (n : Nat), (expression ts).value = .matched e n ∧ ¬ e.IsSelfRef ∧ 1 < n) ∨
    (∃ s, (expression ts).value = .matched (.selfRef s) 1 ∧
      ∀ (e : Expr) rest, e.WellFormed → ts.kinds = e.flatten ++ rest → e.flatten.length ≤ 1) := by
  obtain ⟨⟨_, s⟩, tail, rfl, rfl, -⟩ := List.map_eq_cons_iff.1 hts
  have hv := value_primary_receiver .self s tail
  cases hc : (continuation tail).value with
  | matched found n =>
    obtain ⟨c, stop⟩ := found
    rw [hc] at hv
    have hpos : 0 < n := by
      obtain ⟨_, _, _, -, -, rfl⟩ | ⟨_, _, -, -, rfl⟩ | ⟨_, _, _, _, _, -, -, -, -, rfl⟩ :=
        continuation_eq_matched hc <;> omega
    exact .inl ⟨_, _, hv, not_isSelfRef_toExpr c .self _, by omega⟩
  | noMatch =>
    rw [hc] at hv
    refine .inr ⟨s, hv, fun e rest hwf hkinds => ?_⟩
    by_cases hself : e.IsSelfRef
    · cases e with
      | selfRef => exact Nat.le_refl 1
      | _ => exact hself.elim
    · have hfound := expression_complete hwf hself hkinds
      rw [value_expression] at hfound
      rw [show (primary (⟨.keyword .self, s⟩ :: tail)).value = .matched (.selfRef s) 1 from hv]
        at hfound
      cases e with
      | selfRef => exact Nat.le_refl 1
      | _ => cases hfound

/-- Tokens that begin with the spelling of a tree are matched. -/
lemma expression_isMatch {ts : TokenList} {e : Expr} {rest : List TokenKind} (hwf : e.WellFormed)
    (hts : ts.kinds = e.flatten ++ rest) : (expression ts).value ≠ .noMatch := by
  intro hno
  by_cases hself : e.IsSelfRef
  · cases e with
    | selfRef =>
      obtain ⟨_, _, h, -⟩ | ⟨_, h, -⟩ := expression_selfRef hts <;>
        · rw [hno] at h
          cases h
    | _ => exact hself.elim
  · have h := expression_complete hwf hself hts
    rw [hno] at h
    cases h

/-- Token lists of the same kinds give the same outcome, up to spans. -/
lemma expression_congr {ts us : TokenList} (h : ts.kinds = us.kinds) :
    (expression ts).value.map eraseSpans = (expression us).value.map eraseSpans := by
  cases hts : (expression ts).value with
  | noMatch =>
    cases hus : (expression us).value with
    | noMatch => rfl
    | matched e n =>
      obtain ⟨-, rest, hkinds⟩ := kinds_eq_of_matched hus
      exact absurd hts (expression_isMatch (expression_sound hus).1 (h.trans hkinds))
  | matched e n =>
    obtain ⟨rfl, rest, hkinds⟩ := kinds_eq_of_matched hts
    by_cases hself : e.IsSelfRef
    · cases e with
      | selfRef s =>
        obtain ⟨e', m, hus, hself', -⟩ | ⟨t, hus, -⟩ := expression_selfRef (h.symm.trans hkinds)
        · obtain ⟨rfl, rest', hkinds'⟩ := kinds_eq_of_matched hus
          have hfound := expression_complete (expression_sound hus).1 hself' (h.trans hkinds')
          rw [hts] at hfound
          rw [hus]
          exact hfound
        · rw [hus]
          rfl
      | _ => exact hself.elim
    · rw [expression_complete (expression_sound hts).1 hself (h.symm.trans hkinds)]
      rfl

/-- The recognizer is its grammar. A match is a well-formed expression, written with the tokens
stepped over; a well-formed expression that is no bare `self` is found, up to spans, wherever its
kinds stand at the front; for a bare `self` a longer expression is found if one stands there, and
the bare `self` otherwise. Nothing is found only where no well-formed expression stands, and the
outcome depends on the kinds of the tokens alone. -/
theorem expression_exact (ts : TokenList) :
    (∀ (e : Expr) n, (expression ts).value = .matched e n →
      e.WellFormed ∧ n ≤ ts.length ∧ TokenList.kinds (ts.take n) = e.flatten) ∧
    (∀ (e : Expr) rest, e.WellFormed → ts.kinds = e.flatten ++ rest → ¬ e.IsSelfRef →
      (expression ts).value.map eraseSpans = .matched e.eraseSpans e.flatten.length) ∧
    (∀ (e : Expr) rest, e.IsSelfRef → ts.kinds = e.flatten ++ rest →
      (∃ (e' : Expr) (rest' : List TokenKind), e'.WellFormed ∧ ts.kinds = e'.flatten ++ rest' ∧
        e.flatten.length < e'.flatten.length ∧
        (expression ts).value.map eraseSpans = .matched e'.eraseSpans e'.flatten.length) ∨
      ((∀ (e' : Expr) rest', e'.WellFormed → ts.kinds = e'.flatten ++ rest' →
        e'.flatten.length ≤ e.flatten.length) ∧
        (expression ts).value.map eraseSpans = .matched e.eraseSpans e.flatten.length)) ∧
    ((expression ts).value = .noMatch ↔
      ∀ (e : Expr) rest, e.WellFormed → ts.kinds ≠ e.flatten ++ rest) ∧
    (∀ us : TokenList, us.kinds = ts.kinds →
      (expression us).value.map eraseSpans = (expression ts).value.map eraseSpans) := by
  refine ⟨fun e n h => expression_sound h, fun e rest hwf hts hself =>
    expression_complete hwf hself hts, fun e rest hself hts => ?_, ⟨?_, ?_⟩,
    fun us hus => expression_congr hus⟩
  · cases e with
    | selfRef s =>
      obtain ⟨e', n, h, hself', hlt⟩ | ⟨t, h, hmax⟩ := expression_selfRef hts
      · obtain ⟨rfl, rest', hkinds⟩ := kinds_eq_of_matched h
        exact .inl ⟨e', rest', (expression_sound h).1, hkinds, hlt, by rw [h]; rfl⟩
      · exact .inr ⟨hmax, by rw [h]; rfl⟩
    | _ => exact hself.elim
  · intro hno e rest hwf hts
    exact expression_isMatch hwf hts hno
  · intro hnone
    cases h : (expression ts).value with
    | noMatch => rfl
    | matched e n =>
      obtain ⟨-, rest, hkinds⟩ := kinds_eq_of_matched h
      exact absurd hkinds (hnone e rest (expression_sound h).1)

/-- The tokens of `super[self, 1]` with a comma behind them are read as that expression. -/
theorem expression_exact_subscript :
    let e : Expr := .subscript .super [.selfRef .dummy, .literal (.integer 1 "1") .dummy] .dummy
    let ts : TokenList := (e.flatten ++ [TokenKind.punct .comma]).map .dummy
    e.WellFormed ∧ ts.kinds = e.flatten ++ [.punct .comma] ∧ ¬ e.IsSelfRef ∧
      (expression ts).value.map eraseSpans = .matched e.eraseSpans 6 := by
  intro e ts
  have hwf : e.WellFormed := by
    refine .subscript (List.cons_ne_nil _ _) fun e he => ?_
    obtain rfl | he := List.mem_cons.1 he
    · exact .selfRef
    · obtain rfl := List.mem_singleton.1 he
      exact .literal rfl
  have hkinds : ts.kinds = e.flatten ++ [.punct .comma] := by decide
  exact ⟨hwf, hkinds, id, (expression_exact ts).2.1 e _ hwf hkinds id⟩

end ExprFront.Grammar
