import ExprFront.Proofs.Grammar.GivingUp
import ExprFront.Proofs.Parser.Run

/-!
# Failures of the parser

The error that explains a failure is about the token in front of which recognition gave up
(`GivesUp.value_explain`), unless a list is opened that nothing closes (`IsUnclosed.value_explain`).

Where the end of file closes the tokens, a failed call of the parser reports this token, or the
bracket of a list that nothing closes (`outcome_error_explained`). A subscript that runs into the
end of file is reported as not closed unless another one stands inside of it
(`outcome_subscript_eof`).
-/

namespace ExprFront

namespace Grammar

/-- What is wrong with the `i`-th token where something else than its kind is required. -/
def Required.errorKind (i : Nat) (found : TokenKind) : Required → ParseErrorKind
  | expression =>
    if i = 0 ∧ found = .error then .invalidToken else .expectedExpression found.displayName
  | continuation => .unexpectedToken "`super`" "`.` or `[`" found.displayName
  | member => .unexpectedToken "`super.`" "identifier or `init`" found.displayName
  | separator => .unexpectedToken "subscript argument" "`,` or `]`" found.displayName

/-- The error about the token `t`, the `i`-th one, where something else is required. -/
def Required.error (i : Nat) (t : Token) (r : Required) : ParseError :=
  ⟨r.errorKind i t.kind, t.span⟩

/-- The bracket behind a `super` at the front opens a list, and no bracket closes anything. -/
def IsUnclosed (ts : TokenList) (bracket : Span) : Prop :=
  ∃ s rest, ts = ⟨.keyword .super, s⟩ :: ⟨.punct .lbracket, bracket⟩ :: rest ∧
    ∀ t ∈ rest, t.kind ≠ .punct .rbracket

variable {ts u v : TokenList} {r : Required} {t : Token} {fallback : Span}

/-- A list is unclosed if no closing bracket stands in it. -/
lemma isUnclosed_list_iff {s o b : Span} :
    IsUnclosed (⟨.keyword .super, s⟩ :: ⟨.punct .lbracket, o⟩ :: ts) b ↔
      o = b ∧ ∀ t ∈ ts, t.kind ≠ .punct .rbracket := by
  constructor
  · rintro ⟨s, rest, hts, hrest⟩
    cases hts
    exact ⟨rfl, hrest⟩
  · rintro ⟨rfl, h⟩
    exact ⟨s, ts, rfl, h⟩

/-- An unclosed list is reported at its opening bracket. -/
lemma IsUnclosed.value_explain {b : Span} (h : IsUnclosed ts b) :
    (explain ts fallback).value = ⟨.unclosedDelimiter '[', b⟩ := by
  obtain ⟨s, rest, rfl, hrest⟩ := h
  have hany : (rest.any fun t => t.kind = .punct .rbracket) = false := by simpa using hrest
  simp only [explain, explainSuperclass, hany]
  rfl

/-- If some bracket closes something, the fault of the list is looked for. -/
lemma value_explain_list {s o : Span} (h : ∃ t ∈ ts, t.kind = .punct .rbracket) :
    (explain (⟨.keyword .super, s⟩ :: ⟨.punct .lbracket, o⟩ :: ts) fallback).value =
      (listFault .none ts).value.error o := by
  have hany : (ts.any fun t => t.kind = .punct .rbracket) = true := by simpa using h
  simp only [explain, explainSuperclass, hany]
  rfl

/-- The second reading of the list finds the place where the first one gave up. -/
lemma ListGivesUp.value_listFault {rest : TokenList} (h : ListGivesUp u rest r) (log : Log) :
    (r = .expression ∧
      ∃ n, (listFault log (u ++ rest)).value = (ListEnd.noElement n rest).fault) ∨
    (r = .separator ∧
      ∃ p, (listFault log (u ++ rest)).value = (ListEnd.noSeparator p rest).fault) := by
  rw [listFault_eq [] 1]
  obtain ⟨hr, n, hend⟩ | ⟨hr, p, hend⟩ := h.value_elements [] 1 log
  · exact .inl ⟨hr, n, congrArg ListEnd.fault hend⟩
  · exact .inr ⟨hr, p, congrArg ListEnd.fault hend⟩

/-- In a list that something closes the error is about the token where its reading gave up. -/
lemma ListGivesUp.value_explain {s o : Span} (h : ListGivesUp u (t :: v) r)
    (hbracket : ∃ t' ∈ u ++ t :: v, t'.kind = .punct .rbracket) :
    (explain (⟨.keyword .super, s⟩ :: ⟨.punct .lbracket, o⟩ :: (u ++ t :: v)) fallback).value =
      r.error (u.length + 2) t := by
  rw [value_explain_list hbracket]
  obtain ⟨rfl, n, hfault⟩ | ⟨rfl, p, hfault⟩ := h.value_listFault .none
  · rw [hfault]
    rfl
  · rw [hfault]
    rfl

/-- A token that starts no expression is reported as such. -/
lemma value_explain_not_starts (h : ¬ StartsExpression t.kind) :
    (explain (t :: v) fallback).value = Required.error 0 t .expression := by
  obtain ⟨kind, span⟩ := t
  by_cases hsuper : kind = .keyword .super
  · subst hsuper
    exact absurd (.inr (.inl ⟨.super, rfl⟩)) h
  by_cases herror : kind = .error
  · subst herror
    rfl
  rw [Required.error, Required.errorKind, if_neg fun h => herror h.2]
  simp only [explain]
  rfl

/-- A token behind `super` that does not continue it is reported as such. -/
lemma value_explain_not_continued {s : Span} (hdot : t.kind ≠ .punct .dot)
    (hbracket : t.kind ≠ .punct .lbracket) (i : Nat) :
    (explain (⟨.keyword .super, s⟩ :: t :: v) fallback).value =
      Required.error i t .continuation := by
  simp only [explain, explainSuperclass, hbracket, if_false]
  split
  next hkind => exact absurd hkind hdot
  next => rfl

/-- The error is about the token in front of which recognition gave up. -/
theorem GivesUp.value_explain (h : GivesUp u (t :: v) r)
    (hclosed : ∀ b, ¬ IsUnclosed (u ++ t :: v) b) :
    (explain (u ++ t :: v) fallback).value = r.error u.length t := by
  cases h with
  | head h => exact value_explain_not_starts (h t rfl)
  | continuation h => exact value_explain_not_continued (h t rfl).1 (h t rfl).2 _
  | member h => rfl
  | @list s o w rest r h =>
    have hopen : ¬ ∀ t' ∈ w ++ t :: v, t'.kind ≠ .punct .rbracket :=
      fun hno => hclosed o (isUnclosed_list_iff.2 ⟨rfl, hno⟩)
    have hbracket : ∃ t' ∈ w ++ t :: v, t'.kind = .punct .rbracket := by simpa using hopen
    exact h.value_explain hbracket

end Grammar

namespace Cursor

open Grammar

variable {us : TokenList} {z : Token} {p : Nat}

/-- Recognition gives up in front of some token, since it does not step over the end of file. -/
lemma exists_givesUp {err : ParseError} (hz : z.kind = .eof) (hp : p ≤ us.length)
    (h : (Cursor.mk (us ++ [z]) p).outcome = .error err) :
    ∃ u t v r, (us ++ [z]).drop p = u ++ t :: v ∧ GivesUp u (t :: v) r := by
  obtain ⟨u, rest, r, hts, hgives⟩ := primary_eq_noMatch_iff.1 (noMatch_of_outcome h)
  cases rest with
  | cons t v => exact ⟨u, t, v, r, hts, hgives⟩
  | nil =>
    have hmem : z ∈ u := by
      rw [← List.append_nil u, ← hts]
      simp [remaining, List.drop_append_of_le_length hp]
    exact absurd hz (hgives.kind_ne_eof z hmem)

/-- The error of a failed call. Recognition gives up in one place, in front of a token `t`. A list
that nothing closes is reported at its bracket; any other failure is reported at `t`, by what is
required in its place. In a list that something closes, the explanation finds the fault at `t`,
where the reading of the list stopped: neither a list that is closed nor the end of the tokens. -/
theorem outcome_error_explained {err : ParseError} (hz : z.kind = .eof) (hp : p ≤ us.length)
    (h : (Cursor.mk (us ++ [z]) p).outcome = .error err) :
    ∃ u t v r, (us ++ [z]).drop p = u ++ t :: v ∧ GivesUp u (t :: v) r ∧
      (∀ u' rest' r', (us ++ [z]).drop p = u' ++ rest' → GivesUp u' rest' r' →
        u' = u ∧ rest' = t :: v ∧ r' = r) ∧
      (∀ b, IsUnclosed ((us ++ [z]).drop p) b → err = ⟨.unclosedDelimiter '[', b⟩) ∧
      ((∀ b, ¬ IsUnclosed ((us ++ [z]).drop p) b) → err = r.error u.length t) ∧
      ∀ s o rest, (us ++ [z]).drop p = ⟨.keyword .super, s⟩ :: ⟨.punct .lbracket, o⟩ :: rest →
        (r = .expression ∧ (∃ n, (elements [] 1 .none rest).value = .noElement n (t :: v)) ∧
          (listFault .none rest).value = .noElement t) ∨
        (r = .separator ∧ (∃ n, (elements [] 1 .none rest).value = .noSeparator n (t :: v)) ∧
          (listFault .none rest).value = .noSeparator t) := by
  obtain ⟨u, t, v, r, hts, hgives⟩ := exists_givesUp hz hp h
  have herr : err = (explain ((us ++ [z]).drop p) (Cursor.mk (us ++ [z]) p).currentSpan).value :=
    Except.error.inj (h.symm.trans (outcome_of_noMatch (noMatch_of_outcome h)))
  refine ⟨u, t, v, r, hts, hgives, fun u' rest' r' hts' hgives' => ?_, fun b hb => ?_, fun hb => ?_,
    fun s o rest hlist => ?_⟩
  · exact hgives'.unique hgives (hts'.symm.trans hts)
  · rw [herr, hb.value_explain]
  · rw [hts] at hb herr
    rw [herr, hgives.value_explain hb]
  · obtain ⟨w, -, rfl, hw⟩ := hgives.list_inv (hts.symm.trans hlist)
    obtain ⟨rfl, n, hend⟩ | ⟨rfl, n, hend⟩ := hw.value_elements [] 1 .none
    · refine .inl ⟨rfl, ⟨n, hend⟩, ?_⟩
      rw [listFault_eq [] 1, hend]
      rfl
    · refine .inr ⟨rfl, ⟨n, hend⟩, ?_⟩
      rw [listFault_eq [] 1, hend]
      rfl

/-- In `super[a b]` the comma or the bracket is missing in front of the second name. -/
theorem outcome_error_explained_separator :
    let us : TokenList := [⟨.keyword .super, ⟨0, 5⟩⟩, ⟨.punct .lbracket, ⟨5, 6⟩⟩,
      ⟨.ident "a", ⟨6, 7⟩⟩, ⟨.ident "b", ⟨8, 9⟩⟩, ⟨.punct .rbracket, ⟨9, 10⟩⟩]
    let z : Token := ⟨.eof, .point 10⟩
    let err : ParseError :=
      ⟨.unexpectedToken "subscript argument" "`,` or `]`" "identifier", ⟨8, 9⟩⟩
    (start (us ++ [z])).outcome = .error err ∧
      ∃ u t v r, us ++ [z] = u ++ t :: v ∧ GivesUp u (t :: v) r ∧ err = r.error u.length t := by
  intro us z err
  have h : (start (us ++ [z])).outcome = .error err := by cbv
  have hclosed : ∀ b, ¬ IsUnclosed (us ++ [z]) b := by
    intro b hb
    exact (isUnclosed_list_iff.1 hb).2 ⟨.punct .rbracket, ⟨9, 10⟩⟩ (by simp) rfl
  obtain ⟨u, t, v, r, hts, hgives, -, -, herr, -⟩ :=
    outcome_error_explained rfl (Nat.zero_le _) h
  exact ⟨h, u, t, v, r, hts, hgives, herr hclosed⟩

/-- A subscript of `super` that runs into the end of file behind an argument is reported as not
closed exactly if no argument is a subscript itself. The bracket that closes an argument is taken
for one that could close the list, and then the end of file is reported instead. -/
theorem outcome_subscript_eof {es : List Expr} {s o : Span} {u : TokenList} (hne : es ≠ [])
    (hwf : ∀ e ∈ es, e.WellFormed) (hu : u.kinds = Expr.flattenAll es) (hz : z.kind = .eof) :
    let c := start (⟨.keyword .super, s⟩ :: ⟨.punct .lbracket, o⟩ :: (u ++ [z]))
    (c.outcome = .error ⟨.unclosedDelimiter '[', o⟩ ↔ ∀ e ∈ es, ¬ e.IsSubscript) ∧
      ((∃ e ∈ es, e.IsSubscript) → c.outcome =
        .error ⟨.unexpectedToken "subscript argument" "`,` or `]`" "end of file", z.span⟩) := by
  intro c
  obtain ⟨es', -, hspells⟩ := exists_spellsAll hne (fun e he u hu => exists_spells (hwf e he) hu) hu
  have hgives : ListGivesUp u [z] .separator := hspells.listGivesUp hz
  have houtcome := outcome_of_noMatch (c := c)
    (primary_eq_noMatch_iff.2 ⟨_ :: _ :: u, [z], _, rfl, .list hgives⟩)
  -- the only closing brackets are those of arguments
  have hbracket : (∃ t ∈ u ++ [z], t.kind = .punct .rbracket) ↔ ∃ e ∈ es, e.IsSubscript := by
    rw [← Expr.rbracket_mem_flattenAll_iff, ← hu]
    simp [TokenList.kinds, or_and_right, exists_or, hz]
  have hnested : (∃ e ∈ es, e.IsSubscript) → c.outcome =
      .error ⟨.unexpectedToken "subscript argument" "`,` or `]`" "end of file", z.span⟩ := by
    intro h
    have herr : (explain c.remaining c.currentSpan).value = _ := hgives.value_explain (hbracket.2 h)
    rw [houtcome, herr, Required.error, Required.errorKind, hz]
    rfl
  refine ⟨⟨fun h e he hsub => ?_, fun h => ?_⟩, hnested⟩
  · rw [hnested ⟨e, he, hsub⟩] at h
    cases h
  · have hunclosed : IsUnclosed c.remaining o := by
      refine isUnclosed_list_iff.2 ⟨rfl, fun t ht hk => ?_⟩
      obtain ⟨e, he, hsub⟩ := hbracket.1 ⟨t, ht, hk⟩
      exact h e he hsub
    rw [houtcome, hunclosed.value_explain]

/-- In `super[a, b` the bracket is not closed. -/
theorem outcome_subscript_eof_names :
    (start [⟨.keyword .super, ⟨0, 5⟩⟩, ⟨.punct .lbracket, ⟨5, 6⟩⟩, ⟨.ident "a", ⟨6, 7⟩⟩,
      ⟨.punct .comma, ⟨7, 8⟩⟩, ⟨.ident "b", ⟨9, 10⟩⟩, ⟨.eof, .point 10⟩]).outcome =
        .error ⟨.unclosedDelimiter '[', ⟨5, 6⟩⟩ := by
  let es : List Expr := [.identifier "a" .dummy, .identifier "b" .dummy]
  let u : TokenList :=
    [⟨.ident "a", ⟨6, 7⟩⟩, ⟨.punct .comma, ⟨7, 8⟩⟩, ⟨.ident "b", ⟨9, 10⟩⟩]
  have hwf : ∀ e ∈ es, e.WellFormed := by
    intro e he
    obtain rfl | he := List.mem_cons.1 he
    · exact .identifier trivial
    · obtain rfl := List.mem_singleton.1 he
      exact .identifier trivial
  have hu : u.kinds = Expr.flattenAll es := by decide
  have hnone : ∀ e ∈ es, ¬ e.IsSubscript := by simp [es, Expr.IsSubscript]
  exact (outcome_subscript_eof (List.cons_ne_nil _ _) hwf hu rfl).1.2 hnone

/-- In `super[self[0]` the bracket of the argument hides that the list is not closed. -/
theorem outcome_subscript_eof_nested :
    let e : Expr := .subscript .self [.literal (.integer 0 "0") .dummy] .dummy
    let u : TokenList := [⟨.keyword .self, ⟨6, 10⟩⟩, ⟨.punct .lbracket, ⟨10, 11⟩⟩,
      ⟨.int "0", ⟨11, 12⟩⟩, ⟨.punct .rbracket, ⟨12, 13⟩⟩]
    let c := start (⟨.keyword .super, ⟨0, 5⟩⟩ :: ⟨.punct .lbracket, ⟨5, 6⟩⟩ :: (u ++ [.eofAt 13]))
    e.WellFormed ∧ u.kinds = e.flatten ∧ c.outcome ≠ .error ⟨.unclosedDelimiter '[', ⟨5, 6⟩⟩ ∧
      c.outcome =
        .error ⟨.unexpectedToken "subscript argument" "`,` or `]`" "end of file", .point 13⟩ := by
  intro e u c
  have hwf : e.WellFormed := by
    refine .subscript (List.cons_ne_nil _ _) fun e he => ?_
    obtain rfl := List.mem_singleton.1 he
    exact .literal rfl
  have houtcome : c.outcome =
      .error ⟨.unexpectedToken "subscript argument" "`,` or `]`" "end of file", .point 13⟩ := by
    cbv
  refine ⟨hwf, by decide, ?_, houtcome⟩
  rw [houtcome]
  simp

end Cursor

end ExprFront
