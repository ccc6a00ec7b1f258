import ExprFront.Parser
import ExprFront.Proofs.Grammar.Recognition
import Mathlib

/-!
# Runs of the parser

A run calls the parser again and again on one cursor. A call that succeeds steps over the tokens
that spell its expression, none of them the end of file, so the limit of the cursor never shortens
the move; a call that fails leaves the cursor where it is, so that the run fails for good
(`run_commits_matches`).
-/

namespace ExprFront

/-- The check finds an end of file as the last token. -/
lemma TokenList.endsWithEof_iff {ts : TokenList} :
    ts.endsWithEof = true ↔ ∃ us t, ts = us ++ [t] ∧ t.kind = .eof := by
  rw [endsWithEof, Option.any_eq_true]
  constructor
  · rintro ⟨t, ht, hk⟩
    obtain ⟨us, rfl⟩ := List.getLast?_eq_some_iff.1 ht
    exact ⟨us, t, rfl, of_decide_eq_true hk⟩
  · rintro ⟨us, t, rfl, hk⟩
    exact ⟨t, List.getLast?_concat, decide_eq_true hk⟩

namespace Cursor

/-- What a call of the parser gives at the cursor. -/
def outcome (c : Cursor) : Except ParseError Expr := c.parseExpression.value.1

/-- The cursor after one more call of the parser. -/
def next (c : Cursor) : Cursor := c.parseExpression.value.2

/-- The cursor after a number of calls of the parser. -/
def after (c : Cursor) : Nat → Cursor
  | 0 => c
  | k + 1 => (c.after k).next

/-- The number of tokens that the recognizer spans at the cursor; zero without a match. -/
def consumed (c : Cursor) : Nat := (Grammar.expression c.remaining).value.advancedBy

/-- The tokens are those that have been passed and those from the cursor on. -/
lemma take_append_remaining (c : Cursor) : c.tokens.take c.position ++ c.remaining = c.tokens :=
  List.take_append_drop _ _

/-- A cursor with tokens before it is within the list. -/
lemma position_le_of_remaining_ne_nil {c : Cursor} (h : c.remaining ≠ []) :
    c.position ≤ c.tokens.length := by
  apply Nat.le_of_not_lt
  intro hlt
  exact h (List.drop_eq_nil_of_le (Nat.le_of_lt hlt))

/-- The limit of a cursor is within the list. -/
lemma limit_le_length (c : Cursor) : c.limit ≤ c.tokens.length := by
  unfold limit
  split
  · exact Nat.sub_le _ _
  · exact Nat.le_refl _

/-- Up to the limit, advancing adds up, and does not overflow in a list that a 64-bit word can
count. -/
lemma value_advanceBy? {c : Cursor} {n : Nat} (hle : c.position + n ≤ c.limit)
    (hlen : c.tokens.length < UInt64.size) :
    (c.advanceBy? n).map Traced.value = some { c with position := c.position + n } := by
  have hlt := Nat.lt_of_le_of_lt (Nat.le_trans hle c.limit_le_length) hlen
  have hmove : (c.advanceBy n).value = { c with position := min (c.position + n) c.limit } := rfl
  rw [advanceBy?, if_pos hlt, Option.map_some, hmove, Nat.min_eq_left hle]

/-- Tokens that hold no end of file lie before the limit. -/
lemma position_add_le_limit {c : Cursor} {u rest : TokenList} (h : c.remaining = u ++ rest)
    (hne : u ≠ []) (heof : ∀ t ∈ u, t.kind ≠ .eof) : c.position + u.length ≤ c.limit := by
  have hle := position_le_of_remaining_ne_nil (c := c) (by simp [h, hne])
  have htokens := c.take_append_remaining
  rw [h] at htokens
  have hlen := congrArg List.length htokens
  simp only [List.length_append, List.length_take_of_le hle] at hlen
  unfold limit
  split
  next hend =>
    -- the end of file that closes the list is none of the tokens of `u`
    have hrest : rest ≠ [] := by
      rintro rfl
      obtain ⟨us, t, hus, hk⟩ := TokenList.endsWithEof_iff.1 hend
      have hlast := congrArg List.getLast? htokens
      rw [List.append_nil, List.getLast?_append_of_ne_nil _ hne, hus, List.getLast?_concat] at hlast
      exact heof t (List.mem_of_getLast? hlast) hk
    have hpos := List.length_pos_iff.2 hrest
    omega
  next => omega

/-- A call finds an expression in the tokens from the cursor on and moves past it, or explains the
failure and does not move. -/
lemma value_parseExpression (c : Cursor) :
    c.parseExpression.value =
      match (Grammar.expression c.remaining).value with
      | .matched e n => (.ok e, { c with position := min (c.position + n) c.limit })
      | .noMatch => (.error (Grammar.explain c.remaining c.currentSpan).value, c) := by
  rw [parseExpression, Traced.value_bind]
  cases (Grammar.expression c.remaining).value with
  | matched e n => rfl
  | noMatch => rfl

/-- The cursor `d` is reached from `c` by stepping over the tokens `u` that spell the expression
`e`, which is what the recognizer finds there. -/
structure StepsOver (c : Cursor) (e : Expr) (u : TokenList) (d : Cursor) : Prop where
  found : (Grammar.expression c.remaining).value = .matched e u.length
  spells : Grammar.Spells e u
  remaining : c.remaining = u ++ d.remaining
  le_limit : c.position + u.length ≤ c.limit
  eq_moved : d = { c with position := c.position + u.length }

/-- A call that finds an expression steps over its spelling. -/
lemma stepsOver_of_outcome {c : Cursor} {e : Expr} (h : c.outcome = .ok e) :
    ∃ u, c.StepsOver e u c.next := by
  rw [outcome, value_parseExpression] at h
  rw [next, value_parseExpression]
  cases hfound : (Grammar.expression c.remaining).value with
  | noMatch =>
    rw [hfound] at h
    cases h
  | matched e' n =>
    rw [hfound] at h
    cases h
    obtain ⟨u, rest, hrest, rfl, hspell⟩ := Grammar.primary_spells hfound
    have hle := position_add_le_limit hrest hspell.ne_nil hspell.kind_ne_eof
    refine ⟨u, hfound, hspell, ?_, hle, ?_⟩
    · show c.remaining = u ++ c.tokens.drop (min (c.position + u.length) c.limit)
      rw [Nat.min_eq_left hle, ← List.drop_drop, ← remaining, hrest, List.drop_left]
    · show Cursor.mk _ (min (c.position + u.length) c.limit) = _
      rw [Nat.min_eq_left hle]

/-- A call fails only where nothing matches. -/
lemma noMatch_of_outcome {c : Cursor} {err : ParseError} (h : c.outcome = .error err) :
    (Grammar.expression c.remaining).value = .noMatch := by
  rw [outcome, value_parseExpression] at h
  cases hfound : (Grammar.expression c.remaining).value with
  | noMatch => rfl
  | matched e n =>
    rw [hfound] at h
    cases h

/-- The outcome of a match is the expression. -/
lemma outcome_of_matched {c : Cursor} {e : Expr} {n : Nat}
    (h : (Grammar.expression c.remaining).value = .matched e n) : c.outcome = .ok e := by
  rw [outcome, value_parseExpression, h]

/-- The outcome of a failure is its explanation. -/
lemma outcome_of_noMatch {c : Cursor} (h : (Grammar.expression c.remaining).value = .noMatch) :
    c.outcome = .error (Grammar.explain c.remaining c.currentSpan).value := by
  rw [outcome, value_parseExpression, h]

/-- A call that fails does not move the cursor. -/
lemma next_of_outcome {c : Cursor} {err : ParseError} (h : c.outcome = .error err) :
    c.next = c := by
  rw [next, value_parseExpression, noMatch_of_outcome h]

/-- A call that fails consumes nothing. -/
lemma consumed_of_outcome {c : Cursor} {err : ParseError} (h : c.outcome = .error err) :
    c.consumed = 0 := by
  rw [consumed, noMatch_of_outcome h]
  rfl

/-- Every call moves the cursor by what the recognizer spans. -/
lemma position_next (c : Cursor) : c.next.position = c.position + c.consumed := by
  cases h : c.outcome with
  | ok e =>
    obtain ⟨u, hu⟩ := stepsOver_of_outcome h
    rw [hu.eq_moved, consumed, hu.found]
    rfl
  | error err => rw [next_of_outcome h, consumed_of_outcome h, Nat.add_zero]

/-- A call does not change the tokens. -/
lemma tokens_next (c : Cursor) : c.next.tokens = c.tokens := by
  cases h : c.outcome with
  | ok e =>
    obtain ⟨u, hu⟩ := stepsOver_of_outcome h
    rw [hu.eq_moved]
  | error err => rw [next_of_outcome h]

/-- An expression is read to the end where its tokens stand before the end of file. -/
lemma outcome_of_spells {e : Expr} {u : TokenList} {t : Token} (h : Grammar.Spells e u)
    (ht : t.kind = .eof) :
    (start (u ++ [t])).outcome = .ok e ∧ (start (u ++ [t])).next.isAtEnd = true := by
  -- nothing continues a bare `self` at the end of file
  have hfound : (Grammar.expression (start (u ++ [t])).remaining).value = .matched e u.length :=
    h.primary fun _ => Grammar.value_continuation_eof ht []
  have hlimit : (start (u ++ [t])).limit = u.length := by
    simp [limit, start, TokenList.endsWithEof, ht]
  have hend : (Cursor.mk (u ++ [t]) (min (0 + u.length) (start (u ++ [t])).limit)).isAtEnd = true := by
    rw [hlimit, Nat.zero_add, Nat.min_self]
    simp [isAtEnd, current?, token?, ht]
  rw [outcome, next, value_parseExpression, hfound]
  exact ⟨rfl, hend⟩

/-- Calls one after the other are counted together. -/
lemma after_add (c : Cursor) (j k : Nat) : c.after (j + k) = (c.after j).after k := by
  induction k with
  | zero => rfl
  | succ k ih =>
    show (c.after (j + k)).next = ((c.after j).after k).next
    rw [ih]

/-- No number of calls changes the tokens. -/
lemma tokens_after (c : Cursor) (k : Nat) : (c.after k).tokens = c.tokens := by
  induction k with
  | zero => rfl
  | succ k ih =>
    rw [← ih]
    exact tokens_next _

/-- The counts that the calls consume add up. -/
lemma position_after (c : Cursor) (k : Nat) :
    (c.after k).position = c.position + ((List.range k).map fun j => (c.after j).consumed).sum := by
  induction k with
  | zero => rfl
  | succ k ih =>
    rw [List.range_succ, List.map_append, List.sum_append, ← Nat.add_assoc, ← ih]
    rw [List.map_singleton, List.sum_singleton]
    exact position_next (c.after k)

/-- A failed call repeats itself. -/
lemma after_of_outcome {c : Cursor} {err : ParseError} (h : c.outcome = .error err) (k : Nat) :
    c.after k = c := by
  induction k with
  | zero => rfl
  | succ k ih =>
    show (c.after k).next = c
    rw [ih, next_of_outcome h]

/-- No number of calls leads behind the tokens. -/
lemma position_after_le (ts : TokenList) (k : Nat) :
    ((start ts).after k).position ≤ ts.length := by
  induction k with
  | zero => exact Nat.zero_le _
  | succ k ih =>
    show ((start ts).after k).next.position ≤ ts.length
    cases h : ((start ts).after k).outcome with
    | ok e =>
      obtain ⟨u, hu⟩ := stepsOver_of_outcome h
      have hle := Nat.le_trans hu.le_limit (limit_le_length _)
      rw [tokens_after] at hle
      rw [hu.eq_moved]
      exact hle
    | error err => rwa [next_of_outcome h]

/-- As long as the calls succeed, the position is at least their number. -/
lemma le_position_after {c : Cursor} {k : Nat} (h : ∀ j < k, ∃ e, (c.after j).outcome = .ok e) :
    k ≤ (c.after k).position := by
  induction k with
  | zero => exact Nat.zero_le _
  | succ k ih =>
    have hk := ih fun j hj => h j (Nat.lt_succ_of_lt hj)
    obtain ⟨e, he⟩ := h k (Nat.lt_succ_self k)
    obtain ⟨u, hu⟩ := stepsOver_of_outcome he
    have hpos := List.length_pos_iff.2 hu.spells.ne_nil
    show k + 1 ≤ (c.after k).next.position
    rw [hu.eq_moved]
    show k + 1 ≤ (c.after k).position + u.length
    omega

/-- A run has a first call that fails. -/
lemma exists_outcome_error (ts : TokenList) :
    ∃ k ≤ ts.length, (∀ j < k, ∃ e, ((start ts).after j).outcome = .ok e) ∧
      ∃ err, ((start ts).after k).outcome = .error err := by
  have hfail : ∃ k, ∃ err, ((start ts).after k).outcome = .error err := by
    by_contra hno
    simp only [not_exists] at hno
    have hle := position_after_le ts (ts.length + 1)
    have hge : ts.length + 1 ≤ ((start ts).after (ts.length + 1)).position := by
      apply le_position_after
      intro j _
      cases h : ((start ts).after j).outcome with
      | ok e => exact ⟨e, rfl⟩
      | error err => exact absurd h (hno j err)
    omega
  classical
  have hok : ∀ j < Nat.find hfail, ∃ e, ((start ts).after j).outcome = .ok e := by
    intro j hj
    cases h : ((start ts).after j).outcome with
    | ok e => exact ⟨e, rfl⟩
    | error err => exact absurd ⟨err, h⟩ (Nat.find_min hfail hj)
  refine ⟨Nat.find hfail, ?_, hok, Nat.find_spec hfail⟩
  exact Nat.le_trans (le_position_after hok) (position_after_le ts _)

/-- A run of the parser commits what it recognizes and nothing on failure. A call that succeeds
moves the cursor past the tokens of its expression, one at least and none of them the end of file,
within the limit of the cursor. A call that fails leaves the cursor in its place, and all later
calls fail in the same way. So the positions are the sums of what was spanned, and after as many
calls as there are tokens, at the latest, the run has failed for good. -/
theorem run_commits_matches (ts : TokenList) :
    (∀ k e, ((start ts).after k).outcome = .ok e →
      ∃ u, 1 ≤ u.length ∧ (∀ t ∈ u, t.kind ≠ .eof) ∧ Grammar.Spells e u ∧ u.kinds = e.flatten ∧
        (Grammar.expression ((start ts).after k).remaining).value = .matched e u.length ∧
        ((start ts).after k).remaining = u ++ ((start ts).after (k + 1)).remaining ∧
        ((start ts).after (k + 1)).position = ((start ts).after k).position + u.length ∧
        ((start ts).after k).position + u.length ≤ ((start ts).after k).limit ∧
        (ts.length < UInt64.size →
          (((start ts).after k).advanceBy? u.length).map Traced.value =
            some ((start ts).after (k + 1)))) ∧
    (∀ k err, ((start ts).after k).outcome = .error err →
      ((start ts).after (k + 1)).position = ((start ts).after k).position ∧
      ∀ j, k ≤ j → ((start ts).after j).outcome = .error err) ∧
    (∀ k, ((start ts).after k).tokens = ts ∧
      ((start ts).after k).position =
        ((List.range k).map fun j => ((start ts).after j).consumed).sum ∧
      ((start ts).after k).position ≤ ts.length) ∧
    ∃ k ≤ ts.length, (∀ j < k, ∃ e, ((start ts).after j).outcome = .ok e) ∧
      ∃ err, ∀ j, k ≤ j → ((start ts).after j).outcome = .error err := by
  have hfail : ∀ k err, ((start ts).after k).outcome = .error err →
      ∀ j, k ≤ j → ((start ts).after j).outcome = .error err := by
    intro k err h j hj
    obtain ⟨m, rfl⟩ := Nat.exists_eq_add_of_le hj
    rw [after_add, after_of_outcome h, h]
  refine ⟨fun k e h => ?_, fun k err h => ⟨?_, hfail k err h⟩, fun k => ⟨?_, ?_, ?_⟩, ?_⟩
  · obtain ⟨u, hu⟩ := stepsOver_of_outcome h
    have hpos := List.length_pos_iff.2 hu.spells.ne_nil
    refine ⟨u, hpos, hu.spells.kind_ne_eof, hu.spells, hu.spells.kinds, hu.found, hu.remaining, ?_,
      hu.le_limit, fun hlen => ?_⟩
    · exact congrArg position hu.eq_moved
    · have htokens : ((start ts).after k).tokens = ts := tokens_after _ k
      rw [← htokens] at hlen
      exact (value_advanceBy? hu.le_limit hlen).trans (congrArg some hu.eq_moved.symm)
  · exact congrArg position (next_of_outcome h)
  · exact tokens_after _ k
  · rw [position_after]
    exact Nat.zero_add _
  · exact position_after_le ts k
  · obtain ⟨k, hk, hok, err, herr⟩ := exists_outcome_error ts
    exact ⟨k, hk, hok, err, hfail k err herr⟩

/-- Behind `super.a` a `self` that nothing continues is read alone, and then the bracket fails. -/
theorem run_commits_matches_bracket :
    let ts : TokenList := [.keyword .super, .punct .dot, .ident "a", .keyword .self,
      .punct .lbracket, .eof].map .dummy
    ((start ts).after 0).outcome = .ok (.method .super "a" .dummy) ∧
      ((start ts).after 1).outcome = .ok (.selfRef .dummy) ∧
      (∃ err, ∀ j, 2 ≤ j → ((start ts).after j).outcome = .error err) ∧
      ((start ts).after 2).position = 4 := by
  intro ts
  have h₀ : ((start ts).after 0).outcome = .ok (.method .super "a" .dummy) := by cbv
  have h₁ : ((start ts).after 1).outcome = .ok (.selfRef .dummy) := by cbv
  have h₂ : ((start ts).after 2).outcome =
    .error (.noExpression (.punct .lbracket) .dummy) := by cbv
  have hrun := run_commits_matches ts
  refine ⟨h₀, h₁, ⟨_, (hrun.2.1 2 _ h₂).2⟩, ?_⟩
  obtain ⟨u, -, -, -, hu, -, -, hpos, -⟩ := hrun.1 0 _ h₀
  obtain ⟨v, -, -, -, hv, -, -, hpos', -⟩ := hrun.1 1 _ h₁
  have hulen : u.length = 3 := by simpa [TokenList.kinds, Expr.flatten] using congrArg List.length hu
  have hvlen : v.length = 1 := by simpa [TokenList.kinds, Expr.flatten] using congrArg List.length hv
  rw [hpos', hpos, hulen, hvlen]
  rfl

end Cursor

end ExprFront
