import ExprFront.Parser
import Mathlib

/-!
# Moves of a cursor

A cursor over tokens whose only end of file is the last one never leaves the list, and what can be
seen from it agrees with the tokens from it on. The place that a move or a look ahead asks for is a
sum of two 64-bit words. As long as the sum is a word itself, moves are exact up to the end of file
and never go back; a sum that is larger gives no result (`advanceAll_exact`).
-/

namespace ExprFront

namespace Cursor

/-- The cursor after several moves, one after the other, if none of them overflows. -/
def advanceAll? (c : Cursor) (ns : List UInt64) : Option Cursor :=
  ns.foldlM (fun c n => (c.advanceBy? n.toNat).map Traced.value) c

/-- The position and the count add up to more than the largest 64-bit word. -/
def Overflows (c : Cursor) (n : UInt64) : Prop := UInt64.size ≤ c.position + n.toNat

instance (c : Cursor) (n : UInt64) : Decidable (c.Overflows n) :=
  inferInstanceAs (Decidable (_ ≤ _))

/-- The kind of the token `n` places on among the tokens from the cursor on, the end of file if
there is none. -/
def kindAhead (c : Cursor) (n : UInt64) : TokenKind :=
  ((c.remaining[n.toNat]?).map Token.kind).getD .eof

/-- A move either overflows or goes on by its count, up to the limit. -/
lemma advanceBy?_eq (c : Cursor) (n : UInt64) :
    (c.advanceBy? n.toNat).map Traced.value =
      if c.Overflows n then none
      else some { c with position := min (c.position + n.toNat) c.limit } := by
  by_cases h : c.Overflows n
  · rw [advanceBy?, if_pos h, if_neg (Nat.not_lt.2 h)]
    rfl
  · rw [advanceBy?, if_neg h, if_pos (Nat.lt_of_not_le h)]
    rfl

/-- A look ahead either overflows or sees the tokens from the cursor on. -/
lemma peekKind?_eq (c : Cursor) (n : UInt64) :
    c.peekKind? n.toNat = if c.Overflows n then none else some (c.kindAhead n) := by
  have hahead : c.peekKind n.toNat = c.kindAhead n := by
    rw [peekKind, kindAhead, remaining, List.getElem?_drop]
  by_cases h : c.Overflows n
  · rw [peekKind?, if_pos h, if_neg (Nat.not_lt.2 h)]
  · rw [peekKind?, hahead, if_neg h, if_pos (Nat.lt_of_not_le h)]

/-- The first move either overflows or is followed by the others. -/
lemma advanceAll?_cons (c : Cursor) (n : UInt64) (ns : List UInt64) :
    c.advanceAll? (n :: ns) =
      if c.Overflows n then none
      else ({ c with position := min (c.position + n.toNat) c.limit } : Cursor).advanceAll? ns := by
  rw [advanceAll?, List.foldlM_cons, advanceBy?_eq]
  split <;> rfl

/-- Moves that do not overflow add up. -/
lemma eq_of_advanceAll? {c d : Cursor} (hle : c.position ≤ c.limit) {ns : List UInt64}
    (h : c.advanceAll? ns = some d) :
    d = { c with position := min (c.position + (ns.map UInt64.toNat).sum) c.limit } := by
  induction ns generalizing c with
  | nil =>
    obtain rfl := Option.some.inj h
    rw [List.map_nil, List.sum_nil, Nat.add_zero, Nat.min_eq_left hle]
  | cons n ns ih =>
    rw [advanceAll?_cons] at h
    split at h
    next => cases h
    next =>
      have hd := ih (Nat.min_le_right _ _) h
      rw [hd, List.map_cons, List.sum_cons]
      show Cursor.mk _ (min (min (c.position + n.toNat) c.limit + _) c.limit) = Cursor.mk _ _
      congr 1
      show min (min (c.position + n.toNat) c.limit + (ns.map UInt64.toNat).sum) c.limit = _
      omega

/-- A run of moves gives no result exactly if one of them overflows where those before it lead. -/
lemma advanceAll?_eq_none_iff {c : Cursor} {ns : List UInt64} :
    c.advanceAll? ns = none ↔
      ∃ ms n rest d, ns = ms ++ n :: rest ∧ c.advanceAll? ms = some d ∧ d.Overflows n := by
  induction ns generalizing c with
  | nil =>
    constructor
    · intro h
      cases h
    · rintro ⟨ms, n, rest, d, h, -, -⟩
      simp at h
  | cons n ns ih =>
    rw [advanceAll?_cons]
    by_cases hover : c.Overflows n
    · rw [if_pos hover]
      exact iff_of_true rfl ⟨[], n, ns, c, rfl, rfl, hover⟩
    · rw [if_neg hover, ih]
      constructor
      · rintro ⟨ms, m, rest, d, rfl, hms, hd⟩
        refine ⟨n :: ms, m, rest, d, rfl, ?_, hd⟩
        rw [advanceAll?_cons, if_neg hover, hms]
      · rintro ⟨ms, m, rest, d, hsplit, hms, hd⟩
        cases ms with
        | nil =>
          obtain ⟨rfl, -⟩ := List.cons_eq_cons.1 hsplit
          obtain rfl := Option.some.inj hms
          exact absurd hd hover
        | cons k ms =>
          obtain ⟨rfl, rfl⟩ := List.cons_eq_cons.1 hsplit
          rw [advanceAll?_cons, if_neg hover] at hms
          exact ⟨ms, m, rest, d, rfl, hms, hd⟩

/-- What can be seen at a cursor is the first of the tokens from it on. -/
structure Sees (c : Cursor) (u : Token) (rest : TokenList) : Prop where
  tokens : ∃ before, c.tokens = before ++ u :: rest ∧ before.length = c.position
  remaining : c.remaining = u :: rest
  current : c.current? = if u.kind = .eof then none else some u
  currentKind : c.currentKind = u.kind
  currentSpan : c.currentSpan = u.span
  isAtEnd : c.isAtEnd = true ↔ u.kind = .eof

/-- A cursor sees the tokens behind those that it has passed. -/
lemma sees_of_append {c : Cursor} {before rest : TokenList} {u : Token}
    (htokens : c.tokens = before ++ u :: rest) (hposition : before.length = c.position) :
    c.Sees u rest := by
  have htoken : c.token? = some u := by
    rw [token?, htokens, ← hposition, List.getElem?_append_right (Nat.le_refl _), Nat.sub_self]
    rfl
  have hcurrent : c.current? = if u.kind = .eof then none else some u := by
    rw [current?, htoken, Option.filter_some]
    by_cases hk : u.kind = .eof <;> simp [hk]
  refine ⟨⟨before, htokens, hposition⟩, ?_, hcurrent, ?_, ?_, ?_⟩
  · rw [remaining, htokens, ← hposition, List.drop_left]
  · have hkind : c.currentKind = ((c.token?).map Token.kind).getD .eof := rfl
    rw [hkind, htoken]
    rfl
  · rw [currentSpan, htoken]
  · rw [isAtEnd, hcurrent]
    by_cases hk : u.kind = .eof <;> simp [hk]

section Closed

variable {us : TokenList} {t : Token} (hus : ∀ u ∈ us, u.kind ≠ .eof) (ht : t.kind = .eof)
  {c : Cursor} (htokens : c.tokens = us ++ [t]) (hle : c.position ≤ us.length)

include ht htokens in
/-- The end of file that closes a list is the last place that a cursor reaches. -/
lemma limit_closed : c.limit = us.length := by
  simp [limit, htokens, TokenList.endsWithEof, ht]

include hus ht htokens hle in
/-- At a position up to the end of file a token is seen, which is the end of file at that place
only. -/
lemma exists_sees : ∃ u rest, c.Sees u rest ∧ (u.kind = .eof ↔ c.position = us.length) := by
  rcases Nat.lt_or_eq_of_le hle with hlt | heq
  · obtain ⟨before, rest, hsplit, hlen⟩ : ∃ before rest, us = before ++ us[c.position] :: rest ∧
        before.length = c.position :=
      ⟨us.take c.position, us.drop (c.position + 1), by simp, List.length_take_of_le hle⟩
    have hplace : c.tokens = before ++ us[c.position] :: (rest ++ [t]) := by
      rw [htokens, ← List.cons_append, ← List.append_assoc, ← hsplit]
    have hsees := sees_of_append hplace hlen
    refine ⟨_, _, hsees, fun hk => absurd hk (hus _ (List.getElem_mem hlt)), fun heq => ?_⟩
    exact absurd heq (Nat.ne_of_lt hlt)
  · exact ⟨t, [], sees_of_append htokens heq.symm, iff_of_true ht heq⟩

end Closed

/-- A cursor over tokens whose only end of file is the last one never passes it, however it is
moved, and all looks at it agree with the tokens from it on. A run of moves gives a result unless
the position and the count of one of them add up to more than a 64-bit word. Then its counts add up,
up to the end of file, and the next move goes on from there in the same way, never back. A look
ahead sees the tokens from the cursor on, with the same exception. -/
theorem advanceAll_exact {us : TokenList} {t : Token} (hus : ∀ u ∈ us, u.kind ≠ .eof)
    (ht : t.kind = .eof) (ns : List UInt64) :
    ((start (us ++ [t])).advanceAll? ns = none ↔
      ∃ ms n rest d, ns = ms ++ n :: rest ∧ (start (us ++ [t])).advanceAll? ms = some d ∧
        d.Overflows n) ∧
    ∀ c, (start (us ++ [t])).advanceAll? ns = some c →
      c.tokens = us ++ [t] ∧ c.position ≤ us.length ∧
      c.position = min (ns.map UInt64.toNat).sum us.length ∧
      (∃ u rest, c.Sees u rest) ∧ (c.isAtEnd = true ↔ c.position = us.length) ∧
      (∀ n, c.peekKind? n.toNat = if c.Overflows n then none else some (c.kindAhead n)) ∧
      (∀ n, c.Overflows n ∧ c.advanceBy? n.toNat = none ∨ ¬ c.Overflows n ∧
        ∃ d, (c.advanceBy? n.toNat).map Traced.value = some d ∧ d.tokens = us ++ [t] ∧
          d.position = min (c.position + n.toNat) us.length ∧ c.position ≤ d.position) := by
  refine ⟨advanceAll?_eq_none_iff, fun c hc => ?_⟩
  have hlimit : ∀ {c : Cursor}, c.tokens = us ++ [t] → c.limit = us.length := limit_closed ht
  have heq := eq_of_advanceAll? (Nat.zero_le _) hc
  have htokens : c.tokens = us ++ [t] := by
    rw [heq]
    rfl
  have hposition : c.position = min (ns.map UInt64.toNat).sum us.length := by
    rw [heq, hlimit (c := start (us ++ [t])) rfl]
    show min (0 + _) us.length = _
    rw [Nat.zero_add]
  have hle : c.position ≤ us.length := by
    rw [hposition]
    exact Nat.min_le_right _ _
  obtain ⟨u, rest, hsees, hend⟩ := exists_sees hus ht htokens hle
  refine ⟨htokens, hle, hposition, ⟨u, rest, hsees⟩, hsees.isAtEnd.trans hend, c.peekKind?_eq,
    fun n => ?_⟩
  have hmove := c.advanceBy?_eq n
  by_cases hover : c.Overflows n
  · rw [if_pos hover] at hmove
    exact .inl ⟨hover, Option.map_eq_none_iff.1 hmove⟩
  · rw [if_neg hover, hlimit htokens] at hmove
    refine .inr ⟨hover, _, hmove, htokens, rfl, ?_⟩
    show c.position ≤ min (c.position + n.toNat) us.length
    omega

/-- One place on from `super` the cursor is at the end of file, and two places on it still is. From
there the largest count overflows. -/
theorem advanceAll_exact_super :
    let us : TokenList := [.dummy (.keyword .super)]
    let t : Token := .dummy .eof
    let c : Cursor := ⟨us ++ [t], 1⟩
    (∀ u ∈ us, u.kind ≠ .eof) ∧ t.kind = .eof ∧ (start (us ++ [t])).advanceAll? [1, 2] = some c ∧
      c.isAtEnd = true ∧ c.peekKind? 7 = some .eof ∧ c.Overflows (-1) ∧
      (start (us ++ [t])).advanceAll? [1, 2, -1, 1] = none := by
  intro us t c
  have hus : ∀ u ∈ us, u.kind ≠ .eof := by decide
  have hrun : (start (us ++ [t])).advanceAll? [1, 2] = some c := by decide
  obtain ⟨-, -, -, -, hend, hpeek, -⟩ := (advanceAll_exact hus (t := t) rfl [1, 2]).2 c hrun
  have hseven : ¬ c.Overflows 7 := by decide
  have hover : c.Overflows (-1) := by decide
  refine ⟨hus, rfl, hrun, hend.2 rfl, ?_, hover, ?_⟩
  · have hahead := hpeek 7
    rw [if_neg hseven] at hahead
    exact hahead
  · exact (advanceAll_exact hus rfl [1, 2, -1, 1]).1.2 ⟨[1, 2], -1, [1], c, rfl, hrun, hover⟩

/-- Moves and looks ahead do not answer for all 64-bit counts: from the end of file behind `super`
neither the largest move nor the largest look ahead gives the end of file. -/
theorem advanceBy_largest_ne :
    let ts : TokenList := [.keyword .super, .eof].map .dummy
    let c : Cursor := ⟨ts, 1⟩
    let n : UInt64 := 18446744073709551615
    (start ts).advanceAll? [1] = some c ∧
      (c.advanceBy? n.toNat).map Traced.value ≠ some ⟨ts, min (c.position + n.toNat) 1⟩ ∧
      c.peekKind? n.toNat ≠ some (c.kindAhead n) := by
  decide

end Cursor

end ExprFront
