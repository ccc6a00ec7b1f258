import ExprFront.Text
import ExprFront.Token
import Mathlib.Tactic.Lemma

/-!
# Slices of a source text

The character index of a byte offset is the number of characters in a prefix with that many bytes
(`charIndex?_eq_some_iff`). A span whose ends have one covers the text between them.
-/

namespace ExprFront

/-- Only the empty text has no bytes. -/
lemma byteLength_eq_zero_iff {cs : List Char} : byteLength cs = 0 ↔ cs = [] := by
  cases cs with
  | nil => simp
  | cons c cs =>
    have hpos := c.utf8Size_pos
    rw [byteLength_cons]
    exact ⟨fun h => by omega, nofun⟩

/-- Offsets that fit are kept. -/
lemma clampOffset_of_lt {offset : Nat} (h : offset < UInt32.size) :
    clampOffset offset = .ofNat offset := by
  rw [clampOffset, if_pos h]

/-- Spans whose offsets fit are kept. -/
lemma Span.ofOffsetsClamped_of_lt {start stop : Nat} (hstart : start < UInt32.size)
    (hstop : stop < UInt32.size) :
    ofOffsetsClamped start stop = ⟨.ofNat start, .ofNat stop⟩ := by
  rw [ofOffsetsClamped, ofOffsets, if_neg (Nat.not_le.2 hstart), if_neg (Nat.not_le.2 hstop)]

/-- From a place on the characters are counted up to the offset. -/
lemma charIndex?.go_eq_some_iff {n i offset : Nat} {cs : List Char} :
    charIndex?.go n cs offset = some i ↔
      ∃ u v, cs = u ++ v ∧ n + u.length = i ∧ byteLength u = offset := by
  induction cs generalizing n offset with
  | nil =>
    cases offset with
    | zero => simp [go]
    | succ offset => simp [go]
  | cons c cs ih =>
    have hpos := c.utf8Size_pos
    cases offset with
    | zero =>
      simp only [go, Option.some.injEq, byteLength_eq_zero_iff]
      refine ⟨?_, ?_⟩
      · rintro rfl
        exact ⟨[], c :: cs, rfl, rfl, rfl⟩
      · rintro ⟨_, v, -, h, rfl⟩
        exact h
    | succ offset =>
      -- a prefix of that many bytes begins with the first character
      have hcons : (∃ u v, c :: cs = u ++ v ∧ n + u.length = i ∧ byteLength u = offset + 1) ↔
          ∃ u v, cs = u ++ v ∧ n + 1 + u.length = i ∧
            c.utf8Size + byteLength u = offset + 1 := by
        refine ⟨?_, ?_⟩
        · intro h
          obtain ⟨u, v, heq, hlen, hu⟩ := h
          cases u with
          | nil => cases hu
          | cons d u =>
            obtain ⟨rfl, rfl⟩ := List.cons.inj heq
            rw [List.length_cons] at hlen
            exact ⟨u, v, rfl, by omega, byteLength_cons c u ▸ hu⟩
        · intro h
          obtain ⟨u, v, rfl, hlen, hu⟩ := h
          refine ⟨c :: u, v, rfl, ?_, byteLength_cons c u ▸ hu⟩
          rw [List.length_cons]
          omega
      rw [go, hcons]
      split
      next hle =>
        rw [ih]
        refine exists₂_congr fun u v => and_congr_right fun _ => and_congr_right fun _ => ?_
        omega
      next hlt =>
        refine ⟨nofun, fun ⟨u, v, _, _, hu⟩ => ?_⟩
        omega

/-- Every character has at least one byte. -/
lemma length_le_byteLength (cs : List Char) : cs.length ≤ byteLength cs := by
  induction cs with
  | nil => exact Nat.zero_le 0
  | cons c cs ih =>
    have hpos := c.utf8Size_pos
    rw [List.length_cons, byteLength_cons]
    omega

/-- No character occurs more often than there are bytes. -/
lemma count_le_byteLength (c : Char) (cs : List Char) : cs.count c ≤ byteLength cs :=
  Nat.le_trans List.count_le_length (length_le_byteLength cs)

/-- The character index of an offset is the length of the prefix with that many bytes. -/
theorem charIndex?_eq_some_iff {cs : List Char} {offset i : Nat} :
    charIndex? cs offset = some i ↔
      ∃ u v, cs = u ++ v ∧ u.length = i ∧ byteLength u = offset := by
  rw [charIndex?, charIndex?.go_eq_some_iff]
  simp only [Nat.zero_add]

/-- The text that a span covers, if its ends are in order and both on character boundaries. -/
def slice? (source : List Char) (s : Span) : Option (List Char) :=
  match charIndex? source s.start.toNat, charIndex? source s.stop.toNat with
  | some i, some j => if i ≤ j then some ((source.take j).drop i) else none
  | _, _ => none

/-- A span covers a text where it begins after a prefix and ends after the text. -/
lemma slice?_eq_some {u w v : List Char} {s : Span} (hstart : s.start.toNat = byteLength u)
    (hstop : s.stop.toNat = byteLength (u ++ w)) : slice? (u ++ w ++ v) s = some w := by
  have hi : charIndex? (u ++ w ++ v) s.start.toNat = some u.length :=
    charIndex?_eq_some_iff.2 ⟨u, w ++ v, List.append_assoc u w v, rfl, hstart.symm⟩
  have hj : charIndex? (u ++ w ++ v) s.stop.toNat = some (u ++ w).length :=
    charIndex?_eq_some_iff.2 ⟨u ++ w, v, rfl, rfl, hstop.symm⟩
  have hle : u.length ≤ (u ++ w).length := by simp
  simp only [slice?, hi, hj, if_pos hle, List.take_left, List.drop_left]

end ExprFront
