/-!
# Regular expressions

The words of a lexical rule are given by a regular expression over character classes. `Matches` says
which words those are; `longest` finds the longest beginning of a text that is such a word, reading
one character at a time and keeping the expression for what may follow.

This derivative of an expression matches what the expression matches after one more character
(`matches_derive_iff`), and so `longest` is the length of the longest beginning that matches
(`longest_eq_some_iff`, `longest_eq_none_iff`).
-/

namespace ExprFront

/-- Regular expressions over character classes. -/
inductive Regex where
  /-- No word at all. -/
  | never
  /-- The empty word. -/
  | empty
  /-- One character of a class. -/
  | one (p : Char → Bool)
  /-- A word of the first followed by a word of the second. -/
  | seq (r s : Regex)
  /-- A word of either. -/
  | alt (r s : Regex)
  /-- Any number of words, one after the other. -/
  | star (r : Regex)

namespace Regex

/-- The words of an expression. -/
inductive Matches : Regex → List Char → Prop where
  | empty : Matches .empty []
  | one {p : Char → Bool} {c : Char} (h : p c = true) : Matches (.one p) [c]
  | seq {r s : Regex} {u v : List Char} (hr : Matches r u) (hs : Matches s v) :
      Matches (.seq r s) (u ++ v)
  | altLeft {r s : Regex} {w : List Char} (h : Matches r w) : Matches (.alt r s) w
  | altRight {r s : Regex} {w : List Char} (h : Matches s w) : Matches (.alt r s) w
  | starNil {r : Regex} : Matches (.star r) []
  | starCons {r : Regex} {u v : List Char} (hr : Matches r u) (hs : Matches (.star r) v) :
      Matches (.star r) (u ++ v)

/-- One given character. -/
def char (c : Char) : Regex := one (· == c)

/-- One given word. -/
def word (cs : List Char) : Regex := cs.foldr (fun c r => seq (char c) r) empty

/-- A word or nothing. -/
def opt (r : Regex) : Regex := alt empty r

/-- Whether the empty word matches. -/
def nullable : Regex → Bool
  | never => false
  | empty => true
  | one _ => false
  | seq r s => r.nullable && s.nullable
  | alt r s => r.nullable || s.nullable
  | star _ => true

/-- Whether the expression is plainly without words. -/
def isNever : Regex → Bool
  | never => true
  | _ => false

/-- A sequence, simplified when one part is `never` or `empty`. -/
def join : Regex → Regex → Regex
  | never, _ => never
  | empty, s => s
  | r, s => if s.isNever then never else seq r s

/-- An alternative, simplified when one side is `never`. -/
def either : Regex → Regex → Regex
  | never, s => s
  | r, s => if s.isNever then r else alt r s

/-- What may follow the character `c` at the start of a word. -/
def derive (c : Char) : Regex → Regex
  | never => never
  | empty => never
  | one p => if p c then empty else never
  | seq r s =>
    if r.nullable then either (join (r.derive c) s) (s.derive c) else join (r.derive c) s
  | alt r s => either (r.derive c) (s.derive c)
  | star r => join (r.derive c) (star r)

/-- The length of the longest match so far, where `read` characters have been read and `r` says what
may follow. -/
def longestFrom (r : Regex) (read : Nat) (best : Option Nat) : List Char → Option Nat
  | [] => if r.nullable then some read else best
  | c :: cs =>
    let best := if r.nullable then some read else best
    let next := r.derive c
    if next.isNever then best else longestFrom next (read + 1) best cs

/-- The length of the longest beginning of a text that matches. -/
def longest (r : Regex) (cs : List Char) : Option Nat := longestFrom r 0 none cs

/-- The expression without words matches none. -/
@[simp]
theorem not_matches_never {w : List Char} : ¬ Matches never w := nofun

/-- Only the empty word matches the empty expression. -/
@[simp]
theorem matches_empty_iff {w : List Char} : Matches empty w ↔ w = [] := by
  constructor
  · rintro ⟨⟩
    rfl
  · rintro rfl
    exact .empty

/-- A character class matches single characters. -/
@[simp]
theorem matches_one_iff {p : Char → Bool} {w : List Char} :
    Matches (one p) w ↔ ∃ c, p c = true ∧ w = [c] := by
  constructor
  · intro h
    cases h with
    | one h => exact ⟨_, h, rfl⟩
  · rintro ⟨c, h, rfl⟩
    exact .one h

/-- A sequence matches a word of each part, one behind the other. -/
theorem matches_seq_iff {r s : Regex} {w : List Char} :
    Matches (seq r s) w ↔ ∃ u v, w = u ++ v ∧ Matches r u ∧ Matches s v := by
  constructor
  · rintro ⟨⟩
    exact ⟨_, _, rfl, by assumption, by assumption⟩
  · rintro ⟨u, v, rfl, hr, hs⟩
    exact .seq hr hs

/-- A choice matches the words of both sides. -/
theorem matches_alt_iff {r s : Regex} {w : List Char} :
    Matches (alt r s) w ↔ Matches r w ∨ Matches s w := by
  constructor
  · intro h
    cases h with
    | altLeft h => exact .inl h
    | altRight h => exact .inr h
  · rintro (h | h)
    · exact .altLeft h
    · exact .altRight h

/-- A non-empty word of a star starts with a non-empty word of its body. -/
theorem matches_star_cons_iff {r : Regex} {c : Char} {w : List Char} :
    Matches (star r) (c :: w) ↔ ∃ u v, w = u ++ v ∧ Matches r (c :: u) ∧ Matches (star r) v := by
  constructor
  · intro h
    generalize hs : star r = s at h
    generalize hx : c :: w = x at h
    induction h with
    | starNil => cases hx
    | @starCons r u v hr hrest _ ih =>
      cases u with
      | nil => exact ih hs hx
      | cons d u =>
        injection hs with hs
        subst hs
        injection hx with hd hw
        subst hd
        exact ⟨u, v, hw, hr, hrest⟩
    | _ => cases hs
  · rintro ⟨u, v, rfl, hr, hs⟩
    exact .starCons (u := c :: u) hr hs

/-- The check finds the expression without words. -/
theorem isNever_iff {r : Regex} : r.isNever = true ↔ r = never := by
  cases r <;> simp [isNever]

/-- The simplified sequence matches what the sequence does. -/
theorem matches_join_iff {r s : Regex} {w : List Char} :
    Matches (join r s) w ↔ Matches (seq r s) w := by
  unfold join
  split
  · simp [matches_seq_iff]
  · rw [matches_seq_iff]
    constructor
    · intro h
      exact ⟨[], w, rfl, .empty, h⟩
    · rintro ⟨u, v, rfl, hu, hv⟩
      simpa [matches_empty_iff.1 hu] using hv
  · split
    · rename_i h
      simp [matches_seq_iff, isNever_iff.1 h]
    · rfl

/-- The simplified choice matches what the choice does. -/
theorem matches_either_iff {r s : Regex} {w : List Char} :
    Matches (either r s) w ↔ Matches (alt r s) w := by
  unfold either
  split
  · simp [matches_alt_iff]
  · split
    · rename_i h
      simp [matches_alt_iff, isNever_iff.1 h]
    · rfl

/-- An expression is nullable if it matches the empty word. -/
theorem nullable_iff {r : Regex} : r.nullable = true ↔ Matches r [] := by
  induction r with
  | never => simp [nullable]
  | empty => simp [nullable]
  | one p => simp [nullable]
  | seq r s ihr ihs =>
    simp only [nullable, Bool.and_eq_true, ihr, ihs, matches_seq_iff]
    constructor
    · rintro ⟨hr, hs⟩
      exact ⟨[], [], rfl, hr, hs⟩
    · rintro ⟨u, v, h, hr, hs⟩
      obtain ⟨rfl, rfl⟩ := List.nil_eq_append_iff.1 h
      exact ⟨hr, hs⟩
  | alt r s ihr ihs => simp [nullable, matches_alt_iff, ihr, ihs]
  | star r => simp [nullable, Matches.starNil]

/-- The derivative matches what may follow the character. -/
theorem matches_derive_iff {r : Regex} {c : Char} {w : List Char} :
    Matches (r.derive c) w ↔ Matches r (c :: w) := by
  induction r generalizing w with
  | never => simp [derive]
  | empty => simp [derive]
  | one p =>
    simp only [derive]
    split
    · rename_i h
      simp only [matches_empty_iff, matches_one_iff, List.cons.injEq]
      constructor
      · rintro rfl
        exact ⟨c, h, rfl, rfl⟩
      · rintro ⟨d, -, -, hw⟩
        exact hw
    · rename_i h
      simp only [not_matches_never, matches_one_iff, List.cons.injEq, false_iff]
      rintro ⟨d, hd, rfl, -⟩
      exact h hd
  | alt r s ihr ihs => simp [derive, matches_either_iff, matches_alt_iff, ihr, ihs]
  | star r ih =>
    simp only [derive, matches_join_iff, matches_seq_iff, matches_star_cons_iff, ih]
  | seq r s ihr ihs =>
    have tail : Matches (join (r.derive c) s) w ↔
        ∃ u v, w = u ++ v ∧ Matches r (c :: u) ∧ Matches s v := by
      simp only [matches_join_iff, matches_seq_iff, ihr]
    have split : Matches (seq r s) (c :: w) ↔
        (Matches r [] ∧ Matches s (c :: w)) ∨
          ∃ u v, w = u ++ v ∧ Matches r (c :: u) ∧ Matches s v := by
      rw [matches_seq_iff]
      constructor
      · rintro ⟨u, v, h, hr, hs⟩
        cases u with
        | nil => exact .inl ⟨hr, by simpa [h] using hs⟩
        | cons d u =>
          injection h with hd hw
          subst hd
          exact .inr ⟨u, v, hw, hr, hs⟩
      · rintro (⟨hr, hs⟩ | ⟨u, v, rfl, hr, hs⟩)
        · exact ⟨[], _, rfl, hr, hs⟩
        · exact ⟨c :: u, v, rfl, hr, hs⟩
    rw [split]
    simp only [derive]
    split
    · rename_i h
      rw [matches_either_iff, matches_alt_iff, tail, ihs]
      simp [nullable_iff.1 h, or_comm]
    · rename_i h
      rw [tail]
      simp [← nullable_iff, h]

/-- A longer match replaces the best one so far. -/
theorem longestFrom_eq (r : Regex) (read : Nat) (best : Option Nat) (cs : List Char) :
    longestFrom r read best cs =
      match longest r cs with
      | some n => some (read + n)
      | none => best := by
  suffices h : ∀ (r : Regex) (read start : Nat) (best : Option Nat),
      longestFrom r (start + read) best cs =
        match longestFrom r read none cs with
        | some n => some (start + n)
        | none => best by
    simpa [longest] using h r 0 read best
  induction cs with
  | nil =>
    intro r read start best
    simp only [longestFrom]
    split <;> simp
  | cons c cs ih =>
    intro r read start best
    simp only [longestFrom]
    split
    · split <;> simp
    · rw [Nat.add_assoc, ih (r.derive c) (read + 1) start]
      have h := ih (r.derive c) (read + 1) 0 (if r.nullable then some read else none)
      simp only [Nat.zero_add] at h
      rw [h]
      cases longestFrom (r.derive c) (read + 1) none cs with
      | some n => rfl
      | none => cases r.nullable <;> rfl

/-- At the end the empty word is the only one left. -/
theorem longest_nil (r : Regex) : longest r [] = if r.nullable then some 0 else none := rfl

/-- A longer match goes on behind the first character. -/
theorem longest_cons (r : Regex) (c : Char) (cs : List Char) :
    longest r (c :: cs) =
      match longest (r.derive c) cs with
      | some n => some (n + 1)
      | none => if r.nullable then some 0 else none := by
  rw [longest, longestFrom]
  split
  · rename_i h
    have hn : longest never cs = none := by
      cases cs <;> simp [longest, longestFrom, nullable, derive, isNever]
    simp [isNever_iff.1 h, hn]
  · rw [longestFrom_eq]
    split <;> simp_all [Nat.add_comm]

/-- A text has no longest match when no beginning of it matches. -/
theorem longest_eq_none_iff {r : Regex} {cs : List Char} :
    longest r cs = none ↔ ∀ n ≤ cs.length, ¬ Matches r (cs.take n) := by
  induction cs generalizing r with
  | nil => simp [longest_nil, ← nullable_iff]
  | cons c cs ih =>
    rw [longest_cons]
    constructor
    · intro h n hn
      split at h
      · cases h
      · rename_i hd
        cases n with
        | zero => simpa [← nullable_iff] using h
        | succ n =>
          rw [List.take_succ_cons, ← matches_derive_iff]
          exact ih.1 hd n (by simpa using hn)
    · intro h
      have hd : longest (r.derive c) cs = none := ih.2 fun n hn => by
        rw [matches_derive_iff, ← List.take_succ_cons]
        exact h (n + 1) (by simpa using hn)
      have h0 := h 0 (Nat.zero_le _)
      rw [hd]
      simpa [← nullable_iff] using h0

/-- The longest match is the length of a beginning that matches, and no longer one does. -/
theorem longest_eq_some_iff {r : Regex} {cs : List Char} {n : Nat} :
    longest r cs = some n ↔
      n ≤ cs.length ∧ Matches r (cs.take n) ∧
        ∀ m, n < m → m ≤ cs.length → ¬ Matches r (cs.take m) := by
  induction cs generalizing r n with
  | nil =>
    rw [longest_nil]
    constructor
    · intro h
      split at h
      · rename_i hr
        cases h
        exact ⟨Nat.le_refl _, nullable_iff.1 hr, fun m h h' => by simp at h'; omega⟩
      · cases h
    · rintro ⟨hn, hm, -⟩
      have : n = 0 := by simpa using hn
      subst this
      simp [nullable_iff.2 (by simpa using hm)]
  | cons c cs ih =>
    rw [longest_cons]
    cases hd : longest (r.derive c) cs with
    | some k =>
      obtain ⟨hk, hmatch, hmax⟩ := ih.1 hd
      constructor
      · intro h
        cases h
        refine ⟨by simpa using hk, ?_, ?_⟩
        · rw [List.take_succ_cons, ← matches_derive_iff]
          exact hmatch
        · intro m hlt hle
          cases m with
          | zero => omega
          | succ m =>
            rw [List.take_succ_cons, ← matches_derive_iff]
            exact hmax m (by omega) (by simpa using hle)
      · rintro ⟨hn, hm, hmax'⟩
        have hk' : Matches r ((c :: cs).take (k + 1)) := by
          rw [List.take_succ_cons, ← matches_derive_iff]
          exact hmatch
        cases n with
        | zero => exact absurd hk' (hmax' (k + 1) (by omega) (by simpa using hk))
        | succ n =>
          rw [List.take_succ_cons, ← matches_derive_iff] at hm
          have h1 : ¬ k < n := fun h => hmax n h (by simpa using hn) hm
          have h2 : ¬ n < k := fun h => hmax' (k + 1) (by omega) (by simpa using hk) hk'
          simp only [Option.some.injEq]
          omega
    | none =>
      have hnone := longest_eq_none_iff.1 hd
      have htail : ∀ m, m + 1 ≤ (c :: cs).length → ¬ Matches r ((c :: cs).take (m + 1)) := by
        intro m hm
        rw [List.take_succ_cons, ← matches_derive_iff]
        exact hnone m (by simpa using hm)
      constructor
      · intro h
        dsimp only at h
        split at h
        · rename_i hr
          cases h
          refine ⟨Nat.zero_le _, nullable_iff.1 hr, fun m hlt hle => ?_⟩
          cases m with
          | zero => omega
          | succ m => exact htail m hle
        · cases h
      · rintro ⟨hn, hm, -⟩
        cases n with
        | zero => simp [nullable_iff.2 (by simpa using hm)]
        | succ n => exact absurd hm (htail n hn)

end Regex

end ExprFront
