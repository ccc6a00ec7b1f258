import ExprFront.Proofs.Lexical.Words
import Mathlib.Data.List.Induction

/-!
# The longest word

The rule table reads the longest word of any class at the front of a text, and a name only where no
other class has the same word (`Rule.longest_eq_some_iff`); it reads nothing where no class has a
word (`Rule.longest_eq_none_iff`).
-/

namespace ExprFront

/-- The word `w` is the longest one at the front of `w ++ rest`, and its class is that of names only
where no other class has it. -/
structure IsLongestWord (c : WordClass) (w rest : List Char) : Prop where
  word : c.Language w
  longest : ∀ c' v v', w ++ rest = v ++ v' → WordClass.Language c' v → v.length ≤ w.length
  name : c = .ident → ∀ c', WordClass.Language c' w → c' = .ident

/-- No word of any class stands at the front of a text. -/
def NoWord (cs : List Char) : Prop := ∀ c v v', cs = v ++ v' → ¬ WordClass.Language c v

/-- A text has one longest word at most. -/
lemma IsLongestWord.unique {c c' : WordClass} {w w' rest rest' : List Char}
    (h : IsLongestWord c w rest) (h' : IsLongestWord c' w' rest')
    (heq : w ++ rest = w' ++ rest') : c = c' ∧ w = w' := by
  have hle := h.longest c' w' rest' heq h'.word
  have hge := h'.longest c w rest heq.symm h.word
  obtain ⟨rfl, -⟩ := List.append_inj heq (Nat.le_antisymm hge hle)
  obtain rfl | rfl | rfl := h.word.eq_or_ident h'.word
  · exact ⟨rfl, rfl⟩
  · exact ⟨(h.name rfl c' h'.word).symm, rfl⟩
  · exact ⟨h'.name rfl c h.word, rfl⟩

namespace Rule

/-- What the rules of a list read at best: nothing, or the most that any of them reads, where the
rules before the one that reads it read less. -/
def Best (cs : List Char) (rules : List Rule) : Option (WordClass × Nat) → Prop
  | none => ∀ r ∈ rules, r.pattern.longest cs = none
  | some (c, n) => ∃ before r after, rules = before ++ r :: after ∧ r.wordClass = c ∧
      r.pattern.longest cs = some n ∧
      (∀ r' ∈ before, ∀ m, r'.pattern.longest cs = some m → m < n) ∧
      (∀ r' ∈ after, ∀ m, r'.pattern.longest cs = some m → m ≤ n)

/-- The best that rules read, with one more rule after them. -/
lemma Best.better {cs : List Char} {rules : List Rule} {best : Option (WordClass × Nat)}
    (h : Best cs rules best) (r : Rule) : Best cs (rules ++ [r]) (better cs best r) := by
  cases hr : r.pattern.longest cs with
  | none =>
    simp only [Rule.better, hr]
    cases best with
    | none =>
      intro r' hr'
      obtain hr' | hr' := List.mem_append.1 hr'
      · exact h r' hr'
      · rw [List.mem_singleton.1 hr', hr]
    | some found =>
      obtain ⟨before, r₁, after, rfl, hc, hn, hbefore, hafter⟩ := h
      refine ⟨before, r₁, after ++ [r], by simp, hc, hn, hbefore, fun r' hr' m hm => ?_⟩
      obtain hr' | hr' := List.mem_append.1 hr'
      · exact hafter r' hr' m hm
      · rw [List.mem_singleton.1 hr', hr] at hm
        cases hm
  | some n =>
    cases best with
    | none =>
      simp only [Rule.better, hr]
      refine ⟨rules, r, [], rfl, rfl, hr, fun r' hr' m hm => ?_, fun r' hr' => absurd hr' (by simp)⟩
      rw [h r' hr'] at hm
      cases hm
    | some found =>
      obtain ⟨c, k⟩ := found
      obtain ⟨before, r₁, after, rfl, hc, hk, hbefore, hafter⟩ := h
      simp only [Rule.better, hr]
      split
      next hlt =>
        -- the new rule reads more than the best so far, so more than all before it
        refine ⟨_, r, [], rfl, rfl, hr, fun r' hr' m hm => ?_, fun r' hr' => absurd hr' (by simp)⟩
        obtain hr' | hr' := List.mem_append.1 hr'
        · exact Nat.lt_trans (hbefore r' hr' m hm) hlt
        · obtain rfl | hr' := List.mem_cons.1 hr'
          · rw [hk] at hm
            cases hm
            exact hlt
          · exact Nat.lt_of_le_of_lt (hafter r' hr' m hm) hlt
      next hle =>
        refine ⟨before, r₁, after ++ [r], by simp, hc, hk, hbefore, fun r' hr' m hm => ?_⟩
        obtain hr' | hr' := List.mem_append.1 hr'
        · exact hafter r' hr' m hm
        · rw [List.mem_singleton.1 hr', hr] at hm
          cases hm
          exact Nat.le_of_not_lt hle

/-- Comparing the rules one after the other finds the best of them. -/
lemma best_foldl (cs : List Char) (rules : List Rule) :
    Best cs rules (rules.foldl (better cs) none) := by
  induction rules using List.reverseRecOn with
  | nil => exact fun r hr => absurd hr List.not_mem_nil
  | append_singleton rules r ih =>
    rw [List.foldl_append]
    exact ih.better r

/-- What the pattern of a rule reads is a word of its class. -/
lemma exists_word {r : Rule} (hr : r ∈ all) {cs : List Char} {n : Nat}
    (h : r.pattern.longest cs = some n) :
    ∃ w rest, cs = w ++ rest ∧ w.length = n ∧ r.wordClass.Language w := by
  obtain ⟨hn, hm, -⟩ := Regex.longest_eq_some_iff.1 h
  exact ⟨cs.take n, cs.drop n, (List.take_append_drop n cs).symm, List.length_take_of_le hn,
    (matches_iff hr).1 hm⟩

/-- The pattern of a rule reads at least as much as any word of its class. -/
lemma exists_longest {r : Rule} (hr : r ∈ all) {w : List Char} (h : r.wordClass.Language w)
    (rest : List Char) :
    ∃ n, r.pattern.longest (w ++ rest) = some n ∧ w.length ≤ n := by
  have hlen : w.length ≤ (w ++ rest).length := by simp
  have hm : r.pattern.Matches ((w ++ rest).take w.length) := by
    rw [List.take_left]
    exact (matches_iff hr).2 h
  cases hl : r.pattern.longest (w ++ rest) with
  | none => exact absurd hm (Regex.longest_eq_none_iff.1 hl _ hlen)
  | some n =>
    refine ⟨n, rfl, Nat.le_of_not_lt fun hlt => ?_⟩
    exact (Regex.longest_eq_some_iff.1 hl).2.2 _ hlt hlen hm

/-- The rule of names is the last one. -/
lemma all_eq_append_ident :
    ∃ rules, all = rules ++ [⟨.ident, identPattern⟩] ∧ ∀ r ∈ rules, r.wordClass ≠ .ident := by
  refine ⟨all.dropLast, rfl, ?_⟩
  decide

/-- Nothing is read where no word stands. -/
theorem longest_eq_none_iff {cs : List Char} : Rule.longest cs = none ↔ NoWord cs := by
  have hbest := best_foldl cs all
  refine ⟨fun h c v v' heq hv => ?_, fun h => ?_⟩
  · rw [show all.foldl (better cs) none = none from h] at hbest
    obtain ⟨r, hr, rfl⟩ := exists_mem_all c
    obtain ⟨n, hn, -⟩ := exists_longest hr hv v'
    rw [← heq, hbest r hr] at hn
    cases hn
  · cases hl : Rule.longest cs with
    | none => rfl
    | some found =>
      rw [show all.foldl (better cs) none = some found from hl] at hbest
      obtain ⟨before, r, after, hall, -, hn, -⟩ := hbest
      have hr : r ∈ all := hall ▸ List.mem_append_right before List.mem_cons_self
      obtain ⟨w, rest, heq, -, hw⟩ := exists_word hr hn
      exact absurd hw (h _ w rest heq)

/-- What the rules read is the longest word in front of the rest. -/
lemma isLongestWord_of_longest {cs : List Char} {c : WordClass} {n : Nat}
    (h : Rule.longest cs = some (c, n)) :
    ∃ w rest, cs = w ++ rest ∧ w.length = n ∧ IsLongestWord c w rest := by
  have hbest := best_foldl cs all
  rw [show all.foldl (better cs) none = some (c, n) from h] at hbest
  obtain ⟨before, r, after, hall, rfl, hn, hbefore, hafter⟩ := hbest
  have hr : r ∈ all := hall ▸ List.mem_append_right before List.mem_cons_self
  obtain ⟨w, rest, rfl, rfl, hw⟩ := exists_word hr hn
  refine ⟨w, rest, rfl, rfl, hw, fun c' v v' heq hv => ?_, fun hc c' hv => ?_⟩
  · obtain ⟨r', hr', rfl⟩ := exists_mem_all c'
    obtain ⟨m, hm, hle⟩ := exists_longest hr' hv v'
    rw [← heq] at hm
    rw [hall] at hr'
    obtain hr' | hr' := List.mem_append.1 hr'
    · exact Nat.le_trans hle (Nat.le_of_lt (hbefore r' hr' m hm))
    · obtain rfl | hr' := List.mem_cons.1 hr'
      · rw [hn] at hm
        cases hm
        exact hle
      · exact Nat.le_trans hle (hafter r' hr' m hm)
  · -- the rule of names is the last, so the rule of another class stands before it and reads less
    obtain ⟨rules, hrules, hident⟩ := all_eq_append_ident
    obtain ⟨r', hr', rfl⟩ := exists_mem_all c'
    obtain ⟨m, hm, hle⟩ := exists_longest hr' hv rest
    obtain rfl : after = [] := by
      obtain hnil | ⟨init, last, rfl⟩ := List.eq_nil_or_concat after
      · exact hnil
      · rw [hall, List.concat_eq_append, ← List.cons_append, ← List.append_assoc] at hrules
        obtain ⟨rfl, -⟩ := List.append_inj' hrules rfl
        exact absurd hc (hident r (List.mem_append_right before List.mem_cons_self))
    obtain ⟨rfl, hlast⟩ := List.append_inj' (hall.symm.trans hrules) rfl
    rw [hall] at hr'
    obtain hr' | hr' := List.mem_append.1 hr'
    · exact absurd (hbefore r' hr' m hm) (Nat.not_lt.2 hle)
    · rw [List.mem_singleton.1 hr', hc]

/-- The rules read the longest word in front of the rest. -/
lemma longest_of_isLongestWord {c : WordClass} {w rest : List Char} (h : IsLongestWord c w rest) :
    Rule.longest (w ++ rest) = some (c, w.length) := by
  cases hl : Rule.longest (w ++ rest) with
  | none => exact absurd h.word (longest_eq_none_iff.1 hl c w rest rfl)
  | some found =>
    obtain ⟨c', n⟩ := found
    obtain ⟨w', rest', heq, rfl, h'⟩ := isLongestWord_of_longest hl
    obtain ⟨rfl, rfl⟩ := h.unique h' heq
    rfl

/-- What is read is the longest word, by its class and length. -/
theorem longest_eq_some_iff {cs : List Char} {c : WordClass} {n : Nat} :
    Rule.longest cs = some (c, n) ↔
      ∃ w rest, cs = w ++ rest ∧ w.length = n ∧ IsLongestWord c w rest := by
  refine ⟨isLongestWord_of_longest, fun ⟨w, rest, heq, hlen, h⟩ => ?_⟩
  rw [heq, ← hlen]
  exact longest_of_isLongestWord h

end Rule

end ExprFront
