import ExprFront.Numeral
import Mathlib.Data.List.Forall2
import Mathlib.Data.Nat.Digits.Defs
import Mathlib.Tactic.IntervalCases
import Mathlib.Tactic.Lemma

/-!
# Numerals and the numbers that they write

`IsNumeral radix cs n` says in positional notation that the digits `cs` write the number `n`. In the
bases up to sixteen a text is read as a number exactly if it is a numeral of this number
(`natural?_eq_some_iff`).
-/

namespace ExprFront.Numeral

/-- The character stands for the number `d` as a digit, in either case. -/
def IsDigit (radix : Nat) (c : Char) (d : Nat) : Prop :=
  d < radix ∧ (c = d.digitChar ∨ c = d.digitChar.toUpper)

/-- One or more digits of a base, the most significant one first, write the number `n`. -/
def IsNumeral (radix : Nat) (cs : List Char) (n : Nat) : Prop :=
  ∃ ds, ds ≠ [] ∧ List.Forall₂ (IsDigit radix) cs ds ∧ Nat.ofDigits radix ds.reverse = n

variable {radix : Nat}

/-- The places of the digits in the character table. -/
lemma toNat_digitChar {d : Nat} (h : d < 16) :
    d.digitChar.toNat = (if d < 10 then d + 48 else d + 87) ∧
      d.digitChar.toUpper.toNat = if d < 10 then d + 48 else d + 55 := by
  interval_cases d <;> decide

/-- The digits by their places in the character table. -/
lemma isDigit_iff (hr : radix ≤ 16) {c : Char} {d : Nat} :
    IsDigit radix c d ↔ d < radix ∧
      (d < 10 ∧ c.toNat = d + 48 ∨ 10 ≤ d ∧ (c.toNat = d + 87 ∨ c.toNat = d + 55)) := by
  rw [IsDigit, ← Char.toNat_inj, ← Char.toNat_inj]
  apply and_congr_right
  intro hd
  obtain ⟨hlower, hupper⟩ := toNat_digitChar (Nat.lt_of_lt_of_le hd hr)
  rw [hlower, hupper]
  split <;> omega

/-- The hexadecimal digits are read by their places in the character table. -/
lemma hexDigit?_eq (c : Char) :
    hexDigit? c =
      if 48 ≤ c.toNat ∧ c.toNat ≤ 57 then some (c.toNat - 48)
      else if 97 ≤ c.toNat ∧ c.toNat ≤ 102 then some (c.toNat - 97 + 10)
      else if 65 ≤ c.toNat ∧ c.toNat ≤ 70 then some (c.toNat - 65 + 10)
      else none := by
  simp only [hexDigit?, Char.le_def, UInt32.le_iff_toNat_le]
  rfl

/-- The hexadecimal digits are read as the numbers that they stand for. -/
lemma hexDigit?_eq_some_iff {c : Char} {d : Nat} : hexDigit? c = some d ↔ IsDigit 16 c d := by
  rw [hexDigit?_eq, isDigit_iff (Nat.le_refl 16)]
  split_ifs <;> simp only [Option.some.injEq, false_iff] <;> omega

/-- The digits of a base are read as such, with the numbers that they stand for. -/
lemma digit?_eq_some_iff (hr : radix ≤ 16) {c : Char} {d : Nat} :
    digit? radix c = some d ↔ IsDigit radix c d := by
  rw [digit?, Option.filter_eq_some_iff, hexDigit?_eq_some_iff, decide_eq_true_eq]
  constructor
  · rintro ⟨⟨-, hc⟩, hd⟩
    exact ⟨hd, hc⟩
  · rintro ⟨hd, hc⟩
    exact ⟨⟨Nat.lt_of_lt_of_le hd hr, hc⟩, hd⟩

/-- A digit is none of the characters that are not read as one. -/
lemma IsDigit.ne (hr : radix ≤ 16) {c x : Char} {d : Nat} (h : IsDigit radix c d)
    (hx : hexDigit? x = none) : c ≠ x := by
  rintro rfl
  rw [← digit?_eq_some_iff hr, digit?, hx] at h
  cases h

/-- What is read after a number `n` are the digits that follow those of `n`. -/
lemma digitsAfter?_eq_some_iff (hr : radix ≤ 16) {n m : Nat} {cs : List Char} :
    digitsAfter? radix n cs = some m ↔
      ∃ ds, List.Forall₂ (IsDigit radix) cs ds ∧ Nat.ofDigits radix (ds.reverse ++ [n]) = m := by
  induction cs generalizing n with
  | nil =>
    simp only [digitsAfter?, List.forall₂_nil_left_iff, exists_eq_left, List.reverse_nil,
      List.nil_append, Nat.ofDigits_singleton, Option.some.injEq]
  | cons c cs ih =>
    -- the first digit becomes the last one of what has been read
    have hvalue : ∀ (d : Nat) (ds : List Nat), Nat.ofDigits radix ((d :: ds).reverse ++ [n]) =
        Nat.ofDigits radix (ds.reverse ++ [radix * n + d]) := by
      intro d ds
      rw [List.reverse_cons, List.append_assoc, List.singleton_append, Nat.ofDigits_append,
        Nat.ofDigits_append, Nat.ofDigits_cons, Nat.ofDigits_singleton, Nat.ofDigits_singleton,
        Nat.add_comm d]
    rw [digitsAfter?]
    constructor
    · intro h
      split at h
      next d hd =>
        obtain ⟨ds, hds, hm⟩ := ih.1 h
        exact ⟨d :: ds, .cons ((digit?_eq_some_iff hr).1 hd) hds, by rw [hvalue, hm]⟩
      next => cases h
    · intro h
      obtain ⟨_, hds, hm⟩ := h
      cases hds with
      | @cons _ d _ ds hd hds =>
        rw [(digit?_eq_some_iff hr).2 hd]
        exact ih.2 ⟨ds, hds, by rw [← hvalue, hm]⟩

/-- Digits are read one part after the other. -/
lemma digitsAfter?_append {n : Nat} (u v : List Char) :
    digitsAfter? radix n (u ++ v) =
      (digitsAfter? radix n u).bind fun m => digitsAfter? radix m v := by
  induction u generalizing n with
  | nil => rfl
  | cons c u ih =>
    rw [List.cons_append, digitsAfter?, digitsAfter?]
    split
    next => exact ih
    next => rfl

/-- The number that is read is the one that the digits write. -/
theorem natural?_eq_some_iff (hr : radix ≤ 16) {cs : List Char} {n : Nat} :
    natural? radix cs = some n ↔ IsNumeral radix cs n := by
  have hzero : ∀ ds : List Nat, Nat.ofDigits radix (ds.reverse ++ [0]) =
      Nat.ofDigits radix ds.reverse := by
    intro ds
    rw [Nat.ofDigits_append, Nat.ofDigits_singleton, Nat.mul_zero, Nat.add_zero]
  cases cs with
  | nil =>
    constructor
    · exact nofun
    · rintro ⟨_, hne, ⟨⟩, -⟩
      exact absurd rfl hne
  | cons c cs =>
    show digitsAfter? radix 0 (c :: cs) = some n ↔ _
    rw [digitsAfter?_eq_some_iff hr]
    constructor
    · rintro ⟨ds, hds, hn⟩
      rw [hzero] at hn
      refine ⟨ds, ?_, hds, hn⟩
      rintro rfl
      cases hds
    · rintro ⟨ds, -, hds, hn⟩
      exact ⟨ds, hds, by rw [hzero, hn]⟩

/-- A numeral is less than the power of the base with as many zeros. -/
lemma IsNumeral.lt_pow (hr : 1 < radix) {cs : List Char} {n : Nat} (h : IsNumeral radix cs n) :
    n < radix ^ cs.length := by
  obtain ⟨ds, -, hds, rfl⟩ := h
  have hlt : ∀ d ∈ ds, d < radix := by
    induction hds with
    | nil => exact nofun
    | cons hd _ ih => exact List.forall_mem_cons.2 ⟨hd.1, ih⟩
  rw [hds.length_eq, ← List.length_reverse]
  exact Nat.ofDigits_lt_base_pow_length hr fun d hd => hlt d (List.mem_reverse.1 hd)

/-- Every character of a numeral is a digit. -/
lemma IsNumeral.isDigit {cs : List Char} {n : Nat} (h : IsNumeral radix cs n) :
    ∀ c ∈ cs, ∃ d, IsDigit radix c d := by
  obtain ⟨ds, -, hds, -⟩ := h
  clear n
  induction hds with
  | nil => exact nofun
  | cons hd _ ih => exact List.forall_mem_cons.2 ⟨⟨_, hd⟩, ih⟩

/-- A numeral holds no character that is not read as a digit. -/
lemma IsNumeral.notMem (hr : radix ≤ 16) {cs : List Char} {n : Nat} (h : IsNumeral radix cs n)
    {x : Char} (hx : digit? radix x = none) : x ∉ cs := by
  intro hmem
  obtain ⟨d, hd⟩ := h.isDigit x hmem
  rw [← digit?_eq_some_iff hr, hx] at hd
  cases hd

/-- A numeral begins with a digit. -/
lemma IsNumeral.exists_cons {cs : List Char} {n : Nat} (h : IsNumeral radix cs n) :
    ∃ c cs' d, cs = c :: cs' ∧ IsDigit radix c d := by
  obtain ⟨_, hne, hds, -⟩ := h
  cases hds with
  | nil => exact absurd rfl hne
  | cons hd _ => exact ⟨_, _, _, rfl, hd⟩

/-- One or more digits write a number. -/
lemma exists_isNumeral {cs : List Char} (hne : cs ≠ []) (h : ∀ c ∈ cs, ∃ d, IsDigit radix c d) :
    ∃ n, IsNumeral radix cs n := by
  obtain ⟨ds, hds⟩ : ∃ ds, List.Forall₂ (IsDigit radix) cs ds := by
    clear hne
    induction cs with
    | nil => exact ⟨[], .nil⟩
    | cons c cs ih =>
      obtain ⟨⟨d, hd⟩, hcs⟩ := List.forall_mem_cons.1 h
      obtain ⟨ds, hds⟩ := ih hcs
      exact ⟨d :: ds, .cons hd hds⟩
  refine ⟨_, ds, ?_, hds, rfl⟩
  rintro rfl
  cases hds
  exact hne rfl

end ExprFront.Numeral
