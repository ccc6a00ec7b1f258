import ExprFront.Proofs.Numeral.Literals
import Mathlib.Algebra.Order.Field.Power
import Mathlib.Data.Rat.Cast.Order
import Mathlib.Tactic.FieldSimp
import Mathlib.Tactic.Linarith
import Mathlib.Tactic.NormNum
import Mathlib.Tactic.Positivity
import Mathlib.Tactic.Ring

/-!
# The nearest double precision number

The patterns without a sign bit stand for numbers (`Binary64.value`) that grow with them
(`Binary64.value_strictMono`), so the pattern nearest to a number is the one whose two neighbours
are not nearer (`Binary64.isNearest_of_neighbours`). A quotient of natural numbers is rounded to the
nearest pattern, ties going to the even one (`Binary64.ofQuotient_isNearest`), and so is every
decimal that a text denotes (`Numeral.DenotesDecimal.float?_isNearest`).
-/

namespace ExprFront

namespace Binary64

/-- The number that a pattern without a sign bit stands for. Infinity stands for the power of two
behind the largest finite number, which is where rounding takes it to be. -/
def value (p : ℕ) : ℚ :=
  if p < 2 ^ 52 then p * 2 ^ (-1074 : ℤ)
  else (2 ^ 52 + p % 2 ^ 52 : ℕ) * 2 ^ ((p / 2 ^ 52 : ℕ) - 1075 : ℤ)

/-- No pattern up to infinity stands for a number nearer to `x`, and none for a number as near
unless `p` is even. -/
def IsNearest (x : ℚ) (p : ℕ) : Prop :=
  p ≤ infinityPattern ∧ ∀ q ≤ infinityPattern, q ≠ p →
    |value p - x| < |value q - x| ∨ |value p - x| = |value q - x| ∧ p % 2 = 0

/-- Powers of two are positive. -/
lemma two_zpow_pos (e : ℤ) : (0 : ℚ) < 2 ^ e := zpow_pos (by norm_num) e

/-- The pattern of a significand `s` and an exponent of its last place, `k` above the smallest. The
significand may be as large as the power of two behind its 53 bits. -/
lemma value_pattern {s k : ℕ} (hs : s ≤ 2 ^ 53) (hk : k = 0 ∨ 2 ^ 52 ≤ s) :
    value (s + k * 2 ^ 52) = s * 2 ^ (k - 1074 : ℤ) := by
  by_cases hsmall : s + k * 2 ^ 52 < 2 ^ 52
  · obtain rfl : k = 0 := by omega
    rw [value, if_pos hsmall]
    simp
  rw [value, if_neg hsmall]
  by_cases htop : s = 2 ^ 53
  · -- the carry is one more step of the exponent, with an empty fraction
    subst htop
    have hmod : (2 ^ 53 + k * 2 ^ 52) % 2 ^ 52 = 0 := by omega
    have hdiv : (2 ^ 53 + k * 2 ^ 52) / 2 ^ 52 = k + 2 := by omega
    have hexp : ((k + 2 : ℕ) - 1075 : ℤ) = 1 + (k - 1074) := by push_cast; ring
    rw [hmod, hdiv, hexp, zpow_add₀ (by norm_num)]
    push_cast
    ring
  · have hmod : 2 ^ 52 + (s + k * 2 ^ 52) % 2 ^ 52 = s := by omega
    have hdiv : (s + k * 2 ^ 52) / 2 ^ 52 = k + 1 := by omega
    have hexp : ((k + 1 : ℕ) - 1075 : ℤ) = k - 1074 := by push_cast; ring
    rw [hmod, hdiv, hexp]

/-- Every pattern has a significand of at most 53 bits. -/
lemma exists_pattern (p : ℕ) : ∃ s k, p = s + k * 2 ^ 52 ∧ s < 2 ^ 53 ∧ (k = 0 ∨ 2 ^ 52 ≤ s) :=
  ⟨p - (p / 2 ^ 52 - 1) * 2 ^ 52, p / 2 ^ 52 - 1, by omega, by omega, by omega⟩

/-- One more in the pattern is one more in the last place of the significand. -/
lemma value_pattern_succ {s k : ℕ} (hs : s < 2 ^ 53) (hk : k = 0 ∨ 2 ^ 52 ≤ s) :
    value (s + k * 2 ^ 52 + 1) = value (s + k * 2 ^ 52) + 2 ^ (k - 1074 : ℤ) := by
  have hsucc : s + k * 2 ^ 52 + 1 = (s + 1) + k * 2 ^ 52 := by ring
  rw [hsucc, value_pattern (by omega) (by omega), value_pattern (by omega) hk]
  push_cast
  ring

/-- Patterns grow with the numbers that they stand for. -/
lemma value_strictMono : StrictMono value := by
  apply strictMono_nat_of_lt_succ
  intro p
  obtain ⟨s, k, rfl, hs, hk⟩ := exists_pattern p
  rw [value_pattern_succ hs hk]
  exact lt_add_of_pos_right _ (two_zpow_pos _)

/-- The next pattern is a last place away, or two of them where the significand carries. -/
lemma value_pattern_add_le {s k : ℕ} (hs : s ≤ 2 ^ 53) (hk : k = 0 ∨ 2 ^ 52 ≤ s) :
    value (s + k * 2 ^ 52) + 2 ^ (k - 1074 : ℤ) ≤ value (s + k * 2 ^ 52 + 1) := by
  obtain rfl | hlt := Nat.eq_or_lt_of_le hs
  · have hcarry : 2 ^ 53 + k * 2 ^ 52 = 2 ^ 52 + (k + 1) * 2 ^ 52 := by ring
    rw [hcarry, value_pattern_succ (by decide) (.inr (Nat.le_refl _))]
    have hplace : (2 : ℚ) ^ (k - 1074 : ℤ) ≤ 2 ^ ((k + 1 : ℕ) - 1074 : ℤ) :=
      zpow_le_zpow_right₀ one_le_two (by omega)
    linarith
  · exact (value_pattern_succ hlt hk).ge

/-- The smallest pattern stands for zero. -/
lemma value_zero : value 0 = 0 := by simp [value]

/-- Infinity stands for the power of two behind the largest finite number. -/
lemma value_infinity : value infinityPattern = 2 ^ (1024 : ℤ) := by
  have h : infinityPattern = 2 ^ 53 + 2045 * 2 ^ 52 := by decide
  rw [h, value_pattern (Nat.le_refl _) (by omega), show (1024 : ℤ) = 53 + 971 from rfl,
    zpow_add₀ two_ne_zero]
  norm_num

section Neighbours

variable {a b x : ℚ}

/-- Beyond the middle the farther end is behind. -/
lemma abs_lt_of_add_lt (hab : a < b) (h : a + b < 2 * x) : |b - x| < |a - x| := by
  rw [abs_sub_comm a x, abs_of_pos (by linarith : 0 < x - a), abs_lt]
  constructor <;> linarith

/-- Before the middle the farther end is ahead. -/
lemma abs_lt_of_lt_add (hab : a < b) (h : 2 * x < a + b) : |a - x| < |b - x| := by
  rw [abs_of_pos (by linarith : 0 < b - x), abs_lt]
  constructor <;> linarith

/-- In the middle both ends are as near. -/
lemma abs_eq_of_add_eq (h : a + b = 2 * x) : |b - x| = |a - x| := by
  rw [abs_sub_comm a x, show b - x = x - a by linarith]

end Neighbours

/-- A number that is not before the middle to the left and not behind the middle to the right has no
nearer pattern. -/
lemma isNearest_of_neighbours {x : ℚ} {p : ℕ} (hp : p ≤ infinityPattern)
    (hleft : ∀ q, q + 1 = p →
      value q + value p < 2 * x ∨ value q + value p = 2 * x ∧ p % 2 = 0)
    (hright : p < infinityPattern →
      2 * x < value p + value (p + 1) ∨ value p + value (p + 1) = 2 * x ∧ p % 2 = 0) :
    IsNearest x p := by
  refine ⟨hp, fun q hq hne => ?_⟩
  obtain hlt | hlt := Nat.lt_or_gt_of_ne hne
  · have hv := value_strictMono hlt
    obtain ⟨r, rfl⟩ : ∃ r, p = r + 1 := ⟨p - 1, by omega⟩
    obtain rfl | hqr := Nat.eq_or_lt_of_le (Nat.le_of_lt_succ hlt)
    · obtain h | ⟨h, heven⟩ := hleft q rfl
      · exact .inl (abs_lt_of_add_lt hv h)
      · exact .inr ⟨abs_eq_of_add_eq h, heven⟩
    · have hlt' := value_strictMono hqr
      obtain h | ⟨h, -⟩ := hleft r rfl <;> exact .inl (abs_lt_of_add_lt hv (by linarith))
  · have hv := value_strictMono hlt
    obtain rfl | hpq := Nat.eq_or_lt_of_le (Nat.succ_le_of_lt hlt)
    · obtain h | ⟨h, heven⟩ := hright hq
      · exact .inl (abs_lt_of_lt_add hv h)
      · exact .inr ⟨(abs_eq_of_add_eq h).symm, heven⟩
    · have hlt' := value_strictMono hpq
      obtain h | ⟨h, -⟩ := hright (by omega) <;> exact .inl (abs_lt_of_lt_add hv (by linarith))

/-- Infinity is nearest to the numbers from its place on. -/
lemma infinity_isNearest {x : ℚ} (h : 2 ^ (1024 : ℤ) ≤ x) : IsNearest x infinityPattern := by
  refine isNearest_of_neighbours (Nat.le_refl _) (fun q hq => .inl ?_)
    fun h => absurd h (Nat.lt_irrefl _)
  have hlt := value_strictMono (show q < infinityPattern by omega)
  rw [value_infinity] at hlt ⊢
  linarith

/-- Zero is nearest to the numbers up to half of the smallest pattern. -/
lemma zero_isNearest {x : ℚ} (h : 2 * x ≤ 2 ^ (-1074 : ℤ)) : IsNearest x 0 := by
  refine isNearest_of_neighbours (Nat.zero_le _) nofun fun _ => ?_
  have hone : value (0 + 1) = 2 ^ (-1074 : ℤ) := by simp [value]
  rw [value_zero, hone, zero_add]
  exact h.lt_or_eq.imp_right fun h => ⟨h.symm, rfl⟩

/-- The natural number nearest to `t`, the even one of two. -/
def IsRounded (t : ℚ) (s : ℕ) : Prop :=
  (2 * s < 2 * t + 1 ∨ 2 * s = 2 * t + 1 ∧ s % 2 = 0) ∧
    (2 * t < 2 * s + 1 ∨ 2 * s + 1 = 2 * t ∧ s % 2 = 0)

/-- Rounding a quotient, in terms of the multiples of the divisor. -/
lemma isRounded_div_iff {x u : ℚ} {s : ℕ} (hu : 0 < u) :
    IsRounded (x / u) s ↔
      (2 * (s * u) < 2 * x + u ∨ 2 * (s * u) = 2 * x + u ∧ s % 2 = 0) ∧
        (2 * x < 2 * (s * u) + u ∨ 2 * (s * u) + u = 2 * x ∧ s % 2 = 0) := by
  have hup : 2 * (x / u) + 1 = (2 * x + u) / u := by field_simp
  have htwice : 2 * (x / u) = 2 * x / u := by ring
  rw [IsRounded, hup, htwice, lt_div_iff₀ hu, eq_div_iff hu.ne', div_lt_iff₀ hu,
    eq_div_iff hu.ne', add_mul, one_mul, mul_assoc]

/-- The division rounds to the nearest natural number. -/
lemma roundDiv_isRounded (num : ℕ) {den : ℕ} (hden : 0 < den) :
    IsRounded (num / den) (roundDiv num den) := by
  rw [isRounded_div_iff (Nat.cast_pos.2 hden)]
  norm_cast
  rw [roundDiv]
  have hmod := Nat.div_add_mod' num den
  have hlt := Nat.mod_lt num hden
  generalize num / den = q at *
  generalize num % den = r at *
  have hsucc := Nat.add_one_mul q den
  split_ifs with hsmall hlarge
  · omega
  · omega
  · obtain heven | hodd := Nat.mod_two_eq_zero_or_one q
    · rw [heven, Nat.add_zero]
      omega
    · rw [hodd]
      omega

/-- The quotient is rounded in units of the power. -/
lemma scaled_isRounded (num : ℕ) {den : ℕ} (hden : 0 < den) (e : ℤ) :
    IsRounded (num / den / 2 ^ e) (scaled num den e) := by
  rw [scaled]
  split_ifs with he
  · obtain ⟨n, rfl⟩ := Int.eq_ofNat_of_zero_le he
    have h := roundDiv_isRounded num (Nat.mul_pos hden (Nat.two_pow_pos n))
    rw [Nat.cast_mul, ← div_div, Nat.cast_pow] at h
    exact h
  · obtain ⟨n, hn⟩ := Int.eq_ofNat_of_zero_le (show 0 ≤ -e by omega)
    obtain rfl : e = -n := by omega
    have h := roundDiv_isRounded (num * 2 ^ n) hden
    rw [Nat.cast_mul, Nat.cast_pow, mul_div_right_comm] at h
    rw [zpow_neg, div_inv_eq_mul, neg_neg]
    exact h

/-- The comparison with a power of two is exact. -/
lemma belowPower_iff {num den : ℕ} (hden : 0 < den) (e : ℤ) :
    belowPower num den e = true ↔ (num / den : ℚ) < 2 ^ e := by
  have hpos : (0 : ℚ) < den := Nat.cast_pos.2 hden
  rw [belowPower, div_lt_iff₀ hpos]
  split_ifs with he
  · obtain ⟨n, rfl⟩ := Int.eq_ofNat_of_zero_le he
    rw [decide_eq_true_eq, mul_comm, zpow_natCast]
    exact_mod_cast Iff.rfl
  · obtain ⟨n, hn⟩ := Int.eq_ofNat_of_zero_le (show 0 ≤ -e by omega)
    obtain rfl : e = -n := by omega
    rw [decide_eq_true_eq, zpow_neg, inv_mul_eq_div, lt_div_iff₀ (two_zpow_pos _), neg_neg,
      zpow_natCast]
    exact_mod_cast Iff.rfl

/-- The lengths of numerator and denominator give the leading place up to one. -/
lemma quotient_log2 {num den : ℕ} (hnum : num ≠ 0) (hden : 0 < den) :
    (2 : ℚ) ^ ((num.log2 : ℤ) - den.log2 - 1) ≤ num / den ∧
      (num / den : ℚ) < 2 ^ ((num.log2 : ℤ) - den.log2 + 1) := by
  have hpos : (0 : ℚ) < den := Nat.cast_pos.2 hden
  have hnumLow : (2 : ℚ) ^ num.log2 ≤ num := by exact_mod_cast Nat.log2_self_le hnum
  have hnumHigh : (num : ℚ) < 2 ^ (num.log2 + 1) := by exact_mod_cast Nat.lt_log2_self
  have hdenLow : (2 : ℚ) ^ den.log2 ≤ den := by exact_mod_cast Nat.log2_self_le hden.ne'
  have hdenHigh : (den : ℚ) < 2 ^ (den.log2 + 1) := by exact_mod_cast Nat.lt_log2_self
  have htwo : (2 : ℚ) ≠ 0 := two_ne_zero
  rw [le_div_iff₀ hpos, div_lt_iff₀ hpos]
  constructor
  · calc (2 : ℚ) ^ ((num.log2 : ℤ) - den.log2 - 1) * den
        ≤ 2 ^ ((num.log2 : ℤ) - den.log2 - 1) * 2 ^ (den.log2 + 1) := by gcongr
      _ = 2 ^ num.log2 := by
          rw [← zpow_natCast, ← zpow_add₀ htwo, ← zpow_natCast]
          congr 1
          push_cast
          ring
      _ ≤ num := hnumLow
  · calc (num : ℚ) < 2 ^ (num.log2 + 1) := hnumHigh
      _ = 2 ^ ((num.log2 : ℤ) - den.log2 + 1) * 2 ^ den.log2 := by
          rw [← zpow_natCast, ← zpow_natCast, ← zpow_add₀ htwo]
          congr 1
          push_cast
          ring
      _ ≤ 2 ^ ((num.log2 : ℤ) - den.log2 + 1) * den := by gcongr

/-- The quotient has 53 bits before the last place, or fewer if that is the smallest one. -/
lemma lastPlace_spec {num den : ℕ} (hnum : num ≠ 0) (hden : 0 < den) :
    -1074 ≤ lastPlace num den ∧ (num / den : ℚ) < 2 ^ (lastPlace num den + 53) ∧
      (-1074 < lastPlace num den → (2 : ℚ) ^ (lastPlace num den + 52) ≤ num / den) := by
  obtain ⟨hlow, hhigh⟩ := quotient_log2 hnum hden
  have hmono : ∀ {a b : ℤ}, a ≤ b → (2 : ℚ) ^ a ≤ 2 ^ b := fun h =>
    zpow_le_zpow_right₀ one_le_two h
  rw [lastPlace]
  generalize (num.log2 : ℤ) - den.log2 = e at *
  refine ⟨le_max_left _ _, ?_⟩
  split_ifs with hbelow
  · rw [belowPower_iff hden] at hbelow
    exact ⟨hbelow.trans_le (hmono (by omega)), fun h => (hmono (by omega)).trans hlow⟩
  · rw [belowPower_iff hden, not_lt] at hbelow
    exact ⟨hhigh.trans_le (hmono (by omega)), fun h => (hmono (by omega)).trans hbelow⟩

/-- Rounding does not pass a natural number. -/
lemma IsRounded.le {t : ℚ} {s n : ℕ} (h : IsRounded t s) (ht : t ≤ n) : s ≤ n := by
  have hlt : (2 * s : ℚ) < 2 * (n + 1) := by
    obtain ⟨h | ⟨h, -⟩, -⟩ := h <;> linarith
  exact Nat.lt_succ_iff.1 (by exact_mod_cast lt_of_mul_lt_mul_left hlt zero_le_two)

/-- Rounding does not pass a natural number from above. -/
lemma IsRounded.ge {t : ℚ} {s n : ℕ} (h : IsRounded t s) (ht : n ≤ t) : n ≤ s := by
  have hlt : (2 * n : ℚ) < 2 * (s + 1) := by
    obtain ⟨-, h | ⟨h, -⟩⟩ := h <;> linarith
  exact Nat.lt_succ_iff.1 (by exact_mod_cast lt_of_mul_lt_mul_left hlt zero_le_two)

/-- A significand that is rounded in the last place of the number gives the nearest pattern. -/
lemma isNearest_pattern {x : ℚ} {s k : ℕ} (h : IsRounded (x / 2 ^ (k - 1074 : ℤ)) s)
    (hs : s ≤ 2 ^ 53) (hk : k = 0 ∨ 2 ^ 52 ≤ s ∧ 2 ^ 52 * 2 ^ (k - 1074 : ℤ) ≤ x)
    (hp : s + k * 2 ^ 52 ≤ infinityPattern) : IsNearest x (s + k * 2 ^ 52) := by
  have hvalue := value_pattern hs (hk.imp_right And.left)
  have heven : s % 2 = 0 → (s + k * 2 ^ 52) % 2 = 0 := by omega
  obtain ⟨hleft, hright⟩ := (isRounded_div_iff (two_zpow_pos _)).1 h
  refine isNearest_of_neighbours hp (fun q hq => ?_) fun _ => ?_
  · obtain ⟨hne, hcarry⟩ | hstep : (k ≠ 0 ∧ s = 2 ^ 52) ∨ (k = 0 ∨ 2 ^ 52 < s) := by omega
    · -- the step to the left is only half a place, but the number is not on that side
      obtain rfl | ⟨-, hge⟩ := hk
      · exact absurd rfl hne
      have hlt := value_strictMono (Nat.lt_of_succ_le hq.le)
      have hcast : (s : ℚ) = 2 ^ 52 := by exact_mod_cast hcarry
      rw [← hcast, ← hvalue] at hge
      exact .inl (by linarith)
    · obtain ⟨r, rfl⟩ : ∃ r, s = r + 1 := ⟨s - 1, by omega⟩
      obtain rfl : q = r + k * 2 ^ 52 := by omega
      have hsucc := value_pattern_succ (s := r) (k := k) (by omega) (by omega)
      rw [hq] at hsucc
      rw [← hvalue] at hleft
      exact hleft.imp (fun h => by linarith) fun h => ⟨by linarith, heven h.2⟩
  · have hstep := value_pattern_add_le hs (hk.imp_right And.left)
    rw [← hvalue] at hright
    obtain h | ⟨h, hs⟩ := hright
    · exact .inl (by linarith)
    · obtain hlt | heq := hstep.lt_or_eq
      · exact .inl (by linarith)
      · exact .inr ⟨by linarith, heven hs⟩

/-- A pattern that would be larger than that of infinity belongs to a number at least as large. -/
lemma isNearest_infinity_of_lt {x : ℚ} {s k : ℕ} (hs : s ≤ 2 ^ 53)
    (hk : k = 0 ∨ 2 ^ 52 ≤ s ∧ 2 ^ 52 * 2 ^ (k - 1074 : ℤ) ≤ x)
    (hp : infinityPattern < s + k * 2 ^ 52) : IsNearest x infinityPattern := by
  have hinf : infinityPattern = 2047 * 2 ^ 52 := by decide
  obtain rfl | ⟨-, hx⟩ := hk
  · omega
  apply infinity_isNearest
  calc (2 : ℚ) ^ (1024 : ℤ) = 2 ^ 52 * 2 ^ (972 : ℤ) := by
        rw [show (1024 : ℤ) = 52 + 972 from rfl, zpow_add₀ two_ne_zero]
        rfl
    _ ≤ 2 ^ 52 * 2 ^ (k - 1074 : ℤ) := by
        have hplace : (2 : ℚ) ^ (972 : ℤ) ≤ 2 ^ (k - 1074 : ℤ) :=
          zpow_le_zpow_right₀ one_le_two (by omega)
        exact mul_le_mul_of_nonneg_left hplace (by positivity)
    _ ≤ x := hx

/-- The significand of a quotient has 53 bits, or fewer in the smallest place, or is the power of two
behind them. -/
lemma exists_scaled {num den : ℕ} (hnum : num ≠ 0) (hden : 0 < den) :
    ∃ k : ℕ, lastPlace num den = k - 1074 ∧
      scaled num den (lastPlace num den) ≤ 2 ^ 53 ∧
      (k = 0 ∨ 2 ^ 52 ≤ scaled num den (lastPlace num den) ∧
        2 ^ 52 * 2 ^ (k - 1074 : ℤ) ≤ (num / den : ℚ)) := by
  obtain ⟨hle, hlt, hge⟩ := lastPlace_spec hnum hden
  have hround := scaled_isRounded num hden (lastPlace num den)
  obtain ⟨k, hk⟩ := Int.eq_ofNat_of_zero_le (show 0 ≤ lastPlace num den + 1074 by omega)
  have hplace : lastPlace num den = k - 1074 := by omega
  have hunit := two_zpow_pos (k - 1074)
  rw [hplace, zpow_add₀ two_ne_zero, mul_comm] at hlt hge
  rw [hplace] at hround ⊢
  refine ⟨k, rfl, hround.le ?_, ?_⟩
  · rw [div_le_iff₀ hunit]
    exact_mod_cast hlt.le
  · obtain rfl | hpos := Nat.eq_zero_or_pos k
    · exact .inl rfl
    have hx : 2 ^ 52 * 2 ^ (k - 1074 : ℤ) ≤ (num / den : ℚ) := by
      exact_mod_cast hge (by omega)
    refine .inr ⟨hround.ge ?_, hx⟩
    rw [le_div_iff₀ hunit]
    exact_mod_cast hx

/-- A quotient is rounded to the nearest pattern. -/
theorem ofQuotient_isNearest (num : ℕ) {den : ℕ} (hden : 0 < den) :
    IsNearest (num / den) (ofQuotient num den).bits.toNat := by
  rw [ofQuotient]
  split_ifs with hnum
  · rw [hnum, Nat.cast_zero, zero_div]
    exact zero_isNearest (by rw [mul_zero]; exact (two_zpow_pos _).le)
  obtain ⟨k, hplace, hs, hk⟩ := exists_scaled hnum hden
  have hround := scaled_isRounded num hden (lastPlace num den)
  have hbits : ∀ n, (UInt64.ofNat (min n infinityPattern)).toNat = min n infinityPattern := by
    intro n
    exact UInt64.toNat_ofNat_of_lt' (Nat.lt_of_le_of_lt (Nat.min_le_right _ _) (by decide))
  rw [hplace] at hs hk hround
  dsimp only
  rw [hbits, Nat.pow_eq, hplace, Int.sub_add_cancel, Int.toNat_natCast]
  obtain hp | hp := Nat.lt_or_ge infinityPattern (scaled num den (k - 1074) + k * 2 ^ 52)
  · rw [Nat.min_eq_right hp.le]
    exact isNearest_infinity_of_lt hs hk hp
  · rw [Nat.min_eq_left hp]
    exact isNearest_pattern hround hs hk hp

end Binary64

namespace Numeral

/-- The number that a decimal writes. -/
def Decimal.value (d : Decimal) : ℚ := d.digits * 10 ^ d.exponent

/-- Four hundred decimal places are more than all the binary ones. -/
lemma two_zpow_le_ten_zpow : (2 : ℚ) ^ (1075 : ℤ) ≤ 10 ^ (400 : ℤ) :=
  calc (2 : ℚ) ^ (1075 : ℤ) ≤ 2 ^ (3 * 400 : ℤ) := zpow_le_zpow_right₀ one_le_two (by decide)
    _ = (2 ^ (3 : ℤ)) ^ (400 : ℤ) := zpow_mul 2 3 400
    _ ≤ 10 ^ (400 : ℤ) := zpow_le_zpow_left₀ (by decide) (by norm_num) (by norm_num)

/-- A decimal with as many digits as it says is rounded to the nearest number. -/
theorem Decimal.toBinary64_isNearest {d : Decimal} (h : d.digits < 10 ^ d.count) :
    Binary64.IsNearest d.value d.toBinary64.bits.toNat := by
  have hten : (0 : ℚ) < 10 ^ d.exponent := zpow_pos (by norm_num) _
  rw [toBinary64, value]
  split_ifs with hzero hlarge hsmall hsign
  · rw [hzero, Nat.cast_zero, zero_mul]
    exact Binary64.zero_isNearest (by rw [mul_zero]; exact (Binary64.two_zpow_pos _).le)
  · -- at least one digit before more than 400 places
    have hone : (1 : ℚ) ≤ d.digits := Nat.one_le_cast.2 (Nat.pos_of_ne_zero hzero)
    apply Binary64.infinity_isNearest
    calc (2 : ℚ) ^ (1024 : ℤ) ≤ 2 ^ (1075 : ℤ) := zpow_le_zpow_right₀ one_le_two (by decide)
      _ ≤ 10 ^ (400 : ℤ) := two_zpow_le_ten_zpow
      _ ≤ 10 ^ d.exponent := zpow_le_zpow_right₀ (by norm_num) hlarge.le
      _ ≤ d.digits * 10 ^ d.exponent := le_mul_of_one_le_left hten.le hone
  · -- all digits behind more than 400 zeros
    apply Binary64.zero_isNearest
    have hdigits : (d.digits : ℚ) < 10 ^ d.count := by exact_mod_cast h
    calc 2 * (d.digits * 10 ^ d.exponent : ℚ)
        ≤ 2 * (10 ^ d.count * 10 ^ d.exponent) := by gcongr
      _ = 2 * 10 ^ (d.count + d.exponent) := by rw [zpow_add₀ (by norm_num), zpow_natCast]
      _ ≤ 2 * 10 ^ (-400 : ℤ) := by
          gcongr
          · norm_num
          · omega
      _ ≤ 2 * 2 ^ (-1075 : ℤ) := by
          rw [zpow_neg, zpow_neg]
          gcongr
          exact two_zpow_le_ten_zpow
      _ = 2 ^ (-1074 : ℤ) := by rw [← zpow_one_add₀ two_ne_zero]; rfl
  · have hquotient := Binary64.ofQuotient_isNearest (d.digits * 10 ^ d.exponent.toNat) Nat.one_pos
    obtain ⟨n, hn⟩ := Int.eq_ofNat_of_zero_le hsign
    rw [hn] at hquotient ⊢
    push_cast at hquotient
    rw [div_one] at hquotient
    exact hquotient
  · obtain ⟨n, hn⟩ := Int.eq_ofNat_of_zero_le (show 0 ≤ -d.exponent by omega)
    have hexponent : d.exponent = -n := by omega
    have hpos : 0 < 10 ^ n := Nat.pow_pos (by decide)
    have hquotient := Binary64.ofQuotient_isNearest d.digits hpos
    rw [Nat.cast_pow, div_eq_mul_inv, ← zpow_natCast, ← zpow_neg, ← hexponent] at hquotient
    rw [hn]
    exact hquotient

/-- The text of an exponent denotes a power of ten. Not all digits of exponents from 655360 on are
read, so these denote none. -/
inductive DenotesExponent : List Char → ℤ → Prop where
  | nil : DenotesExponent [] 0
  | positive {mark sign ds n} (hm : mark = 'e' ∨ mark = 'E') (hs : sign = [] ∨ sign = ['+'])
    (h : IsNumeral 10 ds n) (hn : n < 655360) : DenotesExponent (mark :: (sign ++ ds)) n
  | negative {mark ds n} (hm : mark = 'e' ∨ mark = 'E') (h : IsNumeral 10 ds n) (hn : n < 655360) :
    DenotesExponent (mark :: '-' :: ds) (-n)

/-- The text denotes the number that its digits write, divided by ten for each of those behind the
point and scaled by the exponent. -/
inductive DenotesDecimal : List Char → ℚ → Prop where
  | mk {whole fraction fs exponent n e} (hne : whole ≠ []) (hn : IsNumeral 10 (whole ++ fs) n)
    (hf : IsPointed fraction fs) (he : DenotesExponent exponent e) :
    DenotesDecimal (whole ++ (fraction ++ exponent)) (n * 10 ^ (e - fs.length))

/-- Further digits do not make a number smaller. -/
lemma le_of_digitsAfter? {ds : List Char} {m n : ℕ} (h : digitsAfter? 10 m ds = some n) :
    m ≤ n := by
  induction ds generalizing m with
  | nil => exact (Option.some.inj h).le
  | cons c ds ih =>
    rw [digitsAfter?] at h
    split at h
    next d hd =>
      have hle := ih h
      omega
    next => cases h

/-- No digit is dropped from an exponent that stays small enough. -/
lemma exponentDigits?_eq {ds : List Char} {m n : ℕ} (h : digitsAfter? 10 m ds = some n)
    (hn : n < 655360) : exponentDigits? m ds = some n := by
  induction ds generalizing m with
  | nil => exact h
  | cons c ds ih =>
    rw [digitsAfter?] at h
    split at h
    next d hd =>
      have hle := le_of_digitsAfter? h
      rw [exponentDigits?, hd]
      dsimp only
      rw [if_pos (by omega)]
      exact ih h
    next => cases h

/-- The digits of a small exponent are read as its number. -/
lemma IsNumeral.exponentDigits?_eq {ds : List Char} {n : ℕ} (h : IsNumeral 10 ds n)
    (hn : n < 655360) : exponentDigits? 0 ds = some n := by
  obtain ⟨c, cs, -, rfl, -⟩ := h.exists_cons
  exact Numeral.exponentDigits?_eq ((natural?_eq_some_iff (by decide)).2 h) hn

/-- The exponent is read as the power that it denotes. -/
lemma DenotesExponent.exponentPart?_eq {cs : List Char} {e : ℤ} (h : DenotesExponent cs e) :
    exponentPart? cs = some e := by
  cases h with
  | nil => rfl
  | positive hm hs h hn =>
    rw [exponentPart?, exponent?_positive hs h, h.exponentDigits?_eq hn]
    rfl
  | negative hm h hn =>
    rw [exponentPart?, exponent?_negative h, h.exponentDigits?_eq hn]
    rfl

/-- A text that denotes an exponent has the form of one. -/
lemma DenotesExponent.isExponentPart {cs : List Char} {e : ℤ} (h : DenotesExponent cs e) :
    cs = [] ∨ IsExponentPart cs := by
  cases h with
  | nil => exact .inl rfl
  | positive hm hs h _ => exact .inr ⟨_, _, _, _, rfl, hm, by tauto, h⟩
  | negative hm h _ => exact .inr ⟨_, ['-'], _, _, rfl, hm, .inr (.inr rfl), h⟩

/-- A text that denotes a number is read as the nearest double precision number. -/
theorem DenotesDecimal.float?_isNearest {raw : List Char} {x : ℚ}
    (h : DenotesDecimal (bare raw) x) :
    ∃ b, float? raw = some b ∧ Binary64.IsNearest x b.bits.toNat := by
  generalize hraw : bare raw = cs at h
  cases h with
  | @mk whole fraction fs exponent n e hne hn hf he =>
    have hread := decimal?_parts hne hn hf he.isExponentPart
    rw [he.exponentPart?_eq, Option.map_some, ← hraw] at hread
    obtain ⟨c, cs, rfl⟩ := List.exists_cons_of_ne_nil hne
    obtain ⟨k, hk⟩ := hn.isDigit c List.mem_cons_self
    exact ⟨_, float?_eq hraw hk hread, Decimal.toBinary64_isNearest (hn.lt_pow (by decide))⟩

-- half way between two numbers, and rounded down to the even one
example : float? "9_007_199_254_740_993.0".toList = some ⟨0x4340000000000000⟩ := by decide +kernel

end Numeral

end ExprFront
