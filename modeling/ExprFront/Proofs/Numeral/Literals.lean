import ExprFront.Numeral
import ExprFront.Proofs.Lexical.Words
import ExprFront.Proofs.Numeral.Digits
import Mathlib.Tactic.Ring

/-!
# The numbers of literals

`DenotesInt` says which number the text of an integer literal denotes. Every text that the lexer
takes for an integer denotes one number (`exists_denotesInt`, `DenotesInt.unique`), and this is its
value if it fits in 64 bits with a sign (`DenotesInt.integer?_eq`).

`IsDecimal` is the grammar of decimals without underscores. A text of this form is read as a decimal
(`IsDecimal.exists_decimal?_eq`), and without its underscores every text that the lexer takes for a
floating point literal is of this form (`isDecimal_bare`).
-/

namespace ExprFront

namespace Numeral

/-- The text without its underscores. -/
def bare (cs : List Char) : List Char := cs.filter (· ≠ '_')

/-- The letters that name a base behind a leading zero. -/
def radixMarks : List (Char × Nat) := [('x', 16), ('o', 8), ('b', 2)]

/-- The text denotes the number, in base ten or in the base that its prefix names. Underscores do
not count. -/
inductive DenotesInt : List Char → Nat → Prop where
  | prefixed {mark radix cs n} (hm : (mark, radix) ∈ radixMarks)
    (h : IsNumeral radix (bare cs) n) : DenotesInt ('0' :: mark :: cs) n
  | decimal {cs n} (h : IsNumeral 10 (bare cs) n) : DenotesInt cs n

/-- The first characters from zero on are the digits of a small base. -/
lemma exists_isDigit {radix : Nat} (hr : radix ≤ 10) {c : Char} (h : 48 ≤ c.toNat)
    (h' : c.toNat < 48 + radix) : ∃ d, IsDigit radix c d :=
  ⟨c.toNat - 48, (isDigit_iff (by omega)).2 (by omega)⟩

/-- A decimal digit stands for a number. -/
lemma exists_isDigit_of_isDigit {c : Char} (h : Rule.isDigit c = true) : ∃ d, IsDigit 10 c d := by
  rw [Rule.isDigit_iff] at h
  exact exists_isDigit (by omega) (by omega) (by omega)

/-- An octal digit stands for a number. -/
lemma exists_isDigit_of_isOctalDigit {c : Char} (h : Rule.isOctalDigit c = true) :
    ∃ d, IsDigit 8 c d := by
  rw [Rule.isOctalDigit_iff] at h
  exact exists_isDigit (by omega) (by omega) (by omega)

/-- A binary digit stands for a number. -/
lemma exists_isDigit_of_isBinaryDigit {c : Char} (h : Rule.isBinaryDigit c = true) :
    ∃ d, IsDigit 2 c d := by
  rw [Rule.isBinaryDigit_iff] at h
  exact exists_isDigit (by omega) (by omega) (by omega)

/-- A hexadecimal digit stands for a number. -/
lemma exists_isDigit_of_isHexDigit {c : Char} (h : Rule.isHexDigit c = true) :
    ∃ d, IsDigit 16 c d := by
  rw [Rule.isHexDigit_iff] at h
  obtain h | h | h := h
  · exact ⟨c.toNat - 48, (isDigit_iff (Nat.le_refl 16)).2 (by omega)⟩
  · exact ⟨c.toNat - 87, (isDigit_iff (Nat.le_refl 16)).2 (by omega)⟩
  · exact ⟨c.toNat - 55, (isDigit_iff (Nat.le_refl 16)).2 (by omega)⟩

/-- Underscores are dropped from both parts of a text. -/
lemma bare_append (u v : List Char) : bare (u ++ v) = bare u ++ bare v := List.filter_append u v

/-- Other characters than underscores stay. -/
lemma bare_cons {c : Char} (h : c ≠ '_') (cs : List Char) : bare (c :: cs) = c :: bare cs :=
  List.filter_cons_of_pos (decide_eq_true h)

/-- Digits are a numeral without their underscores. -/
lemma exists_isNumeral_bare {p : Char → Bool} {radix : Nat} (hr : radix ≤ 16)
    (hp : ∀ c, p c = true → ∃ d, IsDigit radix c d) {w : List Char} (h : IsDigits p w) :
    ∃ n, IsNumeral radix (bare w) n := by
  obtain ⟨c, cs, rfl, hc, hcs⟩ := h
  obtain ⟨d, hd⟩ := hp c hc
  rw [bare_cons (hd.ne hr (by decide))]
  refine exists_isNumeral (List.cons_ne_nil _ _) (List.forall_mem_cons.2 ⟨⟨d, hd⟩, fun x hx => ?_⟩)
  obtain ⟨hmem, hne⟩ := List.mem_filter.1 hx
  obtain hx | rfl := hcs x hmem
  · exact hp x hx
  · cases hne

section Prefix

variable {mark : Char} {radix : Nat}

/-- No base is larger than sixteen. -/
lemma radix_le (hm : (mark, radix) ∈ radixMarks) : radix ≤ 16 := by
  have hall : ∀ p ∈ radixMarks, p.2 ≤ 16 := by decide
  exact hall _ hm

/-- The prefix of a base holds no underscore. -/
lemma bare_prefixed (hm : (mark, radix) ∈ radixMarks) (cs : List Char) :
    bare ('0' :: mark :: cs) = '0' :: mark :: bare cs := by
  have hall : ∀ p ∈ radixMarks, p.1 ≠ '_' := by decide
  rw [bare_cons (by decide), bare_cons (hall _ hm)]

/-- The prefix names the base. -/
lemma splitRadix_prefixed (hm : (mark, radix) ∈ radixMarks) (cs : List Char) :
    splitRadix ('0' :: mark :: cs) = (radix, cs) := by
  simp only [radixMarks, List.mem_cons, List.not_mem_nil, Prod.mk.injEq, or_false] at hm
  obtain ⟨rfl, rfl⟩ | ⟨rfl, rfl⟩ | ⟨rfl, rfl⟩ := hm <;> rfl

end Prefix

/-- No letter that names a base is a decimal digit. -/
lemma splitRadix_decimal {cs : List Char} {n : Nat} (h : IsNumeral 10 cs n) :
    splitRadix cs = (10, cs) := by
  have hmark : ∀ {mark : Char} {cs : List Char}, IsNumeral 10 ('0' :: mark :: cs) n →
      digit? 10 mark ≠ none := by
    intro mark cs h hmark
    exact h.notMem (by decide) hmark (by simp)
  unfold splitRadix
  split
  case h_7 => rfl
  all_goals exact absurd (by decide) (hmark h)

/-- A numeral has no sign. -/
lemma signed?_of_isNumeral {radix : Nat} (hr : radix ≤ 16) {cs : List Char} {n : Nat}
    (h : IsNumeral radix cs n) : signed? radix cs = some (n : Int) := by
  have hn := (natural?_eq_some_iff hr).2 h
  obtain ⟨c, cs, d, rfl, hd⟩ := h.exists_cons
  unfold signed?
  split
  next heq => exact absurd (List.cons.inj heq).1 (hd.ne hr (by decide))
  next heq => exact absurd (List.cons.inj heq).1 (hd.ne hr (by decide))
  next => rw [hn]; rfl

/-- Every text of an integer literal denotes a number. -/
lemma exists_denotesInt {w : List Char} (h : IsInt w) : ∃ n, DenotesInt w n := by
  obtain ⟨ds, rfl, h⟩ | ⟨ds, rfl, h⟩ | ⟨ds, rfl, h⟩ | h := h
  · obtain ⟨n, hn⟩ := exists_isNumeral_bare (by decide) (fun _ => exists_isDigit_of_isHexDigit) h
    exact ⟨n, .prefixed (by decide) hn⟩
  · obtain ⟨n, hn⟩ := exists_isNumeral_bare (by decide) (fun _ => exists_isDigit_of_isOctalDigit) h
    exact ⟨n, .prefixed (by decide) hn⟩
  · obtain ⟨n, hn⟩ := exists_isNumeral_bare (by decide) (fun _ => exists_isDigit_of_isBinaryDigit) h
    exact ⟨n, .prefixed (by decide) hn⟩
  · obtain ⟨n, hn⟩ := exists_isNumeral_bare (by decide) (fun _ => exists_isDigit_of_isDigit) h
    exact ⟨n, .decimal hn⟩

/-- A text is read as the number that it denotes. -/
lemma DenotesInt.signed?_eq {w : List Char} {n : Nat} (h : DenotesInt w n) :
    signed? (splitRadix (bare w)).1 (splitRadix (bare w)).2 = some (n : Int) := by
  cases h with
  | prefixed hm h =>
    rw [bare_prefixed hm, splitRadix_prefixed hm]
    exact signed?_of_isNumeral (radix_le hm) h
  | decimal h =>
    rw [splitRadix_decimal h]
    have hr : 10 ≤ 16 := by decide
    exact signed?_of_isNumeral hr h

/-- A text denotes one number at most. -/
lemma DenotesInt.unique {w : List Char} {m n : Nat} (hm : DenotesInt w m) (hn : DenotesInt w n) :
    m = n := by
  have heq := hm.signed?_eq.symm.trans hn.signed?_eq
  exact Int.ofNat_inj.1 (Option.some.inj heq)

/-- The value of a text is the number that it denotes, if this fits in 64 bits with a sign. -/
lemma DenotesInt.integer?_eq {w : List Char} {n : Nat} (h : DenotesInt w n) :
    integer? w = int64? n := by
  have hread := h.signed?_eq
  rw [bare] at hread
  simp only [integer?, hread]

/-- The natural numbers that fit in 64 bits with a sign are those below `2 ^ 63`. -/
lemma exists_int64?_eq {n : Nat} (h : n ≤ 2 ^ 63 - 1) :
    ∃ x : Int64, int64? n = some x ∧ x.toInt = n := by
  refine ⟨.ofInt n, ?_, Int64.toInt_ofInt_of_le (by omega) (by omega)⟩
  rw [int64?, Int64.toInt_minValue, Int64.toInt_maxValue, if_pos (by omega)]

/-- The natural numbers from `2 ^ 63` on do not fit in 64 bits with a sign. -/
lemma int64?_eq_none {n : Nat} (h : 2 ^ 63 - 1 < n) : int64? n = none := by
  rw [int64?, Int64.toInt_minValue, Int64.toInt_maxValue, if_neg (by omega)]

/-- A point and at least one digit. -/
def IsFractionPart (cs : List Char) : Prop := ∃ ds n, cs = '.' :: ds ∧ IsNumeral 10 ds n

/-- The letter `e`, an optional sign and at least one digit. -/
def IsExponentPart (cs : List Char) : Prop :=
  ∃ mark sign ds n, cs = mark :: (sign ++ ds) ∧ (mark = 'e' ∨ mark = 'E') ∧
    (sign = [] ∨ sign = ['+'] ∨ sign = ['-']) ∧ IsNumeral 10 ds n

/-- At least one digit, an optional fraction and an optional exponent. -/
def IsDecimal (cs : List Char) : Prop :=
  ∃ whole n fraction exponent, cs = whole ++ (fraction ++ exponent) ∧ IsNumeral 10 whole n ∧
    (fraction = [] ∨ IsFractionPart fraction) ∧ (exponent = [] ∨ IsExponentPart exponent)

/-- Digits are read up to a character that is none. -/
lemma readDigits_eq (shift : Int) (d : Decimal) {ds rest : List Char} {n : Nat}
    (h : digitsAfter? 10 d.digits ds = some n) (hrest : ∀ c ∈ rest.head?, digit? 10 c = none) :
    readDigits shift d (ds ++ rest) =
      (⟨n, d.count + ds.length, d.exponent + shift * ds.length⟩, rest) := by
  induction ds generalizing d with
  | nil =>
    obtain rfl := Option.some.inj h
    cases rest with
    | nil => simp [readDigits]
    | cons c rest => simp [readDigits, hrest c rfl]
  | cons c ds ih =>
    rw [digitsAfter?] at h
    split at h
    next k hk =>
      rw [List.cons_append, readDigits, hk]
      dsimp only
      rw [ih ⟨10 * d.digits + k, d.count + 1, d.exponent + shift⟩ h]
      simp only [List.length_cons, Prod.mk.injEq, Decimal.mk.injEq, and_true, true_and]
      push_cast
      constructor <;> ring
    next => cases h

/-- The digits of an exponent are read. -/
lemma exists_exponentDigits?_eq {ds : List Char} {n : Nat} (h : IsNumeral 10 ds n) (m : Nat) :
    ∃ e, exponentDigits? m ds = some e := by
  have hdigits := h.isDigit
  clear h
  induction ds generalizing m with
  | nil => exact ⟨m, rfl⟩
  | cons c ds ih =>
    obtain ⟨⟨k, hk⟩, hds⟩ := List.forall_mem_cons.1 hdigits
    rw [exponentDigits?, (digit?_eq_some_iff (by decide)).2 hk]
    exact ih _ hds

/-- An exponent without a minus is the number of its digits. -/
lemma exponent?_positive {sign ds : List Char} {n : Nat} (hs : sign = [] ∨ sign = ['+'])
    (h : IsNumeral 10 ds n) :
    exponent? (sign ++ ds) = (exponentDigits? 0 ds).map Int.ofNat := by
  obtain ⟨c, ds, d, rfl, hd⟩ := h.exists_cons
  obtain rfl | rfl := hs
  · have hplus : c ≠ '+' := hd.ne (by decide) (by decide)
    have hminus : c ≠ '-' := hd.ne (by decide) (by decide)
    rw [List.nil_append, exponent?]
    · exact fun _ _ h _ => hminus h
    · exact fun _ _ h _ => hplus h
  · rfl

/-- An exponent with a minus is the number of its digits with its sign changed. -/
lemma exponent?_negative {ds : List Char} {n : Nat} (h : IsNumeral 10 ds n) :
    exponent? ('-' :: ds) = (exponentDigits? 0 ds).map fun n => -(n : Int) := by
  obtain ⟨c, ds, -, rfl, -⟩ := h.exists_cons
  rfl

/-- An exponent with an optional sign is read. -/
lemma exists_exponent?_eq {sign ds : List Char} {n : Nat}
    (hs : sign = [] ∨ sign = ['+'] ∨ sign = ['-']) (h : IsNumeral 10 ds n) :
    ∃ e, exponent? (sign ++ ds) = some e := by
  obtain ⟨e, he⟩ := exists_exponentDigits?_eq h 0
  obtain hs | hs | rfl := hs
  · exact ⟨e, by rw [exponent?_positive (.inl hs) h, he]; rfl⟩
  · exact ⟨e, by rw [exponent?_positive (.inr hs) h, he]; rfl⟩
  · exact ⟨-e, by rw [List.singleton_append, exponent?_negative h, he]; rfl⟩

/-- The digits behind the point of a fraction, if there is one. -/
def IsPointed (fraction fs : List Char) : Prop := fraction = [] ∧ fs = [] ∨ fraction = '.' :: fs

/-- The exponent of a decimal as it is read, zero if there is none. -/
def exponentPart? : List Char → Option Int
  | [] => some 0
  | _ :: cs => exponent? cs

section Parts

variable {whole fraction fs exponent : List Char}

/-- An exponent begins with its mark. -/
lemma head_exponent (he : exponent = [] ∨ IsExponentPart exponent) :
    ∀ c ∈ exponent.head?, c = 'e' ∨ c = 'E' := by
  intro c hc
  obtain rfl | ⟨mark, sign, ds, n, rfl, hm, -⟩ := he
  · cases hc
  · cases hc
    exact hm

/-- No digit stands behind the digits of a number. -/
lemma digit?_head_fraction (hf : IsPointed fraction fs)
    (he : exponent = [] ∨ IsExponentPart exponent) :
    ∀ c ∈ (fraction ++ exponent).head?, digit? 10 c = none := by
  intro c hc
  obtain ⟨rfl, -⟩ | rfl := hf
  · obtain rfl | rfl := head_exponent he c hc <;> decide
  · cases hc
    decide

/-- A point is read with the digits behind it. -/
lemma readFraction_eq (d : Decimal) {n : Nat} (hf : IsPointed fraction fs)
    (he : exponent = [] ∨ IsExponentPart exponent) (h : digitsAfter? 10 d.digits fs = some n) :
    readFraction d (fraction ++ exponent) =
      (⟨n, d.count + fs.length, d.exponent - fs.length⟩, exponent) := by
  obtain ⟨rfl, rfl⟩ | rfl := hf
  · obtain rfl := Option.some.inj h
    rw [List.nil_append, readFraction]
    · simp
    · rintro cs rfl
      exact absurd (head_exponent he '.' rfl) (by decide)
  · have hrest := digit?_head_fraction (.inl ⟨rfl, rfl⟩) he
    rw [List.nil_append] at hrest
    rw [List.cons_append, readFraction, readDigits_eq (-1) d h hrest, neg_one_mul, sub_eq_add_neg]

/-- The digits on both sides of the point are read as one number, which the exponent scales. -/
lemma decimal?_parts {n : Nat} (hne : whole ≠ []) (hn : IsNumeral 10 (whole ++ fs) n)
    (hf : IsPointed fraction fs) (he : exponent = [] ∨ IsExponentPart exponent) :
    decimal? (whole ++ (fraction ++ exponent)) =
      (exponentPart? exponent).map fun e => ⟨n, (whole ++ fs).length, e - fs.length⟩ := by
  have hread : digitsAfter? 10 0 (whole ++ fs) = some n := by
    rw [← natural?_eq_some_iff (by decide)] at hn
    obtain ⟨c, cs, rfl⟩ := List.exists_cons_of_ne_nil hne
    exact hn
  rw [digitsAfter?_append, Option.bind_eq_some_iff] at hread
  obtain ⟨m, hm, hread⟩ := hread
  have hpos : whole.length + fs.length ≠ 0 := by
    have := List.length_pos_iff.2 hne
    omega
  have hwhole : readDigits 0 ⟨0, 0, 0⟩ (whole ++ (fraction ++ exponent)) =
      (⟨m, whole.length, 0⟩, fraction ++ exponent) := by
    rw [readDigits_eq 0 ⟨0, 0, 0⟩ hm (digit?_head_fraction hf he)]
    simp
  have hfraction := readFraction_eq ⟨m, whole.length, 0⟩ hf he hread
  rw [Int.zero_sub] at hfraction
  simp only [decimal?, hwhole, hfraction, if_neg hpos, List.length_append]
  obtain rfl | ⟨mark, sign, ds, k, rfl, hm, -⟩ := he
  · simp [exponentPart?]
  · simp only [if_pos hm, exponentPart?, Int.sub_eq_add_neg, Int.add_comm]

end Parts

/-- Every decimal is read to its end. -/
theorem IsDecimal.exists_decimal?_eq {cs : List Char} (h : IsDecimal cs) :
    ∃ d, decimal? cs = some d := by
  obtain ⟨whole, n, fraction, exponent, rfl, hw, hf, he⟩ := h
  obtain ⟨fs, hpointed, hfs⟩ : ∃ fs, IsPointed fraction fs ∧ ∀ c ∈ fs, ∃ d, IsDigit 10 c d := by
    obtain rfl | ⟨fs, m, rfl, hm⟩ := hf
    · exact ⟨[], .inl ⟨rfl, rfl⟩, nofun⟩
    · exact ⟨fs, .inr rfl, hm.isDigit⟩
  have hne : whole ≠ [] := by
    obtain ⟨c, cs, -, rfl, -⟩ := hw.exists_cons
    exact List.cons_ne_nil c cs
  obtain ⟨m, hm⟩ : ∃ m, IsNumeral 10 (whole ++ fs) m :=
    exists_isNumeral (List.append_ne_nil_of_left_ne_nil hne fs)
      (List.forall_mem_append.2 ⟨hw.isDigit, hfs⟩)
  obtain ⟨e, hexponent⟩ : ∃ e, exponentPart? exponent = some e := by
    obtain rfl | ⟨mark, sign, ds, k, rfl, -, hs, hds⟩ := he
    · exact ⟨0, rfl⟩
    · exact exists_exponent?_eq hs hds
  rw [decimal?_parts hne hm hpointed he, hexponent]
  exact ⟨_, rfl⟩

/-- A decimal that starts with a digit has no sign. -/
lemma float?_eq {raw cs : List Char} {c : Char} {k : Nat} {d : Decimal} (hraw : bare raw = c :: cs)
    (hc : IsDigit 10 c k) (hd : decimal? (bare raw) = some d) :
    float? raw = some d.toBinary64 := by
  have hread : unsigned? (c :: cs) = some d.toBinary64 := by rw [unsigned?, ← hraw, hd]
  unfold float?
  rw [← bare, hraw]
  split
  next h => exact absurd (List.cons.inj h).1 (hc.ne (by decide) (by decide))
  next h => exact absurd (List.cons.inj h).1 (hc.ne (by decide) (by decide))
  next => exact hread

/-- A text is read as a number if it is a decimal without its underscores. -/
lemma exists_float?_eq {raw : List Char} (h : IsDecimal (bare raw)) :
    ∃ x, float? raw = some x := by
  obtain ⟨d, hd⟩ := h.exists_decimal?_eq
  obtain ⟨whole, n, fraction, exponent, hraw, hw, -, -⟩ := h
  obtain ⟨c, cs, k, rfl, hk⟩ := hw.exists_cons
  exact ⟨d.toBinary64, float?_eq hraw hk hd⟩

/-- Decimal digits are a numeral without their underscores. -/
lemma exists_isNumeral_digits {w : List Char} (h : IsDigits Rule.isDigit w) :
    ∃ n, IsNumeral 10 (bare w) n :=
  exists_isNumeral_bare (by decide) (fun _ => exists_isDigit_of_isDigit) h

/-- An exponent is one without its underscores. -/
lemma isExponentPart_bare {w : List Char} (h : IsExponent w) : IsExponentPart (bare w) := by
  obtain ⟨mark, sign, ds, rfl, hm, hs, hds⟩ := h
  obtain ⟨n, hn⟩ := exists_isNumeral_digits hds
  have hmark : mark ≠ '_' := by obtain rfl | rfl := hm <;> decide
  have hsign : bare sign = sign := by obtain rfl | rfl | rfl := hs <;> rfl
  refine ⟨mark, sign, bare ds, n, ?_, hm, hs, hn⟩
  rw [bare_cons hmark, bare_append, hsign]

/-- Floating point literals are decimals without their underscores. -/
lemma isDecimal_bare {w : List Char} (h : IsFloat w) : IsDecimal (bare w) := by
  obtain ⟨whole, fraction, exponent, rfl, hw, hf, he⟩ | ⟨whole, exponent, rfl, hw, he⟩ := h
  · obtain ⟨n, hn⟩ := exists_isNumeral_digits hw
    obtain ⟨m, hm⟩ := exists_isNumeral_digits hf
    refine ⟨bare whole, n, '.' :: bare fraction, bare exponent, ?_, hn, .inr ⟨_, m, rfl, hm⟩, ?_⟩
    · rw [bare_append, bare_cons (by decide), bare_append, List.cons_append]
    · obtain rfl | he := he
      · exact .inl rfl
      · exact .inr (isExponentPart_bare he)
  · obtain ⟨n, hn⟩ := exists_isNumeral_digits hw
    refine ⟨bare whole, n, [], bare exponent, ?_, hn, .inl rfl, .inr (isExponentPart_bare he)⟩
    rw [bare_append, List.nil_append]

end Numeral

end ExprFront
