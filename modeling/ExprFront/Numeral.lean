/-!
# Numerals

The values of the texts of numbers. Underscores are dropped. An integer has a prefix that chooses
its base, and has to fit in 64 bits with a sign; a floating point number is a decimal with an
optional sign, fraction and exponent, or one of the words for infinity and NaN.

Double precision numbers are held as their 64-bit patterns: a sign bit, eleven bits of exponent and
52 bits of fraction. A decimal is rounded once, from its exact value, to the nearest such number,
ties going to the even pattern.
-/

namespace ExprFront

namespace Numeral

/-- The value of a hexadecimal digit, in either case. -/
def hexDigit? (c : Char) : Option Nat :=
  if '0' ≤ c ∧ c ≤ '9' then some (c.toNat - '0'.toNat)
  else if 'a' ≤ c ∧ c ≤ 'f' then some (c.toNat - 'a'.toNat + 10)
  else if 'A' ≤ c ∧ c ≤ 'F' then some (c.toNat - 'A'.toNat + 10)
  else none

/-- The value of a digit of the given base. -/
def digit? (radix : Nat) (c : Char) : Option Nat := (hexDigit? c).filter (· < radix)

/-- The number that digits write after the digits of `n`; `none` if one of them is no digit. -/
def digitsAfter? (radix : Nat) (n : Nat) : List Char → Option Nat
  | [] => some n
  | c :: cs =>
    match digit? radix c with
    | some d => digitsAfter? radix (radix * n + d) cs
    | none => none

/-- The number written by one or more digits of a base. -/
def natural? (radix : Nat) : List Char → Option Nat
  | [] => none
  | cs => digitsAfter? radix 0 cs

/-- The number written by one or more digits of a base, with one optional sign before them. -/
def signed? (radix : Nat) : List Char → Option Int
  | '-' :: cs => (natural? radix cs).map fun n => -(n : Int)
  | '+' :: cs => (natural? radix cs).map Int.ofNat
  | cs => (natural? radix cs).map Int.ofNat

/-- The base that a numeral is written in, and its text after the prefix that says so. -/
def splitRadix : List Char → Nat × List Char
  | '0' :: 'x' :: cs => (16, cs)
  | '0' :: 'X' :: cs => (16, cs)
  | '0' :: 'o' :: cs => (8, cs)
  | '0' :: 'O' :: cs => (8, cs)
  | '0' :: 'b' :: cs => (2, cs)
  | '0' :: 'B' :: cs => (2, cs)
  | cs => (10, cs)

/-- A number as a 64-bit word, if it fits. -/
def int64? (n : Int) : Option Int64 :=
  if Int64.minValue.toInt ≤ n ∧ n ≤ Int64.maxValue.toInt then some (.ofInt n) else none

/-- The value of an integer literal. -/
def integer? (raw : List Char) : Option Int64 :=
  let numeral := splitRadix (raw.filter (· ≠ '_'))
  match signed? numeral.1 numeral.2 with
  | some n => int64? n
  | none => none

end Numeral

/-- A double precision number, held as its bit pattern so that every NaN keeps its own. -/
structure Binary64 where
  bits : UInt64
  deriving DecidableEq, Repr, Inhabited

namespace Binary64

/-- The pattern of positive infinity; smaller patterns are the finite numbers that are not
negative, in increasing order. -/
def infinityPattern : Nat := 0x7ff0000000000000

/-- Positive infinity. -/
def infinity : Binary64 := ⟨.ofNat infinityPattern⟩

/-- The quiet NaN without sign or payload. -/
def nan : Binary64 := ⟨0x7ff8000000000000⟩

/-- The number with its sign bit flipped. -/
def neg (x : Binary64) : Binary64 := ⟨x.bits ^^^ 0x8000000000000000⟩

/-- The pattern without its sign bit. -/
def magnitude (x : Binary64) : UInt64 := x.bits &&& 0x7fffffffffffffff

/-- NaNs are the patterns above infinity, whatever the sign. -/
def isNaN (x : Binary64) : Bool := infinityPattern < x.magnitude.toNat

/-- Numerical equality: a NaN equals nothing, and the two zeros are equal. -/
def equal (x y : Binary64) : Bool :=
  !x.isNaN && !y.isNaN && (x.bits == y.bits || (x.magnitude == 0 && y.magnitude == 0))

/-- The quotient rounded to the nearest natural number, a tie going to the even one. -/
def roundDiv (num den : Nat) : Nat :=
  let q := num / den
  let twice := 2 * (num % den)
  if twice < den then q
  else if den < twice then q + 1
  else q + q % 2

/-- `num / den` in units of `2 ^ e`, rounded. -/
def scaled (num den : Nat) (e : Int) : Nat :=
  if 0 ≤ e then roundDiv num (den * Nat.pow 2 e.toNat)
  else roundDiv (num * Nat.pow 2 (-e).toNat) den

/-- Whether `num / den` is less than `2 ^ e`. -/
def belowPower (num den : Nat) (e : Int) : Bool :=
  if 0 ≤ e then num < den * Nat.pow 2 e.toNat else num * Nat.pow 2 (-e).toNat < den

/-- The exponent of the last place of `num / den`: 53 significant bits, but never places below the
smallest subnormal number. -/
def lastPlace (num den : Nat) : Int :=
  let e : Int := (num.log2 : Int) - (den.log2 : Int)
  max (-1074) (if belowPower num den e then e - 53 else e - 52)

/-- The number nearest to `num / den`, for a positive denominator. The rounded significand carries
into the exponent by itself, because patterns grow with the numbers they stand for. -/
def ofQuotient (num den : Nat) : Binary64 :=
  if num = 0 then ⟨0⟩
  else
    let e := lastPlace num den
    let pattern := scaled num den e + (e + 1074).toNat * Nat.pow 2 52
    ⟨.ofNat (min pattern infinityPattern)⟩

end Binary64

namespace Numeral

/-- A decimal as written: `digits · 10 ^ exponent`, `count` digits long. -/
structure Decimal where
  digits : Nat
  count : Nat
  exponent : Int
  deriving DecidableEq, Repr

namespace Decimal

/-- The double precision number nearest to a decimal. Decimals of 400 and more places before the
point, or as many zeros after it, are settled without writing out their value. -/
def toBinary64 (d : Decimal) : Binary64 :=
  if d.digits = 0 then ⟨0⟩
  else if 400 < d.exponent then .infinity
  else if d.exponent + d.count < -400 then ⟨0⟩
  else if 0 ≤ d.exponent then .ofQuotient (d.digits * Nat.pow 10 d.exponent.toNat) 1
  else .ofQuotient d.digits (Nat.pow 10 (-d.exponent).toNat)

end Decimal

/-- The digits at the front of a text, added to those of a decimal, and the text after them. Each
digit moves the exponent by `shift`. -/
def readDigits (shift : Int) (d : Decimal) : List Char → Decimal × List Char
  | [] => (d, [])
  | c :: cs =>
    match digit? 10 c with
    | some n => readDigits shift ⟨10 * d.digits + n, d.count + 1, d.exponent + shift⟩ cs
    | none => (d, c :: cs)

/-- The number written by the digits of an exponent, from `n` on. Once it has reached 65536 further
digits do not change it. -/
def exponentDigits? (n : Nat) : List Char → Option Nat
  | [] => some n
  | c :: cs =>
    match digit? 10 c with
    | some d => exponentDigits? (if n < 0x10000 then 10 * n + d else n) cs
    | none => none

/-- The number after the mark of an exponent: an optional sign and at least one digit. -/
def exponent? : List Char → Option Int
  | '-' :: c :: cs => (exponentDigits? 0 (c :: cs)).map fun n => -(n : Int)
  | '+' :: c :: cs => (exponentDigits? 0 (c :: cs)).map Int.ofNat
  | c :: cs => (exponentDigits? 0 (c :: cs)).map Int.ofNat
  | [] => none

/-- The fraction at the front of a text, if a point starts it, added to a decimal. -/
def readFraction (d : Decimal) : List Char → Decimal × List Char
  | '.' :: cs => readDigits (-1) d cs
  | cs => (d, cs)

/-- An unsigned decimal: digits and an optional fraction with at least one digit in all, then an
optional exponent. -/
def decimal? (cs : List Char) : Option Decimal :=
  let whole := readDigits 0 ⟨0, 0, 0⟩ cs
  let read := readFraction whole.1 whole.2
  if read.1.count = 0 then none
  else match read.2 with
    | [] => some read.1
    | mark :: rest =>
      if mark = 'e' ∨ mark = 'E' then
        (exponent? rest).map fun e => { read.1 with exponent := read.1.exponent + e }
      else none

/-- The numbers that are written as words, in any mix of cases. -/
def special? (cs : List Char) : Option Binary64 :=
  let word := String.ofList (cs.map Char.toLower)
  if word = "inf" ∨ word = "infinity" then some .infinity
  else if word = "nan" then some .nan
  else none

/-- An unsigned number: a decimal or a word. -/
def unsigned? (cs : List Char) : Option Binary64 :=
  match decimal? cs with
  | some d => some d.toBinary64
  | none => special? cs

/-- The value of a floating point literal. -/
def float? (raw : List Char) : Option Binary64 :=
  match raw.filter (· ≠ '_') with
  | '-' :: cs => (unsigned? cs).map Binary64.neg
  | '+' :: cs => unsigned? cs
  | cs => unsigned? cs

end Numeral

end ExprFront
