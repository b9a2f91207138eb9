import Mathlib.Algebra.Order.Floor.Ring
import Mathlib.Data.Int.Log
import Mathlib.Data.Rat.Floor
import Mathlib.Tactic.FieldSimp
import Mathlib.Tactic.NormNum
import Mathlib.Tactic.Ring

/-!
# Double-precision floats

A `Double` is the number it stands for, an infinity or not a number; the sign of a zero is left out.
`round` takes a rational number to the nearest one, a tie to the even one, and what is too large to
an infinity.

`ofText` reads a text: a sign, digits with a point and an exponent, `inf`, `infinity` or `nan`, with
space around it. The digits and the spaces are those of a `Charset`, and an underscore may stand
between two digits.

## Main results

* `Float64.round_two_pow` — the powers of two are doubles up to the largest of them
* `Float64.ofNat_two_pow` — and larger ones cannot be converted
-/

namespace Float64

/-- A double, without the sign of a zero. -/
inductive Double
  | nan
  | inf (negative : Bool)
  | finite (x : ℚ)
  deriving DecidableEq

namespace Double

def neg : Double → Double
  | .nan => .nan
  | .inf negative => .inf !negative
  | .finite x => .finite (-x)

/-- The double, when it is a number. -/
def number? : Double → Option Double
  | .finite x => some (.finite x)
  | _ => none

/-- A number that is not below zero. -/
def IsNonneg : Double → Prop
  | .nan => False
  | .inf _ => False
  | .finite x => 0 ≤ x

instance (x : Double) : Decidable x.IsNonneg :=
  match x with
  | .nan => inferInstanceAs (Decidable False)
  | .inf _ => inferInstanceAs (Decidable False)
  | .finite x => inferInstanceAs (Decidable (0 ≤ x))

end Double

/-! ### Rounding -/

/-- The nearest integer, the even one of two. -/
def roundHalfEven (x : ℚ) : ℤ :=
  if x - ⌊x⌋ < 1 / 2 then ⌊x⌋
  else if 1 / 2 < x - ⌊x⌋ then ⌊x⌋ + 1
  else if Even ⌊x⌋ then ⌊x⌋ else ⌊x⌋ + 1

/-- How far the doubles around a number are apart. -/
def ulp (x : ℚ) : ℚ := 2 ^ max (Int.log 2 |x| - 52) (-1074)

/-- The nearest double. -/
def round (x : ℚ) : Double :=
  let y := roundHalfEven (x / ulp x) * ulp x
  if 2 ^ 1024 ≤ |y| then .inf (decide (x < 0)) else .finite y

/-- `float(n)`; `none` when it raises `OverflowError`. -/
def ofNat (n : ℕ) : Option Double := (round n).number?

theorem roundHalfEven_intCast (n : ℤ) : roundHalfEven n = n := by
  rw [roundHalfEven, Int.floor_intCast, sub_self, if_pos (by norm_num)]

/-- A multiple of its own step is rounded to itself, or is too large. -/
theorem round_of_multiple {x : ℚ} {n : ℤ} (h : x = n * ulp x) :
    round x = if 2 ^ 1024 ≤ |x| then .inf (decide (x < 0)) else .finite x := by
  have hulp : ulp x ≠ 0 := zpow_ne_zero _ two_ne_zero
  have hdiv : x / ulp x = n := (div_eq_iff hulp).mpr h
  rw [round, hdiv, roundHalfEven_intCast, ← h]

theorem round_two_pow (k : ℕ) :
    round (2 ^ k) = if k < 1024 then .finite (2 ^ k) else .inf false := by
  have habs : |(2 : ℚ) ^ k| = 2 ^ k := abs_of_pos (by positivity)
  have hlog : Int.log 2 |(2 : ℚ) ^ k| = k := by
    rw [habs, ← zpow_natCast]
    exact Int.log_zpow (R := ℚ) one_lt_two k
  have hulp : ulp (2 ^ k) = 2 ^ ((k : ℤ) - 52) := by
    rw [ulp, hlog, max_eq_left (by omega)]
  have hmul : (2 : ℚ) ^ k = ((2 ^ 52 : ℤ) : ℚ) * ulp (2 ^ k) := by
    rw [hulp, zpow_sub₀ two_ne_zero, zpow_natCast]
    push_cast
    field_simp
  rw [round_of_multiple hmul, habs]
  have hle : (2 : ℚ) ^ 1024 ≤ 2 ^ k ↔ 1024 ≤ k := pow_le_pow_iff_right₀ one_lt_two
  by_cases hk : k < 1024
  · have hsmall : ¬ (2 : ℚ) ^ 1024 ≤ 2 ^ k := fun h => absurd (hle.mp h) (not_le.mpr hk)
    rw [if_pos hk, if_neg hsmall]
  · have hpos : ¬ (2 : ℚ) ^ k < 0 := not_lt_of_ge (by positivity)
    rw [if_neg hk, if_pos (hle.mpr (not_lt.mp hk)), decide_eq_false hpos]

/-- The powers of two that can be converted. -/
theorem ofNat_two_pow (k : ℕ) :
    ofNat (2 ^ k) = if k < 1024 then some (.finite (2 ^ k)) else none := by
  rw [ofNat, Nat.cast_pow, Nat.cast_ofNat, round_two_pow]
  by_cases hk : k < 1024
  · rw [if_pos hk, if_pos hk]
    rfl
  · rw [if_neg hk, if_neg hk]
    rfl

/-! ### Reading -/

/-- The decimal digits and the spaces. -/
structure Charset where
  digit : Char → Option ℕ
  isSpace : Char → Bool

/-- Those of ASCII. -/
def ascii : Charset where
  digit c := if '0' ≤ c ∧ c ≤ '9' then some (c.toNat - '0'.toNat) else none
  isSpace c := c == ' ' || '\t' ≤ c && c ≤ '\r'

section Reading

variable (charset : Charset)

def Charset.isDigit (c : Char) : Bool := (charset.digit c).isSome

/-- The value of some digits. -/
def Charset.ofDigits (digits : List Char) : ℕ :=
  digits.foldl (fun n c => 10 * n + (charset.digit c).getD 0) 0

/-- The text without its underscores; `none` when one of them is not between two digits. The last
character before the text is the first argument. -/
def dropUnderscores : Char → List Char → Option (List Char)
  | last, [] => if last = '_' then none else some []
  | last, c :: text =>
    if c = '_' then
      if charset.isDigit last then dropUnderscores c text else none
    else if last = '_' ∧ ¬ charset.isDigit c then none
    else (dropUnderscores c text).map (c :: ·)

/-- A sign and digits. -/
def readInt (text : List Char) : Option ℤ :=
  let (negative, digits) := match text with
    | '-' :: digits => (true, digits)
    | '+' :: digits => (false, digits)
    | digits => (false, digits)
  if digits ≠ [] ∧ digits.all charset.isDigit then
    some (if negative then -charset.ofDigits digits else charset.ofDigits digits)
  else none

/-- The exponent, when there is one. -/
def readExponent : List Char → Option ℤ
  | [] => some 0
  | c :: text => if c = 'e' ∨ c = 'E' then readInt charset text else none

/-- Digits, with a point and an exponent. -/
def readNumber (text : List Char) : Option ℚ :=
  let whole := text.takeWhile charset.isDigit
  let (fraction, rest) := match text.dropWhile charset.isDigit with
    | '.' :: rest => (rest.takeWhile charset.isDigit, rest.dropWhile charset.isDigit)
    | rest => ([], rest)
  if whole = [] ∧ fraction = [] then none
  else (readExponent charset rest).map fun exponent : ℤ =>
    (charset.ofDigits (whole ++ fraction) : ℚ) * 10 ^ (exponent - fraction.length)

/-- A text without sign. -/
def readUnsigned (text : List Char) : Option Double :=
  let lower := text.map Char.toLower
  if lower = "inf".toList ∨ lower = "infinity".toList then some (.inf false)
  else if lower = "nan".toList then some .nan
  else (readNumber charset text).map round

/-- `str.strip`. -/
def strip (text : List Char) : List Char :=
  ((text.dropWhile charset.isSpace).reverse.dropWhile charset.isSpace).reverse

/-- `float(text)`; `none` when it raises `ValueError`. -/
def ofText (text : List Char) : Option Double := do
  let text ← dropUnderscores charset ' ' (strip charset text)
  match text with
  | '-' :: text => (readUnsigned charset text).map Double.neg
  | '+' :: text => readUnsigned charset text
  | text => readUnsigned charset text

end Reading

example : ofText ascii " -1_0.5e1 ".toList = some (.finite (-105)) := by decide +kernel

end Float64
