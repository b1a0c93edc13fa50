import Keypad.Limits
import Keypad.Decimal.Digits

/-!
# Decimals

A decimal is `mantissa · 10 ^ exponent`. Every operation rounds its exact result to `precision`
significant digits, a half away from zero, and moves final zeros of the mantissa into the
exponent, so that equal values have equal parts. Addition leaves out an operand too small to
reach the kept digits.
-/

namespace Keypad

structure Decimal where
  mantissa : Int
  exponent : Int
  deriving DecidableEq, Repr, Inhabited

namespace Decimal

def zero : Decimal := ⟨0, 0⟩

def one : Decimal := ⟨1, 0⟩

/-- The decimal `m · 10 ^ e` without final zeros and within the exponent limits. -/
def normalize (m e : Int) : Decimal :=
  match Digits.stripZeros m.natAbs e with
  | (0, _) => zero
  | (k, f) =>
    if f < exponentFloor then zero
    else ⟨if m < 0 then -(k : Int) else k, min f exponentCeiling⟩

/-- The decimal `m · 10 ^ e` rounded to at most `digits` significant digits. -/
def round (m e : Int) (digits : Nat) : Decimal :=
  let excess := Digits.count m.natAbs - digits
  if excess = 0 then normalize m e
  else normalize (Digits.roundDiv m (pow10 excess)) (e + excess)

/-- The decimal `m · 10 ^ e` rounded to `precision` digits. -/
def scaled (m e : Int) : Decimal := round m e precision

def ofInt (n : Int) : Decimal := scaled n 0

/-- The decimal `s / 10 ^ w`. -/
def ofFixed (s : Int) (w : Nat) : Decimal := scaled s (-w)

/-- The decimal `(n / d) · 10 ^ e`. The quotient is cut three digits after the last one kept. -/
def quotient (n d e : Int) : Decimal :=
  if n = 0 then zero
  else
    let k := precision + 3 + Digits.count d.natAbs - Digits.count n.natAbs
    scaled ((n * pow10 k).tdiv d) (e - k)

def ofRat (q : Rat) : Decimal := quotient q.num q.den 0

/-! ## Parts and signs -/

def isZero (d : Decimal) : Bool := d.mantissa == 0

def isNegative (d : Decimal) : Bool := d.mantissa < 0

def sign (d : Decimal) : Int := d.mantissa.sign

/-- The mantissa has no final zero, so an integer is a decimal without negative exponent. -/
def isInteger (d : Decimal) : Bool := 0 ≤ d.exponent

/-- The exponent of the first digit; zero for the value zero. -/
def leading (d : Decimal) : Int :=
  if d.isZero then 0 else d.exponent + Digits.count d.mantissa.natAbs - 1

def neg (d : Decimal) : Decimal := ⟨-d.mantissa, d.exponent⟩

instance : Neg Decimal := ⟨neg⟩

def abs (d : Decimal) : Decimal := ⟨d.mantissa.natAbs, d.exponent⟩

/-- The decimal rounded to `digits` significant digits. -/
def significant (d : Decimal) (digits : Nat) : Decimal := round d.mantissa d.exponent digits

/-! ## Arithmetic -/

/-- The mantissa of `d` read at the exponent `e`, which is at most its own. -/
def mantissaAt (d : Decimal) (e : Int) : Int := d.mantissa * pow10 (d.exponent - e).toNat

/-- The sum. Of two operands more than `precision + 2` orders of magnitude apart, the smaller
leaves no trace. -/
def add (a b : Decimal) : Decimal :=
  if a.isZero then b
  else if b.isZero then a
  else
    let gap := a.leading - b.leading
    if (precision : Int) + 2 < gap then a
    else if (precision : Int) + 2 < -gap then b
    else
      let e := min a.exponent b.exponent
      scaled (a.mantissaAt e + b.mantissaAt e) e

def sub (a b : Decimal) : Decimal := add a (-b)

def mul (a b : Decimal) : Decimal := scaled (a.mantissa * b.mantissa) (a.exponent + b.exponent)

/-- The quotient; a zero divisor gives none. -/
def div? (a b : Decimal) : Option Decimal :=
  if b.isZero then none else some (quotient a.mantissa b.mantissa (a.exponent - b.exponent))

def inv? (d : Decimal) : Option Decimal := one.div? d

/-- The order of two decimals, read off the sign of their difference. -/
def compare (a b : Decimal) : Ordering :=
  let s := (a.sub b).sign
  if s < 0 then .lt else if s = 0 then .eq else .gt

/-! ## Conversions -/

/-- The integer part of `d · 10 ^ w`, cut towards zero. -/
def toFixed (d : Decimal) (w : Nat) : Int :=
  let e := d.exponent + w
  if 0 ≤ e then d.mantissa * pow10 e.toNat
  else if Digits.count d.mantissa.natAbs + 1 < e.natAbs then 0
  else d.mantissa.tdiv (pow10 e.natAbs)

/-- The fraction `m · 10 ^ e`. -/
def fraction (m e : Int) : Rat :=
  if 0 ≤ e then mkRat (m * pow10 e.toNat) 1 else mkRat m (pow10 e.natAbs)

/-- The value of the decimal. -/
def value (d : Decimal) : Rat := fraction d.mantissa d.exponent

/-- The value as a fraction, for exponents of at most 400 in size. -/
def toRat? (d : Decimal) : Option Rat :=
  if 400 < d.exponent.natAbs then none else some d.value

/-- The value as an integer, for exponents from 0 to 1000. -/
def toInt? (d : Decimal) : Option Int :=
  if 0 ≤ d.exponent ∧ d.exponent ≤ 1000 then some (d.mantissa * pow10 d.exponent.toNat) else none

/-! ## Small facts -/

@[simp] theorem isZero_zero : isZero zero = true := rfl

@[simp] theorem neg_zero : -zero = zero := rfl

@[simp] theorem mantissa_neg (d : Decimal) : (-d).mantissa = -d.mantissa := rfl

@[simp] theorem exponent_neg (d : Decimal) : (-d).exponent = d.exponent := rfl

@[simp] theorem neg_neg (d : Decimal) : - -d = d := by
  cases d with
  | mk m e => exact congrArg (Decimal.mk · e) (Int.neg_neg m)

@[simp] theorem zero_add (b : Decimal) : add zero b = b := by simp [add]

@[simp] theorem normalize_zero (e : Int) : normalize 0 e = zero := by
  simp [normalize, Digits.stripZeros]

/-- Final zeros and limits do not depend on the sign. -/
theorem normalize_neg (m e : Int) : normalize (-m) e = -normalize m e := by
  by_cases hm : m = 0
  · simp [hm]
  · unfold normalize
    rw [Int.natAbs_neg]
    split
    · rfl
    · split
      · rfl
      · by_cases h : m < 0
        · rw [if_neg (by omega), if_pos h]
          exact congrArg (Decimal.mk · _) (Int.neg_neg _).symm
        · rw [if_pos (by omega), if_neg h]
          rfl

/-- Rounding a half away from zero treats both signs alike. -/
theorem round_neg (m e : Int) (digits : Nat) : round (-m) e digits = -round m e digits := by
  simp only [round, Int.natAbs_neg, Digits.roundDiv_neg, normalize_neg]
  split <;> rfl

end Decimal

end Keypad
