import Keypad.Decimal.Basic
import Keypad.Fixed.Constant

/-!
# Exponential and logarithm

Both work with `workDigits` places and some more. The exponential takes the multiple of `ln 10`
nearest to its argument out as an exponent, divides the rest by 1024, sums the series and squares
ten times. The logarithm takes out a power of ten and a power of two and sums the inverse
hyperbolic tangent. Real powers and roots are built from the two. Domains are the caller's
concern; outside them the functions answer zero.
-/

namespace Keypad

/-- Places of fixed-point arithmetic: the kept digits and sixteen guard digits. -/
def workDigits : Nat := precision + 16

namespace Fixed

/-- The exponential of a small `r`, both with `w` places. The division by 1024 rounds down. -/
def exp (r : Int) (w : Nat) : Int :=
  let s := pow10 (w + 8)
  let y := Int.fdiv (r * pow10 8) 1024
  let sum := s + factorialSeries y s (fun _ => 1) 1 s
  (Nat.repeat (fun x : Int => (x * x).tdiv s) 10 sum).tdiv (pow10 8)

/-- Halves `t` until it is below `bound`, counting. -/
def halve (bound t count : Nat) : Nat × Nat :=
  if 0 < t ∧ bound ≤ t then halve bound (t / 2) (count + 1) else (t, count)
termination_by t
decreasing_by omega

/-- The inverse hyperbolic tangent of `z`, at most one at the scale `s`. -/
def artanh (z : Int) (s : Nat) (hz : z.natAbs ≤ s) : Int :=
  z + powerSeries ((z * z).tdiv s) s (natAbs_square_tdiv_le hz) 1 z

/-- The fraction `(t - 1) / (t + 1)` at the scale `s`. -/
def artanhArgument (t s : Nat) : Int := ((t - s : Int) * s).tdiv (t + s)

theorem natAbs_artanhArgument_le (t s : Nat) : (artanhArgument t s).natAbs ≤ s := by
  rw [artanhArgument, Int.natAbs_tdiv, Int.natAbs_mul, Int.natAbs_natCast]
  refine Nat.div_le_of_le_mul (Nat.mul_le_mul_right s ?_)
  omega

/-- The logarithm of `t` at the scale `s`: twice the inverse hyperbolic tangent of
`(t - 1) / (t + 1)`. -/
def lnNearOne (t s : Nat) : Int :=
  2 * artanh (artanhArgument t s) s (natAbs_artanhArgument_le t s)

end Fixed

namespace Decimal

/-- The exponential of `x`; none when it exceeds the largest answer. -/
def exp? (x : Decimal) : Option Decimal :=
  if x.isZero then some one
  else if 9 < x.leading then if x.isNegative then some zero else none
  else
    let ln10 := Fixed.ln10 (workDigits + 12)
    let scaledX := x.toFixed (workDigits + 12)
    let k := Digits.roundDiv scaledX ln10.natAbs
    let r := (scaledX - k * ln10).tdiv (pow10 12)
    if maxExponent + 1 < k then none
    else if k < -(maxExponent + 1) - 4 then some zero
    else some (scaled (Fixed.exp r workDigits) (k - workDigits))

/-- The number `e`. -/
def euler : Decimal := one.exp?.getD zero

def ln10 : Decimal := ofFixed (Fixed.ln10 workDigits) workDigits

/-- The natural logarithm of a positive `x`. -/
def ln (x : Decimal) : Decimal :=
  if x.sign ≤ 0 then zero
  else
    let w := workDigits + 4
    let s := pow10 w
    let e := x.leading
    let m := (scaled x.mantissa (x.exponent - e)).toFixed w
    let (t, j) := Fixed.halve (s * 3 / 2) m.natAbs 0
    ofFixed (Fixed.lnNearOne t s + Fixed.ln2 w * j + Fixed.ln10 w * e) w

/-- The decimal logarithm of a positive `x`. -/
def log10 (x : Decimal) : Decimal := ((ln x).div? ln10).getD zero

/-- The root of index `n` of a positive `x`. -/
def realRoot? (x n : Decimal) : Option Decimal := do ((← (ln x).div? n).exp?)

/-- The power `x ^ n` for a positive `x` and any real `n`. -/
def realPower? (x n : Decimal) : Option Decimal := (n.mul (ln x)).exp?

/-- The square root. A negative argument is answered zero. The mantissa is brought to at least
twice the kept digits, with an even exponent, before the integer square root is taken. -/
def sqrt (x : Decimal) : Decimal :=
  if x.sign ≤ 0 then zero
  else
    let k := 2 * (precision + 4) - Digits.count x.mantissa.natAbs
    let k := if (x.exponent - k) % 2 = 1 then k + 1 else k
    scaled (Nat.sqrt (x.mantissa.natAbs * pow10 k)) ((x.exponent - k).tdiv 2)

end Decimal

end Keypad
