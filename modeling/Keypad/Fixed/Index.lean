import Keypad.Decimal.Circular
import Keypad.Decimal.Word

/-!
# Series with an index of 64 bits

The loops of the series once more, with an index that 64 bits have to hold, as they have to hold the
divisor that is made of it. Both are checked, and a calculation halts where one does not fit.
Nothing else ends a loop but a part that is cut to zero: it has no measure and asks for no ratio.
-/

namespace Keypad

namespace Fixed

/-! ## Steps -/

/-- The part of a factorial series is its term. -/
def wholePart (_ : Nat) (t : Int) : Int := t

/-- The part of an odd series is the power over the odd number of its index. -/
def oddPart (k : Nat) (p : Int) : Int := p.tdiv ((2 * k + 1 : Nat) : Int)

def sinDivisor (n : Nat) : Nat := 2 * n * (2 * n + 1)

def cosDivisor (n : Nat) : Nat := (2 * n - 1) * (2 * n)

def oddDivisor (k : Nat) : Nat := 2 * k + 1

def sinStep (r : Int) (s n : Nat) (t : Int) : Int :=
  (-(t * (r * r).tdiv s).tdiv s).tdiv (sinDivisor n)

def cosStep (r : Int) (s n : Nat) (t : Int) : Int :=
  (-(t * (r * r).tdiv s).tdiv s).tdiv (cosDivisor n)

/-- The argument of the exponential over 1024, rounded down, with eight places more. -/
def expArgument (r : Int) : Int := Int.fdiv (r * pow10 8) 1024

def expStep (r : Int) (s n : Nat) (t : Int) : Int := ((t * expArgument r).tdiv s).tdiv n

/-- The sum of the exponential is squared ten times at the scale `s`. -/
def squared (s : Nat) (sum : Int) : Int :=
  (Nat.repeat (fun x : Int => (x * x).tdiv s) 10 sum).tdiv (pow10 8)

def artanhStep (z : Int) (s : Nat) (_ : Nat) (p : Int) : Int := (p * (z * z).tdiv s).tdiv s

def arctanStep (u : Int) (s : Nat) (_ : Nat) (p : Int) : Int := -(p * (u * u).tdiv s).tdiv s

end Fixed

namespace Word

open Fixed

/-! ## Loops -/

/-- Indices and the divisors made of them are kept below this number. -/
def indexLimit : Nat := wordCount

/-- From the index `n`, the term `t` and the sum `sum` on, the loop that replaces the term by the
next one and adds its part. It ends at the first part that is zero. -/
def sumFrom (next part : Nat → Int → Int) (divisor : Nat → Nat) (n : Nat) (t sum : Int) :
    Except Halt Int :=
  if n < indexLimit ∧ divisor n < indexLimit then
    let t := next n t
    if part n t = 0 then .ok sum else sumFrom next part divisor (n + 1) t (sum + part n t)
  else .error .overflow
termination_by indexLimit - n

def sin (r : Int) (s : Nat) : Except Halt Int := sumFrom (sinStep r s) wholePart sinDivisor 1 r r

def cos (r : Int) (s : Nat) : Except Halt Int := sumFrom (cosStep r s) wholePart cosDivisor 1 s s

def exp (r : Int) (w : Nat) : Except Halt Int :=
  if w + 8 < indexLimit then do
    let s := pow10 (w + 8)
    return squared s (← sumFrom (expStep r s) wholePart id 1 s s)
  else .error .overflow

def artanh (z : Int) (s : Nat) : Except Halt Int :=
  sumFrom (artanhStep z s) oddPart oddDivisor 1 z z

def arctan (t : Int) (s : Nat) : Except Halt Int := do
  let u := eighth s t
  return 8 * (← sumFrom (arctanStep u s) oddPart oddDivisor 1 u u)

/-! ## The logarithm -/

/-- The number that the logarithm halves: the decimal with its power of ten taken out. -/
def reduced (x : Decimal) (w : Nat) : Except Halt Int := do
  toFixed (scaled x.mantissa (← checked (x.exponent - (← leading x)))) w

/-- The natural logarithm of a positive `x`. -/
def ln (x : Decimal) : Except Halt Decimal :=
  if x.sign ≤ 0 then .ok .zero
  else do
    let w := workDigits + 4
    let s := pow10 w
    let e ← leading x
    let m ← reduced x w
    let (t, j) := halve (s * 3 / 2) m.natAbs 0
    let sum ← artanh (artanhArgument t s) s
    ofFixed (2 * sum + ln2 w * j + ln10 w * e) w

/-! ## The inverse tangent -/

def orZero : Except Halt Decimal → Except Halt Decimal
  | .error .undefined => .ok .zero
  | r => r

def isSteep (x : Decimal) : Except Halt Bool := do return (← compare x.abs .one) == .gt

/-- The tangent whose angle is summed, without a sign. Above one it is the inverse of `x`. -/
def tangent (x : Decimal) (w : Nat) : Except Halt Int := do
  toFixed (← if ← isSteep x then orZero (inv x.abs) else .ok x.abs) w

/-- The angle of `x` from that of its tangent. -/
def unfoldAngle (x : Decimal) (steep : Bool) (w : Nat) (angle : Int) : Int :=
  let angle := if steep then (Fixed.pi w).tdiv 2 - angle else angle
  if x.isNegative then -angle else angle

def atan (x : Decimal) : Except Halt Decimal :=
  if x.isZero then .ok .zero
  else do
    let w := workDigits + 4
    let angle ← arctan (← tangent x w) (pow10 w)
    ofFixed (unfoldAngle x (← isSteep x) w angle) w

end Word

end Keypad
