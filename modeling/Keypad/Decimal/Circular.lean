import Keypad.Decimal.Exponential

/-!
# Circular functions of decimals

Sine and cosine reduce their angle to the nearest multiple of a full turn and sum a series; angles
whose leading exponent exceeds `maxAngleExponent` are not reduced. The inverse tangent halves its
argument three times before summing. The inverse sine and cosine are built from it.
-/

namespace Keypad

namespace Fixed

/-- The sine of `r` at the scale `s`. -/
def sin (r : Int) (s : Nat) : Int :=
  r + factorialSeries (-(r * r).tdiv s) s (fun n => 2 * (2 * n + 1)) 1 r

/-- The cosine of `r` at the scale `s`. -/
def cos (r : Int) (s : Nat) : Int :=
  s + factorialSeries (-(r * r).tdiv s) s (fun n => 2 * (2 * n - 1)) 1 s

/-- From `tan a` to `tan (a / 2)`, at the scale `s`. -/
def halfTangent (s t : Int) : Int :=
  let hypotenuse : Int := Nat.sqrt ((s + (t * t).tdiv s) * s).natAbs
  (t * s).tdiv (s + hypotenuse)

/-- The tangent of half an angle below a right one is at most one. -/
theorem natAbs_halfTangent_le (s : Nat) (t : Int) : (halfTangent s t).natAbs ≤ s := by
  by_cases hs : s = 0
  · simp [halfTangent, hs]
  have hsquare : (((s : Int) + (t * t).tdiv s) * s).natAbs
      = (s + t.natAbs * t.natAbs / s) * s := by
    have hcast : (t * t).tdiv s = (t.natAbs * t.natAbs / s : Nat) := by
      rw [← Int.natAbs_mul_self]
      rfl
    rw [hcast, ← Int.natCast_add, ← Int.natCast_mul, Int.natAbs_natCast]
  -- The square under the root is cut, but it is not cut below that of the tangent.
  have hleg : t.natAbs ≤ Nat.sqrt ((s + t.natAbs * t.natAbs / s) * s) := by
    have hcut := Nat.lt_mul_div_succ (t.natAbs * t.natAbs) (Nat.pos_of_ne_zero hs)
    have hself : s * 1 ≤ s * s := Nat.mul_le_mul_left s (Nat.pos_of_ne_zero hs)
    have hsum : (s + t.natAbs * t.natAbs / s) * s = s * s + s * (t.natAbs * t.natAbs / s) := by
      rw [Nat.add_mul, Nat.mul_comm (_ / s)]
    have hroot := Nat.lt_succ_sqrt ((s + t.natAbs * t.natAbs / s) * s)
    refine Nat.le_of_not_lt fun hlt => ?_
    have hsmall := Nat.mul_le_mul (Nat.succ_le_of_lt hlt) (Nat.succ_le_of_lt hlt)
    rw [Nat.mul_add] at hcut
    omega
  rw [halfTangent, hsquare, Int.natAbs_tdiv, Int.natAbs_mul, Int.natAbs_natCast]
  refine Nat.div_le_of_le_mul (Nat.mul_le_mul_right s ?_)
  omega

/-- The tangent of an eighth of the angle whose tangent is `t`. -/
def eighth (s : Nat) (t : Int) : Int := Nat.repeat (halfTangent s) 3 t

theorem natAbs_eighth_le (s : Nat) (t : Int) : (eighth s t).natAbs ≤ s :=
  natAbs_halfTangent_le s _

theorem natAbs_arctanRatio_le {u : Int} {s : Nat} (hu : u.natAbs ≤ s) :
    (-(u * u).tdiv s).natAbs ≤ s := by
  rw [Int.natAbs_neg]
  exact natAbs_square_tdiv_le hu

/-- The inverse tangent of `t` between zero and one, at the scale `s`. -/
def arctan (t : Int) (s : Nat) : Int :=
  let u := eighth s t
  8 * (u + powerSeries (-(u * u).tdiv s) s (natAbs_arctanRatio_le (natAbs_eighth_le s t)) 1 u)

end Fixed

/-- The largest leading exponent of an angle that is reduced. -/
def maxAngleExponent : Int := 400

namespace Decimal

def pi : Decimal := ofFixed (Fixed.pi workDigits) workDigits

def halfPi : Decimal := (pi.div? (ofInt 2)).getD zero

/-- One degree in radians, `π / 180`. -/
def radiansPerDegree : Decimal :=
  ofFixed ((Fixed.pi (workDigits + 3)).tdiv 180) (workDigits + 3)

/-- One radian in degrees, `180 / π`. -/
def degreesPerRadian : Decimal :=
  ofFixed ((pow10 (2 * workDigits) * 180 : Int).tdiv (Fixed.pi workDigits)) workDigits

/-- The angle between `-π` and `π` that differs from `x` by full turns, with `w` places. -/
def reducedAngle? (x : Decimal) (w : Nat) : Option Int :=
  if maxAngleExponent < x.leading then none
  else
    let extra := x.leading.toNat + 4
    let turn := Fixed.pi (w + extra) * 2
    let scaledX := x.toFixed (w + extra)
    some ((scaledX - Digits.roundDiv scaledX turn.natAbs * turn).tdiv (pow10 extra))

def sin? (x : Decimal) : Option Decimal :=
  (reducedAngle? x workDigits).map fun r => ofFixed (Fixed.sin r (pow10 workDigits)) workDigits

def cos? (x : Decimal) : Option Decimal :=
  (reducedAngle? x workDigits).map fun r => ofFixed (Fixed.cos r (pow10 workDigits)) workDigits

/-- Above one, the inverse tangent is a right angle less that of the inverse. -/
def atan (x : Decimal) : Decimal :=
  if x.isZero then zero
  else
    let w := workDigits + 4
    let steep := x.abs.compare one == .gt
    let a := if steep then x.abs.inv?.getD zero else x.abs
    let angle := Fixed.arctan (a.toFixed w) (pow10 w)
    let angle := if steep then (Fixed.pi w).tdiv 2 - angle else angle
    ofFixed (if x.isNegative then -angle else angle) w

/-- The inverse sine of `x` from -1 to 1, as the inverse tangent of `x / √(1 - x²)`. -/
def asin (x : Decimal) : Decimal :=
  if x.abs.compare one != .lt then if x.isNegative then -halfPi else halfPi
  else
    match x.div? (one.sub (x.mul x)).sqrt with
    | some t => atan t
    | none => zero

def acos (x : Decimal) : Decimal := halfPi.sub (asin x)

end Decimal

end Keypad
