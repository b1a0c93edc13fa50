import Keypad.Decimal.Circular
import Keypad.Proofs.Decimal.Magnitude

/-!
# Odd and even functions

Every division cuts towards zero and every rounding treats both signs alike. Hence a series that is
odd in its argument is summed to the opposite number at the opposite argument, through the same
number of terms, and what is rounded from it has the same digits. The sine, the inverse tangent and
the inverse sine are odd and the cosine is even to the last digit, for every decimal.
-/

namespace Keypad

namespace Fixed

/-- A series is left at the same term from both signs of its first one. -/
theorem factorialSeries_neg (y : Int) (s : Nat) (cofactor : Nat → Nat) (n : Nat) (t : Int) :
    factorialSeries y s cofactor n (-t) = -factorialSeries y s cofactor n t := by
  have hstep (n : Nat) (t : Int) :
      factorialStep y s cofactor n (-t) = -factorialStep y s cofactor n t := by
    simp only [factorialStep, Int.neg_mul, Int.neg_tdiv]
  fun_induction factorialSeries y s cofactor n t with
  | case1 n t next hend =>
    have hnext : factorialStep y s cofactor n (-t) = 0 := by
      rw [hstep]
      exact Int.neg_eq_zero.2 hend
    rw [factorialSeries]
    exact if_pos hnext
  | case2 n t next hgoes ih =>
    have hnext : factorialStep y s cofactor n (-t) ≠ 0 := by
      rw [hstep]
      exact fun hzero => hgoes (Int.neg_eq_zero.1 hzero)
    rw [factorialSeries, if_neg hnext, hstep, ih, Int.neg_add]

theorem sin_neg (r : Int) (s : Nat) : sin (-r) s = -sin r s := by
  simp only [sin, Int.neg_mul_neg, factorialSeries_neg, Int.neg_add]

theorem cos_neg (r : Int) (s : Nat) : cos (-r) s = cos r s := by
  simp only [cos, Int.neg_mul_neg]

end Fixed

namespace Decimal

open Digits

variable {x d : Decimal}

/-! ## Arithmetic -/

protected theorem abs_neg (d : Decimal) : (-d).abs = d.abs := by
  simp only [abs, mantissa_neg, exponent_neg, Int.natAbs_neg]

theorem toFixed_neg (d : Decimal) (w : Nat) : (-d).toFixed w = -d.toFixed w := by
  simp only [toFixed, mantissa_neg, exponent_neg, Int.natAbs_neg, Int.neg_mul, Int.neg_tdiv]
  split
  · rfl
  · split
    · exact Int.neg_zero.symm
    · rfl

theorem ofFixed_neg (n : Int) (w : Nat) : ofFixed (-n) w = -ofFixed n w := round_neg n _ _

theorem mul_self_neg (d : Decimal) : (-d).mul (-d) = d.mul d := by
  simp only [mul, mantissa_neg, exponent_neg, Int.neg_mul_neg]

theorem div?_neg (a b : Decimal) : (-a).div? b = (a.div? b).map (-·) := by
  simp only [div?, mantissa_neg, exponent_neg, quotient_neg]
  split <;> rfl

/-- Of a decimal and its opposite, one is negative, unless both are zero. -/
theorem ite_isNegative_neg (hx : x.isZero = false) (d : Decimal) :
    (if (-x).isNegative then -d else d) = -(if x.isNegative then -d else d) := by
  have hne : x.mantissa ≠ 0 := by simpa [isZero] using hx
  have hopposite : (-x).isNegative = !x.isNegative := by
    rw [isNegative, isNegative, ← decide_not, decide_eq_decide, mantissa_neg]
    omega
  rw [hopposite]
  cases x.isNegative with
  | false => rfl
  | true => exact (neg_neg d).symm

/-! ## Sine and cosine -/

/-- An angle and its opposite lose as many full turns. -/
theorem reducedAngle?_neg (x : Decimal) (w : Nat) :
    (-x).reducedAngle? w = (x.reducedAngle? w).map (-·) := by
  simp only [reducedAngle?, leading_neg, toFixed_neg, roundDiv_neg]
  split
  · rfl
  · rw [Option.map_some, Int.neg_mul, ← Int.neg_tdiv, ← neg_sub']

theorem sin?_neg (x : Decimal) : (-x).sin? = x.sin?.map (-·) := by
  rw [sin?, sin?, reducedAngle?_neg, Option.map_map, Option.map_map]
  refine congrArg (Option.map · _) (funext fun r => ?_)
  simp only [Function.comp_apply, Fixed.sin_neg, ofFixed_neg]

theorem cos?_neg (x : Decimal) : (-x).cos? = x.cos? := by
  rw [cos?, cos?, reducedAngle?_neg, Option.map_map]
  refine congrArg (Option.map · _) (funext fun r => ?_)
  simp only [Function.comp_apply, Fixed.cos_neg]

/-! ## Inverse tangent and inverse sine -/

/-- The inverse tangent is computed of the size of its argument and takes its sign last. -/
theorem atan_neg (x : Decimal) : (-x).atan = -x.atan := by
  simp only [atan, isZero_neg, Decimal.abs_neg]
  split
  · rfl
  · next hzero =>
    generalize (if x.abs.compare one == .gt then (Fixed.pi (workDigits + 4)).tdiv 2 - _ else _) =
      angle
    simp only [apply_ite (ofFixed · (workDigits + 4)), ofFixed_neg]
    exact ite_isNegative_neg (by simpa using hzero) _

theorem isZero_eq_false_of_one_le_abs (h : (x.abs.compare one != .lt) = true) :
    x.isZero = false := by
  cases hzero : x.isZero with
  | false => rfl
  | true =>
    have hadd : x.abs.sub one = -one := by
      have habs : x.abs.isZero = true := by simpa [abs, isZero] using hzero
      rw [sub, add, if_pos habs]
    rw [compare, hadd] at h
    cases h

theorem asin_neg (x : Decimal) : (-x).asin = -x.asin := by
  simp only [asin, Decimal.abs_neg, mul_self_neg, div?_neg]
  split
  · next hlarge => exact ite_isNegative_neg (isZero_eq_false_of_one_le_abs hlarge) halfPi
  · cases x.div? (one.sub (x.mul x)).sqrt with
    | none => rfl
    | some t => exact atan_neg t

/-- The sine, the inverse tangent and the inverse sine are odd and the cosine is even, digit for
digit; the sine and the cosine of two opposite angles are refused together. -/
theorem sin?_cos?_atan_asin_neg (x : Decimal) :
    (-x).sin? = x.sin?.map (-·) ∧ (-x).cos? = x.cos? ∧ (-x).atan = -x.atan ∧ (-x).asin = -x.asin :=
  ⟨sin?_neg x, cos?_neg x, atan_neg x, asin_neg x⟩

end Decimal

end Keypad
