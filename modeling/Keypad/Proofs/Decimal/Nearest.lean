import Keypad.Proofs.Decimal.Rounding
import Mathlib.Tactic.Linarith
import Mathlib.Algebra.Order.Ring.Abs

/-!
# The nearest decimal

Among the rationals written with a given number of significant digits, the nearest to a rational
`x`, the one farther from zero if two are equally near. Rounding finds it, from the exact value and
from any longer value that cuts `x` after at least one digit more: the unit of the cut divides half
a unit of the last kept digit, so no tie lies strictly inside it.

The nearest decimal may have an exponent outside the limits. The answer is that decimal brought
within them.
-/

namespace Keypad

open Digits Decimal

variable {digits : Nat} {x y u : Rat}

/-- The rational is written with at most `digits` significant digits. -/
def HasDigits (digits : Nat) (y : Rat) : Prop :=
  ∃ m e : Int, m.natAbs < pow10 digits ∧ fraction m e = y

/-- Of the rationals of `digits` digits, `y` is the nearest to `x`, away from zero in a tie. -/
structure IsNearest (digits : Nat) (x y : Rat) : Prop where
  hasDigits : HasDigits digits y
  le : ∀ z, HasDigits digits z → |y - x| ≤ |z - x|
  away : ∀ z, HasDigits digits z → |z - x| = |y - x| → |z| ≤ |y|

/-! ## Both signs -/

theorem hasDigits_zero (digits : Nat) : HasDigits digits 0 :=
  ⟨0, 0, pow10_pos digits, by simp [fraction_eq]⟩

theorem HasDigits.neg (h : HasDigits digits y) : HasDigits digits (-y) := by
  obtain ⟨m, e, hm, rfl⟩ := h
  exact ⟨-m, e, by rwa [Int.natAbs_neg], fraction_neg m e⟩

theorem abs_neg_sub_neg (x z : Rat) : |-z - -x| = |z - x| := by
  rw [← neg_sub', abs_neg]

theorem IsNearest.neg (h : IsNearest digits x y) : IsNearest digits (-x) (-y) where
  hasDigits := h.hasDigits.neg
  le z hz := by
    obtain ⟨w, rfl⟩ : ∃ w, z = -w := ⟨-z, by simp⟩
    rw [abs_neg_sub_neg, abs_neg_sub_neg]
    exact h.le w (by simpa using hz.neg)
  away z hz htie := by
    obtain ⟨w, rfl⟩ : ∃ w, z = -w := ⟨-z, by simp⟩
    rw [abs_neg_sub_neg, abs_neg_sub_neg] at htie
    rw [abs_neg, abs_neg]
    exact h.away w (by simpa using hz.neg) htie

theorem IsNearest.self (h : HasDigits digits x) : IsNearest digits x x where
  hasDigits := h
  le z _ := by
    rw [sub_self, abs_zero]
    exact abs_nonneg _
  away z _ hz := by
    rw [sub_self, abs_zero, abs_eq_zero, sub_eq_zero] at hz
    rw [hz]

/-- There is only one nearest: two opposite rationals are equally near to zero alone, which has
digits itself. -/
theorem IsNearest.unique {z : Rat} (hy : IsNearest digits x y) (hz : IsNearest digits x z) :
    y = z := by
  have htie : |z - x| = |y - x| := le_antisymm (hz.le y hy.hasDigits) (hy.le z hz.hasDigits)
  have habs : |y| = |z| :=
    le_antisymm (hz.away y hy.hasDigits htie.symm) (hy.away z hz.hasDigits htie)
  rcases abs_eq_abs.1 habs with h | h
  · exact h
  rcases abs_eq_abs.1 htie with h' | h'
  · linarith
  · have hx : x = 0 := by linarith
    have hle := hz.le 0 (hasDigits_zero digits)
    rw [hx, sub_zero, sub_zero, abs_zero, abs_nonpos_iff] at hle
    linarith

/-! ## Size -/

theorem IsNearest.abs_le_two_mul (h : IsNearest digits x y) : |y| ≤ 2 * |x| := by
  have hle := h.le 0 (hasDigits_zero digits)
  have htriangle := abs_sub_abs_le_abs_sub y x
  rw [zero_sub, abs_neg] at hle
  linarith

/-- Nothing of so many digits lies between the nearest rational and `x` on the side of zero. -/
theorem IsNearest.le_abs {z : Rat} (h : IsNearest digits x y) (hz : HasDigits digits z)
    (hle : z ≤ |x|) : z ≤ |y| := by
  rcases abs_cases x with ⟨habs, _⟩ | ⟨habs, _⟩
  · have hnear := (h.le z hz).trans_eq (abs_of_nonpos (by linarith))
    have hy := (abs_le.1 hnear).1
    have hself := le_abs_self y
    linarith
  · have hnear := (h.le (-z) hz.neg).trans_eq (abs_of_nonneg (by linarith))
    have hy := (abs_le.1 hnear).2
    have hself := neg_le_abs y
    linarith

/-! ## Multiples of the last kept place -/

/-- A multiple of `u` within half of `u` of `x`, the half below `x` left out. -/
theorem multiple_le {n : Int} (hu : 0 < u) (hlow : n * u - u / 2 ≤ x) (hhigh : x < n * u + u / 2)
    (k : Int) : |n * u - x| ≤ |k * u - x| ∧ (|k * u - x| = |n * u - x| → k ≤ n) := by
  have hhalf : |n * u - x| ≤ u / 2 := abs_le.2 ⟨by linarith, by linarith⟩
  rcases lt_trichotomy k n with h | rfl | h
  · have hk : (k : Rat) * u ≤ (n - 1) * u := by
      apply mul_le_mul_of_nonneg_right _ hu.le
      exact_mod_cast Int.le_sub_one_of_lt h
    refine ⟨?_, fun _ => h.le⟩
    rw [abs_of_nonpos (by linarith : k * u - x ≤ 0)]
    linarith
  · exact ⟨le_rfl, fun _ => le_rfl⟩
  · have hk : ((n : Rat) + 1) * u ≤ k * u := by
      apply mul_le_mul_of_nonneg_right _ hu.le
      exact_mod_cast h
    have hfar : u / 2 < |k * u - x| := by
      rw [abs_of_pos (by linarith : 0 < k * u - x)]
      linarith
    exact ⟨hhalf.trans hfar.le, fun htie => absurd htie (by linarith)⟩

theorem hasDigits_fraction {n : Nat} (hdigits : 0 < digits) (h : n ≤ pow10 digits) (f : Int) :
    HasDigits digits (fraction n f) := by
  rcases Nat.lt_or_eq_of_le h with hlt | rfl
  · exact ⟨n, f, hlt, rfl⟩
  · refine ⟨1, f + digits, pow10_le_pow10 hdigits |>.trans_lt' (by decide), ?_⟩
    have hten : (10 : Rat) ≠ 0 := by norm_num
    rw [fraction_eq, fraction_eq, zpow_add₀ hten, zpow_natCast]
    push_cast
    rw [pow10_cast]
    ring

/-- What is written with a place smaller than `10 ^ f` lies below the first multiple of `10 ^ f`
that has all its digits. -/
theorem HasDigits.multiple_or_lt (h : HasDigits digits y) (hdigits : 0 < digits) (f : Int) :
    (∃ k : Int, y = k * (10 : Rat) ^ f) ∨ |y| < pow10 (digits - 1) * (10 : Rat) ^ f := by
  obtain ⟨m, e, hm, rfl⟩ := h
  have hten : (10 : Rat) ≠ 0 := by norm_num
  rw [fraction_eq]
  rcases lt_or_ge e f with hlt | hge
  · right
    have hpos : (0 : Rat) < 10 ^ e := zpow_pos (by norm_num) e
    have habs : |(m : Rat)| < pow10 digits := by
      rw [← Int.cast_abs, Int.abs_eq_natAbs]
      exact_mod_cast hm
    have hstep : (10 : Rat) ^ (e + 1) ≤ 10 ^ f := zpow_le_zpow_right₀ (by norm_num) (by omega)
    have hpow : pow10 digits = 10 * pow10 (digits - 1) := by
      rw [← pow10_succ, Nat.sub_add_cancel hdigits]
    calc |(m : Rat) * 10 ^ e| = |(m : Rat)| * 10 ^ e := by rw [abs_mul, abs_of_pos hpos]
      _ < pow10 digits * 10 ^ e := mul_lt_mul_of_pos_right habs hpos
      _ = pow10 (digits - 1) * 10 ^ (e + 1) := by
        rw [hpow, zpow_add₀ hten, zpow_one]
        push_cast
        ring
      _ ≤ pow10 (digits - 1) * 10 ^ f := mul_le_mul_of_nonneg_left hstep (Nat.cast_nonneg _)
  · left
    obtain ⟨j, rfl⟩ := Int.le.dest hge
    refine ⟨m * pow10 j, ?_⟩
    rw [zpow_add₀ hten, zpow_natCast]
    push_cast
    rw [pow10_cast]
    ring

/-- The multiple of the last kept place that is nearest to `x` is the nearest of all rationals of
as many digits. -/
theorem isNearest_fraction {n : Nat} {f : Int} (hdigits : 0 < digits)
    (hfirst : pow10 (digits - 1) * (10 : Rat) ^ f ≤ x) (hlast : x < pow10 digits * (10 : Rat) ^ f)
    (hlow : n * (10 : Rat) ^ f - 10 ^ f / 2 ≤ x) (hhigh : x < n * (10 : Rat) ^ f + 10 ^ f / 2) :
    IsNearest digits x (fraction n f) := by
  have hu : (0 : Rat) < 10 ^ f := zpow_pos (by norm_num) f
  have hn : n ≤ pow10 digits := by
    by_contra hnot
    have hcast : (pow10 digits : Rat) + 1 ≤ n := by exact_mod_cast Nat.lt_of_not_le hnot
    have hle := mul_le_mul_of_nonneg_right hcast hu.le
    linarith
  have hmultiple := multiple_le (n := n) hu hlow hhigh
  have hcases (z : Rat) (hz : HasDigits digits z) := hz.multiple_or_lt hdigits f
  have hx : 0 < x := (mul_pos (by exact_mod_cast pow10_pos _) hu).trans_le hfirst
  have hself := hasDigits_fraction hdigits hn f
  rw [fraction_eq, Int.cast_natCast] at hself ⊢
  generalize (10 : Rat) ^ f = u at *
  -- Anything below the first multiple is farther from `x` than that multiple.
  have hbelow (z : Rat) (hz : |z| < pow10 (digits - 1) * u) : |n * u - x| < |z - x| := by
    have hz' := (abs_lt.1 hz).2
    have hle := (hmultiple (pow10 (digits - 1))).1
    push_cast at hle
    rw [abs_of_nonpos (by linarith : pow10 (digits - 1) * u - x ≤ 0)] at hle
    rw [abs_of_neg (by linarith : z - x < 0)]
    linarith
  refine ⟨hself, fun z hz => ?_, fun z hz htie => ?_⟩
  · rcases hcases z hz with ⟨k, rfl⟩ | hlt
    · exact (hmultiple k).1
    · exact (hbelow z hlt).le
  · rcases hcases z hz with ⟨k, rfl⟩ | hlt
    · have hk : 0 ≤ k := by
        by_contra hneg
        have hku : (k : Rat) * u < 0 :=
          mul_neg_of_neg_of_pos (by exact_mod_cast Int.lt_of_not_ge hneg) hu
        have hzero := (hmultiple 0).1
        rw [Int.cast_zero, zero_mul, zero_sub, abs_neg, abs_of_pos hx] at hzero
        rw [abs_of_neg (by linarith : k * u - x < 0)] at htie
        push_cast at hzero
        linarith
      have hkn : (k : Rat) ≤ n := by exact_mod_cast (hmultiple k).2 htie
      rw [abs_of_nonneg (mul_nonneg (by exact_mod_cast hk) hu.le),
        abs_of_nonneg (mul_nonneg (Nat.cast_nonneg _) hu.le)]
      exact mul_le_mul_of_nonneg_right hkn hu.le
    · exact absurd htie (hbelow z hlt).ne'

/-- A rational less than a twentieth of the last place away does not change which decimal is
nearest. Below a power of ten the last place is ten times smaller, and this is half of it. -/
theorem isNearest_of_abs_sub_lt {n : Nat} {f : Int} (hdigits : 0 < digits)
    (hlow : pow10 (digits - 1) ≤ n) (hhigh : n < pow10 digits)
    (hx : |x - n * (10 : Rat) ^ f| < (10 : Rat) ^ f / 20) : IsNearest digits x (fraction n f) := by
  have hu : (0 : Rat) < 10 ^ f := zpow_pos (by norm_num) f
  obtain ⟨hbelow, habove⟩ := abs_lt.1 hx
  have hlast : (n + 1 : Rat) * 10 ^ f ≤ pow10 digits * 10 ^ f :=
    mul_le_mul_of_nonneg_right (by exact_mod_cast hhigh) hu.le
  rcases le_or_gt (pow10 (digits - 1) * (10 : Rat) ^ f) x with hfirst | hfirst
  · exact isNearest_fraction hdigits hfirst (by linarith) (by linarith) (by linarith)
  · -- Only the first multiple itself is so near to what lies below it.
    have hn : n = pow10 (digits - 1) := by
      by_contra hne
      have hcast : (pow10 (digits - 1) + 1 : Rat) ≤ n := by
        exact_mod_cast Nat.lt_of_le_of_ne hlow (Ne.symm hne)
      have hmul := mul_le_mul_of_nonneg_right hcast hu.le
      linarith
    have hpow : pow10 digits = 10 * n := by rw [hn, ← pow10_succ, Nat.sub_add_cancel hdigits]
    have hunit : (10 : Rat) ^ f = 10 * 10 ^ (f - 1) := by
      rw [zpow_sub₀ (by norm_num), zpow_one]
      ring
    have hone : (1 : Rat) ≤ n := by
      rw [hn]
      exact_mod_cast pow10_pos _
    have hvalue : fraction n f = fraction (pow10 digits : Nat) (f - 1) := by
      rw [fraction_eq, fraction_eq, hpow, hunit]
      push_cast
      ring
    have hmul := le_mul_of_one_le_left hu.le hone
    rw [← hn] at hfirst
    rw [hvalue]
    rw [hunit] at hbelow habove hfirst hmul
    refine isNearest_fraction hdigits ?_ ?_ ?_ ?_ <;>
      simp only [hpow, ← hn, Nat.cast_mul, Nat.cast_ofNat] <;> linarith

/-- What is less than a twentieth of the last place leaves no trace in a sum. -/
theorem isNearest_add {m f : Int} (hdigits : 0 < digits) (hlow : pow10 (digits - 1) ≤ m.natAbs)
    (hhigh : m.natAbs < pow10 digits) (hy : |y| < (10 : Rat) ^ f / 20) :
    IsNearest digits (fraction m f + y) (fraction m f) := by
  obtain ⟨n, rfl | rfl⟩ := Int.eq_nat_or_neg m
  · rw [Int.natAbs_natCast] at hlow hhigh
    apply isNearest_of_abs_sub_lt hdigits hlow hhigh
    rwa [fraction_eq, Int.cast_natCast, add_sub_cancel_left]
  · rw [Int.natAbs_neg, Int.natAbs_natCast] at hlow hhigh
    have hx : -fraction n f + y = -(fraction n f - y) := by ring
    rw [fraction_neg, hx]
    apply IsNearest.neg
    apply isNearest_of_abs_sub_lt hdigits hlow hhigh
    rwa [fraction_eq, Int.cast_natCast, sub_sub_cancel_left, abs_neg]

/-! ## Rounded decimals -/

/-- The decimal is `x` rounded to `digits` digits: the nearest one, brought within the limits of
exponents. -/
def RoundsTo (digits : Nat) (x : Rat) (d : Decimal) : Prop :=
  ∃ y : Decimal, y.IsReduced ∧ IsNearest digits x y.value ∧ d = y.limited

namespace Decimal

variable {d : Decimal} {m n e : Int}

theorem value_neg (d : Decimal) : (-d).value = -d.value := fraction_neg d.mantissa d.exponent

theorem IsReduced.neg (h : d.IsReduced) : (-d).IsReduced := by
  rcases h with rfl | hmod
  · exact .inl rfl
  · refine .inr ?_
    rw [mantissa_neg]
    omega

theorem limited_neg (d : Decimal) : (-d).limited = -d.limited := by
  rw [limited, limited, exponent_neg]
  split <;> rfl

theorem IsReduced.natAbs_mantissa_lt (h : d.IsReduced) (hdigits : HasDigits digits d.value) :
    d.mantissa.natAbs < pow10 digits := by
  by_cases hd : d = zero
  · rw [hd]
    exact pow10_pos digits
  obtain ⟨m, e, hm, hvalue⟩ := hdigits
  have hmantissa := mantissa_eq_of_fraction_eq hvalue (h.le_exponent hd hvalue)
  rw [hmantissa, natAbs_mul_pow10] at hm
  exact (Nat.le_mul_of_pos_right _ (pow10_pos _)).trans_lt hm

theorem abs_value (d : Decimal) : |d.value| = d.mantissa.natAbs * (10 : Rat) ^ d.exponent := by
  have hpos : (0 : Rat) < 10 ^ d.exponent := zpow_pos (by norm_num) _
  rw [value, fraction_eq, abs_mul, abs_of_pos hpos, Nat.cast_natAbs, Int.cast_abs]

/-- The decimal nearest to a multiple of `10 ^ e` is a multiple of `10 ^ e`. -/
theorem IsReduced.le_exponent_of_isNearest (h : d.IsReduced) (hd : d ≠ zero) (hdigits : 0 < digits)
    (hnearest : IsNearest digits (fraction m e) d.value) : e ≤ d.exponent := by
  rcases Nat.lt_or_ge m.natAbs (pow10 digits) with hshort | hlong
  · exact h.le_exponent hd ((IsNearest.self ⟨m, e, hshort, rfl⟩).unique hnearest)
  have hunit : (0 : Rat) < 10 ^ e := zpow_pos (by norm_num) e
  have hfirst : fraction (pow10 digits : Nat) e ≤ |d.value| := by
    apply hnearest.le_abs (hasDigits_fraction hdigits le_rfl e)
    rw [fraction_eq, fraction_eq, abs_mul, abs_of_pos hunit, Int.cast_natCast, ← Int.cast_abs,
      Int.abs_eq_natAbs]
    exact mul_le_mul_of_nonneg_right (by exact_mod_cast hlong) hunit.le
  have hlt : (d.mantissa.natAbs : Rat) ≤ pow10 digits := by
    exact_mod_cast (h.natAbs_mantissa_lt hnearest.hasDigits).le
  have hpow : (0 : Rat) < pow10 digits := by exact_mod_cast pow10_pos digits
  rw [fraction_eq, Int.cast_natCast, abs_value] at hfirst
  have hle := hfirst.trans
    (mul_le_mul_of_nonneg_right hlt (zpow_pos (by norm_num : (0 : Rat) < 10) _).le)
  exact (zpow_le_zpow_iff_right₀ (by norm_num)).1 (le_of_mul_le_mul_left hle hpow)

/-- The nearest decimal of a rational that is neither too large nor too small is within the
limits. -/
theorem IsReduced.withinLimits {c : Nat} (h : d.IsReduced)
    (hnearest : IsNearest precision x d.value) (hc : c ≤ 2 ^ 51)
    (hlow : (10 : Rat) ^ (-c : Int) ≤ |x|) (hhigh : |x| < (10 : Rat) ^ (c : Int)) :
    d.WithinLimits := by
  have hten : (1 : Rat) < 10 := by norm_num
  have hf : (0 : Rat) < 10 ^ d.exponent := zpow_pos (by norm_num) _
  have hle := hnearest.abs_le_two_mul
  have hge : (10 : Rat) ^ (-c : Int) ≤ |d.value| := by
    refine hnearest.le_abs ⟨1, -c, by decide, ?_⟩ hlow
    rw [fraction_eq, Int.cast_one, one_mul]
  have hpos : 0 < d.mantissa.natAbs := by
    by_contra hnot
    have hm : d.mantissa.natAbs = 0 := by omega
    rw [abs_value, hm, Nat.cast_zero, zero_mul] at hge
    exact absurd hge (not_le.2 (zpow_pos (by norm_num) _))
  have hsmall : (d.mantissa.natAbs : Rat) < 10 ^ (precision : Int) := by
    rw [zpow_natCast, ← pow10_cast]
    exact_mod_cast h.natAbs_mantissa_lt hnearest.hasDigits
  have hone : (1 : Rat) ≤ d.mantissa.natAbs := by exact_mod_cast hpos
  have hfloor : -(c : Int) < precision + d.exponent := by
    rw [← zpow_lt_zpow_iff_right₀ hten, zpow_add₀ (by norm_num)]
    exact (hge.trans_eq (abs_value d)).trans_lt (mul_lt_mul_of_pos_right hsmall hf)
  have hceiling : d.exponent < c + 1 := by
    rw [← zpow_lt_zpow_iff_right₀ hten, zpow_add₀ (by norm_num), zpow_one]
    have hmul := (le_mul_of_one_le_left hf.le hone).trans_eq (abs_value d).symm
    linarith
  rw [precision] at hfloor
  rw [WithinLimits, exponentFloor, exponentCeiling]
  omega

end Decimal

theorem RoundsTo.neg {d : Decimal} (h : RoundsTo digits x d) : RoundsTo digits (-x) (-d) := by
  obtain ⟨y, hreduced, hnearest, rfl⟩ := h
  refine ⟨-y, hreduced.neg, ?_, (limited_neg y).symm⟩
  rw [value_neg]
  exact hnearest.neg

theorem IsNearest.roundsTo {m e : Int} (h : IsNearest digits x (fraction m e)) :
    RoundsTo digits x (normalize m e) := by
  obtain ⟨y, hreduced, hvalue, hnormalize⟩ := exists_isReduced_normalize m e
  exact ⟨y, hreduced, hvalue ▸ h, hnormalize⟩

/-- Half of a power of ten is whole, so a cut rational and what is cut off together do not exceed
the half of the place that is rounded away. -/
theorem succ_le_roundDivNat (n k : Nat) :
    2 * (n + 1) ≤ 2 * pow10 (k + 1) * roundDivNat n (pow10 (k + 1)) + pow10 (k + 1) := by
  have hlt := lt_roundDivNat_mul n (pow10_pos (k + 1))
  have heven : pow10 (k + 1) = 2 * (5 * pow10 k) := by rw [pow10_succ]; ring
  generalize roundDivNat n (pow10 (k + 1)) = r at *
  rw [Nat.mul_add, heven] at hlt
  rw [heven]
  rw [Nat.mul_assoc] at hlt ⊢
  generalize 2 * (5 * pow10 k) * r = s at *
  omega

/-- A positive rational may be cut after at least one digit more than is kept. -/
theorem isNearest_roundDivNat {n k : Nat} {e : Int} (hdigits : 0 < digits)
    (hcount : count n = digits + (k + 1)) (hle : n * (10 : Rat) ^ e ≤ x)
    (hlt : x < (n + 1) * (10 : Rat) ^ e) :
    IsNearest digits x
      (fraction (roundDivNat n (pow10 (k + 1)) : Nat) (e + ((k + 1 : Nat) : Int))) := by
  have hn : n ≠ 0 := by
    rintro rfl
    rw [count_zero] at hcount
    omega
  have hunit : (10 : Rat) ^ (e + ((k + 1 : Nat) : Int)) = pow10 (k + 1) * 10 ^ e := by
    rw [zpow_add₀ (by norm_num), zpow_natCast, pow10_cast, mul_comm]
  have hlow : pow10 (digits - 1) * pow10 (k + 1) ≤ n := by
    rw [← pow10_add]
    exact (pow10_le_pow10 (by omega)).trans (pow10_pred_count_le hn)
  have hhigh : n + 1 ≤ pow10 digits * pow10 (k + 1) := by
    rw [← pow10_add, ← hcount]
    exact lt_pow10_count n
  have hbelow := roundDivNat_mul_le n (pow10 (k + 1))
  have habove := succ_le_roundDivNat n k
  generalize roundDivNat n (pow10 (k + 1)) = r at *
  -- The bounds on naturals, in units of the cut.
  have ht : (0 : Rat) ≤ 10 ^ e := (zpow_pos (by norm_num) e).le
  generalize (10 : Rat) ^ e = t at *
  generalize pow10 (k + 1) = p at *
  have hlow' : (pow10 (digits - 1) * p : Rat) * t ≤ n * t :=
    mul_le_mul_of_nonneg_right (by exact_mod_cast hlow) ht
  have hhigh' : (n + 1 : Rat) * t ≤ pow10 digits * p * t :=
    mul_le_mul_of_nonneg_right (by exact_mod_cast hhigh) ht
  have hbelow' : (2 * p * r : Rat) * t ≤ (2 * n + p) * t :=
    mul_le_mul_of_nonneg_right (by exact_mod_cast hbelow) ht
  have habove' : (2 * (n + 1) : Rat) * t ≤ (2 * p * r + p) * t :=
    mul_le_mul_of_nonneg_right (by exact_mod_cast habove) ht
  refine isNearest_fraction hdigits ?_ ?_ ?_ ?_ <;> rw [hunit] <;> linarith

/-- With nothing to round away, the rounded quotient is the mantissa itself. -/
theorem Decimal.round_eq_normalize (m e : Int) (digits : Nat) :
    Decimal.round m e digits = normalize (roundDiv m (pow10 (count m.natAbs - digits)))
      (e + ((count m.natAbs - digits : Nat) : Int)) := by
  rw [Decimal.round]
  split
  · next hshort =>
    have hself := roundDiv_pow10 m 0
    rw [pow10_zero, Nat.cast_one, mul_one] at hself
    rw [hshort, pow10_zero, hself, Nat.cast_zero, add_zero]
  · rfl

/-- A positive rational may be cut before it is rounded, if it has no more digits than are kept or
one digit more is left. -/
theorem isNearest_roundDiv_of_cut {n : Nat} {e : Int} (hdigits : 0 < digits)
    (hle : n * (10 : Rat) ^ e ≤ x) (hlt : x < (n + 1) * (10 : Rat) ^ e)
    (hcut : x = fraction n e ∨ digits < count n) :
    IsNearest digits x (fraction (roundDiv n (pow10 (count n - digits)))
      (e + ((count n - digits : Nat) : Int))) := by
  rcases Nat.eq_zero_or_pos (count n - digits) with hshort | hlong
  · have hself := roundDiv_pow10 n 0
    rw [pow10_zero, Nat.cast_one, mul_one] at hself
    have hn : n < pow10 digits := (lt_pow10_count n).trans_le (pow10_le_pow10 (by omega))
    rw [hshort, pow10_zero, hself, Nat.cast_zero, add_zero, hcut.resolve_right (by omega)]
    exact IsNearest.self ⟨n, e, hn, rfl⟩
  · obtain ⟨k, hk⟩ : ∃ k, count n - digits = k + 1 := ⟨count n - digits - 1, by omega⟩
    have hround : roundDiv n (pow10 (k + 1)) = (roundDivNat n (pow10 (k + 1)) : Nat) := rfl
    rw [hk, hround]
    exact isNearest_roundDivNat hdigits (by omega) hle hlt

theorem roundsTo_round_of_cut {n : Nat} {e : Int} (hdigits : 0 < digits)
    (hle : n * (10 : Rat) ^ e ≤ x) (hlt : x < (n + 1) * (10 : Rat) ^ e)
    (hcut : x = fraction n e ∨ digits < count n) :
    RoundsTo digits x (Decimal.round n e digits) := by
  rw [round_eq_normalize]
  exact (isNearest_roundDiv_of_cut hdigits hle hlt hcut).roundsTo

/-- The rounded mantissa is nearest, for every mantissa and exponent. -/
theorem isNearest_roundDiv (hdigits : 0 < digits) (m e : Int) :
    IsNearest digits (fraction m e) (fraction (roundDiv m (pow10 (count m.natAbs - digits)))
      (e + ((count m.natAbs - digits : Nat) : Int))) := by
  have hnat (n : Nat) : IsNearest digits (fraction n e) (fraction
      (roundDiv n (pow10 (count n - digits))) (e + ((count n - digits : Nat) : Int))) := by
    have ht : (0 : Rat) < 10 ^ e := zpow_pos (by norm_num) e
    apply isNearest_roundDiv_of_cut hdigits _ _ (.inl rfl)
    all_goals
      rw [fraction_eq]
      push_cast
      linarith
  obtain ⟨n, rfl | rfl⟩ := Int.eq_nat_or_neg m
  · exact hnat n
  · rw [Int.natAbs_neg, Int.natAbs_natCast, roundDiv_neg, fraction_neg, fraction_neg]
    exact (hnat n).neg

/-- Rounding finds the nearest decimal, for every mantissa and exponent. -/
theorem roundsTo_round (hdigits : 0 < digits) (m e : Int) :
    RoundsTo digits (fraction m e) (Decimal.round m e digits) := by
  rw [round_eq_normalize]
  exact (isNearest_roundDiv hdigits m e).roundsTo

end Keypad
