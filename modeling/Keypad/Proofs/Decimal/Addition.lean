import Keypad.Proofs.Decimal.Nearest
import Keypad.Proofs.Decimal.Canonical

/-!
# Addition is one rounding of the exact sum

The sum of two canonical decimals is the rounding of their exact sum, also where an operand is zero
or too small to be added at all. So the order of the operands does not matter, and the sum is the
nearest decimal as long as the exponent of that decimal is not above the limit. Two exponents within
the limits leave none below them.
-/

namespace Keypad.Decimal

open Digits

variable {a b d : Decimal}

/-- The sum of the mantissas at the lesser exponent, rounded. -/
def plainSum (a b : Decimal) : Decimal :=
  let e := min a.exponent b.exponent
  scaled (a.mantissaAt e + b.mantissaAt e) e

theorem plainSum_comm (a b : Decimal) : a.plainSum b = b.plainSum a := by
  rw [plainSum, plainSum, min_comm, Int.add_comm]

theorem fraction_plainSum (a b : Decimal) :
    fraction (a.mantissaAt (min a.exponent b.exponent) + b.mantissaAt (min a.exponent b.exponent))
      (min a.exponent b.exponent) = a.value + b.value := by
  rw [← Quantity.fraction_mantissaAt a (min_le_left a.exponent b.exponent),
    ← Quantity.fraction_mantissaAt b (min_le_right a.exponent b.exponent),
    fraction_eq, fraction_eq, fraction_eq]
  push_cast
  ring

theorem roundsTo_plainSum (a b : Decimal) :
    RoundsTo precision (a.value + b.value) (a.plainSum b) := by
  rw [← fraction_plainSum]
  exact roundsTo_round (by decide) _ _

/-- A sum to which a canonical decimal is nearest rounds to this decimal. -/
theorem IsCanonical.plainSum_eq (ha : a.IsCanonical)
    (h : IsNearest precision (a.value + b.value) a.value) : a.plainSum b = a := by
  obtain ⟨y, hreduced, hnearest, hy⟩ := roundsTo_plainSum a b
  rw [hy, hreduced.eq_of_value_eq ha.isReduced (hnearest.unique h), ha.withinLimits.limited_eq]

theorem IsCanonical.hasDigits (h : d.IsCanonical) : HasDigits precision d.value :=
  ⟨_, _, (lt_pow10_count _).trans_le (pow10_le_pow10 h.count_le_precision), rfl⟩

theorem plainSum_of_isZero (ha : a.IsCanonical) (h : b.isZero) : a.plainSum b = a := by
  apply ha.plainSum_eq
  rw [Quantity.value_of_isZero h, Rat.add_zero]
  exact IsNearest.self ha.hasDigits

/-! ## Operands far apart -/

theorem abs_value_lt (hd : d.isZero = false) : |d.value| < (10 : Rat) ^ (d.leading + 1) := by
  have hunit : (0 : Rat) < 10 ^ d.exponent := zpow_pos (by norm_num) _
  have hleading : d.leading + 1 = count d.mantissa.natAbs + d.exponent := by
    rw [leading_of_ne_zero hd]
    ring
  have hlt : (d.mantissa.natAbs : Rat) < pow10 (count d.mantissa.natAbs) := by
    exact_mod_cast lt_pow10_count _
  rw [abs_value, hleading, zpow_add₀ (by norm_num), zpow_natCast, ← pow10_cast]
  exact mul_lt_mul_of_pos_right hlt hunit

theorem le_abs_value (hd : d.isZero = false) : (10 : Rat) ^ d.leading ≤ |d.value| := by
  have hunit : (0 : Rat) < 10 ^ d.exponent := zpow_pos (by norm_num) _
  have hne : d.mantissa.natAbs ≠ 0 := by simpa [isZero] using hd
  have hpos := count_pos d.mantissa.natAbs
  have hleading : d.leading = ((count d.mantissa.natAbs - 1 : Nat) : Int) + d.exponent := by
    rw [leading_of_ne_zero hd]
    omega
  have hle : (pow10 (count d.mantissa.natAbs - 1) : Rat) ≤ d.mantissa.natAbs := by
    exact_mod_cast pow10_pred_count_le hne
  rw [abs_value, hleading, zpow_add₀ (by norm_num), zpow_natCast, ← pow10_cast]
  exact mul_le_mul_of_nonneg_right hle hunit.le

/-- The digits of a decimal with zeros up to the last place that is kept. -/
theorem exists_full_mantissa (hd : d.isZero = false)
    (hcount : count d.mantissa.natAbs ≤ precision) :
    ∃ m : Int, fraction m (d.leading - precision + 1) = d.value ∧
      pow10 (precision - 1) ≤ m.natAbs ∧ m.natAbs < pow10 precision := by
  obtain ⟨f, hf⟩ : ∃ f, f = d.leading - precision + 1 := ⟨_, rfl⟩
  have hle : f ≤ d.exponent := by
    rw [leading_of_ne_zero hd] at hf
    omega
  have hfull : count (d.mantissaAt f).natAbs = precision := by
    have hmantissa := count_mantissaAt hd hle
    omega
  have hne : (d.mantissaAt f).natAbs ≠ 0 := by
    intro hzero
    rw [hzero, count_zero] at hfull
    exact absurd hfull (by decide)
  rw [← hf, ← hfull]
  exact ⟨_, Quantity.fraction_mantissaAt d hle, pow10_pred_count_le hne, lt_pow10_count _⟩

/-- An operand more than `precision + 2` orders of magnitude below the other one is less than a
twentieth of its last place. -/
theorem plainSum_of_gap (ha : a.IsCanonical) (hza : a.isZero = false) (hzb : b.isZero = false)
    (hgap : (precision : Int) + 2 < a.leading - b.leading) : a.plainSum b = a := by
  apply ha.plainSum_eq
  obtain ⟨m, hm, hlow, hhigh⟩ := exists_full_mantissa hza ha.count_le_precision
  generalize hf : a.leading - precision + 1 = f at hm
  have hsmall : |b.value| < (10 : Rat) ^ f / 20 := by
    have hunit : (0 : Rat) < 10 ^ f := zpow_pos (by norm_num) f
    calc |b.value| < (10 : Rat) ^ (b.leading + 1) := abs_value_lt hzb
      _ ≤ 10 ^ (f - 2) := zpow_le_zpow_right₀ (by norm_num) (by omega)
      _ = 10 ^ f / 100 := by rw [zpow_sub₀ (by norm_num)]; norm_num
      _ < 10 ^ f / 20 := by linarith
  rw [← hm]
  exact isNearest_add (by decide) hlow hhigh hsmall

theorem add_eq_plainSum (ha : a.IsCanonical) (hb : b.IsCanonical) : a.add b = a.plainSum b := by
  rw [Decimal.add]
  split
  · next hza =>
    rw [plainSum_comm]
    exact (plainSum_of_isZero hb hza).symm
  · next hza =>
    split
    · next hzb => exact (plainSum_of_isZero ha hzb).symm
    · next hzb =>
      rw [Bool.not_eq_true] at hza hzb
      dsimp only
      split
      · next hgap => exact (plainSum_of_gap ha hza hzb hgap).symm
      · split
        · next hgap =>
          rw [plainSum_comm]
          exact (plainSum_of_gap hb hzb hza (by omega)).symm
        · rfl

/-- Nothing is lost below the limits: the sum has no place below those of its operands. -/
theorem floor_le_exponent {y : Decimal} (ha : a.IsCanonical) (hb : b.IsCanonical)
    (hy : y.IsReduced) (hnearest : IsNearest precision (a.value + b.value) y.value) :
    exponentFloor ≤ y.exponent := by
  by_cases hzero : y = zero
  · rw [hzero]
    decide
  · rw [← fraction_plainSum] at hnearest
    have hle := hy.le_exponent_of_isNearest hzero (by decide) hnearest
    exact (le_min ha.withinLimits.1 hb.withinLimits.1).trans hle

/-- The sum of canonical decimals is the rounded sum of their mantissas at the lesser exponent, in
either order of the operands, and it is the decimal nearest to the exact sum, ties being settled
away from zero. Where the exponent of the nearest decimal is above the limit, the sum is its
mantissa with the greatest exponent. -/
theorem add_plain_comm_nearest (ha : a.IsCanonical) (hb : b.IsCanonical) :
    a.add b = scaled (a.mantissaAt (min a.exponent b.exponent)
      + b.mantissaAt (min a.exponent b.exponent)) (min a.exponent b.exponent) ∧
    a.add b = b.add a ∧
    ∃ y : Decimal, y.IsReduced ∧ IsNearest precision (a.value + b.value) y.value ∧
      (y.exponent ≤ exponentCeiling → a.add b = y) ∧
      (exponentCeiling < y.exponent → a.add b = ⟨y.mantissa, exponentCeiling⟩) := by
  obtain ⟨y, hreduced, hnearest, hy⟩ := roundsTo_plainSum a b
  have hfloor := floor_le_exponent ha hb hreduced hnearest
  rw [add_eq_plainSum ha hb, add_eq_plainSum hb ha]
  refine ⟨rfl, plainSum_comm a b, y, hreduced, hnearest, fun hle => ?_, fun hlt => ?_⟩
  · rw [hy, WithinLimits.limited_eq ⟨hfloor, hle⟩]
  · rw [hy, limited, if_neg (not_lt.2 hfloor), min_eq_right hlt.le]

/-- One less than a power of ten rounds to this power. -/
theorem add_below_power_of_ten :
    add ⟨1, 60⟩ ⟨-1, 0⟩ = ⟨1, 60⟩ ∧ IsNearest precision (10 ^ 60 - 1) (10 ^ 60) := by
  have ha : IsCanonical ⟨1, 60⟩ :=
    isCanonical_digit (by decide) (by decide) (by decide) (by decide)
  have hb : IsCanonical ⟨-1, 0⟩ :=
    isCanonical_digit (by decide) (by decide) (by decide) (by decide)
  have hcount : count 1 = 1 := count_eq (c := 0) (by decide) (by decide)
  have hanswer : add ⟨1, 60⟩ ⟨-1, 0⟩ = ⟨1, 60⟩ := by
    rw [add_eq_plainSum ha hb]
    exact plainSum_of_gap ha rfl rfl (by simp [leading, isZero, hcount, precision])
  obtain ⟨-, -, y, -, hnearest, hle, hgt⟩ := add_plain_comm_nearest ha hb
  have hexponent : y.exponent ≤ exponentCeiling := by
    by_contra hnot
    have hceiling := congrArg exponent (hanswer.symm.trans (hgt (not_le.1 hnot)))
    simp only [exponentCeiling] at hceiling
    omega
  refine ⟨hanswer, ?_⟩
  rw [← hle hexponent, hanswer] at hnearest
  simpa [value, fraction_eq, sub_eq_add_neg] using hnearest

/-- At the greatest exponent the sum of two fives keeps this exponent, so it is a tenth of the exact
sum, which has one digit only. -/
theorem add_not_nearest_at_ceiling :
    IsCanonical ⟨5, exponentCeiling⟩ ∧
      add ⟨5, exponentCeiling⟩ ⟨5, exponentCeiling⟩ = ⟨1, exponentCeiling⟩ ∧
      value ⟨5, exponentCeiling⟩ + value ⟨5, exponentCeiling⟩ = value ⟨1, exponentCeiling + 1⟩ ∧
      ¬ IsNearest precision (value ⟨5, exponentCeiling⟩ + value ⟨5, exponentCeiling⟩)
        (add ⟨5, exponentCeiling⟩ ⟨5, exponentCeiling⟩).value := by
  have hcanonical : IsCanonical ⟨5, exponentCeiling⟩ :=
    isCanonical_digit (by decide) (by decide) (by decide) le_rfl
  have hreduced (e : Int) : IsReduced ⟨1, e⟩ := .inr (by norm_num)
  have hself : IsNearest precision (value ⟨1, exponentCeiling + 1⟩)
      (value ⟨1, exponentCeiling + 1⟩) :=
    IsNearest.self ⟨1, exponentCeiling + 1, by decide, rfl⟩
  have hsum : value ⟨5, exponentCeiling⟩ + value ⟨5, exponentCeiling⟩
      = value ⟨1, exponentCeiling + 1⟩ := by
    -- The power is too large to be computed.
    generalize exponentCeiling = c
    simp only [value, fraction_eq]
    rw [zpow_add₀ (by norm_num), zpow_one]
    push_cast
    ring
  have hanswer : add ⟨5, exponentCeiling⟩ ⟨5, exponentCeiling⟩ = ⟨1, exponentCeiling⟩ := by
    obtain ⟨y, hy, hnearest, hlimited⟩ :=
      roundsTo_plainSum ⟨5, exponentCeiling⟩ ⟨5, exponentCeiling⟩
    rw [hsum] at hnearest
    rw [add_eq_plainSum hcanonical hcanonical, hlimited,
      hy.eq_of_value_eq (hreduced _) (hnearest.unique hself)]
    decide
  refine ⟨hcanonical, hanswer, hsum, fun hnearest => ?_⟩
  rw [hsum, hanswer] at hnearest
  have heq := (hreduced _).eq_of_value_eq (hreduced _) (hnearest.unique hself)
  exact absurd (congrArg exponent heq) (by decide)

end Keypad.Decimal
