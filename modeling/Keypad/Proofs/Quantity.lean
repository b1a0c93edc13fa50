import Keypad.Proofs.Decimal.Rounding
import Keypad.Quantity
import Mathlib.Algebra.Order.Field.Rat
import Mathlib.Algebra.Order.Field.Power
import Mathlib.Data.Nat.Prime.Basic
import Mathlib.Data.Rat.Lemmas
import Mathlib.Tactic.Linarith

/-!
# Exact values and their decimals

A literal that is accepted as exact has few digits, so its decimal is far from the limits. Its
value, and every sum of such values, has at most thirty decimal places: the decimals of these
fractions are not rounded, and to add them is to add the fractions.
-/

namespace Keypad.Quantity

open Digits

theorem natAbs_num_le {q : Rat} (h : inBounds q) : q.num.natAbs ≤ fractionBound := by
  simp only [inBounds, Bool.and_eq_true, decide_eq_true_eq] at h
  exact h.1

theorem den_le {q : Rat} (h : inBounds q) : q.den ≤ fractionBound := by
  simp only [inBounds, Bool.and_eq_true, decide_eq_true_eq] at h
  exact h.2

theorem abs_mul_den (q : Rat) : |q| * q.den = q.num.natAbs := by
  rw [← Nat.abs_cast q.den, ← abs_mul, Rat.mul_den_eq_num, Nat.cast_natAbs]
  norm_cast

theorem abs_le_natAbs_num (q : Rat) : |q| ≤ q.num.natAbs := by
  have hden : (1 : Rat) ≤ q.den := by exact_mod_cast q.den_pos
  rw [← abs_mul_den]
  exact le_mul_of_one_le_right (abs_nonneg q) hden

theorem literalRat?_eq_some {m e : Int} {q : Rat} (h : literalRat? m e = some q) :
    q = Decimal.fraction m e ∧ inBounds q ∧ (m = 0 ∨ e.natAbs ≤ 40) := by
  rw [literalRat?] at h
  split at h
  · next hm =>
    cases h
    exact ⟨by simp [hm, Decimal.fraction_eq], by decide, .inl hm⟩
  · split at h
    · cases h
    · dsimp only at h
      split at h
      · next hbounds =>
        cases h
        exact ⟨rfl, hbounds, .inr (by omega)⟩
      · cases h

/-- The mantissa of a literal that is accepted as exact. -/
theorem natAbs_lt_of_literalRat? {m e : Int} {q : Rat} (h : literalRat? m e = some q) :
    m.natAbs < pow10 50 := by
  obtain ⟨hq, hbounds, hm | he⟩ := literalRat?_eq_some h
  · simp [hm, pow10_pos]
  · have hten : (10 : Rat) ^ (-e) ≤ 10 ^ (40 : Int) :=
      zpow_le_zpow_right₀ (by norm_num) (by omega)
    have hpos : (0 : Rat) < 10 ^ (-e) := zpow_pos (by norm_num) _
    have hmantissa : (m : Rat) = q * 10 ^ (-e) := by
      rw [hq, Decimal.fraction_eq, mul_assoc, ← zpow_add₀ (by norm_num)]
      simp
    have habs : |(m : Rat)| < 10 ^ (50 : Int) := by
      have hbound : |q| ≤ fractionBound :=
        (abs_le_natAbs_num q).trans (by exact_mod_cast natAbs_num_le hbounds)
      rw [hmantissa, abs_mul, abs_of_pos hpos]
      calc |q| * 10 ^ (-e) ≤ fractionBound * 10 ^ (40 : Int) :=
            mul_le_mul hbound hten hpos.le (by rw [fractionBound]; norm_num)
        _ < 10 ^ (50 : Int) := by rw [fractionBound]; norm_num
    have hcast : ((m.natAbs : Nat) : Rat) < (pow10 50 : Nat) := by
      rw [Nat.cast_natAbs]
      push_cast [pow10]
      exact_mod_cast habs
    exact_mod_cast hcast

theorem leading_of_literalRat? {m e : Int} {q : Rat} (h : literalRat? m e = some q) :
    -40 ≤ (Decimal.scaled m e).leading ∧ (Decimal.scaled m e).leading ≤ 140 := by
  obtain ⟨-, -, hzero⟩ := literalRat?_eq_some h
  by_cases hm : m = 0
  · have hscaled : Decimal.scaled m e = .zero := by
      simp [hm, Decimal.scaled, Decimal.round, roundDiv]
    rw [hscaled]
    decide
  · have he := hzero.resolve_left hm
    have hcount : count m.natAbs ≤ 50 := count_le (by decide) (natAbs_lt_of_literalRat? h)
    have hlow : exponentFloor ≤ e := by rw [exponentFloor]; omega
    have hhigh : e + 2 * count m.natAbs ≤ exponentCeiling := by rw [exponentCeiling]; omega
    have hleading := Decimal.leading_scaled hm hlow hhigh
    omega

theorem exceedsMaximum_of_leading {d : Decimal} (h : d.leading ≤ maxExponent) :
    exceedsMaximum d = false := by
  simp [exceedsMaximum, h]

/-! ## Fractions of few decimal places -/

/-- The fraction has at most thirty decimal places. -/
def Terminates (q : Rat) : Prop := q.den ∣ pow10 30

theorem Terminates.add {x y : Rat} (hx : Terminates x) (hy : Terminates y) :
    Terminates (x + y) := (Rat.add_den_dvd_lcm x y).trans (Nat.lcm_dvd hx hy)

theorem Terminates.neg {q : Rat} (h : Terminates q) : Terminates (-q) := by
  rw [Terminates]
  rw [Rat.neg_den]
  exact h

/-- A small divisor of a power of ten has few factors two and five. -/
theorem den_dvd_of_small {d k : Nat} (h : d ∣ pow10 k) (hsmall : d < 2 ^ 31) : d ∣ pow10 30 := by
  have hsplit : pow10 k = 2 ^ k * 5 ^ k := Nat.mul_pow 2 5 k
  rw [hsplit] at h
  obtain ⟨a, b, ha, hb, rfl⟩ := (Nat.dvd_mul).1 h
  obtain ⟨i, -, rfl⟩ := (Nat.dvd_prime_pow Nat.prime_two).1 ha
  obtain ⟨j, -, rfl⟩ := (Nat.dvd_prime_pow Nat.prime_five).1 hb
  have hi : i ≤ 30 := by
    have hpow : 2 ^ i < 2 ^ 31 := (Nat.le_mul_of_pos_right _ (by positivity)).trans_lt hsmall
    have hlt := (Nat.pow_lt_pow_iff_right (by decide)).1 hpow
    omega
  have hj : j ≤ 30 := by
    have hpow : 5 ^ j < 5 ^ 31 :=
      ((Nat.le_mul_of_pos_left _ (by positivity)).trans_lt hsmall).trans (by decide)
    have hlt := (Nat.pow_lt_pow_iff_right (by decide)).1 hpow
    omega
  have htarget : pow10 30 = 2 ^ 30 * 5 ^ 30 := by decide
  rw [htarget]
  exact mul_dvd_mul (pow_dvd_pow 2 hi) (pow_dvd_pow 5 hj)

theorem den_fraction_dvd (m e : Int) : (Decimal.fraction m e).den ∣ pow10 (-e).toNat := by
  rw [Decimal.fraction]
  split
  · rw [Rat.mkRat_eq_divInt]
    have hone : (Rat.divInt (m * pow10 e.toNat) (1 : Nat)).den ∣ 1 := by
      exact_mod_cast Rat.den_dvd (m * pow10 e.toNat) (1 : Nat)
    exact hone.trans (one_dvd _)
  · next he =>
    have hexponent : (-e).toNat = e.natAbs := by omega
    rw [hexponent, Rat.mkRat_eq_divInt]
    exact_mod_cast Rat.den_dvd m (pow10 e.natAbs)

/-- A fraction of a power of ten that is within bounds has few decimal places. -/
theorem terminates_fraction {m e : Int} (h : inBounds (Decimal.fraction m e)) :
    Terminates (Decimal.fraction m e) := by
  have hden := den_le h
  refine den_dvd_of_small (den_fraction_dvd m e) ?_
  rw [fractionBound] at hden
  omega

theorem terminates_of_literalRat? {m e : Int} {q : Rat} (h : literalRat? m e = some q) :
    Terminates q := by
  obtain ⟨rfl, hbounds, -⟩ := literalRat?_eq_some h
  exact terminates_fraction hbounds

/-- The quotient of such a fraction, if it is not large, comes out even. -/
theorem ofRat_eq_scaled_mul {q : Rat} (hsize : q.num.natAbs < pow10 11 * q.den) {c : Nat}
    (hc : pow10 30 = q.den * c) : Decimal.ofRat q = Decimal.scaled (q.num * c) (-30) := by
  rw [Decimal.ofRat, Decimal.quotient]
  split
  · next hzero => simp [hzero, Decimal.scaled, Decimal.round, roundDiv]
  · have hcount : count q.num.natAbs ≤ 11 + count q.den := by
      refine count_le (by omega) (hsize.trans ?_)
      rw [pow10_add]
      exact Nat.mul_lt_mul_of_pos_left (lt_pow10_count q.den) (pow10_pos 11)
    rw [Int.natAbs_natCast]
    generalize hk : precision + 3 + count q.den - count q.num.natAbs = k
    obtain ⟨j, rfl⟩ : ∃ j, k = 30 + j := ⟨k - 30, by rw [precision] at hk; omega⟩
    have hproduct : q.num * pow10 (30 + j) = q.den * (q.num * c * pow10 j) := by
      rw [pow10_add, hc]
      push_cast
      ring
    have hquotient : (q.num * pow10 (30 + j) : Int).tdiv q.den = q.num * c * pow10 j := by
      rw [hproduct]
      exact Int.mul_tdiv_cancel_left _ (by exact_mod_cast q.den_nz)
    have hexponent : (0 : Int) - ((30 + j : Nat) : Int) = -30 - j := by push_cast; ring
    dsimp only
    rw [hquotient, hexponent]
    exact Decimal.scaled_congr (Decimal.fraction_mul_pow10 _ _ _)

theorem fraction_num_mul {q : Rat} {c : Nat} (hc : pow10 30 = q.den * c) (hpos : 0 < c) :
    Decimal.fraction (q.num * c) (-30) = q := by
  have hc' : (c : Rat) ≠ 0 := by exact_mod_cast hpos.ne'
  have hcast : (10 : Rat) ^ (30 : Nat) = q.den * c := by
    rw [← Decimal.pow10_cast, hc]
    push_cast
    rfl
  have hten : (10 : Rat) ^ (-30 : Int) = (q.den * c : Rat)⁻¹ := by
    rw [← hcast, zpow_neg]
    norm_cast
  rw [Decimal.fraction_eq, hten]
  push_cast
  rw [mul_inv, mul_mul_mul_comm, mul_inv_cancel₀ hc', mul_one, ← div_eq_mul_inv,
    Rat.num_div_den]

/-- The decimal of such a fraction, if it is not large, is the fraction itself. -/
theorem exists_ofRat {q : Rat} (hq : Terminates q) (hsize : q.num.natAbs < pow10 11 * q.den) :
    ∃ m : Int, Decimal.ofRat q = Decimal.scaled m (-30) ∧ Decimal.fraction m (-30) = q ∧
      m.natAbs < pow10 41 := by
  obtain ⟨c, hc⟩ := hq
  have hcpos : 0 < c := by
    rcases Nat.eq_zero_or_pos c with rfl | hpos
    · exact absurd hc (by have := pow10_pos 30; omega)
    · exact hpos
  have hsmall : (q.num * c).natAbs < pow10 41 := by
    have hpow : pow10 41 = pow10 11 * (q.den * c) := by rw [← hc, ← pow10_add]
    rw [Int.natAbs_mul, Int.natAbs_natCast, hpow, ← Nat.mul_assoc]
    exact Nat.mul_lt_mul_of_pos_right hsize hcpos
  exact ⟨q.num * c, ofRat_eq_scaled_mul hsize hc, fraction_num_mul hc hcpos, hsmall⟩

theorem abs_lt_of_inBounds {q : Rat} (h : inBounds q) : |q| < 10 ^ 10 := by
  have hnum : (q.num.natAbs : Rat) ≤ fractionBound := by exact_mod_cast natAbs_num_le h
  refine (abs_le_natAbs_num q).trans_lt (hnum.trans_lt ?_)
  rw [fractionBound]
  norm_num

/-- The size of a fraction, by its parts. -/
theorem natAbs_num_lt {q : Rat} {k : Nat} (h : |q| < 10 ^ k) :
    q.num.natAbs < pow10 k * q.den := by
  have hden : (0 : Rat) < q.den := by exact_mod_cast q.den_pos
  have hcast : (q.num.natAbs : Rat) < (pow10 k * q.den : Nat) := by
    rw [← abs_mul_den]
    push_cast
    rw [Decimal.pow10_cast]
    exact mul_lt_mul_of_pos_right h hden
  exact_mod_cast hcast

/-- What such a decimal keeps of the fraction. -/
theorem value_ofRat {q : Rat} (hq : Terminates q) (hsize : |q| < 10 ^ 11) :
    (Decimal.ofRat q).value = q ∧
      ((Decimal.ofRat q).isZero ∨
        -30 ≤ (Decimal.ofRat q).leading ∧ (Decimal.ofRat q).leading ≤ 10) := by
  obtain ⟨m, hscaled, hfraction, hm⟩ := exists_ofRat hq (natAbs_num_lt hsize)
  have hcount : count m.natAbs ≤ 41 := count_le (by decide) hm
  have hlow : exponentFloor ≤ -30 := by decide
  have hhigh : -30 + (count m.natAbs : Int) ≤ exponentCeiling := by rw [exponentCeiling]; omega
  rw [hscaled, Decimal.scaled_eq_normalize _ (by rw [precision]; omega)]
  refine ⟨by rw [Decimal.value_normalize hlow hhigh, hfraction], ?_⟩
  by_cases hzero : m = 0
  · left
    rw [hzero, Decimal.normalize_zero]
    rfl
  · right
    have hpos := count_pos m.natAbs
    rw [Decimal.leading_normalize hzero hlow hhigh]
    omega

theorem ofRat_eq_scaled {m e : Int} {q : Rat} (h : literalRat? m e = some q) :
    Decimal.ofRat q = Decimal.scaled m e := by
  obtain ⟨hq, hbounds, -⟩ := literalRat?_eq_some h
  have hsize : |q| < 10 ^ 11 := (abs_lt_of_inBounds hbounds).trans (by norm_num)
  obtain ⟨n, hscaled, hfraction, -⟩ :=
    exists_ofRat (terminates_of_literalRat? h) (natAbs_num_lt hsize)
  rw [hscaled]
  exact Decimal.scaled_congr (hfraction.trans hq)

theorem ofRat_neg (q : Rat) : Decimal.ofRat (-q) = -Decimal.ofRat q := by
  rw [Decimal.ofRat, Rat.neg_num, Rat.neg_den]
  exact Decimal.quotient_neg q.num q.den 0

theorem toDecimal_neg (v : Quantity) : v.neg.toDecimal = -v.toDecimal := by
  cases v with
  | exact q => exact ofRat_neg q
  | approx d => rfl

theorem exceedsMaximum_ofRat {q : Rat} (hq : Terminates q) (hsize : |q| < 10 ^ 11) :
    exceedsMaximum (Decimal.ofRat q) = false := by
  rcases (value_ofRat hq hsize).2 with hzero | ⟨-, hle⟩
  · simp [exceedsMaximum, hzero]
  · exact exceedsMaximum_of_leading (by rw [maxExponent]; omega)

theorem fraction_mantissaAt (d : Decimal) {e : Int} (h : e ≤ d.exponent) :
    Decimal.fraction (d.mantissaAt e) e = d.value := by
  have hexponent : d.exponent - ((d.exponent - e).toNat : Int) = e := by omega
  rw [Decimal.value, ← Decimal.fraction_mul_pow10 d.mantissa d.exponent (d.exponent - e).toNat,
    hexponent, Decimal.mantissaAt]

theorem value_of_isZero {d : Decimal} (h : d.isZero) : d.value = 0 := by
  have hmantissa : d.mantissa = 0 := by simpa [Decimal.isZero] using h
  rw [Decimal.value, hmantissa, Decimal.fraction_eq]
  simp

/-- Such fractions are added without rounding. -/
theorem add_ofRat {x y : Rat} (hx : Terminates x) (hy : Terminates y) (hxs : |x| < 10 ^ 10)
    (hys : |y| < 10 ^ 10) :
    (Decimal.ofRat x).add (Decimal.ofRat y) = Decimal.ofRat (x + y) := by
  have hsum : |x + y| < 10 ^ 11 := by
    refine (abs_add_le x y).trans_lt ?_
    linarith
  obtain ⟨hxvalue, hxleading⟩ := value_ofRat hx (hxs.trans (by norm_num))
  obtain ⟨hyvalue, hyleading⟩ := value_ofRat hy (hys.trans (by norm_num))
  obtain ⟨m, hscaled, hfraction, -⟩ := exists_ofRat (hx.add hy) (natAbs_num_lt hsum)
  rw [Decimal.add]
  split
  · next hzero =>
    have hx0 : x = 0 := hxvalue.symm.trans (value_of_isZero hzero)
    rw [hx0, zero_add]
  · next hxne =>
    split
    · next hzero =>
      have hy0 : y = 0 := hyvalue.symm.trans (value_of_isZero hzero)
      rw [hy0, add_zero]
    · next hyne =>
      have hxl := hxleading.resolve_left hxne
      have hyl := hyleading.resolve_left hyne
      dsimp only
      rw [if_neg (by rw [precision]; omega), if_neg (by rw [precision]; omega), hscaled]
      apply Decimal.scaled_congr
      rw [hfraction, Decimal.fraction_eq]
      push_cast
      rw [add_mul, ← Decimal.fraction_eq, ← Decimal.fraction_eq,
        fraction_mantissaAt _ (min_le_left _ _), fraction_mantissaAt _ (min_le_right _ _),
        hxvalue, hyvalue]

end Keypad.Quantity
