import Keypad.Proofs.Decimal.RoundingLaws
import Mathlib.Algebra.Order.Archimedean.Basic
import Mathlib.Data.Nat.Cast.Order.Field

/-!
# Division is correctly rounded

A quotient is cut three digits after the last one kept, and then rounded. The dividend is given
enough zeros for that whatever the two lengths are, so the answer is the one that rounding the exact
quotient would give.

In machine words there are not enough zeros for a dividend that is `2 ^ 32` digits shorter than the
divisor, and a quotient with as many digits too many is rounded by too small a power of ten. The
mantissas of decimals are far too short for either.
-/

namespace Keypad

open Digits

namespace Decimal

theorem count_le_count_div (n : Nat) {d : Nat} (hd : d ≠ 0) :
    count n ≤ count (n / d) + count d := by
  have hpos := count_pos d
  refine count_le (by omega) ?_
  rw [pow10_add]
  calc n < d * (n / d + 1) := Nat.lt_mul_div_succ n (Nat.pos_of_ne_zero hd)
    _ = (n / d + 1) * d := Nat.mul_comm _ _
    _ ≤ pow10 (count (n / d)) * pow10 (count d) :=
      Nat.mul_le_mul (lt_pow10_count _) (lt_pow10_count d).le

theorem roundsTo_quotient_natCast (n : Nat) {d : Nat} (hd : d ≠ 0) (e : Int) :
    RoundsTo precision (n / d * (10 : Rat) ^ e) (quotient n d e) := by
  by_cases hn : n = 0
  · have hzero := roundsTo_round (show 0 < precision by decide) 0 0
    simpa [hn, quotient, fraction_eq, round, roundDiv] using hzero
  have hn' : (n : Int) ≠ 0 := by exact_mod_cast hn
  rw [quotient, if_neg hn']
  simp only [Int.natAbs_natCast]
  generalize hk : precision + 3 + count d - count n = k
  have hdigits : precision < count (n * pow10 k / d) := by
    have hcut := count_le_count_div (n * pow10 k) hd
    rw [count_mul_pow10 hn] at hcut
    omega
  have hcast : ((n : Int) * pow10 k).tdiv d = ((n * pow10 k / d : Nat) : Int) := by
    rw [← Int.natCast_mul]
    rfl
  have hvalue : (n : Rat) / d * 10 ^ e = (n * pow10 k : Nat) / d * 10 ^ (e - k) := by
    rw [zpow_sub₀ (by norm_num), zpow_natCast]
    push_cast
    rw [pow10_cast]
    field_simp
  have hunit : (0 : Rat) < 10 ^ (e - k) := zpow_pos (by norm_num) _
  have hd' : (0 : Rat) < d := by exact_mod_cast Nat.pos_of_ne_zero hd
  rw [hcast, scaled, hvalue]
  apply roundsTo_round_of_cut (by decide) _ _ (.inr hdigits)
  · exact mul_le_mul_of_nonneg_right Nat.cast_div_le hunit.le
  · apply mul_lt_mul_of_pos_right _ hunit
    rw [div_lt_iff₀' hd']
    exact_mod_cast Nat.lt_mul_div_succ (n * pow10 k) (Nat.pos_of_ne_zero hd)

/-- The quotient is rounded once, whatever the signs and the lengths of its two parts. -/
theorem roundsTo_quotient (n : Int) {d : Int} (hd : d ≠ 0) (e : Int) :
    RoundsTo precision (n / d * (10 : Rat) ^ e) (quotient n d e) := by
  have hnum (d : Nat) (hd : d ≠ 0) :
      RoundsTo precision (n / d * (10 : Rat) ^ e) (quotient n d e) := by
    obtain ⟨n, rfl | rfl⟩ := Int.eq_nat_or_neg n
    · exact roundsTo_quotient_natCast n hd e
    · rw [quotient_neg, Int.cast_neg, neg_div, neg_mul]
      exact (roundsTo_quotient_natCast n hd e).neg
  obtain ⟨d, rfl | rfl⟩ := Int.eq_nat_or_neg d
  · exact hnum d (by omega)
  · rw [quotient_neg_right, Int.cast_neg, div_neg, neg_mul]
    exact (hnum d (by omega)).neg

theorem roundsTo_ofRat (q : Rat) : RoundsTo precision q (ofRat q) := by
  have hquotient := roundsTo_quotient q.num (d := q.den) (by exact_mod_cast q.den_nz) 0
  rwa [zpow_zero, mul_one, Int.cast_natCast, Rat.num_div_den] at hquotient

theorem roundsTo_div? (a : Decimal) {b : Decimal} (hb : b.isZero = false) :
    ∃ d, a.div? b = some d ∧ RoundsTo precision (a.value / b.value) d := by
  have hm : b.mantissa ≠ 0 := by simpa [isZero] using hb
  refine ⟨quotient a.mantissa b.mantissa (a.exponent - b.exponent), by simp [div?, hb], ?_⟩
  have hvalue : a.value / b.value
      = a.mantissa / b.mantissa * (10 : Rat) ^ (a.exponent - b.exponent) := by
    rw [value, value, fraction_eq, fraction_eq, zpow_sub₀ (by norm_num)]
    field_simp
  rw [hvalue]
  exact roundsTo_quotient a.mantissa hm (a.exponent - b.exponent)

/-- The limits are met only by fractions with more than `2 ^ 51` digits above or below. -/
theorem IsReduced.withinLimits_of_count {q : Rat} {y : Decimal} {c : Nat} (h : y.IsReduced)
    (hnearest : IsNearest precision q y.value) (hc : c ≤ 2 ^ 51) (hnum : count q.num.natAbs ≤ c)
    (hden : count q.den ≤ c) : y.WithinLimits := by
  by_cases hq : q = 0
  · have hzero : y.value = 0 := by
      rw [hq] at hnearest
      simpa using hnearest.abs_le_two_mul
    rw [h.eq_zero hzero]
    exact ⟨by decide, by decide⟩
  have hnum_pos : (1 : Rat) ≤ q.num.natAbs := by
    exact_mod_cast Nat.pos_of_ne_zero (Int.natAbs_ne_zero.2 (Rat.num_ne_zero.2 hq))
  have hden_pos : (1 : Rat) ≤ q.den := by exact_mod_cast q.den_pos
  have hnum_lt : (q.num.natAbs : Rat) < 10 ^ c := by
    rw [← pow10_cast]
    exact_mod_cast (lt_pow10_count _).trans_le (pow10_le_pow10 hnum)
  have hden_le : (q.den : Rat) ≤ 10 ^ c := by
    rw [← pow10_cast]
    exact_mod_cast ((lt_pow10_count _).trans_le (pow10_le_pow10 hden)).le
  have habs : |q| * q.den = q.num.natAbs := Quantity.abs_mul_den q
  apply h.withinLimits hnearest hc
  · rw [zpow_neg, zpow_natCast, inv_le_iff_one_le_mul₀ (by positivity)]
    calc (1 : Rat) ≤ |q| * q.den := hnum_pos.trans_eq habs.symm
      _ ≤ |q| * 10 ^ c := mul_le_mul_of_nonneg_left hden_le (abs_nonneg q)
  · rw [zpow_natCast]
    exact (le_mul_of_one_le_right (abs_nonneg q) hden_pos).trans_lt (habs.trans_lt hnum_lt)

end Decimal

/-! ## Division in machine words -/

namespace Word

open Decimal

variable {a b : Decimal} {q : Rat}

theorem roundsTo_ofRat (h : HasQuotient q.num q.den) : RoundsTo precision q (ofRat q) := by
  rw [ofRat_eq h]
  exact Decimal.roundsTo_ofRat q

theorem roundsTo_div (ha : a.IsCanonical) (hb : b.IsCanonical) (hzero : b.isZero = false) :
    ∃ d, div a b = .ok d ∧ RoundsTo precision (a.value / b.value) d := by
  obtain ⟨d, hd, hrounds⟩ := roundsTo_div? a hzero
  refine ⟨d, ?_, hrounds⟩
  rw [div_eq ha hb, hd]
  rfl

/-- Zero is the nearest to nothing else. -/
theorem eq_zero_of_isNearest_zero (h : IsNearest precision q 0) : q = 0 := by
  by_contra hq
  obtain ⟨e, he, -⟩ := exists_mem_Ico_zpow (abs_pos.2 hq) (by norm_num : (1 : Rat) < 10)
  have hle := h.le_abs ⟨1, e, by decide, by simp [fraction_eq]⟩ he
  rw [abs_zero] at hle
  exact absurd hle (not_le.2 (zpow_pos (by norm_num) e))

/-- No exponent is more than twice as large as the mantissa is long. -/
theorem meetsNoLimit_of_count_le {m : Int} (h : count m.natAbs ≤ 2 ^ 51) :
    MeetsNoLimit m 0 precision := by
  by_cases hm : m = 0
  · exact .inl hm
  right
  have hne := roundDiv_ne_zero (pow10_pos _)
    (pow10_count_sub_le (show 0 < precision by decide) hm)
  simp only [roundedExponent]
  generalize hk : count m.natAbs - precision = k at *
  have hle : (roundDiv m (pow10 k)).natAbs ≤ m.natAbs := by
    have hmul := Nat.le_mul_of_pos_left m.natAbs (pow10_pos k)
    have hpos := pow10_pos k
    rw [natAbs_roundDiv, roundDivNat]
    refine Nat.le_of_lt_succ (Nat.div_lt_of_lt_mul ?_)
    rw [Nat.mul_assoc, Nat.mul_succ]
    omega
  obtain ⟨j, hj, hexponent⟩ := exists_stripZeros (roundDiv m (pow10 k)).natAbs (0 + k)
  have hpos : 0 < (Digits.stripZeros (roundDiv m (pow10 k)).natAbs (0 + k)).1 := by
    rw [Nat.pos_iff_ne_zero]
    intro hzero
    rw [hzero, Nat.zero_mul] at hj
    exact hne (Int.natAbs_eq_zero.1 hj)
  have hzeros : j < count m.natAbs := by
    apply lt_of_pow10_lt
    calc Keypad.pow10 j ≤ (roundDiv m (pow10 k)).natAbs :=
          (Nat.le_mul_of_pos_left _ hpos).trans_eq hj.symm
      _ < Keypad.pow10 (count m.natAbs) := hle.trans_lt (lt_pow10_count _)
  rw [hexponent, exponentFloor, exponentCeiling]
  omega

theorem natAbs_tdiv_den (q : Rat) : (q.num.tdiv q.den).natAbs = q.num.natAbs / q.den :=
  Int.natAbs_tdiv q.num q.den

/-- The integer part of a fraction is more than half of it, unless it is zero. -/
theorem abs_lt_two_mul_tdiv (h : q.num.tdiv q.den ≠ 0) :
    |q| < 2 * |((q.num.tdiv q.den : Int) : Rat)| := by
  have hden : (0 : Rat) < q.den := by exact_mod_cast q.den_pos
  have hlt := Nat.lt_mul_div_succ q.num.natAbs q.den_pos
  have hpos : 0 < q.num.natAbs / q.den := by
    rw [Nat.pos_iff_ne_zero]
    intro hzero
    rw [← natAbs_tdiv_den] at hzero
    exact h (Int.natAbs_eq_zero.1 hzero)
  have hdouble : q.num.natAbs < 2 * (q.num.natAbs / q.den) * q.den := by
    rw [Nat.mul_comm _ q.den]
    exact hlt.trans_le (Nat.mul_le_mul_left _ (by omega))
  have habs : |((q.num.tdiv q.den : Int) : Rat)| = (q.num.natAbs / q.den : Nat) := by
    rw [← Int.cast_abs, Int.abs_eq_natAbs, natAbs_tdiv_den, Int.cast_natCast]
  rw [habs, ← mul_lt_mul_iff_of_pos_right hden, Quantity.abs_mul_den]
  exact_mod_cast hdouble

theorem not_isNearest_ofRat (hnum : count q.num.natAbs ≤ 2 ^ 51)
    (h : ¬ HasQuotient q.num q.den) : ¬ IsNearest precision q (ofRat q).value := by
  intro hnearest
  have hden : (q.den : Int) ≠ 0 := by exact_mod_cast q.den_nz
  by_cases hshort : count q.num.natAbs + powerLimit ≤ precision + 3 + count (q.den : Int).natAbs
  · rw [ofRat, quotient_eq_zero hden hshort, value_zero] at hnearest
    rw [eq_zero_of_isNearest_zero hnearest] at hshort
    have hone : count (0 : Rat).num.natAbs = 1 ∧ count ((0 : Rat).den : Int).natAbs = 1 :=
      ⟨count_zero, count_one⟩
    rw [hone.1, hone.2] at hshort
    exact absurd hshort (by decide)
  · have hlong : precision + powerLimit ≤ count (q.num.tdiv q.den).natAbs := by
      by_contra hcut
      exact h ⟨not_le.1 hshort, not_le.1 hcut⟩
    have hanswer : ofRat q = round (q.num.tdiv q.den) 0 precision := by
      have hnum : q.num ≠ 0 := by
        intro hzero
        rw [hzero, Int.zero_tdiv, Int.natAbs_zero, count_zero] at hlong
        exact absurd hlong (by decide)
      have hcount : count (q.num.tdiv q.den).natAbs
          ≤ max 1 (count q.num.natAbs + 1 - count (q.den : Int).natAbs) := by
        rw [natAbs_tdiv_den, Int.natAbs_natCast]
        exact count_div_le q.den_nz (by omega) (by omega)
      have hnone : precision + 3 + count (q.den : Int).natAbs - count q.num.natAbs = 0 := by
        rw [precision, powerLimit] at *
        omega
      rw [ofRat, quotient, if_neg hnum]
      simp only [hnone, pow10_zero, Nat.cast_one, mul_one, Nat.cast_zero, sub_zero]
      rfl
    have hcount : count (q.num.tdiv q.den).natAbs ≤ 2 ^ 51 := by
      rw [natAbs_tdiv_den]
      exact (count_mono (Nat.div_le_self _ _)).trans hnum
    have hvalue := (meetsNoLimit_of_count_le hcount).value_round (by decide) (by decide)
    have hlarge := five_mul_abs_fraction_lt (by decide) 0 hlong
    have hle := hnearest.abs_le_two_mul
    rw [← hvalue, ← hanswer, fraction_eq, zpow_zero, mul_one] at hlarge
    have hcut : |q| < 2 * |((q.num.tdiv q.den : Int) : Rat)| := by
      refine abs_lt_two_mul_tdiv fun hzero => ?_
      rw [hzero, Int.natAbs_zero, count_zero] at hlong
      exact absurd hlong (by decide)
    linarith [abs_nonneg q]

/-- Every fraction, and every quotient of decimals, has a nearest decimal of `precision` digits,
ties being settled away from zero. Whenever its exponent is within the limits, the division of two
decimals answers it. So does the conversion of a fraction whose parts have lengths for which there
is a quotient, and of no other, as long as neither has more than `2 ^ 51` digits, so that no
exponent meets a limit. -/
theorem ofRat_and_div_nearest (q : Rat) (a b : Decimal) :
    (HasQuotient q.num q.den → ∃ y : Decimal, y.IsReduced ∧ IsNearest precision q y.value ∧
      (count q.num.natAbs ≤ 2 ^ 51 → count q.den ≤ 2 ^ 51 → y.WithinLimits) ∧
      (y.WithinLimits → ofRat q = y)) ∧
    (count q.num.natAbs ≤ 2 ^ 51 → count q.den ≤ 2 ^ 51 →
      (IsNearest precision q (ofRat q).value ↔ HasQuotient q.num q.den)) ∧
    (a.IsCanonical → b.IsCanonical → b.isZero = false →
      ∃ y : Decimal, y.IsReduced ∧ IsNearest precision (a.value / b.value) y.value ∧
        ∃ d, div a b = .ok d ∧ (y.WithinLimits → d = y)) := by
  refine ⟨fun h => ?_, fun hnum hden => ⟨fun hnearest => ?_, fun h => ?_⟩, fun ha hb hzero => ?_⟩
  · obtain ⟨y, hreduced, hnearest, hy⟩ := roundsTo_ofRat h
    exact ⟨y, hreduced, hnearest, hreduced.withinLimits_of_count hnearest le_rfl,
      fun hlimits => hy.trans hlimits.limited_eq⟩
  · by_contra h
    exact not_isNearest_ofRat hnum h hnearest
  · obtain ⟨y, hreduced, hnearest, hy⟩ := roundsTo_ofRat h
    have hlimits := hreduced.withinLimits_of_count hnearest le_rfl hnum hden
    rwa [hy, hlimits.limited_eq]
  · obtain ⟨d, hd, y, hreduced, hnearest, hy⟩ := roundsTo_div ha hb hzero
    exact ⟨y, hreduced, hnearest, d, hd, fun hlimits => hy.trans hlimits.limited_eq⟩

/-- Two thirds are rounded up in the last place. The inverse of an integer of `powerLimit` digits
more than one is cut to zero. -/
theorem two_thirds_nearest :
    (div ⟨2, 0⟩ ⟨3, 0⟩ = .ok ⟨666666666666666666666666666666666666666666666667, -48⟩ ∧
      IsNearest precision (2 / 3)
        (value ⟨666666666666666666666666666666666666666666666667, -48⟩)) ∧
    (ofRat (outlier 1 : Rat)⁻¹ = .zero ∧
      ¬ IsNearest precision (outlier 1 : Rat)⁻¹ (ofRat (outlier 1 : Rat)⁻¹).value) := by
  constructor
  · have hcanonical (m : Int) (hm : m % 10 ≠ 0) (hdigit : m.natAbs < 10) : IsCanonical ⟨m, 0⟩ :=
      isCanonical_digit hm hdigit (by decide) (by decide)
    obtain ⟨y, hreduced, hnearest, d, hd, hy⟩ := (ofRat_and_div_nearest 0 ⟨2, 0⟩ ⟨3, 0⟩).2.2
      (hcanonical 2 (by decide) (by decide)) (hcanonical 3 (by decide) (by decide)) rfl
    have hquotient : value ⟨2, 0⟩ / value ⟨3, 0⟩ = 2 / 3 := by simp [value, fraction_eq]
    rw [hquotient] at hnearest
    have hlimits : y.WithinLimits :=
      hreduced.withinLimits_of_count hnearest (c := 1) (by decide) (by decide +kernel)
        (by decide +kernel)
    have hanswer : div ⟨2, 0⟩ ⟨3, 0⟩
        = .ok ⟨666666666666666666666666666666666666666666666667, -48⟩ := by decide +kernel
    rw [hanswer, Except.ok.injEq] at hd
    rw [← hy hlimits, ← hd] at hnearest
    exact ⟨hanswer, hnearest⟩
  · obtain ⟨hcount, -⟩ := count_outlier Nat.one_pos
    have hpos : 0 < outlier 1 := by
      rw [outlier]
      omega
    have hnum : ((outlier 1 : Rat)⁻¹).num = 1 := Rat.inv_intCast_num_of_pos hpos
    have hden : (((outlier 1 : Rat)⁻¹).den : Int) = outlier 1 := Rat.inv_intCast_den_of_pos hpos
    have hshort : count (1 : Int).natAbs = 1 := count_one
    have hlong : ¬ HasQuotient ((outlier 1 : Rat)⁻¹).num ((outlier 1 : Rat)⁻¹).den := by
      intro h
      have hdivisor := h.count_divisor
      rw [hden, hcount, hnum, hshort] at hdivisor
      exact absurd hdivisor (by decide)
    refine ⟨?_, fun h => ?_⟩
    · rw [ofRat, hnum, hden, quotient_eq_zero hpos.ne']
      rw [hcount, hshort]
      decide
    · refine hlong (((ofRat_and_div_nearest _ .zero .zero).2.1 ?_ ?_).1 h)
      · rw [hnum, hshort]
        decide
      · rw [← Int.natAbs_natCast ((outlier 1 : Rat)⁻¹).den, hden, hcount]
        decide

end Word

end Keypad
