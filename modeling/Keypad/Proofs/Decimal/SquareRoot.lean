import Keypad.Proofs.Decimal.Order
import Mathlib.Analysis.Real.Sqrt
import Mathlib.Tactic.IntervalCases

/-!
# The square root is correctly rounded

The integer square root cuts the root after more digits than are kept, and the cut is rounded. All
that lies between the cut and the next one is rounded alike, so the answer is nearest to the root,
a real number that is known between these two rationals only. There is no tie: a root that ends
has no more digits than its square, so it is no midpoint of two decimals.
-/

namespace Keypad

open Digits Decimal

variable {digits : Nat} {q u v y z : Rat} {s : ℝ}

/-- Of the rationals of `digits` digits, `y` alone is the nearest to the real number `s`. -/
structure IsClosest (digits : Nat) (s : ℝ) (y : Rat) : Prop where
  hasDigits : HasDigits digits y
  lt : ∀ z, HasDigits digits z → z ≠ y → |(y : ℝ) - s| < |(z : ℝ) - s|

/-- All rationals from `u` up to `v` have the nearest one `y`. -/
def IsNearestBetween (digits : Nat) (u v y : Rat) : Prop :=
  ∀ x, u ≤ x → x < v → IsNearest digits x y

/-! ## Between two cuts -/

theorem IsNearestBetween.le_midpoint (h : IsNearestBetween digits u v y) (huv : u < v)
    (hz : HasDigits digits z) (hlt : y < z) : v ≤ (y + z) / 2 := by
  by_contra hnot
  have hbelow := not_le.1 hnot
  -- A rational between the midpoint and `v` would be nearer to `z`.
  have hmax := le_max_right u (((y + z) / 2 + v) / 2)
  have hlast : max u (((y + z) / 2 + v) / 2) < v := max_lt huv (by linarith)
  have hle := (h _ (le_max_left u _) hlast).le_midpoint hz hlt
  linarith

theorem IsNearestBetween.midpoint_le (h : IsNearestBetween digits u v y) (huv : u < v)
    (hz : HasDigits digits z) (hlt : z < y) : (z + y) / 2 ≤ u :=
  (h u le_rfl huv).midpoint_le hz hlt

/-- A real number between the two cuts that is no midpoint has the same nearest rational. -/
theorem IsNearestBetween.isClosest (h : IsNearestBetween digits u v y) (hle : (u : ℝ) ≤ s)
    (hlt : s < (v : ℝ)) (htie : ∀ z, HasDigits digits z → (((z + y) / 2 : Rat) : ℝ) = s → z = y) :
    IsClosest digits s y := by
  have huv : u < v := by exact_mod_cast hle.trans_lt hlt
  refine ⟨(h u le_rfl huv).hasDigits, fun z hz hne => ?_⟩
  rcases lt_or_gt_of_ne hne with hzy | hyz
  · have hmid : (((z + y) / 2 : Rat) : ℝ) ≤ u := by exact_mod_cast h.midpoint_le huv hz hzy
    have hstrict := (hmid.trans hle).lt_of_ne fun heq => hne (htie z hz heq)
    have hzy' : (z : ℝ) < y := by exact_mod_cast hzy
    push_cast at hstrict
    rw [abs_of_neg (by linarith : (z : ℝ) - s < 0)]
    exact abs_lt.2 ⟨by linarith, by linarith⟩
  · have hmid : (v : ℝ) ≤ ((y + z) / 2 : Rat) := by exact_mod_cast h.le_midpoint huv hz hyz
    have hyz' : (y : ℝ) < z := by exact_mod_cast hyz
    push_cast at hmid
    rw [abs_of_pos (by linarith : 0 < (z : ℝ) - s)]
    exact abs_lt.2 ⟨by linarith, by linarith⟩

/-- Both cuts are within half a unit of the last of `digits` digits. -/
theorem IsNearestBetween.half_unit {n : Nat} {f : Int} (hdigits : 0 < digits)
    (h : IsNearestBetween digits u v (fraction n f)) (huv : u < v) (hpos : 0 < n)
    (hn : n < pow10 digits) :
    fraction n f - 10 ^ f / 2 ≤ u ∧ v ≤ fraction n f + 10 ^ f / 2 := by
  have hunit : (0 : Rat) < 10 ^ f := zpow_pos (by norm_num) f
  obtain ⟨k, rfl⟩ : ∃ k, n = k + 1 := ⟨n - 1, by omega⟩
  have hbelow := hasDigits_fraction hdigits (show k ≤ pow10 digits by omega) f
  have habove := hasDigits_fraction hdigits (show k + 2 ≤ pow10 digits by omega) f
  simp only [fraction_eq] at *
  push_cast at *
  have hlow := h.midpoint_le huv hbelow (by linarith)
  have hhigh := h.le_midpoint huv habove (by linarith)
  exact ⟨by linarith, by linarith⟩

namespace Decimal

variable {d x : Decimal} {m e : Int}

/-- Half a unit of the last of the digits that are kept. -/
def halfUnit (d : Decimal) : Rat := 10 ^ (d.leading - precision + 1) / 2

/-! ## Squares -/

theorem IsReduced.square (h : d.IsReduced) : IsReduced ⟨d.mantissa ^ 2, 2 * d.exponent⟩ := by
  rcases h with rfl | hmod
  · exact .inl rfl
  · refine .inr ?_
    dsimp only
    rw [pow_two, Int.mul_emod]
    have hlow := Int.emod_nonneg d.mantissa (by decide : (10 : Int) ≠ 0)
    have hhigh := Int.emod_lt_of_pos d.mantissa (by decide : (0 : Int) < 10)
    generalize d.mantissa % 10 = r at *
    interval_cases r <;> simp_all

theorem value_square (d : Decimal) : value ⟨d.mantissa ^ 2, 2 * d.exponent⟩ = d.value ^ 2 := by
  rw [value, value, fraction_eq, fraction_eq, mul_pow, mul_comm 2, zpow_mul]
  push_cast
  rfl

/-- A root that ends has no more digits than its square. -/
theorem IsCanonical.hasDigits_of_sq (hx : x.IsCanonical) (hq : fraction m e ^ 2 = x.value) :
    HasDigits precision (fraction m e) := by
  obtain ⟨d, hreduced, hvalue, -⟩ := exists_isReduced_normalize m e
  have hsquare : x = ⟨d.mantissa ^ 2, 2 * d.exponent⟩ := by
    apply hx.isReduced.eq_of_value_eq hreduced.square
    rw [value_square, hvalue, hq]
  have hlt := hx.isReduced.natAbs_mantissa_lt hx.hasDigits
  rw [hsquare, Int.natAbs_pow] at hlt
  exact ⟨d.mantissa, d.exponent, (Nat.le_self_pow (by decide) _).trans_lt hlt, hvalue⟩

theorem exists_fraction_midpoint (hy : HasDigits digits y) (hz : HasDigits digits z) :
    ∃ m e, fraction m e = (z + y) / 2 := by
  obtain ⟨m, e, -, rfl⟩ := hy
  obtain ⟨n, f, -, rfl⟩ := hz
  have hsum := fraction_plainSum ⟨n, f⟩ ⟨m, e⟩
  rw [fraction_eq] at hsum
  refine ⟨5 * (mantissaAt ⟨n, f⟩ (min f e) + mantissaAt ⟨m, e⟩ (min f e)), min f e - 1, ?_⟩
  rw [fraction_eq, zpow_sub₀ (by norm_num), zpow_one]
  dsimp only [value] at hsum
  rw [← hsum]
  push_cast
  ring

/-! ## The cut of a root -/

theorem count_le_two_mul_count_sqrt (n : Nat) : count n ≤ 2 * count n.sqrt := by
  have hpos := count_pos n.sqrt
  refine count_le (by omega) ?_
  rw [two_mul, pow10_add]
  exact Nat.sqrt_lt.1 (lt_pow10_count n.sqrt)

/-- A decimal that is cut after more digits than are kept is rounded as what it was cut from. -/
theorem isNearestBetween_scaled {n : Nat} {e : Int} (hcount : precision < count n)
    (hlow : exponentFloor ≤ e) (hhigh : e + count n < exponentCeiling) :
    IsNearestBetween precision (n * (10 : Rat) ^ e) ((n + 1) * (10 : Rat) ^ e)
      (scaled n e).value := by
  intro q hle hlt
  have hdigits : count (roundDiv n (pow10 (count n - precision))).natAbs ≤ precision + 1 := by
    rw [natAbs_roundDiv, Int.natAbs_natCast]
    exact count_roundDivNat_le (by omega)
  rw [scaled, round_eq_normalize, Int.natAbs_natCast, value_normalize (by omega) (by omega)]
  exact isNearest_roundDiv_of_cut (by decide) hle hlt (.inr hcount)

/-- The mantissa is given zeros until the exponent is even and there are more than twice the digits
that are kept. -/
theorem exists_sqrt_eq (hpos : 0 < x.mantissa) :
    ∃ (k : Nat) (e : Int), x.exponent - k = 2 * e ∧ k ≤ 105 ∧
      2 * precision + 8 ≤ count (x.mantissa.natAbs * pow10 k) ∧
      x.sqrt = scaled (Nat.sqrt (x.mantissa.natAbs * pow10 k)) e := by
  have hsign : ¬ x.sign ≤ 0 := by
    rw [sign, Int.sign_nonpos_iff]
    omega
  have hdigits := count_mul_pow10 (Int.natAbs_ne_zero.2 hpos.ne')
  rw [sqrt, if_neg hsign]
  dsimp only
  generalize hj : 2 * (precision + 4) - count x.mantissa.natAbs = j
  generalize hk : (if (x.exponent - (j : Int)) % 2 = 1 then j + 1 else j) = k
  rw [precision] at hj
  have hjk : j ≤ k ∧ k ≤ j + 1 ∧ (x.exponent - k) % 2 = 0 := by
    rw [← hk]
    split <;> omega
  obtain ⟨hle, hge, heven⟩ := hjk
  obtain ⟨e, he⟩ : ∃ e, x.exponent - k = 2 * e := ⟨(x.exponent - k) / 2, by omega⟩
  refine ⟨k, e, he, by omega, ?_, ?_⟩
  · rw [hdigits, precision]
    omega
  · rw [he, Int.mul_tdiv_cancel_left _ (by decide)]

/-- The integer root has more digits than are kept, and no exponent of a root is near the limits. -/
theorem IsCanonical.exists_sqrt_eq (hx : x.IsCanonical) (hpos : 0 < x.mantissa) :
    ∃ (k n : Nat) (e : Int), n = x.mantissa.natAbs * pow10 k ∧ x.exponent - k = 2 * e ∧
      x.sqrt = scaled n.sqrt e ∧ precision < count n.sqrt ∧ exponentFloor ≤ e ∧
      e + count n.sqrt < exponentCeiling := by
  obtain ⟨k, e, he, hk, hcount, hsqrt⟩ := Decimal.exists_sqrt_eq hpos
  have hradicand := count_mul_pow10 (Int.natAbs_ne_zero.2 hpos.ne') k
  have hdigits := hx.count_le_precision
  have hlimits := hx.withinLimits
  refine ⟨k, _, e, rfl, he, hsqrt, ?_⟩
  generalize x.mantissa.natAbs * pow10 k = n at *
  have hlong := count_le_two_mul_count_sqrt n
  have hshort := count_sqrt_le n
  rw [WithinLimits] at hlimits
  rw [precision] at *
  rw [exponentFloor, exponentCeiling] at *
  omega

theorem pos_of_precision_lt_count {n : Nat} (h : precision < count n) : 0 < n := by
  rcases Nat.eq_zero_or_pos n with rfl | hpos
  · rw [count_zero] at h
    exact absurd h (by decide)
  · exact hpos

theorem value_eq_mul_sq {k : Nat} (hpos : 0 < x.mantissa) (he : x.exponent - k = 2 * e) :
    x.value = (x.mantissa.natAbs * pow10 k : Nat) * ((10 : Rat) ^ e) ^ 2 := by
  have hexponent : x.exponent = k + (e + e) := by omega
  have hmantissa : (x.mantissa : Rat) = x.mantissa.natAbs := by
    rw [Nat.cast_natAbs, abs_of_pos hpos]
  rw [value, fraction_eq, hexponent, hmantissa, zpow_add₀ (by norm_num), zpow_add₀ (by norm_num),
    zpow_natCast]
  push_cast
  rw [pow10_cast]
  ring

/-- The root lies between two cuts that are both rounded to the answer. -/
theorem IsCanonical.exists_sqrt_cut (hx : x.IsCanonical) (hpos : 0 < x.mantissa) :
    ∃ u v : Rat, 0 < u ∧ u < v ∧ u ^ 2 ≤ x.value ∧ x.value < v ^ 2 ∧
      IsNearestBetween precision u v x.sqrt.value := by
  obtain ⟨k, n, e, hn, he, hsqrt, hcount, hlow, hhigh⟩ := hx.exists_sqrt_eq hpos
  have hunit : (0 : Rat) < 10 ^ e := zpow_pos (by norm_num) e
  have hroot : (0 : Rat) < n.sqrt := by exact_mod_cast pos_of_precision_lt_count hcount
  have hbelow : (n.sqrt : Rat) ^ 2 ≤ n := by exact_mod_cast Nat.sqrt_le' n
  have habove : (n : Rat) < (n.sqrt + 1) ^ 2 := by exact_mod_cast Nat.lt_succ_sqrt' n
  rw [hsqrt, value_eq_mul_sq hpos he, ← hn]
  refine ⟨n.sqrt * 10 ^ e, (n.sqrt + 1) * 10 ^ e, mul_pos hroot hunit, ?_, ?_, ?_, ?_⟩
  · exact mul_lt_mul_of_pos_right (by linarith) hunit
  · rw [mul_pow]
    exact mul_le_mul_of_nonneg_right hbelow (sq_nonneg _)
  · rw [mul_pow]
    exact mul_lt_mul_of_pos_right habove (pow_pos hunit 2)
  · exact isNearestBetween_scaled hcount hlow hhigh

theorem sqrt_pos (hx : x.IsCanonical) (hpos : 0 < x.mantissa) : 0 < x.sqrt.mantissa := by
  obtain ⟨k, n, e, -, -, hsqrt, hcount, hlow, -⟩ := hx.exists_sqrt_eq hpos
  have hroot : (0 : Int) < n.sqrt := by exact_mod_cast pos_of_precision_lt_count hcount
  have hsign : (scaled n.sqrt e).sign = Int.sign n.sqrt := sign_round (by decide) hlow
  rwa [Int.sign_eq_one_of_pos hroot, ← hsqrt, sign, Int.sign_eq_one_iff_pos] at hsign

/-! ## Rounding of the root -/

theorem value_pos_iff (d : Decimal) : 0 < d.value ↔ 0 < d.mantissa := by
  rw [← Rat.num_pos, ← Int.sign_eq_one_iff_pos, num_sign_value, sign, Int.sign_eq_one_iff_pos]

/-- There is no tie, for a root that is a midpoint ends. -/
theorem isClosest_sqrt (hx : x.IsCanonical) (hpos : 0 < x.value) :
    IsClosest precision (Real.sqrt x.value) x.sqrt.value := by
  obtain ⟨u, v, hu, huv, hlow, hhigh, hbetween⟩ := hx.exists_sqrt_cut ((value_pos_iff x).1 hpos)
  have hle : (u : ℝ) ≤ Real.sqrt x.value := by
    apply Real.le_sqrt_of_sq_le
    exact_mod_cast hlow
  have hlt : Real.sqrt x.value < (v : ℝ) := by
    rw [Real.sqrt_lt' (by exact_mod_cast hu.trans huv)]
    exact_mod_cast hhigh
  refine hbetween.isClosest hle hlt fun z hz htie => ?_
  obtain ⟨m, e, hmid⟩ := exists_fraction_midpoint (hbetween u le_rfl huv).hasDigits hz
  have hsq : fraction m e ^ 2 = x.value := by
    have hreal := Real.sq_sqrt (show (0 : ℝ) ≤ x.value by exact_mod_cast hpos.le)
    rw [← htie, ← hmid] at hreal
    exact_mod_cast hreal
  rw [← htie, ← hmid] at hle hlt
  have hself := hbetween (fraction m e) (by exact_mod_cast hle) (by exact_mod_cast hlt)
  have heq := hself.unique (IsNearest.self (hx.hasDigits_of_sq hsq))
  linarith

/-- The radicand lies between the squares of the two ends of the last place of the root. -/
theorem sq_halfUnit (hx : x.IsCanonical) (hpos : 0 < x.value) :
    (x.sqrt.value - x.sqrt.halfUnit) ^ 2 ≤ x.value ∧
      x.value ≤ (x.sqrt.value + x.sqrt.halfUnit) ^ 2 := by
  have hroot := sqrt_pos hx ((value_pos_iff x).1 hpos)
  obtain ⟨u, v, hu, huv, hlow, hhigh, hbetween⟩ := hx.exists_sqrt_cut ((value_pos_iff x).1 hpos)
  have hzero : x.sqrt.isZero = false := by simpa [isZero] using hroot.ne'
  obtain ⟨m, hm, -, hlt⟩ := exists_full_mantissa hzero (isCanonical_sqrt x).count_le_precision
  have hmpos : 0 < m := by
    rwa [← value_pos_iff, ← hm, ← Rat.num_pos, ← Int.sign_eq_one_iff_pos, num_sign_fraction,
      Int.sign_eq_one_iff_pos] at hroot
  lift m to Nat using hmpos.le
  rw [Int.natAbs_natCast] at hlt
  have hunit : (0 : Rat) < 10 ^ (x.sqrt.leading - precision + 1) := zpow_pos (by norm_num) _
  have hone : (1 : Rat) ≤ m := by exact_mod_cast hmpos
  rw [← hm] at hbetween ⊢
  obtain ⟨hbelow, habove⟩ := hbetween.half_unit (by decide) huv (by exact_mod_cast hmpos) hlt
  rw [halfUnit]
  constructor
  · refine (pow_le_pow_left₀ ?_ hbelow 2).trans hlow
    rw [fraction_eq, Int.cast_natCast]
    have hmul := le_mul_of_one_le_left hunit.le hone
    linarith
  · exact hhigh.le.trans (pow_le_pow_left₀ (hu.trans huv).le habove 2)

/-- The square of a decimal with at most half of the digits is not rounded, and its root is the
decimal itself. -/
theorem sqrt_mul_self {y : Decimal} (hy : y.IsCanonical) (hpos : 0 < y.value)
    (hcount : count y.mantissa.natAbs ≤ 24) (hlow : exponentFloor ≤ 2 * y.exponent)
    (hhigh : 2 * y.exponent ≤ exponentCeiling) : (y.mul y).sqrt = y := by
  have hsquare : IsCanonical ⟨y.mantissa ^ 2, 2 * y.exponent⟩ := by
    refine hy.isReduced.square.imp_right fun hmod => ⟨hmod, ?_, hlow, hhigh⟩
    have hmul := count_mul_le y.mantissa.natAbs y.mantissa.natAbs
    rw [Int.natAbs_pow, pow_two, precision]
    omega
  have hmul : y.mul y = ⟨y.mantissa ^ 2, 2 * y.exponent⟩ := by
    rw [mul, ← pow_two, ← two_mul]
    exact hsquare.scaled_eq
  have hvalue := value_square y
  rw [hmul]
  generalize (⟨y.mantissa ^ 2, 2 * y.exponent⟩ : Decimal) = x at *
  have hxpos : 0 < x.value := by
    rw [hvalue]
    exact pow_pos hpos 2
  obtain ⟨u, v, hu, huv, hle, hlt, hbetween⟩ := hsquare.exists_sqrt_cut ((value_pos_iff x).1 hxpos)
  rw [hvalue] at hle hlt
  have hnearest := hbetween y.value (le_of_sq_le_sq hle hpos.le)
    (lt_of_pow_lt_pow_left₀ 2 (hu.trans huv).le hlt)
  rw [(isCanonical_sqrt x).eq_iff hy]
  exact hnearest.unique (IsNearest.self hy.hasDigits)

/-- The square root of a positive decimal is the nearest decimal to the real root, so that the
radicand lies between the squares of the root less and more half a unit of its last kept place. The
root of the square of a decimal of at most 24 digits is this decimal, if the exponent of the square
is within the limits. -/
theorem sqrt_closest_and_sqrt_mul_self :
    (∀ x : Decimal, x.IsCanonical → 0 < x.value →
      IsClosest precision (Real.sqrt x.value) x.sqrt.value ∧
      (x.sqrt.value - x.sqrt.halfUnit) ^ 2 ≤ x.value ∧
      x.value ≤ (x.sqrt.value + x.sqrt.halfUnit) ^ 2) ∧
    ∀ y : Decimal, y.IsCanonical → 0 < y.value → count y.mantissa.natAbs ≤ 24 →
      exponentFloor ≤ 2 * y.exponent → 2 * y.exponent ≤ exponentCeiling → (y.mul y).sqrt = y :=
  ⟨fun _ hx hpos => ⟨isClosest_sqrt hx hpos, sq_halfUnit hx hpos⟩,
    fun _ hy hpos hcount hlow hhigh => sqrt_mul_self hy hpos hcount hlow hhigh⟩

/-- The root of two is rounded in its forty-eighth digit, that of `2.25` is exact. -/
theorem sqrt_two_closest :
    sqrt ⟨2, 0⟩ = ⟨141421356237309504880168872420969807856967187538, -47⟩ ∧
      IsClosest precision (Real.sqrt (2 : Rat))
        (value ⟨141421356237309504880168872420969807856967187538, -47⟩) ∧
      (mul ⟨15, -1⟩ ⟨15, -1⟩).sqrt = ⟨15, -1⟩ := by
  have htwo : value ⟨2, 0⟩ = 2 := by norm_num [value, fraction_eq]
  have hcanonical : IsCanonical ⟨2, 0⟩ :=
    isCanonical_digit (by decide) (by decide) (by decide) (by decide)
  have hroot : sqrt ⟨2, 0⟩ = ⟨141421356237309504880168872420969807856967187538, -47⟩ := by
    decide +kernel
  obtain ⟨hclosest, hself⟩ := sqrt_closest_and_sqrt_mul_self
  obtain ⟨hnearest, -⟩ := hclosest ⟨2, 0⟩ hcanonical (by rw [htwo]; norm_num)
  rw [hroot, htwo] at hnearest
  refine ⟨hroot, hnearest, hself ⟨15, -1⟩ (by decide +kernel) ?_ (by decide +kernel) (by decide)
    (by decide)⟩
  norm_num [value, fraction_eq]

end Decimal

end Keypad
