import Keypad.Proofs.Decimal.SquareRoot
import Keypad.Proofs.Rationality
import Mathlib.Algebra.Order.Round
import Mathlib.Algebra.Order.Archimedean.Basic

/-!
# How near a rounded number is

A number that is rounded to some digits is near in proportion to its size. The relative errors of
several roundings, and of squares and roots between them, are put together here.
-/

namespace Keypad

open Digits Decimal

variable {ε δ x y z : Rat} {digits : Nat}

/-- The number `y` differs from `x` by at most the part `ε` of it. -/
def Near (ε x y : Rat) : Prop := |y - x| ≤ ε * |x|

namespace Near

theorem mono (h : Near ε x y) (hle : ε ≤ δ) : Near δ x y :=
  le_trans h (mul_le_mul_of_nonneg_right hle (abs_nonneg x))

theorem abs_le (h : Near ε x y) : |y| ≤ (1 + ε) * |x| := by
  have habs := abs_sub_abs_le_abs_sub y x
  rw [Near] at h
  linarith

theorem trans (h : Near ε x y) (h' : Near δ y z) (hδ : 0 ≤ δ) : Near (ε + δ * (1 + ε)) x z := by
  have hsize := mul_le_mul_of_nonneg_left h.abs_le hδ
  have habs := abs_sub_le z y x
  rw [Near] at *
  linarith

theorem mul_left (h : Near ε x y) (z : Rat) : Near ε (z * x) (z * y) := by
  rw [Near, ← mul_sub, abs_mul, abs_mul, mul_left_comm]
  exact mul_le_mul_of_nonneg_left h (abs_nonneg z)

theorem sq (h : Near ε x y) (hε : 0 ≤ ε) : Near (ε * (2 + ε)) (x ^ 2) (y ^ 2) := by
  have hfactor : y ^ 2 - x ^ 2 = (y - x) * (y + x) := by ring
  have hsum : |y + x| ≤ (2 + ε) * |x| := by
    have := abs_add_le y x
    have := h.abs_le
    linarith
  rw [Near, hfactor, abs_mul, abs_pow]
  calc |y - x| * |y + x| ≤ ε * |x| * ((2 + ε) * |x|) :=
        mul_le_mul h hsum (abs_nonneg _) (mul_nonneg hε (abs_nonneg x))
    _ = ε * (2 + ε) * |x| ^ 2 := by ring

theorem symm (h : Near ε x y) (hε : 2 * ε ≤ 1) (hε0 : 0 ≤ ε) : Near (2 * ε) y x := by
  have hsize : |x| ≤ 2 * |y| := by
    have habs := abs_sub_abs_le_abs_sub x y
    have hhalf := mul_le_mul_of_nonneg_right hε (abs_nonneg x)
    rw [Near, abs_sub_comm] at h
    linarith
  rw [Near, abs_sub_comm]
  refine le_trans h ?_
  calc ε * |x| ≤ ε * (2 * |y|) := mul_le_mul_of_nonneg_left hsize hε0
    _ = 2 * ε * |y| := by ring

/-- Two fractions that are nearer than their parts allow are equal. -/
theorem eq_of_parts (h : Near ε x y) (hsmall : ε * (x.num.natAbs * y.den) < 1) : y = x := by
  by_contra hne
  have hden : (0 : Rat) < x.den * y.den := by
    exact_mod_cast Nat.mul_pos x.den_pos y.den_pos
  have hparts : (y - x) * (x.den * y.den) = (y.num * x.den - x.num * y.den : Int) := by
    have hx := Rat.mul_den_eq_num x
    have hy := Rat.mul_den_eq_num y
    push_cast
    rw [← hx, ← hy]
    ring
  have hone : (1 : Rat) ≤ |y - x| * (x.den * y.den) := by
    have hnum : (y.num * x.den - x.num * y.den : Int) ≠ 0 := by
      intro hzero
      rw [hzero, Int.cast_zero] at hparts
      exact (mul_ne_zero (sub_ne_zero.2 hne) hden.ne') hparts
    rw [← abs_of_pos hden, ← abs_mul, hparts]
    exact_mod_cast Int.one_le_abs hnum
  have hlt : |y - x| * (x.den * y.den) < 1 :=
    calc |y - x| * (x.den * y.den) ≤ ε * |x| * (x.den * y.den) :=
          mul_le_mul_of_nonneg_right h hden.le
      _ = ε * (|x| * x.den * y.den) := by ring
      _ < 1 := by rwa [Quantity.abs_mul_den]
  exact absurd hone (not_le.2 hlt)

end Near

/-! ## Rounding -/

theorem hasDigits_mul_zpow (hdigits : 0 < digits) {k : Int} (hk : k.natAbs ≤ pow10 digits)
    (f : Int) :
    HasDigits digits (k * (10 : Rat) ^ f) := by
  have hnat := hasDigits_fraction hdigits hk f
  rw [← fraction_eq]
  rcases Int.natAbs_eq k with hpos | hneg
  · rwa [hpos]
  · rw [hneg, fraction_neg]
    exact hnat.neg

theorem HasDigits.mono {digits' : Nat} (h : HasDigits digits x) (hle : digits ≤ digits') :
    HasDigits digits' x := by
  obtain ⟨m, e, hlt, hx⟩ := h
  exact ⟨m, e, hlt.trans_le (pow10_le_pow10 hle), hx⟩

/-- A number below a power of ten is moved by at most half a unit of its last digit. -/
theorem IsNearest.abs_sub_le (h : IsNearest digits x y) (hdigits : 0 < digits) {f : Int}
    (hx : |x| < (10 ^ digits + 1 / 2) * 10 ^ f) : |y - x| ≤ 10 ^ f / 2 := by
  obtain ⟨u, hu⟩ : ∃ u : Rat, u = 10 ^ f := ⟨_, rfl⟩
  have hpos : 0 < u := hu ▸ zpow_pos (by norm_num) _
  have hcut := abs_sub_round (x / u)
  -- The multiple of the unit next to the number has no more digits than are kept.
  have hk : (round (x / u)).natAbs ≤ pow10 digits := by
    have hquotient : |x / u| < 10 ^ digits + 1 / 2 := by
      rwa [abs_div, abs_of_pos hpos, div_lt_iff₀ hpos, hu]
    have habs := abs_sub_abs_le_abs_sub (round (x / u) : Rat) (x / u)
    rw [abs_sub_comm] at habs
    have hlt : |(round (x / u) : Rat)| < pow10 digits + 1 := by
      rw [pow10_cast]
      linarith
    have hnat : ((round (x / u)).natAbs : Rat) < (pow10 digits + 1 : Nat) := by
      rw [Nat.cast_natAbs, Int.cast_abs]
      exact_mod_cast hlt
    exact Nat.le_of_lt_succ (by exact_mod_cast hnat)
  have hle := h.le _ (hasDigits_mul_zpow hdigits hk f)
  rw [← hu] at hle ⊢
  have hdistance : |round (x / u) * u - x| ≤ u / 2 := by
    have hx : round (x / u) * u - x = -((x / u - round (x / u)) * u) := by
      field_simp
      ring
    rw [hx, abs_neg, abs_mul, abs_of_pos hpos]
    linarith [mul_le_mul_of_nonneg_right hcut hpos.le]
  exact hle.trans hdistance

/-- A number that is rounded differs in proportion to its size. -/
theorem IsNearest.near (h : IsNearest (digits + 1) x y) : Near (1 / (2 * 10 ^ digits)) x y := by
  rcases eq_or_ne x 0 with rfl | hx
  · rw [h.unique (IsNearest.self (hasDigits_zero _))]
    simp [Near]
  obtain ⟨e, hlow, hhigh⟩ := exists_mem_Ico_zpow (abs_pos.2 hx) (by norm_num : (1 : Rat) < 10)
  have hunit : (10 : Rat) ^ digits * 10 ^ (e - digits) = 10 ^ e := by
    rw [← zpow_natCast, ← zpow_add₀ (by norm_num), add_sub_cancel]
  have hpos : (0 : Rat) < 10 ^ (e - digits) := zpow_pos (by norm_num) _
  refine (h.abs_sub_le (Nat.succ_pos _) (f := e - digits) ?_).trans ?_
  · rw [zpow_add₀ (by norm_num), zpow_one, ← hunit] at hhigh
    rw [pow_succ]
    linarith
  · rw [one_div_mul_eq_div, le_div_iff₀ (by positivity)]
    linarith

/-! ## Sizes -/

/-- The number is zero, or neither too small nor too large by `c` orders of magnitude. -/
def Sized (c : Nat) (x : Rat) : Prop := x ≠ 0 → 1 ≤ |x| * 10 ^ c ∧ |x| ≤ 10 ^ c

namespace Sized

variable {c k : Nat}

theorem mul (hx : Sized c x) (hy : Sized k y) : Sized (c + k) (x * y) := by
  intro hne
  obtain ⟨hlow, hhigh⟩ := hx (left_ne_zero_of_mul hne)
  obtain ⟨hlow', hhigh'⟩ := hy (right_ne_zero_of_mul hne)
  rw [abs_mul, pow_add]
  constructor
  · calc (1 : Rat) ≤ |x| * 10 ^ c * (|y| * 10 ^ k) := one_le_mul_of_one_le_of_one_le hlow hlow'
      _ = |x| * |y| * (10 ^ c * 10 ^ k) := by ring
  · exact mul_le_mul hhigh hhigh' (abs_nonneg y) (by positivity)

theorem inv (hx : Sized c x) : Sized c x⁻¹ := by
  intro hne
  obtain ⟨hlow, hhigh⟩ := hx (inv_eq_zero.not.1 hne)
  have hpos : 0 < |x| := abs_pos.2 (inv_eq_zero.not.1 hne)
  rw [abs_inv, inv_mul_eq_div, one_le_div hpos, inv_le_iff_one_le_mul₀ hpos, mul_comm]
  exact ⟨hhigh, hlow⟩

theorem of_near (hx : Sized c x) (h : Near ε x y) (hε : 2 * ε ≤ 1) : Sized (c + 1) y := by
  intro hne
  have hhalf := mul_le_mul_of_nonneg_right hε (abs_nonneg x)
  have hclose := abs_sub_abs_le_abs_sub x y
  have hfar := abs_sub_abs_le_abs_sub y x
  rw [abs_sub_comm x y] at hclose
  rw [Near] at h
  have hx0 : x ≠ 0 := by
    rintro rfl
    rw [abs_zero, mul_zero, sub_zero] at h
    exact hne (abs_nonpos_iff.1 h)
  obtain ⟨hlow, hhigh⟩ := hx hx0
  have hpos : (0 : Rat) < 10 ^ c := by positivity
  rw [pow_succ]
  constructor
  · have hten : |x| * 10 ^ c ≤ 2 * |y| * 10 ^ c :=
      mul_le_mul_of_nonneg_right (by linarith) hpos.le
    linarith
  · linarith

end Sized

theorem Decimal.sized_value {d : Decimal} {c : Nat}
    (h : d.isZero = false → -(c : Int) ≤ d.leading ∧ d.leading < c) : Sized c d.value := by
  intro hne
  cases hzero : d.isZero with
  | true => exact absurd (Quantity.value_of_isZero hzero) hne
  | false =>
    obtain ⟨hlow, hhigh⟩ := h hzero
    have hle := (zpow_le_abs_value_iff hzero _).2 hlow
    have hlt := (abs_value_lt hzero).le.trans
      (zpow_le_zpow_right₀ (by norm_num : (1 : Rat) ≤ 10) (Int.add_one_le_of_lt hhigh))
    rw [zpow_natCast] at hlt
    rw [zpow_neg, zpow_natCast, inv_le_iff_one_le_mul₀ (by positivity)] at hle
    exact ⟨hle, hlt⟩

namespace Decimal

/-- The decimal of a fraction is nearest to it, if the fraction is not very long. -/
theorem isNearest_ofRat {q : Rat} {c : Nat} (hc : c ≤ 2 ^ 51) (hnum : count q.num.natAbs ≤ c)
    (hden : count q.den ≤ c) : IsNearest precision q (ofRat q).value := by
  obtain ⟨y, hreduced, hnearest, hy⟩ := roundsTo_ofRat q
  rwa [hy, (hreduced.withinLimits_of_count hnearest hc hnum hden).limited_eq]

theorem value_ofRat_of_hasDigits {q : Rat} (hq : IsNearest precision q (ofRat q).value)
    (hdigits : HasDigits precision q) : (ofRat q).value = q :=
  hq.unique (IsNearest.self hdigits)

theorem isNearest_ofRat_of_inBounds (hx : Quantity.inBounds x) :
    IsNearest precision x (ofRat x).value :=
  have hshort {k : Nat} (hk : k ≤ fractionBound) : count k ≤ 10 :=
    count_le (by decide) (hk.trans_lt (by decide))
  isNearest_ofRat (by decide) (hshort (Quantity.natAbs_num_le hx)) (hshort (Quantity.den_le hx))

theorem isNearest_of_rational? {d : Decimal} {r : Rat} (hd : d.IsCanonical)
    (h : Quantity.rational? d = some r) : IsNearest comparedDigits d.value r := by
  obtain ⟨hr, hlooks⟩ := (Quantity.rational?_eq_some_iff_significant d r).1 h
  obtain ⟨y, -, hnearest, -⟩ :=
    roundsTo_round (show 0 < comparedDigits by decide) d.mantissa d.exponent
  rcases Quantity.value_significant_or hd hnearest with hvalue | ⟨-, hout⟩
  · rw [hr, ← hvalue]
    exact hnearest
  · exact absurd hlooks.1 hout

theorem eq_of_rational? {d : Decimal} {r : Rat} (hd : d.IsCanonical)
    (hdigits : HasDigits comparedDigits d.value) (h : Quantity.rational? d = some r) :
    r = d.value := (isNearest_of_rational? hd h).unique (IsNearest.self hdigits)

theorem near_of_rational? {d : Decimal} {r : Rat} (hd : d.IsCanonical)
    (h : Quantity.rational? d = some r) : Near (1 / (2 * 10 ^ 15)) d.value r :=
  (show IsNearest (15 + 1) d.value r from isNearest_of_rational? hd h).near

theorem near_of_isNearest (h : IsNearest precision x y) : Near (1 / (2 * 10 ^ 47)) x y :=
  (show IsNearest (47 + 1) x y from h).near

/-- A rounded number that is neither too large nor too small meets no limit of exponents. -/
theorem near_of_roundsTo {d : Decimal} {c : Nat} (h : RoundsTo precision x d) (hx : Sized c x)
    (hc : c < 2 ^ 51) : Near (1 / (2 * 10 ^ 47)) x d.value := by
  obtain ⟨y, hreduced, hnearest, rfl⟩ := h
  rcases eq_or_ne x 0 with rfl | hne
  · have hzero : y.value = 0 := by simpa using hnearest.abs_le_two_mul
    rw [hreduced.eq_zero hzero, limited_zero, value_zero]
    simp [Near]
  · obtain ⟨hlow, hhigh⟩ := hx hne
    have hpos : (0 : Rat) < 10 ^ c := by positivity
    have hlimits : y.WithinLimits := by
      apply hreduced.withinLimits hnearest (c := c + 1) hc
      · rw [zpow_neg, zpow_natCast, inv_le_iff_one_le_mul₀ (by positivity), pow_succ]
        linarith
      · rw [zpow_natCast, pow_succ]
        linarith
    rw [hlimits.limited_eq]
    exact near_of_isNearest hnearest

theorem roundsTo_mul (a b : Decimal) : RoundsTo precision (a.value * b.value) (a.mul b) := by
  have hvalue :
      a.value * b.value = fraction (a.mantissa * b.mantissa) (a.exponent + b.exponent) := by
    rw [value, value, fraction_eq, fraction_eq, fraction_eq, zpow_add₀ (by norm_num)]
    push_cast
    ring
  rw [hvalue]
  exact roundsTo_round (by decide) _ _

theorem near_mul {a b : Decimal} {c k : Nat} (ha : Sized c a.value) (hb : Sized k b.value)
    (hsize : c + k < 2 ^ 51) :
    Near (1 / (2 * 10 ^ 47)) (a.value * b.value) (a.mul b).value :=
  near_of_roundsTo (roundsTo_mul a b) (ha.mul hb) hsize

theorem sized_fraction {m e : Int} {n c : Nat} (hm : m.natAbs ≤ pow10 n) (hlow : -(c : Int) ≤ e)
    (hhigh : e + n ≤ c) : Sized c (fraction m e) := by
  intro hne
  have hten : (1 : Rat) ≤ 10 := by norm_num
  have habs : |fraction m e| = m.natAbs * (10 : Rat) ^ e := abs_value ⟨m, e⟩
  have hone : (1 : Rat) ≤ m.natAbs := by
    have hm0 : m ≠ 0 := by
      rintro rfl
      rw [fraction_eq, Int.cast_zero, zero_mul] at hne
      exact hne rfl
    exact_mod_cast Int.natAbs_pos.2 hm0
  have hm' : (m.natAbs : Rat) ≤ 10 ^ n := by
    rw [← pow10_cast]
    exact_mod_cast hm
  rw [habs, ← zpow_natCast]
  constructor
  · rw [mul_assoc, ← zpow_add₀ (by norm_num)]
    exact one_le_mul_of_one_le_of_one_le hone (one_le_zpow₀ hten (by omega))
  · calc m.natAbs * (10 : Rat) ^ e ≤ 10 ^ n * 10 ^ e :=
          mul_le_mul_of_nonneg_right hm' (zpow_pos (by norm_num) e).le
      _ = 10 ^ (e + n) := by rw [mul_comm, ← zpow_natCast, ← zpow_add₀ (by norm_num)]
      _ ≤ 10 ^ (c : Int) := zpow_le_zpow_right₀ hten hhigh

/-- A number of moderate size is near to its rounding. -/
theorem near_scaled {m e : Int} {n c : Nat} (hm : m.natAbs ≤ pow10 n) (hlow : -(c : Int) ≤ e)
    (hhigh : e + n ≤ c) (hc : c < 2 ^ 51) :
    Near (1 / (2 * 10 ^ 47)) (fraction m e) (scaled m e).value :=
  near_of_roundsTo (roundsTo_round (by decide) m e) (sized_fraction hm hlow hhigh) hc

/-- A fixed-point number becomes a decimal near to it. -/
theorem near_ofFixed {s : Int} {w c : Nat} (hs : s.natAbs < pow10 c) (hw : w ≤ c)
    (hc : c < 2 ^ 51) :
    Near (1 / (2 * 10 ^ 47)) (s / 10 ^ w) (ofFixed s w).value := by
  have hvalue : fraction s (-w) = s / 10 ^ w := by
    rw [fraction_eq, zpow_neg, zpow_natCast, div_eq_mul_inv]
  rw [← hvalue]
  exact near_scaled hs.le (by omega) (by omega) hc

/-- The square of a root is near to the radicand. -/
theorem near_sq_sqrt {d : Decimal} (hd : d.IsCanonical) (hpos : 0 < d.value) :
    Near (4 / 10 ^ 47) d.value (d.sqrt.value ^ 2) := by
  obtain ⟨hlow, hhigh⟩ := sq_halfUnit hd hpos
  have hroot := sqrt_pos hd ((value_pos_iff d).1 hpos)
  have hzero : d.sqrt.isZero = false := by simpa [isZero] using hroot.ne'
  have hunit : d.sqrt.halfUnit ≤ d.sqrt.value / (2 * 10 ^ 47) := by
    have hle := le_abs_value hzero
    rw [abs_of_pos ((value_pos_iff _).2 hroot)] at hle
    have hexponent : d.sqrt.leading - (precision : Int) + 1 = d.sqrt.leading - (47 : Nat) := by
      rw [precision]
      push_cast
      ring
    rw [halfUnit, hexponent, zpow_sub₀ (by norm_num), zpow_natCast, div_div, mul_comm]
    exact div_le_div_of_nonneg_right hle (by positivity)
  have hhalf : 0 ≤ d.sqrt.halfUnit := by
    rw [halfUnit]
    positivity
  have hvalue : 0 < d.sqrt.value := (value_pos_iff _).2 hroot
  generalize d.sqrt.value = s at *
  generalize d.sqrt.halfUnit = u at *
  have hproduct : s * u ≤ s ^ 2 / (2 * 10 ^ 47) := by
    calc s * u ≤ s * (s / (2 * 10 ^ 47)) := mul_le_mul_of_nonneg_left hunit hvalue.le
      _ = s ^ 2 / (2 * 10 ^ 47) := by ring
  have hus : u ≤ s := hunit.trans (div_le_self hvalue.le (by norm_num))
  have hsquare : u ^ 2 ≤ s * u := by
    rw [pow_two]
    exact mul_le_mul_of_nonneg_right hus hhalf
  have hnear : Near (2 / 10 ^ 47) (s ^ 2) d.value := by
    rw [Near, abs_of_pos (pow_pos hvalue 2), abs_sub_le_iff]
    constructor <;> nlinarith
  exact (hnear.symm (by norm_num) (by norm_num)).mono (by norm_num)

end Decimal

end Keypad
