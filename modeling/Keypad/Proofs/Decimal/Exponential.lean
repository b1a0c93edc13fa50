import Keypad.Proofs.Decimal.Conversion
import Keypad.Proofs.Decimal.Functions
import Keypad.Proofs.Fixed.Exponential

/-!
# The logarithm undoes the exponential

The logarithm of a computed exponential is near to its argument: the multiple of `ln 10` that is
taken out returns as a power of ten, and what is left is exponentiated with sixteen digits more than
are kept. The computed logarithm is near to the real one: it is right to fifty places before it is
rounded, however large its argument is.
-/

namespace Keypad

open Digits

/-- A number that is near in proportion has a logarithm that is near. -/
theorem abs_log_sub_le_of_near {ε x y : Rat} (h : Near ε x y) (hx : 0 < x) (hε : 2 * ε ≤ 1) :
    0 < y ∧ |Real.log y - Real.log x| ≤ 2 * ε := by
  have hhalf := mul_le_mul_of_nonneg_right hε hx.le
  rw [Near, abs_of_pos hx] at h
  have hy : x / 2 ≤ y := by
    rw [abs_le] at h
    linarith
  have hx' : (0 : ℝ) < x := by exact_mod_cast hx
  have hy' : (x / 2 : ℝ) ≤ y := by exact_mod_cast (Rat.cast_le (K := ℝ)).2 hy
  have h' : |(y - x : ℝ)| ≤ ε * x := by exact_mod_cast (Rat.cast_le (K := ℝ)).2 h
  refine ⟨by linarith, (Fixed.abs_log_sub_log_le (half_pos hx') hy' (by linarith)).trans ?_⟩
  rw [div_le_iff₀ (half_pos hx')]
  linarith

namespace Decimal

variable {x y : Decimal}

/-! ## The exponential -/

/-- How often `ln 10` is taken out of the argument of an exponential. -/
def multiple (x : Decimal) : Int :=
  roundDiv (x.toFixed (workDigits + 12)) (Fixed.ln10 (workDigits + 12)).natAbs

/-- What is left of the argument, with `workDigits` places. -/
def rest (x : Decimal) : Int :=
  (x.toFixed (workDigits + 12) - x.multiple * Fixed.ln10 (workDigits + 12)).tdiv (pow10 12)

/-- The exponential of the rest, with its power of ten. -/
def expScaled (x : Decimal) : Decimal :=
  scaled (Fixed.exp x.rest workDigits) (x.multiple - workDigits)

theorem exp?_eq_some_expScaled (hx : x.isZero = false) (hleading : x.leading ≤ 9)
    (hlow : -(maxExponent + 1) - 4 ≤ x.multiple) (hhigh : x.multiple ≤ maxExponent + 1) :
    x.exp? = some x.expScaled := by
  rw [multiple] at hlow hhigh
  rw [exp?, if_neg (by simp [hx]), if_neg (not_lt.2 hleading)]
  dsimp only
  rw [if_neg (not_lt.2 hhigh), if_neg (not_lt.2 hlow)]
  rfl

/-- An exponential that is neither that of zero nor flushed to zero. -/
theorem multiple_of_exp? (h : x.exp? = some y) (hx : x.isZero = false) (hy : y ≠ zero) :
    x.multiple.natAbs ≤ 10 ^ 8 ∧ y = x.expScaled := by
  rw [exp?, if_neg (by simp [hx])] at h
  split at h
  · split at h
    · exact absurd (Option.some.inj h).symm hy
    · cases h
  · dsimp only at h
    split at h
    · cases h
    · next hhigh =>
      split at h
      · exact absurd (Option.some.inj h).symm hy
      · next hlow =>
        rw [← multiple, maxExponent] at hhigh hlow
        exact ⟨by omega, (Option.some.inj h).symm⟩

/-- The constant that is taken out of the argument. -/
theorem exists_ln10 : ∃ L : Nat, Fixed.ln10 (workDigits + 12) = L ∧ 0 < L ∧
    (L : ℝ) ≤ 3 * 10 ^ 76 ∧ |((L : Int) : ℝ) - 10 ^ 64 * pow10 12 * Real.log 10| ≤ 2 := by
  have hnear := Fixed.abs_ln10_sub_le (p := workDigits + 12) (by decide)
  have hscale : (pow10 (workDigits + 12) : ℝ) = 10 ^ 64 * pow10 12 := by
    rw [pow10_add, Nat.cast_mul, Fixed.cast_pow10_workDigits]
  have htwo := Real.log_two_gt_d9
  have htwo' := Real.log_two_lt_d9
  have hlow : Real.log 2 ≤ Real.log 10 := Real.log_le_log (by norm_num) (by norm_num)
  have hhigh : Real.log 10 ≤ 4 * Real.log 2 := by
    have hpow : 4 * Real.log 2 = Real.log (2 ^ 4) := by
      rw [Real.log_pow]
      norm_num
    rw [hpow]
    exact Real.log_le_log (by norm_num) (by norm_num)
  rw [hscale] at hnear
  have hbounds := abs_le.1 hnear
  rw [Fixed.cast_pow10] at hbounds
  have hpos : 0 < Fixed.ln10 (workDigits + 12) := by
    have hreal : (0 : ℝ) < Fixed.ln10 (workDigits + 12) := by linarith
    exact_mod_cast hreal
  obtain ⟨L, hL⟩ := Int.eq_ofNat_of_zero_le hpos.le
  rw [hL] at hnear hbounds hpos
  refine ⟨L, hL, by omega, ?_, hnear⟩
  rw [Int.cast_natCast] at hbounds
  linarith

/-- The rest of an argument is at most half of the constant. -/
theorem abs_rest_le (x : Decimal) : |(x.rest / pow10 workDigits : ℝ)| ≤ 3 / 2 := by
  obtain ⟨L, hL, hpos, hlarge, -⟩ := exists_ln10
  rw [rest, multiple, hL, Int.natAbs_natCast]
  have hhalf := two_mul_natAbs_sub_roundDiv_le (x.toFixed (workDigits + 12)) hpos
  generalize x.toFixed (workDigits + 12) - roundDiv (x.toFixed (workDigits + 12)) L * L = d
    at hhalf ⊢
  have hcut := Fixed.abs_tdiv_le d (pow10 12)
  have hhalf' : 2 * |(d : ℝ)| ≤ L := by
    rw [← Int.cast_abs, ← Nat.cast_natAbs]
    exact_mod_cast hhalf
  rw [Fixed.cast_pow10, le_div_iff₀ (by positivity)] at hcut
  rw [abs_div, Nat.abs_cast, Fixed.cast_pow10_workDigits, div_le_iff₀ (by positivity)]
  linarith

/-- The rest differs from the argument by multiples of `ln 10` and two units. -/
theorem abs_rest_sub_le (hx : x.multiple.natAbs ≤ 10 ^ 8) :
    |(x.rest / pow10 workDigits : ℝ) - (x.value - x.multiple * Real.log 10)| ≤ 2 / 10 ^ 64 := by
  obtain ⟨L, hL, -, -, hnear⟩ := exists_ln10
  have hplaces : (10 : ℝ) ^ (workDigits + 12) = 10 ^ 64 * pow10 12 := by
    rw [pow_add, ← Fixed.cast_pow10, ← Fixed.cast_pow10, Fixed.cast_pow10_workDigits]
  have hfixed := (Rat.cast_le (K := ℝ)).2 (abs_toFixed_sub_le x (workDigits + 12))
  push_cast at hfixed
  rw [hplaces] at hfixed
  have hfew : 1 + 2 * |(x.multiple : ℝ)| ≤ pow10 12 := by
    have hnat : 1 + 2 * x.multiple.natAbs ≤ pow10 12 := by
      have hspare : pow10 12 = 10 ^ 12 := rfl
      omega
    rw [← Int.cast_abs, ← Nat.cast_natAbs]
    exact_mod_cast hnat
  have hrest := Fixed.abs_tdiv_sub_multiples_le (pow10_pos 12) hfixed hnear hfew
  have hfactor (z r : ℝ) : r / 10 ^ 64 - z = (r - 10 ^ 64 * z) / 10 ^ 64 := by ring
  rw [Fixed.cast_pow10_workDigits, hfactor, abs_div,
    abs_of_pos (by positivity : (0 : ℝ) < 10 ^ 64), rest, hL]
  exact div_le_div_of_nonneg_right hrest (by positivity)

/-- The logarithm of a number with a power of ten put to it. -/
theorem log_fraction {m : Int} (hm : 0 < m) (k : Int) (w : Nat) :
    Real.log (fraction m (k - w) : Rat) = Real.log (m / pow10 w) + k * Real.log 10 := by
  have hm' : (0 : ℝ) < m := by exact_mod_cast hm
  have hw : (0 : ℝ) < pow10 w := by exact_mod_cast pow10_pos w
  have hk : (0 : ℝ) < 10 ^ k := zpow_pos (by norm_num) k
  rw [fraction_eq, ← Real.log_zpow, ← Real.log_mul (div_pos hm' hw).ne' hk.ne']
  congr 1
  push_cast
  rw [zpow_sub₀ (by norm_num), zpow_natCast, ← Fixed.cast_pow10]
  field_simp

/-- The exponential of the rest is below a hundred. -/
theorem natAbs_exp_rest_le {E : Int} {g ε : ℝ} (h : Fixed.HasLog E (pow10 workDigits) g ε)
    (hg : g + ε ≤ 2) : E.natAbs ≤ pow10 66 := by
  have hlog : Real.log (E / pow10 workDigits) ≤ 2 := by linarith [(abs_le.1 h.near).2]
  have hsquare : Real.exp 2 ≤ 3 ^ 2 := by exact_mod_cast Fixed.exp_natCast_le 2
  have hquotient := (Real.exp_le_exp.2 hlog).trans hsquare
  rw [h.exp_log (pow10_pos _), Fixed.cast_pow10_workDigits,
    div_le_iff₀ (by positivity)] at hquotient
  have hE : (E.natAbs : ℝ) ≤ pow10 66 := by
    rw [Nat.cast_natAbs, Int.cast_abs, abs_of_pos (by exact_mod_cast h.pos), Fixed.cast_pow10]
    exact hquotient.trans (by norm_num)
  exact_mod_cast hE

theorem abs_log_expScaled_sub_le (hx : x.multiple.natAbs ≤ 10 ^ 8) :
    0 < x.expScaled.value ∧ |Real.log x.expScaled.value - x.value| ≤ 2 / 10 ^ 47 := by
  have hrest := abs_rest_sub_le hx
  have hlog := Fixed.hasLog_exp (abs_rest_le x)
  have hsize := natAbs_exp_rest_le hlog (by linarith [(abs_le.1 (abs_rest_le x)).2])
  rw [expScaled]
  generalize Fixed.exp x.rest workDigits = E at *
  have hpos : 0 < fraction E (x.multiple - workDigits) :=
    (value_pos_iff ⟨E, x.multiple - workDigits⟩).2 hlog.pos
  have hnear := near_scaled hsize (e := x.multiple - workDigits) (c := 2 * 10 ^ 8)
    (by rw [workDigits, precision]; omega) (by rw [workDigits, precision]; omega) (by decide)
  obtain ⟨hvalue, hrounded⟩ := abs_log_sub_le_of_near hnear hpos (by norm_num)
  refine ⟨hvalue, ?_⟩
  rw [log_fraction hlog.pos] at hrounded
  have hsum := hlog.near
  rw [abs_le] at hrounded hsum hrest ⊢
  norm_num at hrounded hsum hrest ⊢
  constructor <;> linarith

/-- The computed exponential of a decimal, unless it is flushed to zero. -/
theorem abs_log_exp?_sub_le (h : x.exp? = some y) (hy : y ≠ zero) :
    0 < y.value ∧ |Real.log y.value - x.value| ≤ 2 / 10 ^ 47 := by
  cases hx : x.isZero with
  | true =>
    rw [exp?, if_pos hx, Option.some.injEq] at h
    rw [← h, value_one, Quantity.value_of_isZero hx]
    norm_num
  | false =>
    obtain ⟨hmultiple, rfl⟩ := multiple_of_exp? h hx hy
    exact abs_log_expScaled_sub_le hmultiple

/-! ## The logarithm -/

/-- The decimal with its power of ten taken out. -/
def unscaled (y : Decimal) : Decimal := ⟨y.mantissa, y.exponent - y.leading⟩

theorem value_unscaled (y : Decimal) : y.unscaled.value = y.value / 10 ^ y.leading := by
  rw [unscaled, value, value, fraction_eq, fraction_eq, zpow_sub₀ (by norm_num), mul_div_assoc]

theorem leading_unscaled (hy : y.isZero = false) : y.unscaled.leading = 0 := by
  have hzero : y.unscaled.isZero = false := hy
  rw [leading_of_ne_zero hzero, unscaled, leading_of_ne_zero hy]
  dsimp only
  omega

theorem IsCanonical.unscaled (hy : y.IsCanonical) : y.unscaled.IsCanonical := by
  rcases hy with rfl | ⟨hmod, hcount, -⟩
  · exact .inl rfl
  · have hmantissa : y.mantissa ≠ 0 := by
      intro hzero
      rw [hzero] at hmod
      exact hmod rfl
    have hcount' := count_pos y.mantissa.natAbs
    have hleading := leading_of_ne_zero (d := y) (by simpa [isZero] using hmantissa)
    rw [precision] at hcount
    refine .inr ⟨hmod, hcount, ?_, ?_⟩
    · rw [exponentFloor, Decimal.unscaled]
      dsimp only
      omega
    · rw [exponentCeiling, Decimal.unscaled]
      dsimp only
      omega

theorem abs_value_unscaled (hy : y.isZero = false) :
    1 ≤ |y.unscaled.value| ∧ |y.unscaled.value| < 10 := by
  have hlow := le_abs_value (d := y.unscaled) hy
  have hhigh := abs_value_lt (d := y.unscaled) hy
  rw [leading_unscaled hy] at hlow hhigh
  constructor
  · simpa using hlow
  · simpa using hhigh

/-- Rounding to the kept digits does not lead below one. -/
theorem one_le_abs_value_scaled (hy : y.isZero = false) :
    1 ≤ |(scaled y.unscaled.mantissa y.unscaled.exponent).value| := by
  obtain ⟨hlow, hhigh⟩ := abs_value_unscaled hy
  have hdigits : 0 < precision := by decide
  obtain ⟨d, hreduced, hnearest, hd⟩ :=
    roundsTo_round hdigits y.unscaled.mantissa y.unscaled.exponent
  have hone : HasDigits precision 1 := ⟨1, 0, by decide, by norm_num [fraction_eq]⟩
  have hlimits : d.WithinLimits := by
    apply hreduced.withinLimits hnearest (c := 1) (by decide)
    · exact (by norm_num : (10 : Rat) ^ (-(1 : Nat) : Int) ≤ 1).trans hlow
    · exact hhigh.trans_le (by norm_num)
  rw [scaled, hd, hlimits.limited_eq]
  exact hnearest.le_abs hone hlow

/-- A positive decimal with its power of ten taken out is at least one. It need not be canonical. -/
theorem exists_toFixed_scaled (hpos : 0 < y.mantissa) (w : Nat) :
    ∃ m : Nat, (scaled y.mantissa (y.exponent - y.leading)).toFixed w = m ∧ pow10 w ≤ m := by
  have hzero : y.isZero = false := by simpa [isZero] using hpos.ne'
  have hside : Sided false y.mantissa := hpos.le
  have hnonneg : 0 ≤ (scaled y.mantissa (y.exponent - y.leading)).toFixed w :=
    sided_toFixed (sided_scaled hside _) w
  obtain ⟨m, hm⟩ := Int.eq_ofNat_of_zero_le hnonneg
  have hone : 1 ≤ |(scaled y.mantissa (y.exponent - y.leading)).value| :=
    one_le_abs_value_scaled hzero
  refine ⟨m, hm, ?_⟩
  have hle := (le_natAbs_toFixed_iff _ w (pow10 w)).2 (by
    rw [pow10_cast]
    exact le_mul_of_one_le_left (by positivity) hone)
  rwa [hm, Int.natAbs_natCast] at hle

/-- A positive decimal with its power of ten taken out lies between one and ten. -/
theorem toFixed_unscaled (hy : y.IsCanonical) (hpos : 0 < y.mantissa) (w : Nat) :
    ∃ m : Nat, (scaled y.mantissa (y.exponent - y.leading)).toFixed w = m ∧
      pow10 w ≤ m ∧ m ≤ 10 * pow10 w ∧
      |(m : ℝ) - y.value / 10 ^ y.leading * 10 ^ w| ≤ 1 := by
  have hzero : y.isZero = false := by simpa [isZero] using hpos.ne'
  have hscaled : scaled y.mantissa (y.exponent - y.leading) = y.unscaled := hy.unscaled.scaled_eq
  obtain ⟨m, hm, hlow⟩ := exists_toFixed_scaled hpos w
  refine ⟨m, hm, hlow, ?_, ?_⟩
  · rw [hscaled] at hm
    have hsize := (le_natAbs_toFixed_iff y.unscaled w m).1 (by rw [hm, Int.natAbs_natCast])
    have hle : (m : Rat) ≤ (10 * pow10 w : Nat) := by
      push_cast
      rw [pow10_cast]
      exact hsize.trans
        (mul_le_mul_of_nonneg_right (abs_value_unscaled hzero).2.le (by positivity))
    exact_mod_cast hle
  · rw [hscaled] at hm
    have hnear := (Rat.cast_le (K := ℝ)).2 (abs_toFixed_sub_le y.unscaled w)
    rw [hm, value_unscaled] at hnear
    push_cast at hnear
    exact hnear

theorem abs_log_cut_sub_le {v : Rat} {e : Int} {m w : Nat} (hv : 0 < v) (hw : 0 < w)
    (hlow : pow10 w ≤ m) (hnear : |(m : ℝ) - v / 10 ^ e * 10 ^ w| ≤ 1) :
    |pow10 w * Real.log (m / pow10 w) - pow10 w * (Real.log v - e * Real.log 10)| ≤ 2 := by
  have hs : (2 : ℝ) ≤ pow10 w := by
    have hnat : pow10 1 ≤ pow10 w := pow10_le_pow10 hw
    have hten : pow10 1 = 10 := rfl
    exact_mod_cast (by omega : 2 ≤ pow10 w)
  have hv' : (0 : ℝ) < v := by exact_mod_cast hv
  have he : (0 : ℝ) < 10 ^ e := zpow_pos (by norm_num) e
  have hlow' : (pow10 w : ℝ) ≤ m := by exact_mod_cast hlow
  rw [← Fixed.cast_pow10] at hnear
  rw [← Real.log_zpow, ← Real.log_div hv'.ne' he.ne']
  generalize (v / 10 ^ e : ℝ) = z at hnear ⊢
  generalize (pow10 w : ℝ) = s at hs hlow' hnear ⊢
  have hpos : 0 < s := by linarith
  have hdistance : |m / s - z| ≤ 1 / s := by
    have hfactor : m / s - z = (m - z * s) / s := by field_simp
    rw [hfactor, abs_div, abs_of_pos hpos]
    exact div_le_div_of_nonneg_right hnear hpos.le
  have hone : 1 ≤ m / s := (one_le_div hpos).2 hlow'
  have hz : 1 / 2 ≤ z := by
    have hunit : 1 / s ≤ 1 / 2 := one_div_le_one_div_of_le (by norm_num) hs
    linarith [(abs_le.1 hdistance).2]
  exact Fixed.abs_mul_log_sub_mul_log_le hpos (by linarith) hz hdistance

theorem abs_mul_sub_mul_le {a b c : ℝ} (h : |a - b| ≤ c) (n : ℝ) : |a * n - b * n| ≤ c * |n| := by
  rw [← sub_mul, abs_mul]
  exact mul_le_mul_of_nonneg_right h (abs_nonneg n)

/-- The logarithm before it is rounded. -/
theorem exists_ln_eq_ofFixed (hy : y.IsCanonical) (hpos : 0 < y.value) :
    ∃ n : Int, y.ln = ofFixed n (workDigits + 4) ∧
      n.natAbs < pow10 (workDigits + 4 + (workDigits + 7)) ∧
      |(n / 10 ^ 68 : ℝ) - Real.log y.value| ≤ 1 / 10 ^ 50 := by
  have hmantissa := (value_pos_iff y).1 hpos
  obtain ⟨m, hm, hlow, hhigh, hnear⟩ := toFixed_unscaled hy hmantissa (workDigits + 4)
  obtain ⟨⟨t, j⟩, hhalve⟩ : ∃ p, Fixed.halve (pow10 (workDigits + 4) * 3 / 2) m 0 = p := ⟨_, rfl⟩
  obtain ⟨hln, htwice⟩ := Fixed.abs_lnNearOne_halve_sub_le (K := 240) (by decide) (by decide) hlow
    hhalve
  have hsign : ¬y.sign ≤ 0 := not_le.2 (Int.sign_pos_iff.2 hmantissa)
  have hfew : j ≤ 20 := by
    have hpow : 2 ^ j ≤ 20 := by
      refine Nat.le_of_mul_le_mul_left ?_ (pow10_pos (workDigits + 4))
      omega
    exact (Nat.lt_two_pow_self.trans_le hpow).le
  have hleading := hy.natAbs_leading_le
  refine ⟨_, ?_, natAbs_lnParts_lt t (hfew.trans (by decide)) hleading, ?_⟩
  · rw [ln, if_neg hsign]
    simp only [hm, Int.natAbs_natCast, hhalve]
  · have hcut := abs_log_cut_sub_le (w := workDigits + 4) hpos (by decide) hlow hnear
    have htwo := abs_mul_sub_mul_le (Fixed.abs_ln2_sub_le (p := workDigits + 4) (by decide)) j
    have hten := abs_mul_sub_mul_le (Fixed.abs_ln10_sub_le (p := workDigits + 4) (by decide))
      y.leading
    have hscale : (pow10 (workDigits + 4) : ℝ) = 10 ^ 68 := Fixed.cast_pow10 _
    have hj : |(j : ℝ)| ≤ 20 := by
      rw [Nat.abs_cast]
      exact_mod_cast hfew
    have he : |(y.leading : ℝ)| ≤ 10 ^ 16 := by
      rw [← Int.cast_abs, ← Nat.cast_natAbs]
      exact_mod_cast hleading
    rw [hscale] at hln hcut htwo hten
    -- What the series, the two constants and the cut of the argument contribute.
    have hsplit (a b c l : ℝ) : (a + b * j + c * y.leading) / 10 ^ 68 - Real.log y.value
        = (a + 10 ^ 68 * (j * Real.log 2) - 10 ^ 68 * l + (b * j - 10 ^ 68 * Real.log 2 * j)
          + (c * y.leading - 10 ^ 68 * Real.log 10 * y.leading)
          + (10 ^ 68 * l - 10 ^ 68 * (Real.log y.value - y.leading * Real.log 10))) / 10 ^ 68 := by
      ring
    push_cast
    rw [hsplit _ _ _ (Real.log (m / 10 ^ 68)), abs_div,
      abs_of_pos (by positivity : (0 : ℝ) < 10 ^ 68), div_le_iff₀ (by positivity)]
    have hsum := (abs_add_le _ _).trans (add_le_add ((abs_add_three _ _ _).trans
      (add_le_add (add_le_add hln htwo) hten)) hcut)
    refine hsum.trans ?_
    push_cast
    linarith

theorem abs_ln_sub_log_le (hy : y.IsCanonical) (hpos : 0 < y.value) :
    |(y.ln.value : ℝ) - Real.log y.value| ≤ |Real.log y.value| / 10 ^ 47 + 1 / 10 ^ 49 := by
  obtain ⟨n, hln, hsize, hnear⟩ := exists_ln_eq_ofFixed hy hpos
  have hround := (Rat.cast_le (K := ℝ)).2 (near_ofFixed hsize (Nat.le_add_right _ _) (by decide))
  push_cast at hround
  have hplaces : (10 : ℝ) ^ (workDigits + 4) = 10 ^ 68 := by norm_num [workDigits, precision]
  rw [← hln, hplaces] at hround
  have hlarge := abs_sub_abs_le_abs_sub (n / 10 ^ 68 : ℝ) (Real.log y.value)
  have htriangle := abs_sub_le (y.ln.value : ℝ) (n / 10 ^ 68) (Real.log y.value)
  have hnonneg := abs_nonneg (Real.log y.value)
  norm_num at hround hnear hlarge htriangle ⊢
  linarith

/-- The logarithm of an exponential is the argument again, but for its last two digits. -/
theorem ln_exp?_near (h : x.exp? = some y) (hy : y.value ≠ 0) :
    0 < y.value ∧ |y.ln.value - x.value| ≤ 1 / 10 ^ 46 * max 1 |x.value| := by
  have hne : y ≠ zero := by
    rintro rfl
    exact hy value_zero
  obtain ⟨hpos, hexp⟩ := abs_log_exp?_sub_le h hne
  have hln := abs_ln_sub_log_le (isCanonical_of_exp? h) hpos
  refine ⟨hpos, (Rat.cast_le (K := ℝ)).1 ?_⟩
  push_cast
  have hone : (1 : ℝ) ≤ max 1 |(x.value : ℝ)| := le_max_left _ _
  have hx : |(x.value : ℝ)| ≤ max 1 |(x.value : ℝ)| := le_max_right _ _
  have hsize := abs_sub_abs_le_abs_sub (Real.log y.value) x.value
  have htriangle := abs_sub_le (y.ln.value : ℝ) (Real.log y.value) x.value
  generalize max 1 |(x.value : ℝ)| = M at *
  norm_num at hexp hln hsize htriangle ⊢
  linarith

/-- The smallest integer whose exponential is not flushed to zero. -/
theorem ln_exp?_near_smallest :
    ∃ y, exp? ⟨-23025861, 0⟩ = some y ∧ y.value ≠ 0 ∧ 0 < y.value ∧
      |y.ln.value - value ⟨-23025861, 0⟩| ≤ 1 / 10 ^ 46 * max 1 |value ⟨-23025861, 0⟩| := by
  have hexp : exp? ⟨-23025861, 0⟩ = some (expScaled ⟨-23025861, 0⟩) :=
    exp?_eq_some_expScaled rfl (by decide +kernel) (by decide +kernel) (by decide +kernel)
  have hpos := (abs_log_expScaled_sub_le (x := ⟨-23025861, 0⟩) (by decide +kernel)).1
  exact ⟨_, hexp, hpos.ne', ln_exp?_near hexp hpos.ne'⟩

end Decimal

end Keypad
