import Keypad.Proofs.Decimal.Division
import Keypad.Proofs.Decimal.Order

/-!
# Decimals that look rational

The test on the digits, the size and the places of a decimal comes to a condition on its value: it
is within the bounds for exact values, and it is an integer, or has at most eight places and is not
below a thousandth. The decimal of such a fraction is the one it was read from, so the comparison at
the end of the test changes nothing.
-/

namespace Keypad.Decimal

open Digits

variable {d : Decimal}

/-- A canonical decimal is what its own value is rounded to. -/
theorem IsCanonical.ofRat_value (h : d.IsCanonical) : ofRat d.value = d := by
  obtain ⟨y, hreduced, hnearest, hy⟩ := roundsTo_ofRat d.value
  have hvalue := hnearest.unique (IsNearest.self h.hasDigits)
  rw [hy, hreduced.eq_of_value_eq h.isReduced hvalue, h.withinLimits.limited_eq]

theorem ofRat_zero : ofRat 0 = zero := by
  simpa only [value_zero] using isCanonical_zero.ofRat_value

theorem ofRat_one : ofRat 1 = one := by
  simpa only [value_one] using isCanonical_one.ofRat_value

theorem exponent_le_leading (hd : d.isZero = false) : d.exponent ≤ d.leading := by
  have hpos := count_pos d.mantissa.natAbs
  rw [leading_of_ne_zero hd]
  omega

theorem zpow_le_abs_value_iff (hd : d.isZero = false) (k : Int) :
    (10 : Rat) ^ k ≤ |d.value| ↔ k ≤ d.leading := by
  constructor
  · intro hle
    have hlt := (zpow_lt_zpow_iff_right₀ (by norm_num)).1 (hle.trans_lt (abs_value_lt hd))
    omega
  · intro hle
    exact (zpow_le_zpow_right₀ (by norm_num) hle).trans (le_abs_value hd)

end Keypad.Decimal

namespace Keypad.Quantity

open Decimal

variable {v d : Decimal} {q r : Rat}

/-- The rationals that a decimal may be meant to be. -/
def LooksRational (r : Rat) : Prop :=
  inBounds r ∧ ((∃ n : Int, r = n) ∨ 1 / 1000 ≤ |r| ∧ ∃ n : Int, 10 ^ 8 * r = n)

theorem leading_le_of_inBounds (hd : d.isZero = false) (h : inBounds d.value) : d.leading ≤ 9 := by
  have hlt := (le_abs_value hd).trans_lt (abs_lt_of_inBounds h)
  rw [← zpow_natCast, zpow_lt_zpow_iff_right₀ (by norm_num)] at hlt
  omega

theorem not_inBounds_of_exponent (hd : d.isZero = false) (h : 9 < d.exponent) :
    ¬ inBounds d.value := by
  intro hbounds
  have hle := exponent_le_leading hd
  have hge := leading_le_of_inBounds hd hbounds
  omega

/-- The condition on the value, read off the parts of the decimal. -/
theorem looksRational_value_iff (h : d.IsCanonical) (hd : d.isZero = false) :
    LooksRational d.value ↔
      inBounds d.value ∧ (d.isInteger ∨ -3 ≤ d.leading ∧ -maxPlaces ≤ d.exponent) := by
  have hthousandth : (1 / 1000 : Rat) = 10 ^ (-3 : Int) := by norm_num
  rw [LooksRational, h.isInteger_iff, hthousandth, zpow_le_abs_value_iff hd,
    h.isReduced.exists_mul_eq_iff]
  rfl

theorem filter_eq_some_iff {o : Option Rat} {p : Rat → Bool} (h : o = some r) :
    o.filter p = some q ↔ q = r ∧ p r := by
  rw [h, Option.filter_eq_some_iff, Option.some.injEq, eq_comm]
  exact and_congr_right fun heq => by rw [heq]

/-- The fraction of a rounded decimal gives this decimal back. -/
theorem significant_ofRat_value (v : Decimal) :
    (ofRat (v.significant comparedDigits).value).significant comparedDigits
      = v.significant comparedDigits := by
  have hr : (v.significant comparedDigits).IsCanonical := isCanonical_round _ _ (by decide)
  rw [hr.ofRat_value]
  exact significant_round (by decide) _ _

/-- The tests on the rounded decimal, as conditions on its value. -/
theorem rational?_eq_some_iff_significant (v : Decimal) (q : Rat) :
    rational? v = some q ↔ q = (v.significant comparedDigits).value ∧
      LooksRational (v.significant comparedDigits).value := by
  have hr : (v.significant comparedDigits).IsCanonical := isCanonical_round _ _ (by decide)
  have hback := significant_ofRat_value v
  rw [rational?]
  generalize v.significant comparedDigits = r at *
  by_cases hzero : r.isZero
  · have hlooks : LooksRational 0 := ⟨by decide, .inl ⟨0, by simp⟩⟩
    rw [if_pos hzero, value_of_isZero hzero, Option.some.injEq]
    exact ⟨fun h => ⟨h.symm, hlooks⟩, fun h => h.1.symm⟩
  rw [if_neg hzero]
  rw [Bool.not_eq_true] at hzero
  have hle := exponent_le_leading hzero
  have hbounds := leading_le_of_inBounds hzero
  -- Neither the size nor the places keep a decimal that gets so far from being a fraction.
  have hfraction (hplaces : -maxPlaces ≤ r.exponent) (hleading : ¬ 9 < r.leading) :
      r.toRat? = some r.value := if_neg (by rw [maxPlaces] at hplaces; omega)
  rw [looksRational_value_iff hr hzero]
  split
  · next hlarge =>
    refine ⟨nofun, fun ⟨_, hin, _⟩ => ?_⟩
    exact absurd (hbounds hin) (by omega)
  next hleading =>
  split
  · next hinteger =>
    have hplaces : -maxPlaces ≤ r.exponent := by
      rw [isInteger, decide_eq_true_iff] at hinteger
      rw [maxPlaces]
      omega
    rw [filter_eq_some_iff (hfraction hplaces hleading)]
    simp only [hinteger, true_or, and_true]
  next hinteger =>
  split
  · next hsmall =>
    refine ⟨nofun, fun ⟨_, _, hlooks⟩ => ?_⟩
    exact absurd (hlooks.resolve_left hinteger).1 (by omega)
  next hsmall =>
  split
  · next hplaces =>
    refine ⟨nofun, fun ⟨_, _, hlooks⟩ => ?_⟩
    exact absurd (hlooks.resolve_left hinteger).2 (by omega)
  next hplaces =>
  rw [filter_eq_some_iff (hfraction (by omega) hleading), hback]
  simp only [beq_self_eq_true, Bool.and_true]
  refine and_congr_right fun _ => (and_iff_left ?_).symm
  exact .inr ⟨by omega, by omega⟩

theorem looksRational_neg : LooksRational (-r) ↔ LooksRational r := by
  have hinteger (x : Rat) : (∃ n : Int, -x = n) ↔ ∃ n : Int, x = n := by
    constructor <;> rintro ⟨n, hn⟩ <;> refine ⟨-n, ?_⟩ <;> push_cast <;> linarith
  have hbounds : inBounds (-r) = inBounds r := by simp [inBounds]
  rw [LooksRational, LooksRational, hbounds, hinteger, abs_neg, mul_neg, hinteger]

/-- A decimal that looks rational does so with the other sign. -/
theorem rational?_neg (d : Decimal) : rational? (-d) = (rational? d).map (- ·) := by
  have hsignificant : (-d).significant comparedDigits = -d.significant comparedDigits :=
    round_neg _ _ _
  ext q
  rw [rational?_eq_some_iff_significant, Option.map_eq_some_iff, hsignificant, value_neg,
    looksRational_neg]
  simp only [rational?_eq_some_iff_significant]
  constructor
  · rintro ⟨rfl, hlooks⟩
    exact ⟨_, ⟨rfl, hlooks⟩, rfl⟩
  · rintro ⟨_, ⟨rfl, hlooks⟩, rfl⟩
    exact ⟨rfl, hlooks⟩

/-! ## The rounded value -/

/-- The rounded decimal has the nearest value, or both are beyond any bound. -/
theorem value_significant_or (hv : v.IsCanonical) (hr : IsNearest comparedDigits v.value r) :
    r = (v.significant comparedDigits).value ∨
      ¬ inBounds r ∧ ¬ inBounds (v.significant comparedDigits).value := by
  obtain ⟨y, hreduced, hnearest, hy⟩ :=
    roundsTo_round (show 0 < comparedDigits by decide) v.mantissa v.exponent
  obtain rfl := hr.unique hnearest
  rw [significant, hy]
  by_cases hzero : y = .zero
  · rw [hzero]
    exact .inl rfl
  have hfloor : exponentFloor ≤ y.exponent :=
    hv.withinLimits.1.trans (hreduced.le_exponent_of_isNearest hzero (by decide) hnearest)
  have hdigit : y.isZero = false := by
    by_contra hnot
    rw [Bool.not_eq_false] at hnot
    exact hzero (hreduced.eq_zero (value_of_isZero hnot))
  rcases le_or_gt y.exponent exponentCeiling with hceiling | hceiling
  · rw [WithinLimits.limited_eq ⟨hfloor, hceiling⟩]
    exact .inl rfl
  · have hlarge : 9 < exponentCeiling := by decide
    have hcapped : y.limited = ⟨y.mantissa, exponentCeiling⟩ := by
      rw [limited, if_neg (not_lt.2 hfloor), min_eq_right hceiling.le]
    refine .inr ⟨not_inBounds_of_exponent hdigit (hlarge.trans hceiling), ?_⟩
    rw [hcapped]
    exact not_inBounds_of_exponent hdigit hlarge

/-- A decimal that has no more digits than are compared gives its own value. -/
theorem rational?_eq_value (hv : v.IsCanonical) (hdigits : HasDigits comparedDigits v.value)
    (hlooks : LooksRational v.value) : rational? v = some v.value := by
  rcases value_significant_or hv (IsNearest.self hdigits) with hvalue | ⟨hout, -⟩
  · exact (rational?_eq_some_iff_significant v _).2 ⟨hvalue, hvalue ▸ hlooks⟩
  · exact absurd hlooks.1 hout

theorem rational?_zero : rational? .zero = some 0 := by
  have hlooks : LooksRational 0 := ⟨by decide, .inl ⟨0, by simp⟩⟩
  simpa only [value_zero] using rational?_eq_value isCanonical_zero
    (value_zero ▸ hasDigits_zero _) (value_zero ▸ hlooks)

theorem rational?_one : rational? .one = some 1 := by
  have hdigits : HasDigits comparedDigits 1 := ⟨1, 0, by decide, by rw [fraction_eq]; norm_num⟩
  have hlooks : LooksRational 1 := ⟨by decide, .inl ⟨1, by simp⟩⟩
  simpa only [value_one] using rational?_eq_value isCanonical_one
    (value_one ▸ hdigits) (value_one ▸ hlooks)

theorem rational?_ne_zero (hv : v.IsCanonical) (hne : v ≠ .zero) : rational? v ≠ some 0 := by
  intro h
  have hvalue := ((rational?_eq_some_iff_significant v 0).1 h).1
  have hsign : (v.significant comparedDigits).sign = v.mantissa.sign :=
    sign_round (by decide) hv.withinLimits.1
  rw [← num_sign_value, ← hvalue, Rat.num_zero, Int.sign_zero, eq_comm, Int.sign_eq_zero_iff_zero]
    at hsign
  apply hne
  apply hv.isReduced.eq_zero
  rw [value, hsign, fraction_eq, Int.cast_zero, zero_mul]

/-- A decimal gives the fraction `q` exactly if `q` is the decimal rounded to the digits that are
compared, within the bounds, and an integer or a rational of at most eight places that is not below
a thousandth. The rounded value may be read off the rounded decimal or be the nearest rational:
beyond the limits these differ, but neither is within the bounds. A decimal other than zero never
gives zero, and the fraction of the rounded decimal always gives this decimal back. -/
theorem rational?_eq_some_iff_looksRational (hv : v.IsCanonical) :
    (∀ r, r = (v.significant comparedDigits).value ∨ IsNearest comparedDigits v.value r →
      ∀ q, rational? v = some q ↔ q = r ∧ LooksRational r) ∧
    (v ≠ .zero → rational? v ≠ some 0) ∧
    ∀ q, (v.significant comparedDigits).toRat? = some q →
      (ofRat q).significant comparedDigits = v.significant comparedDigits := by
  refine ⟨fun r hr q => ?_, rational?_ne_zero hv, fun q hq => ?_⟩
  · have hiff := rational?_eq_some_iff_significant v q
    rcases hr.elim .inl (value_significant_or hv) with rfl | ⟨hout, hout'⟩
    · exact hiff
    · exact ⟨fun h => absurd (hiff.1 h).2.1 hout', fun h => absurd h.2.1 hout⟩
  · rw [toRat?] at hq
    split at hq
    · cases hq
    · cases hq
      exact significant_ofRat_value v

/-- What is near to three is three. A ten-thousandth is a fraction within the bounds, but it is too
small to be taken for it. -/
theorem rational?_near_three :
    rational? ⟨299999999999999999999999999, -26⟩ = some 3 ∧
      rational? ⟨1, -4⟩ ≠ some (1 / 10000) := by
  have hthree : significant ⟨299999999999999999999999999, -26⟩ comparedDigits = ⟨3, 0⟩ := by
    decide +kernel
  have hsmall : significant ⟨1, -4⟩ comparedDigits = ⟨1, -4⟩ := by decide +kernel
  have hnear := (rational?_eq_some_iff_looksRational
    (v := ⟨299999999999999999999999999, -26⟩) (by decide +kernel)).1 3
  have hfar :=
    (rational?_eq_some_iff_looksRational (v := ⟨1, -4⟩) (by decide +kernel)).1 (1 / 10000)
  rw [hthree] at hnear
  rw [hsmall] at hfar
  constructor
  · rw [hnear (.inl (by norm_num [value, fraction_eq]))]
    exact ⟨rfl, by decide, .inl ⟨3, by norm_num⟩⟩
  · intro h
    obtain ⟨-, -, ⟨n, hn⟩ | ⟨hle, -⟩⟩ := (hfar (.inl (by norm_num [value, fraction_eq])) _).1 h
    · have hn' : (1 : Int) = 10000 * n := by
        have hcast : (1 : Rat) = 10000 * n := by linarith
        exact_mod_cast hcast
      omega
    · norm_num at hle

end Keypad.Quantity
