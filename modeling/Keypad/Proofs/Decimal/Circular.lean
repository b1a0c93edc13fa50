import Keypad.Proofs.Decimal.Conversion
import Keypad.Proofs.Decimal.Functions
import Keypad.Proofs.Fixed.Constant

/-!
# How near the sine and the cosine are

Both functions of a decimal sum their series at the same reduced angle, and the sums are right far
beyond the digits that are kept, so the rounding to `precision` digits is all that is left of their
errors. The reduced angle itself differs from the given one by full turns of a π that is right to
two units; the places computed in addition to those kept outweigh the number of turns.
-/

namespace Keypad.Decimal

open Digits

variable {x d s c : Decimal} {w : Nat} {r : Int}

/-! ## The circular functions at the reduced angle -/

theorem exists_reducedAngle? (h : x.leading ≤ maxAngleExponent) (w : Nat) :
    ∃ r, x.reducedAngle? w = some r := by
  rw [reducedAngle?, if_neg (not_lt.2 h)]
  exact ⟨_, rfl⟩

theorem reducedAngle?_eq_none (h : maxAngleExponent < x.leading) (w : Nat) :
    x.reducedAngle? w = none := by
  rw [reducedAngle?, if_pos h]

/-- A number of at most one that is known to many places keeps this error once it is rounded. -/
theorem abs_value_ofFixed_sub_le {n : Int} {y : ℝ} (hy : |y| ≤ 1)
    (hn : |n - pow10 workDigits * y| ≤ Fixed.seriesError workDigits) :
    |((ofFixed n workDigits).value : ℝ) - y| ≤ 6 / 10 ^ 48 := by
  have hscale : (pow10 workDigits : ℝ) = 10 ^ 64 := by norm_num [workDigits, precision, pow10]
  have herror : Fixed.seriesError workDigits = 68 * 10 ^ 9 := by
    norm_num [Fixed.seriesError, workDigits, precision]
  rw [hscale, herror] at hn
  have hnear : |(n / 10 ^ 64 : ℝ) - y| ≤ 68 / 10 ^ 55 := by
    have hfactor : (n / 10 ^ 64 : ℝ) - y = (n - 10 ^ 64 * y) / 10 ^ 64 := by ring
    rw [hfactor, abs_div, abs_of_pos (by positivity : (0 : ℝ) < 10 ^ 64),
      div_le_iff₀ (by positivity)]
    exact hn.trans (by norm_num)
  have hsize : |(n / 10 ^ 64 : ℝ)| ≤ 1 + 68 / 10 ^ 55 := by
    have habs := abs_sub_abs_le_abs_sub (n / 10 ^ 64 : ℝ) y
    linarith
  have hcount : n.natAbs < pow10 (workDigits + 1) := by
    have hlt : |(n : ℝ)| < 10 ^ 65 := by
      rw [abs_div, abs_of_pos (by positivity : (0 : ℝ) < 10 ^ 64),
        div_le_iff₀ (by positivity)] at hsize
      exact hsize.trans_lt (by norm_num)
    rw [← Int.cast_abs, ← Nat.cast_natAbs] at hlt
    exact_mod_cast hlt
  have hround := near_ofFixed hcount (Nat.le_succ _) (by decide)
  have hround' : |((ofFixed n workDigits).value : ℝ) - n / 10 ^ 64|
      ≤ 1 / (2 * 10 ^ 47) * |(n / 10 ^ 64 : ℝ)| := by
    have hcast := (Rat.cast_le (K := ℝ)).2 hround
    push_cast at hcast
    exact hcast
  have htriangle := abs_sub_le ((ofFixed n workDigits).value : ℝ) (n / 10 ^ 64) y
  linarith

theorem abs_value_sin?_sub_le (hr : x.reducedAngle? workDigits = some r) (hs : x.sin? = some s) :
    |(s.value : ℝ) - Real.sin (r / pow10 workDigits)| ≤ 6 / 10 ^ 48 := by
  rw [sin?, hr, Option.map_some, Option.some.injEq] at hs
  subst hs
  exact abs_value_ofFixed_sub_le (Real.abs_sin_le_one _)
    (Fixed.abs_sin_sub_le (natAbs_reducedAngle?_le hr))

theorem abs_value_cos?_sub_le (hr : x.reducedAngle? workDigits = some r) (hc : x.cos? = some c) :
    |(c.value : ℝ) - Real.cos (r / pow10 workDigits)| ≤ 6 / 10 ^ 48 := by
  rw [cos?, hr, Option.map_some, Option.some.injEq] at hc
  subst hc
  exact abs_value_ofFixed_sub_le (Real.abs_cos_le_one _)
    (Fixed.abs_cos_sub_le (natAbs_reducedAngle?_le hr))

theorem abs_sq_sub_sq_le {a b ε : ℝ} (hb : |b| ≤ 1) (h : |a - b| ≤ ε) :
    |a ^ 2 - b ^ 2| ≤ ε * (2 + ε) := by
  have hsum : |a + b| ≤ 2 + ε := by
    have hsplit : a + b = a - b + 2 * b := by ring
    rw [hsplit]
    refine (abs_add_le _ _).trans ?_
    rw [abs_mul, abs_two]
    linarith
  rw [sq_sub_sq, mul_comm, abs_mul]
  exact mul_le_mul h hsum (abs_nonneg _) ((abs_nonneg _).trans h)

/-- The sine and the cosine of an angle are both computed or both refused, and their squares add up
to one but for the last digits. -/
theorem sin?_sq_add_cos?_sq_near (x : Decimal) :
    (x.leading ≤ 400 → ∃ s c, x.sin? = some s ∧ x.cos? = some c ∧
      |s.value ^ 2 + c.value ^ 2 - 1| ≤ 1 / 10 ^ 46) ∧
    (400 < x.leading → x.sin? = none ∧ x.cos? = none) := by
  constructor
  · intro hx
    obtain ⟨r, hr⟩ := exists_reducedAngle? hx workDigits
    obtain ⟨s, hs⟩ : ∃ s, x.sin? = some s := by simp [sin?, hr]
    obtain ⟨c, hc⟩ : ∃ c, x.cos? = some c := by simp [cos?, hr]
    have hsin := abs_sq_sub_sq_le (Real.abs_sin_le_one _) (abs_value_sin?_sub_le hr hs)
    have hcos := abs_sq_sub_sq_le (Real.abs_cos_le_one _) (abs_value_cos?_sub_le hr hc)
    have hone := Real.sin_sq_add_cos_sq (r / pow10 workDigits)
    have hreal : |(s.value : ℝ) ^ 2 + (c.value : ℝ) ^ 2 - 1| ≤ 1 / 10 ^ 46 := by
      rw [abs_le] at hsin hcos ⊢
      norm_num at hsin hcos ⊢
      constructor <;> linarith
    refine ⟨s, c, hs, hc, (Rat.cast_le (K := ℝ)).1 ?_⟩
    push_cast
    exact hreal
  · intro hx
    have hnone := reducedAngle?_eq_none hx workDigits
    simp [sin?, cos?, hnone]

/-- The largest angles that are reduced, and the smallest that are not. -/
theorem sin?_sq_add_cos?_sq_near_limit :
    (∃ s c, sin? ⟨7, 400⟩ = some s ∧ cos? ⟨7, 400⟩ = some c ∧
      |s.value ^ 2 + c.value ^ 2 - 1| ≤ 1 / 10 ^ 46) ∧
    sin? ⟨7, 401⟩ = none ∧ cos? ⟨7, 401⟩ = none :=
  ⟨(sin?_sq_add_cos?_sq_near ⟨7, 400⟩).1 (by decide +kernel),
    (sin?_sq_add_cos?_sq_near ⟨7, 401⟩).2 (by decide +kernel)⟩

/-! ## The reduced angle -/

/-- The turns that are taken out are few against the places computed beyond those kept. -/
theorem four_mul_natAbs_roundDiv_lt {X : Int} {T U c : Nat} (hX : X.natAbs < U * c)
    (hT : 6 * U ≤ T) :
    4 * (roundDiv X T).natAbs < 10 * c := by
  have hle := roundDivNat_mul_le X.natAbs T
  rw [natAbs_roundDiv]
  generalize roundDivNat X.natAbs T = q at hle ⊢
  have hc : 0 < c := Nat.pos_of_mul_pos_left (Nat.zero_lt_of_lt hX)
  by_contra hmany
  have hproduct : 2 * T * (2 * c + 1) ≤ 2 * T * q := Nat.mul_le_mul_left _ (by omega)
  have hturn : 6 * U * c ≤ T * c := Nat.mul_le_mul_right c hT
  linarith [Nat.zero_le (T * c)]

/-- The reduced angle differs from the angle by full turns and two units. -/
theorem exists_turns (hw : w ≤ 1000) (hr : x.reducedAngle? w = some r) :
    ∃ q : Int, |(r / pow10 w : ℝ) - (x.value - q * (2 * Real.pi))| ≤ 2 / 10 ^ w := by
  have hleading : x.leading ≤ maxAngleExponent := by
    by_contra hlarge
    rw [reducedAngle?_eq_none (not_le.1 hlarge)] at hr
    cases hr
  rw [reducedAngle?, if_neg (not_lt.2 hleading), Option.some.injEq] at hr
  rw [maxAngleExponent] at hleading
  obtain ⟨k, hk⟩ : ∃ k, x.leading.toNat = k := ⟨_, rfl⟩
  obtain ⟨hlow, -⟩ := Fixed.pi_bounds (w + (k + 4))
  obtain ⟨turn, hturn⟩ : ∃ turn : Nat, Fixed.pi (w + (k + 4)) * 2 = turn :=
    Int.eq_ofNat_of_zero_le (by omega)
  rw [hk] at hr
  simp only [hturn, Int.natAbs_natCast] at hr
  have hX : (x.toFixed (w + (k + 4))).natAbs < pow10 (w + (k + 4)) * pow10 (k + 1) := by
    rw [← pow10_add]
    exact (natAbs_toFixed_lt (fun _ => le_rfl) _).trans_le (pow10_le_pow10 (by omega))
  have hturns := four_mul_natAbs_roundDiv_lt hX (T := turn) (by omega)
  have hcut := (Rat.cast_le (K := ℝ)).2 (abs_toFixed_sub_le x (w + (k + 4)))
  have hpi := Fixed.abs_pi_sub_le (p := w + (k + 4)) (by omega)
  have hscale : (pow10 (w + (k + 4)) : ℝ) = 10 ^ w * pow10 (k + 4) := by
    rw [Fixed.cast_pow10, Fixed.cast_pow10, pow_add]
  push_cast at hcut
  rw [← Fixed.cast_pow10, hscale] at hcut
  have hturnError : |((turn : Int) : ℝ) - 10 ^ w * pow10 (k + 4) * (2 * Real.pi)| ≤ 4 := by
    rw [hscale, abs_le] at hpi
    rw [← hturn, abs_le]
    push_cast
    constructor <;> linarith
  have hq : 1 + 4 * |(roundDiv (x.toFixed (w + (k + 4))) turn : ℝ)| ≤ pow10 (k + 4) := by
    have hnat : 1 + 4 * (roundDiv (x.toFixed (w + (k + 4))) turn).natAbs ≤ pow10 (k + 4) := by
      have hlarge : pow10 (k + 4) = 1000 * pow10 (k + 1) := by
        rw [pow10_add (k + 1) 3, Nat.mul_comm]
        rfl
      omega
    rw [← Int.cast_abs, ← Nat.cast_natAbs]
    exact_mod_cast hnat
  have hunits := Fixed.abs_tdiv_sub_multiples_le (pow10_pos (k + 4)) hcut hturnError hq
  rw [hr] at hunits
  have hw : (0 : ℝ) < 10 ^ w := by positivity
  refine ⟨roundDiv (x.toFixed (w + (k + 4))) turn, ?_⟩
  have hfactor (y : ℝ) : (r / pow10 w : ℝ) - y = (r - 10 ^ w * y) / 10 ^ w := by
    rw [Fixed.cast_pow10]
    field_simp
  rw [hfactor, abs_div, abs_of_pos hw]
  exact div_le_div_of_nonneg_right hunits hw.le

/-- The sine of a decimal is near to the sine of its value. -/
theorem abs_value_sin?_sub_sin_le (hs : x.sin? = some s) :
    |(s.value : ℝ) - Real.sin x.value| ≤ 1 / 10 ^ 47 := by
  obtain ⟨r, hr, -⟩ := Option.map_eq_some_iff.1 hs
  obtain ⟨q, hq⟩ := exists_turns (by decide) hr
  have hangle := (Real.abs_sin_sub_sin_le _ _).trans hq
  rw [Real.sin_sub_int_mul_two_pi] at hangle
  refine (abs_sub_le _ _ _).trans ((add_le_add (abs_value_sin?_sub_le hr hs) hangle).trans ?_)
  norm_num [workDigits, precision]

theorem abs_value_cos?_sub_cos_le (hc : x.cos? = some c) :
    |(c.value : ℝ) - Real.cos x.value| ≤ 1 / 10 ^ 47 := by
  obtain ⟨r, hr, -⟩ := Option.map_eq_some_iff.1 hc
  obtain ⟨q, hq⟩ := exists_turns (by decide) hr
  have hangle := (Real.abs_cos_sub_cos_le _ _).trans hq
  rw [Real.cos_sub_int_mul_two_pi] at hangle
  refine (abs_sub_le _ _ _).trans ((add_le_add (abs_value_cos?_sub_le hr hc) hangle).trans ?_)
  norm_num [workDigits, precision]

end Keypad.Decimal
