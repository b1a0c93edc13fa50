import Keypad.Evaluation.Operation
import Keypad.Proofs.Decimal.Circular
import Keypad.Proofs.Evaluation.Function

/-!
# Angles too small for their decimals

The sine and the inverse tangent of a decimal below one keep its sign as long as a digit of it is
left among the places of the fixed-point number, and are zero below that. The terms of both series
after the first one are too small to change a sign. A cosecant or a cotangent of a smaller angle is
therefore refused as if the angle were zero.
-/

namespace Keypad

open Digits

/-! ## Signs of fixed-point numbers -/

/-- What is at most half as large leaves the sign alone. -/
theorem sign_add_of_two_mul_natAbs_le {t f : Int} (h : 2 * f.natAbs ≤ t.natAbs) :
    (t + f).sign = t.sign := by
  rcases Int.lt_trichotomy t 0 with ht | rfl | ht
  · rw [Int.sign_eq_neg_one_of_neg ht, Int.sign_eq_neg_one_of_neg (by omega)]
  · have hf : f = 0 := by omega
    rw [hf, Int.add_zero]
  · rw [Int.sign_eq_one_of_pos ht, Int.sign_eq_one_of_pos (by omega)]

namespace Fixed

variable {y t : Int} {s n k : Nat} {cofactor : Nat → Nat}

/-- With ratios of at most a sixth, the terms that follow add up to less than half of a term. -/
theorem two_mul_natAbs_factorialSeries_le (hy : y.natAbs ≤ s)
    (hcofactor : ∀ i, 1 ≤ i → 6 ≤ i * cofactor i) (hn : 1 ≤ n) :
    2 * (factorialSeries y s cofactor n t).natAbs ≤ t.natAbs := by
  fun_induction factorialSeries y s cofactor n t with
  | case1 n t next hend => exact Nat.zero_le _
  | case2 n t next hgoes ih =>
    have hstep : next.natAbs ≤ t.natAbs / 6 := by
      rw [natAbs_factorialStep]
      refine Nat.div_le_div ?_ (hcofactor n hn) (by decide)
      exact Nat.div_le_of_le_mul (by rw [Nat.mul_comm s]; exact Nat.mul_le_mul_left _ hy)
    have hrest := ih (by omega)
    omega

theorem sign_sin {r : Int} (hr : r.natAbs ≤ s) : (sin r s).sign = r.sign := by
  have hy : (-(r * r).tdiv s).natAbs ≤ s := by
    rw [Int.natAbs_neg, Int.natAbs_tdiv, Int.natAbs_mul, Int.natAbs_natCast]
    exact Nat.div_le_of_le_mul (Nat.mul_le_mul hr hr)
  refine sign_add_of_two_mul_natAbs_le
    (two_mul_natAbs_factorialSeries_le hy (fun i hi => ?_) le_rfl)
  nlinarith

/-- With a ratio of at most a fourth, the terms that follow add up to less than half of a power. -/
theorem two_mul_natAbs_powerSeries_le {p : Int} (hle : y.natAbs ≤ s) (hy : 4 * y.natAbs ≤ s) :
    2 * (powerSeries y s hle k p).natAbs ≤ p.natAbs := by
  fun_induction powerSeries y s hle k p with
  | case1 k p power term hend => exact Nat.zero_le _
  | case2 k p power term hgoes ih =>
    have hterm : term.natAbs ≤ power.natAbs := by
      rw [Int.natAbs_tdiv]
      exact Nat.div_le_self _ _
    have hpower : 4 * power.natAbs ≤ p.natAbs := by
      have hsize : power.natAbs = p.natAbs * y.natAbs / s := by
        rw [← Int.natAbs_mul]
        exact Int.natAbs_tdiv _ _
      rw [hsize]
      refine (Nat.mul_div_le_mul_div_assoc 4 _ s).trans (Nat.div_le_of_le_mul ?_)
      calc 4 * (p.natAbs * y.natAbs) = p.natAbs * (4 * y.natAbs) := by ring
        _ ≤ p.natAbs * s := Nat.mul_le_mul_left _ hy
        _ = s * p.natAbs := Nat.mul_comm _ _
    omega

theorem halfTangent_natCast (s t : Nat) :
    halfTangent s t = (t * s / (s + Nat.sqrt ((s + t * t / s) * s)) : Nat) := rfl

/-- The tangent of half an angle is at most half of its tangent, and exactly half of a tangent
whose square is cut to zero. -/
theorem exists_halfTangent {t : Nat} (hs : 144 ≤ s) (ht : t ≤ s) :
    ∃ u : Nat, halfTangent s t = u ∧ 2 * u ≤ t ∧ ∀ a ≤ 4, 2 * a ≤ t → a ≤ u := by
  refine ⟨_, halfTangent_natCast s t, ?_, ?_⟩
  · have hle := two_mul_natAbs_halfTangent_le s (t : Int)
    rw [halfTangent_natCast, Int.natAbs_natCast, Int.natAbs_natCast] at hle
    exact hle
  · intro a ha hat
    rw [Nat.le_div_iff_mul_le (by omega)]
    rcases Nat.lt_or_ge (t * t) s with hsmall | hlarge
    · have hroot : Nat.sqrt ((s + t * t / s) * s) = s := by
        rw [Nat.div_eq_of_lt hsmall, Nat.add_zero, Nat.sqrt_eq]
      rw [hroot]
      nlinarith
    · have hroot : Nat.sqrt ((s + t * t / s) * s) ≤ 2 * s := by
        have hsquare : t * t / s ≤ s := Nat.div_le_of_le_mul (Nat.mul_le_mul ht ht)
        rw [← Nat.sqrt_eq (2 * s)]
        exact Nat.sqrt_le_sqrt (by nlinarith)
      have htwelve : 12 ≤ t := by nlinarith
      nlinarith

/-- A tangent below eight units is halved to zero. -/
theorem sign_arctan {t : Nat} (hs : 144 ≤ s) (ht : t ≤ s) :
    (arctan t s).sign = if 8 ≤ t then 1 else 0 := by
  obtain ⟨u₁, h₁, hle₁, hge₁⟩ := exists_halfTangent hs ht
  obtain ⟨u₂, h₂, hle₂, hge₂⟩ := exists_halfTangent hs (show u₁ ≤ s by omega)
  obtain ⟨u₃, h₃, hle₃, hge₃⟩ := exists_halfTangent hs (show u₂ ≤ s by omega)
  have hrepeat : eighth s t = u₃ := by
    simp only [eighth, Nat.repeat, h₁, h₂, h₃]
  have hratio : 4 * (-((u₃ : Int) * u₃).tdiv s).natAbs ≤ s := by
    rw [Int.natAbs_neg, Int.natAbs_tdiv, Int.natAbs_mul, Int.natAbs_natCast, Int.natAbs_natCast]
    refine (Nat.mul_div_le_mul_div_assoc 4 _ s).trans (Nat.div_le_of_le_mul ?_)
    nlinarith
  have hrest := two_mul_natAbs_powerSeries_le (k := 1) (p := u₃) (by omega) hratio
  rw [arctan]
  simp only [hrepeat]
  rw [Int.sign_mul, sign_add_of_two_mul_natAbs_le hrest]
  split
  · next h =>
    have hpos : 1 ≤ u₃ := hge₃ 1 (by omega) (hge₂ 2 (by omega) (hge₁ 4 (by omega) h))
    rw [Int.sign_eq_one_of_pos (by omega : (0 : Int) < u₃)]
    rfl
  · next h =>
    have hzero : u₃ = 0 := by omega
    rw [hzero]
    rfl

end Fixed

namespace Decimal

variable {x : Decimal}

/-! ## Sine and inverse tangent -/

theorem leading_nonpos_of_abs_lt_one (h : |x.value| < 1) : x.leading ≤ 0 := by
  cases hzero : x.isZero with
  | true => simp [leading, hzero]
  | false =>
    by_contra hpos
    have hle := (zpow_le_abs_value_iff hzero 0).2 (by omega)
    rw [zpow_zero] at hle
    exact absurd hle (not_le.2 h)

theorem natAbs_toFixed_lt_of_abs_lt_one (h : |x.value| < 1) (w : Nat) :
    (x.toFixed w).natAbs < pow10 w := by
  have hle := (le_natAbs_toFixed_iff x w (x.toFixed w).natAbs).1 le_rfl
  have hlt : ((x.toFixed w).natAbs : Rat) < pow10 w := by
    rw [pow10_cast]
    exact hle.trans_lt (mul_lt_of_lt_one_left (by positivity) h)
  exact_mod_cast hlt

/-- An angle below one is not reduced. -/
theorem reducedAngle?_of_abs_lt_one (h : |x.value| < 1) (w : Nat) :
    x.reducedAngle? w = some (x.toFixed w) := by
  have hleading := leading_nonpos_of_abs_lt_one h
  have hextra : x.leading.toNat + 4 = 4 := by omega
  have hX := natAbs_toFixed_lt_of_abs_lt_one h (w + 4)
  obtain ⟨hlow, -⟩ := Fixed.pi_bounds (w + 4)
  have hturns : roundDiv (x.toFixed (w + 4)) (Fixed.pi (w + 4) * 2).natAbs = 0 := by
    rw [← Int.natAbs_eq_zero, natAbs_roundDiv]
    exact Nat.div_eq_of_lt (by omega)
  rw [reducedAngle?, if_neg (by rw [maxAngleExponent]; omega), hextra]
  simp only [hturns, Int.zero_mul, Int.sub_zero, tdiv_toFixed]

theorem sign_sin?_of_abs_lt_one (h : |x.value| < 1) :
    ∃ y, x.sin? = some y ∧ y.sign = if 1 / 10 ^ 64 ≤ |x.value| then x.sign else 0 := by
  have hX := natAbs_toFixed_lt_of_abs_lt_one h workDigits
  refine ⟨_, by rw [sin?, reducedAngle?_of_abs_lt_one h, Option.map_some], ?_⟩
  rw [sign_ofFixed _ (by decide), Fixed.sign_sin hX.le, sign_toFixed]
  exact if_congr (div_le_iff₀ (by norm_num)).symm rfl rfl

theorem value_abs (d : Decimal) : d.abs.value = |d.value| := by
  rw [abs_value, value, fraction_eq]
  rfl

theorem abs_compare_one_of_abs_lt_one (hx : x.IsCanonical) (h : |x.value| < 1) :
    (x.abs.compare one == .gt) = false := by
  have hone : one.value = 1 := by simp [one, value, fraction_eq]
  rw [compare_eq_cmp hx.abs.isNormal isCanonical_one.isNormal, value_abs, hone,
    (cmp_eq_lt_iff _ _).2 h]
  rfl

theorem sign_eq_ite_isNegative (h : ¬x.isZero) : x.sign = if x.isNegative then -1 else 1 := by
  rw [sign]
  split
  · next hnegative => exact Int.sign_eq_neg_one_of_neg (of_decide_eq_true hnegative)
  · next hnegative =>
    refine Int.sign_eq_one_of_pos (lt_of_le_of_ne ?_ ?_)
    · exact not_lt.1 (of_decide_eq_false (Bool.eq_false_iff.2 hnegative))
    · exact fun heq => h (by simp [isZero, ← heq])

theorem sign_atan_of_abs_lt_one (hx : x.IsCanonical) (h : |x.value| < 1) :
    x.atan.sign = if 8 / 10 ^ 68 ≤ |x.value| then x.sign else 0 := by
  rw [atan]
  split
  · next hzero =>
    have hsign : x.sign = 0 := by
      rw [sign, Int.sign_eq_zero_iff_zero]
      simpa [isZero] using hzero
    rw [hsign, ite_self]
    rfl
  · next hzero =>
    obtain ⟨T, hT⟩ : ∃ T : Nat, x.abs.toFixed (workDigits + 4) = T := by
      have hside : Sided false x.abs.mantissa := Int.natCast_nonneg _
      exact Int.eq_ofNat_of_zero_le (sided_toFixed hside _)
    have hle : T ≤ pow10 (workDigits + 4) := by
      have hlt := natAbs_toFixed_lt_of_abs_lt_one (x := x.abs) (by rwa [value_abs, abs_abs])
        (workDigits + 4)
      rw [hT, Int.natAbs_natCast] at hlt
      exact hlt.le
    have hdigit : 8 ≤ T ↔ 8 / 10 ^ 68 ≤ |x.value| := by
      have hiff := le_natAbs_toFixed_iff x.abs (workDigits + 4) 8
      rw [hT, Int.natAbs_natCast, value_abs, abs_abs] at hiff
      rw [hiff, div_le_iff₀ (by norm_num)]
      rfl
    have harctan := Fixed.sign_arctan (by decide) hle
    rw [if_congr hdigit rfl rfl] at harctan
    simp only [abs_compare_one_of_abs_lt_one hx h, Bool.false_eq_true, if_false, hT]
    rw [sign_ofFixed _ (by decide)]
    generalize Fixed.arctan T (pow10 (workDigits + 4)) = angle at harctan ⊢
    rw [sign_eq_ite_isNegative hzero]
    split
    · rw [Int.sign_neg, harctan]
      split <;> rfl
    · exact harctan

/-- What counts as zero among the sines is smaller than that of an angle that is not itself
small. -/
theorem isZero_withoutNoise {s : Decimal} (h : |x.value| < 1) (hs : x.sin? = some s) :
    (Trigonometry.withoutNoise s x).isZero = s.isZero := by
  rw [Trigonometry.withoutNoise]
  split
  · next hnoise =>
    simp only [Bool.and_eq_true, Bool.not_eq_true', decide_eq_true_eq] at hnoise
    obtain ⟨⟨⟨hzero, hx⟩, hleading⟩, hsmall⟩ := hnoise
    have hangle : (1 / 10 ^ 30 : ℝ) ≤ |(x.value : ℝ)| := by
      have hle := (Rat.cast_le (K := ℝ)).2 ((zpow_le_abs_value_iff hx (-30)).2 hleading)
      push_cast at hle
      norm_num at hle ⊢
      exact hle
    have hone : |(x.value : ℝ)| ≤ 1 := by exact_mod_cast h.le
    have hsine := Real.mul_abs_le_abs_sin (hone.trans (by linarith [Real.two_le_pi]))
    have hslope : 1 / 2 ≤ 2 / Real.pi := by
      rw [div_le_div_iff₀ (by norm_num) Real.pi_pos]
      linarith [Real.pi_le_four]
    have hsteep := mul_le_mul_of_nonneg_right hslope (abs_nonneg (x.value : ℝ))
    have hnear := abs_value_sin?_sub_sin_le hs
    have habs := abs_sub_abs_le_abs_sub (Real.sin x.value) (s.value : ℝ)
    rw [abs_sub_comm] at habs
    have hlarge : ¬|s.value| < (10 : Rat) ^ (-40 : Int) := by
      intro hlt
      have hlt' := (Rat.cast_lt (K := ℝ)).2 hlt
      push_cast at hlt'
      norm_num at hlt' hangle hnear
      linarith
    refine absurd ?_ hlarge
    rw [← not_le, zpow_le_abs_value_iff hzero]
    omega
  · rfl

end Decimal

namespace Trigonometry

open Decimal

variable {x : Decimal} {r : Ratio}

/-- The ratios that divide by the sine are refused if no digit of the angle is left among the places
of the series, and only then. -/
theorem ofRadians_of_abs_lt_one (h : |x.value| < 1) (hr : r = .csc ∨ r = .cot) :
    (1 / 10 ^ 64 ≤ |x.value| → ∃ d, ofRadians r x = .ok d) ∧
      (|x.value| < 1 / 10 ^ 64 → ofRadians r x = .error (.undefinedRatio r)) := by
  obtain ⟨s, hs, hsign⟩ := sign_sin?_of_abs_lt_one h
  obtain ⟨c, hc⟩ : ∃ c, x.cos? = some c := by simp [cos?, reducedAngle?_of_abs_lt_one h]
  have hzero := isZero_withoutNoise h hs
  obtain ⟨a, ha⟩ : ∃ a : Decimal,
      fromSineCosine? r (withoutNoise s x) (withoutNoise c x) = a.div? (withoutNoise s x) := by
    rcases hr with rfl | rfl <;> exact ⟨_, rfl⟩
  rw [ofRadians, hs, hc]
  dsimp only
  rw [ha, div?, hzero]
  constructor
  · intro hlarge
    have hs0 : s.isZero = false := by
      rw [if_pos hlarge] at hsign
      rw [Bool.eq_false_iff, Ne, ← sign_eq_zero_iff, hsign, sign_eq_zero_iff]
      intro hx
      rw [Quantity.value_of_isZero hx, abs_zero] at hlarge
      norm_num at hlarge
    rw [hs0, if_neg Bool.false_ne_true]
    exact ⟨_, rfl⟩
  · intro hsmall
    rw [if_neg (not_le.2 hsmall), sign_eq_zero_iff] at hsign
    rw [hsign, if_pos rfl]

end Trigonometry

open Trigonometry in
/-- Below one, the sine of an angle keeps its sign down to `10⁻⁶⁴` and the inverse tangent down to
`8 · 10⁻⁶⁸`; smaller angles are flattened to zero, and their cosecant and cotangent are refused. -/
theorem sign_of_small_angle {x : Decimal} (hx : x.IsCanonical) (h : |x.value| < 1) :
    (∃ y, x.sin? = some y ∧ y.sign = if 1 / 10 ^ 64 ≤ |x.value| then x.sign else 0) ∧
    x.atan.sign = (if 8 / 10 ^ 68 ≤ |x.value| then x.sign else 0) ∧
    ∀ (r : Ratio) (v : Quantity) (t : Trail), r = .csc ∨ r = .cot → v.toDecimal = x →
      (1 / 10 ^ 64 ≤ |x.value| → ∃ p, (Run.ratio .radian r v).run t = .ok p) ∧
      (|x.value| < 1 / 10 ^ 64 → (Run.ratio .radian r v).run t = .error (.undefinedRatio r)) := by
  refine ⟨Decimal.sign_sin?_of_abs_lt_one h, Decimal.sign_atan_of_abs_lt_one hx h, ?_⟩
  rintro r v t hr rfl
  obtain ⟨hkept, hrefused⟩ := ofRadians_of_abs_lt_one h hr
  constructor
  · intro hlarge
    obtain ⟨d, hd⟩ := hkept hlarge
    obtain ⟨w, u, hrun, -⟩ := Run.exists_run_ofFunction d t
    refine ⟨(w, u), ?_⟩
    rw [Run.ratio, hd]
    exact hrun
  · intro hsmall
    rw [Run.ratio, hrefused hsmall]
    rfl

/-- The angle `10⁻⁶⁸` is not zero, but its sine and its inverse tangent are, and it has no
cosecant. -/
theorem sign_of_small_angle_lost :
    (∃ y, Decimal.sin? ⟨1, -68⟩ = some y ∧ y.sign = 0) ∧ (Decimal.atan ⟨1, -68⟩).sign = 0 ∧
      (Run.ratio .radian .csc (.approx ⟨1, -68⟩)).run {} = .error (.undefinedRatio .csc) := by
  have hvalue : |Decimal.value ⟨1, -68⟩| = 1 / 10 ^ 68 := by
    norm_num [Decimal.value, Decimal.fraction_eq]
  obtain ⟨hsin, hatan, hratio⟩ := sign_of_small_angle (x := ⟨1, -68⟩) (by decide +kernel)
    (by rw [hvalue]; norm_num)
  rw [hvalue, if_neg (by norm_num)] at hsin hatan
  exact ⟨hsin, hatan, (hratio .csc (.approx ⟨1, -68⟩) {} (.inl rfl) rfl).2
    (by rw [hvalue]; norm_num)⟩

end Keypad
