import Keypad.Proofs.Decimal.Circular
import Keypad.Proofs.Evaluation.Canonical
import Keypad.Proofs.SpecialAngle
import Keypad.Proofs.TypedDecimal

/-!
# Full turns in degrees

A special angle is looked up exactly. Any other angle is multiplied by the decimal of `π / 180`, and
only the product is reduced by full turns. The product is right to its last digit, so the error of
the reduced angle is in proportion to the size of the angle; the sine and the cosine of two angles
that differ by full turns therefore differ in their sixteenth place at most, and by as much more as
the angles are large.
-/

namespace Keypad

open Digits

/-! ## From degrees to radians -/

namespace Decimal

theorem radiansPerDegree_eq :
    radiansPerDegree = ⟨174532925199432957692369076848861271344287188854, -49⟩ := by
  decide +kernel

theorem value_radiansPerDegree :
    radiansPerDegree.value = 174532925199432957692369076848861271344287188854 / 10 ^ 49 := by
  rw [radiansPerDegree_eq, value, fraction_eq]
  norm_num

theorem abs_radiansPerDegree_sub_le :
    |(radiansPerDegree.value : ℝ) - Real.pi / 180| ≤ 2 / 10 ^ 50 := by
  have hpi := Fixed.abs_pi_sub_le (p := 67) (by norm_num)
  have hplaces : Fixed.pi 67
      = 31415926535897932384626433832795028841971693993751058209749445923078 := by decide +kernel
  rw [hplaces, Fixed.cast_pow10] at hpi
  rw [value_radiansPerDegree]
  push_cast at hpi ⊢
  rw [abs_le] at hpi ⊢
  constructor <;> norm_num at hpi ⊢ <;> linarith

/-- The product with the decimal of `π / 180` is right to its last digit. -/
theorem abs_mul_radiansPerDegree_sub_le {d : Decimal} {c : Nat} (hd : Sized c d.value)
    (hc : c < 2 ^ 40) : |((d.mul radiansPerDegree).value : ℝ) - d.value * (Real.pi / 180)|
      ≤ 11 * |(d.value : ℝ)| / 10 ^ 50 := by
  have hrad : Sized 2 radiansPerDegree.value := by
    rw [value_radiansPerDegree]
    intro _
    norm_num [abs_of_pos]
  have hnear := (Rat.cast_le (K := ℝ)).2 (near_mul hd hrad (by omega))
  have hfactor := mul_le_mul_of_nonneg_left abs_radiansPerDegree_sub_le (abs_nonneg (d.value : ℝ))
  rw [value_radiansPerDegree] at hnear hfactor
  push_cast at hnear hfactor
  rw [← abs_mul, mul_sub] at hfactor
  refine (abs_sub_le _ _ _).trans ((add_le_add hnear hfactor).trans ?_)
  rw [abs_mul]
  norm_num
  linarith [abs_nonneg (d.value : ℝ)]

end Decimal

/-! ## The ratios of a decimal in radians -/

namespace Trigonometry

open Decimal

variable {r : Ratio} {f : ℝ → ℝ} {d y : Decimal}

theorem abs_withoutNoise_sub_le (v angle : Decimal) :
    |((withoutNoise v angle).value : ℝ) - v.value| ≤ 1 / 10 ^ 40 := by
  rw [withoutNoise]
  split
  · next hnoise =>
    simp only [Bool.and_eq_true, Bool.not_eq_true', decide_eq_true_eq] at hnoise
    obtain ⟨⟨⟨hzero, -⟩, -⟩, hsmall⟩ := hnoise
    have hpow := zpow_le_zpow_right₀ (by norm_num : (1 : Rat) ≤ 10) (Int.add_one_le_of_lt hsmall)
    have hlt := (Rat.cast_le (K := ℝ)).2 ((abs_value_lt hzero).le.trans hpow)
    push_cast at hlt
    rw [value_zero, Rat.cast_zero, zero_sub, abs_neg]
    exact hlt.trans (by norm_num)
  · rw [sub_self, abs_zero]
    positivity

theorem exists_ofRadians (hr : r.IsCircular f) (hd : d.leading ≤ maxAngleExponent) :
    ∃ y, ofRadians r d = .ok y := by
  obtain ⟨n, hn⟩ := exists_reducedAngle? hd workDigits
  rw [ofRadians, sin?, cos?, hn]
  cases hr with
  | sin => exact ⟨_, rfl⟩
  | cos => exact ⟨_, rfl⟩

theorem abs_ofRadians_sub_le (hr : r.IsCircular f) (h : ofRadians r d = .ok y) :
    |(y.value : ℝ) - f d.value| ≤ 2 / 10 ^ 40 := by
  rw [ofRadians] at h
  split at h
  · next s c hs hc =>
    obtain ⟨z, hz, rfl⟩ : ∃ z : Decimal, |(z.value : ℝ) - f d.value| ≤ 1 / 10 ^ 47 ∧
        y = withoutNoise z d := by
      cases hr with
      | sin => exact ⟨s, abs_value_sin?_sub_sin_le hs, (Except.ok.inj h).symm⟩
      | cos => exact ⟨c, abs_value_cos?_sub_cos_le hc, (Except.ok.inj h).symm⟩
    have hnoise := abs_withoutNoise_sub_le z d
    refine (abs_sub_le _ _ _).trans ((add_le_add hnoise hz).trans ?_)
    norm_num
  · cases h

end Trigonometry

/-! ## The ratios of an angle in degrees -/

variable {r : Ratio} {f : ℝ → ℝ}

theorem SpecialAngle.faithful_of_sine? {k : Nat} {q : Rat} (h : sine? k = some q) :
    (Quantity.exact q).Faithful := by
  rw [Quantity.Faithful, Quantity.toDecimal, Quantity.rat]
  rw [sine?] at h
  split at h
  all_goals first | (obtain rfl := Option.some.inj h; decide +kernel) | cases h

theorem SpecialAngle.faithful_of_value? {a q : Rat} (hr : r.IsCircular f)
    (h : value? r a = some (.rational q)) : (Quantity.exact q).Faithful := by
  obtain ⟨k, -, hv⟩ := Option.bind_eq_some_iff.1 h
  cases hr with
  | sin =>
    obtain ⟨q', hq, heq⟩ := Option.map_eq_some_iff.1 hv
    cases heq
    exact faithful_of_sine? hq
  | cos =>
    obtain ⟨q', hq, heq⟩ := Option.map_eq_some_iff.1 hv
    cases heq
    exact faithful_of_sine? hq

theorem Trigonometry.eq_of_angle? {v : Quantity} {a : Rat} (h : angle? v = some a) : a = v.rat := by
  cases v with
  | exact q => exact (Option.some.inj h).symm
  | approx d =>
    rw [angle?, Decimal.toRat?] at h
    split at h
    · cases h
    · exact (Option.some.inj h).symm

namespace Run

open Trigonometry

variable {v w : Quantity} {t : Trail} {x : Rat}

/-- A ratio in degrees is looked up, or computed from the product in radians. -/
theorem run_ratio_degree (hr : r.IsCircular f) (v : Quantity) (t : Trail) :
    (∃ a q u, angle? v = some a ∧ SpecialAngle.value? r a = some (.rational q) ∧
      (ratio .degree r v).run t = (ofExact q).run u) ∨
    (∀ a, angle? v = some a → SpecialAngle.value? r a = none) ∧
      (ratio .degree r v).run t = (ofRadians r (v.toDecimal.mul .radiansPerDegree)) >>= fun y =>
        (ofFunction y).run t := by
  rw [ratio]
  split
  · next a special hspecial =>
    left
    obtain ⟨b, hangle, hmap⟩ := Option.bind_eq_some_iff.1 hspecial
    obtain ⟨special', hvalue, hpair⟩ := Option.map_eq_some_iff.1 hmap
    cases hpair
    obtain ⟨q, rfl, -⟩ := SpecialAngle.exists_of_value? hr hvalue
    exact ⟨a, q, _, hangle, hvalue, rfl⟩
  · next hnone =>
    right
    refine ⟨fun a hangle => ?_, ?_⟩
    · rwa [hangle, Option.bind_some, Option.map_eq_none_iff] at hnone
    · cases ofRadians r (v.toDecimal.mul .radiansPerDegree) <;> rfl

/-- The value of a ratio in degrees: that of the real function at a special angle, and otherwise
what the computed decimal is taken for. -/
theorem of_ratio_degree (hr : r.IsCircular f)
    (h : ((ratio .degree r v >>= settle).run t).map Prod.fst = .ok w) :
    (∃ a, angle? v = some a ∧ SpecialAngle.value? r a ≠ none ∧
      (w.rat : ℝ) = f (v.rat * (Real.pi / 180))) ∨
    ∃ y, ofRadians r (v.toDecimal.mul .radiansPerDegree) = .ok y ∧
      w.rat = (taken t.exact y).value := by
  rcases run_ratio_degree hr v t with ⟨a, q, u, hangle, hvalue, hrun⟩ | ⟨-, hrun⟩
  · left
    obtain ⟨q', hq, hreal⟩ := SpecialAngle.exists_of_value? hr hvalue
    cases hq
    obtain ⟨w', u', hexact, hrat, hfaithful⟩ :=
      exists_run_ofExact_rat (SpecialAngle.faithful_of_value? hr hvalue) u
    refine ⟨a, hangle, by simp [hvalue], ?_⟩
    rw [rat_of_settle (hrun.trans hexact) hfaithful h, hrat, ← eq_of_angle? hangle, hreal]
  · right
    cases hradians : ofRadians r (v.toDecimal.mul .radiansPerDegree) with
    | error failure =>
      rw [hradians] at hrun
      rw [run_bind_of_error hrun] at h
      cases h
    | ok y =>
      rw [hradians] at hrun
      obtain ⟨w', u', hfunction, hrat, hfaithful⟩ := exists_run_ofFunction_rat y t
      exact ⟨y, rfl, (rat_of_settle (hrun.trans hfunction) hfaithful h).trans hrat⟩

/-- Only its size makes a sine or a cosine in degrees fail. -/
theorem exists_ratio_degree (hr : r.IsCircular f) (t : Trail)
    (hv : (v.toDecimal.mul .radiansPerDegree).leading ≤ maxAngleExponent) :
    ∃ w, ((ratio .degree r v >>= settle).run t).map Prod.fst = .ok w := by
  obtain ⟨w, u, hrun⟩ : ∃ w u, (ratio .degree r v).run t = .ok (w, u) := by
    rcases run_ratio_degree hr v t with ⟨a, q, u, -, hvalue, hrun⟩ | ⟨-, hrun⟩
    · obtain ⟨w, u', hexact, -⟩ :=
        exists_run_ofExact_rat (SpecialAngle.faithful_of_value? hr hvalue) u
      exact ⟨w, u', hrun.trans hexact⟩
    · obtain ⟨y, hy⟩ := exists_ofRadians hr hv
      obtain ⟨w, u, hfunction, -⟩ := exists_run_ofFunction y t
      rw [hy] at hrun
      exact ⟨w, u, hrun.trans hfunction⟩
  obtain ⟨w', u', hsettle, -⟩ := exists_run_settle w u
  rw [run_bind_of_ok hrun, hsettle]
  exact ⟨w', rfl⟩

theorem abs_taken_ofRadians_sub_le {d y : Decimal} (hr : r.IsCircular f)
    (h : ofRadians r d = .ok y) (exact : Bool) :
    |((taken exact y).value : ℝ) - f d.value| ≤ 6 / 10 ^ 17 := by
  have hnear := abs_ofRadians_sub_le hr h
  have hsize : |y.value| < 1 + 1 / (2 * 10 ^ 16) := by
    have habs := abs_sub_abs_le_abs_sub (y.value : ℝ) (f d.value)
    have hone := hr.abs_le_one (d.value : ℝ)
    refine (Rat.cast_lt (K := ℝ)).1 ?_
    push_cast
    norm_num at hnear ⊢
    linarith
  have hrounding : |(taken exact y).value - y.value| ≤ 1 / (2 * 10 ^ 16) :=
    abs_taken_sub_le (isCanonical_of_ofRadians h) hsize
  have htaken := (Rat.cast_le (K := ℝ)).2 hrounding
  push_cast at htaken
  refine (abs_sub_le _ _ _).trans ((add_le_add htaken hnear).trans ?_)
  norm_num

/-- The sine and the cosine of an angle in degrees are right to sixteen places, but for an error in
proportion to the size of the angle. -/
theorem abs_ratio_degree_sub_le (hr : r.IsCircular f) (hv : v.Holds x)
    (h : ((ratio .degree r v >>= settle).run t).map Prod.fst = .ok w) :
    |(w.rat : ℝ) - f (x * (Real.pi / 180))| ≤ 1 / 10 ^ 16 + 11 * |(x : ℝ)| / 10 ^ 50 := by
  have hheld : |(w.rat : ℝ) - f (v.rat * (Real.pi / 180))|
      ≤ 6 / 10 ^ 17 + 11 * |(v.rat : ℝ)| / 10 ^ 50 := by
    rcases of_ratio_degree hr h with ⟨-, -, -, hspecial⟩ | ⟨y, hy, hw⟩
    · rw [hspecial, sub_self, abs_zero]
      positivity
    · obtain ⟨c, hc, hsized⟩ := hv.sized
      rw [← hv.faithful] at hsized ⊢
      have hproduct := (hr.abs_sub_le _ _).trans (Decimal.abs_mul_radiansPerDegree_sub_le hsized hc)
      rw [hw]
      exact (abs_sub_le _ _ _).trans
        (add_le_add (abs_taken_ofRadians_sub_le hr hy t.exact) hproduct)
  rcases hv.near with hsame | ⟨hzero, hsmall⟩
  · rw [hsame] at hheld
    refine hheld.trans ?_
    norm_num
  · have hx := (Rat.cast_le (K := ℝ)).2 hsmall
    push_cast at hx
    have hangle : |f (v.rat * (Real.pi / 180)) - f (x * (Real.pi / 180))| ≤ 1 / 10 ^ 20 := by
      refine (hr.abs_sub_le _ _).trans ?_
      rw [hzero, Rat.cast_zero, zero_mul, zero_sub, abs_neg, abs_mul,
        abs_of_pos (by positivity : 0 < Real.pi / 180)]
      have hdegree : Real.pi / 180 ≤ 1 := by linarith [Real.pi_le_four]
      exact (mul_le_of_le_one_right (abs_nonneg _) hdegree).trans hx
    rw [hzero] at hheld hangle
    refine (abs_sub_le _ _ _).trans ((add_le_add hheld hangle).trans ?_)
    rw [Rat.cast_zero, abs_zero]
    have hnonneg := abs_nonneg (x : ℝ)
    norm_num
    linarith

theorem abs_sin_degree_sub_le {n : Int}
    (h : ((ratio .degree .sin v >>= settle).run t).map Prod.fst = .ok w)
    (hspecial : ∀ a, angle? v = some a → SpecialAngle.value? .sin a = none)
    (hn : (v.toDecimal.mul .radiansPerDegree).reducedAngle? workDigits = some n) :
    |(w.rat : ℝ) - Real.sin (n / pow10 workDigits)| ≤ 7 / 10 ^ 17 := by
  rcases of_ratio_degree .sin h with ⟨a, ha, hvalue, -⟩ | ⟨y, hy, hw⟩
  · exact absurd (hspecial a ha) hvalue
  · obtain ⟨s, hs⟩ : ∃ s, (v.toDecimal.mul .radiansPerDegree).sin? = some s := by
      simp [Decimal.sin?, hn]
    have htaken := abs_taken_ofRadians_sub_le .sin hy t.exact
    have hvalue := Decimal.abs_value_sin?_sub_sin_le hs
    have hreduced := Decimal.abs_value_sin?_sub_le hn hs
    rw [hw]
    rw [abs_le] at *
    norm_num at *
    constructor <;> linarith

end Run

/-! ## Full turns -/

/-- The formula that applies a ratio to a typed decimal, such as `sin(-10)`. -/
def TypedDecimal.ratioText (x : TypedDecimal) (r : Ratio) : String := r.name ++ "(" ++ x.text ++ ")"

namespace Calculator

open Arithmetic

variable {c : Calculator}

theorem value_ratioText (c : Calculator) (hconstants : c.constants.Valid) (x : TypedDecimal)
    (r : Ratio) : c.value (x.ratioText r) = ((x.terms.eval Run.operations >>= fun v =>
      Run.ratio c.settings.angleUnit r v >>= Run.settle).run {}).map Prod.fst := by
  have htext : Token.joined (x.terms.applied (.ratio r)).toTokens = (x.ratioText r).toList := by
    rw [TypedDecimal.ratioText]
    simp [Terms.applied, Line.toTokens, Token.text, Key.text, Operation.symbol, x.joined_terms]
  have hvalue := Terms.value_ratio c hconstants r x.typed_terms
  rwa [htext, String.ofList_toList] at hvalue

theorem abs_value_ratioText_sub_le (hconstants : c.constants.Valid)
    (hunit : c.settings.angleUnit = .degree) (hr : r.IsCircular f) {x : TypedDecimal}
    (hx : HasDigits precision x.rat) {v : Quantity} (h : c.value (x.ratioText r) = .ok v) :
    |(v.rat : ℝ) - f (x.rat * (Real.pi / 180))| ≤ 1 / 10 ^ 16 + 11 * |(x.rat : ℝ)| / 10 ^ 50 := by
  rw [value_ratioText c hconstants, hunit] at h
  cases hrun : (x.terms.eval Run.operations).run {} with
  | error failure =>
    rw [Run.run_bind_of_error hrun] at h
    cases h
  | ok p =>
    rw [Run.run_bind_of_ok (a := p.1) (u := p.2) hrun] at h
    exact Run.abs_ratio_degree_sub_le hr (x.holds_of_eval hx hrun) h

/-- The sines, and the cosines, of two angles that differ by full turns differ by an error in
proportion to the size of the angles, which stays within the fifteenth place up to `7 · 10³³`. -/
theorem abs_value_ratio_turns_sub_le (c : Calculator) (hconstants : c.constants.Valid)
    (hunit : c.settings.angleUnit = .degree) {r : Ratio} (hr : r = .sin ∨ r = .cos)
    {x y : TypedDecimal} (hx : HasDigits precision x.rat) (hy : HasDigits precision y.rat) {k : Int}
    (hturns : y.rat = x.rat + 360 * k) {v w : Quantity} (hv : c.value (x.ratioText r) = .ok v)
    (hw : c.value (y.ratioText r) = .ok w) :
    |v.rat - w.rat| ≤ 2 / 10 ^ 16 + 11 * (|x.rat| + |y.rat|) / 10 ^ 50 ∧
      (|x.rat| + |y.rat| ≤ 7 * 10 ^ 33 → |v.rat - w.rat| ≤ 1 / 10 ^ 15) := by
  obtain ⟨f, hf⟩ : ∃ f, r.IsCircular f := by
    rcases hr with rfl | rfl
    · exact ⟨_, .sin⟩
    · exact ⟨_, .cos⟩
  have hangle : (y.rat : ℝ) * (Real.pi / 180) = x.rat * (Real.pi / 180) + k * (2 * Real.pi) := by
    rw [hturns]
    push_cast
    ring
  have hnear := abs_value_ratioText_sub_le hconstants hunit hf hx hv
  have hfar := abs_value_ratioText_sub_le hconstants hunit hf hy hw
  rw [hangle, hf.add_turns, abs_sub_comm] at hfar
  have hle : |v.rat - w.rat| ≤ 2 / 10 ^ 16 + 11 * (|x.rat| + |y.rat|) / 10 ^ 50 := by
    refine (Rat.cast_le (K := ℝ)).1 ?_
    push_cast
    refine (abs_sub_le _ _ _).trans ((add_le_add hnear hfar).trans_eq ?_)
    ring
  refine ⟨hle, fun hsmall => hle.trans ?_⟩
  norm_num
  linarith

theorem exists_value_ratioText (hconstants : c.constants.Valid)
    (hunit : c.settings.angleUnit = .degree) (hr : r.IsCircular f) {x : TypedDecimal} {v : Quantity}
    {u : Trail} (hrun : (x.terms.eval Run.operations).run {} = .ok (v, u))
    (hv : (v.toDecimal.mul .radiansPerDegree).leading ≤ maxAngleExponent) :
    ∃ w, c.value (x.ratioText r) = .ok w := by
  rw [value_ratioText c hconstants, hunit, Run.run_bind_of_ok hrun]
  exact Run.exists_ratio_degree hr u hv

/-- Away from the special angles, a sine in degrees is that of the reduced angle. -/
theorem exists_value_sin (hconstants : c.constants.Valid) (hunit : c.settings.angleUnit = .degree)
    {x : TypedDecimal} {v : Quantity} {u : Trail} {n : Int}
    (hrun : (x.terms.eval Run.operations).run {} = .ok (v, u))
    (hspecial : ∀ a, Trigonometry.angle? v = some a → SpecialAngle.value? .sin a = none)
    (hn : (v.toDecimal.mul .radiansPerDegree).reducedAngle? workDigits = some n) :
    ∃ w, c.value (x.ratioText .sin) = .ok w ∧
      |(w.rat : ℝ) - Real.sin (n / pow10 workDigits)| ≤ 7 / 10 ^ 17 := by
  have hleading : (v.toDecimal.mul .radiansPerDegree).leading ≤ maxAngleExponent := by
    by_contra hlarge
    rw [Decimal.reducedAngle?_eq_none (not_le.1 hlarge)] at hn
    cases hn
  obtain ⟨w, hw⟩ := exists_value_ratioText hconstants hunit .sin hrun hleading
  refine ⟨w, hw, ?_⟩
  rw [value_ratioText c hconstants, hunit, Run.run_bind_of_ok hrun] at hw
  exact Run.abs_sin_degree_sub_le hw hspecial hn

/-- Ten degrees, and ten degrees after a turn. -/
def tenDegrees : TypedDecimal := ⟨false, "10", by decide +kernel⟩

def tenDegreesTurned : TypedDecimal := ⟨false, "370", by decide +kernel⟩

theorem abs_value_ratio_turns_sub_le_ten : ∃ v w,
    ({} : Calculator).value "sin(10)" = .ok v ∧ ({} : Calculator).value "sin(370)" = .ok w ∧
      |v.rat - w.rat| ≤ 1 / 10 ^ 15 := by
  have hten : tenDegrees.rat = 10 := by decide +kernel
  have hturned : tenDegreesTurned.rat = 370 := by decide +kernel
  have htext : tenDegrees.ratioText .sin = "sin(10)" := by decide
  have htext' : tenDegreesTurned.ratioText .sin = "sin(370)" := by decide
  obtain ⟨v, hv⟩ := exists_value_ratioText (c := {}) ConstantTable.valid_empty rfl .sin
    (x := tenDegrees) (v := .exact 10) (u := {}) (by decide +kernel) (by decide +kernel)
  obtain ⟨w, hw⟩ := exists_value_ratioText (c := {}) ConstantTable.valid_empty rfl .sin
    (x := tenDegreesTurned) (v := .exact 370) (u := {}) (by decide +kernel) (by decide +kernel)
  have hnear := abs_value_ratio_turns_sub_le {} ConstantTable.valid_empty rfl (.inl rfl) (k := 1)
    ⟨10, 0, by decide, by rw [hten]; decide +kernel⟩
    ⟨370, 0, by decide, by rw [hturned]; decide +kernel⟩ (by rw [hten, hturned]; norm_num) hv hw
  rw [hten, hturned] at hnear
  exact ⟨v, w, htext ▸ hv, htext' ▸ hw, hnear.2 (by norm_num [abs_of_pos])⟩

/-- One degree, and one degree after `10⁴⁵` turns. -/
def oneDegree : TypedDecimal := ⟨false, "1", by decide +kernel⟩

def oneDegreeTurned : TypedDecimal :=
  ⟨false, "360000000000000000000000000000000000000000000001", by decide +kernel⟩

/-- After so many turns the product with the decimal of `π / 180` has only two places left, and the
angle of one degree is off by about half a degree. -/
theorem abs_value_ratio_turns_sub_gt :
    HasDigits precision oneDegree.rat ∧ HasDigits precision oneDegreeTurned.rat ∧
    oneDegreeTurned.rat = oneDegree.rat + 360 * (10 ^ 45 : Int) ∧
    ∃ v w, ({} : Calculator).value "sin(1)" = .ok v ∧
      ({} : Calculator).value "sin(360000000000000000000000000000000000000000000001)" = .ok w ∧
      ¬|v.rat - w.rat| ≤ 1 / 10 ^ 15 := by
  have hone : oneDegree.rat = 1 := by decide +kernel
  have hturned : oneDegreeTurned.rat = 360000000000000000000000000000000000000000000001 := by
    decide +kernel
  have htext : oneDegree.ratioText .sin = "sin(1)" := by decide
  have htext' : oneDegreeTurned.ratioText .sin
      = "sin(360000000000000000000000000000000000000000000001)" := by decide
  obtain ⟨v, hv, hnear⟩ := exists_value_sin (c := {}) ConstantTable.valid_empty rfl
    (x := oneDegree) (v := .exact 1) (u := {})
    (n := 174532925199432957692369076848861271344287188854000000000000000) (by decide +kernel)
    (fun a ha => by obtain rfl := Option.some.inj ha; decide +kernel) (by decide +kernel)
  obtain ⟨w, hw, hfar⟩ := exists_value_sin (c := {}) ConstantTable.valid_empty rfl
    (x := oneDegreeTurned)
    (v := .approx ⟨360000000000000000000000000000000000000000000001, 0⟩) (u := { exact := false })
    (n := 97883580501108153843671874275820027439303493157658640357038269) (by decide +kernel)
    (fun a ha => by obtain rfl := Option.some.inj ha; decide +kernel) (by decide +kernel)
  refine ⟨⟨1, 0, by decide, by rw [hone]; decide +kernel⟩,
    ⟨360000000000000000000000000000000000000000000001, 0, by decide,
      by rw [hturned]; decide +kernel⟩,
    by rw [hone, hturned]; norm_num, v, w, htext ▸ hv, htext' ▸ hw, fun hle => ?_⟩
  -- The first reduced angle is that of one degree, the second one is little more than half of it.
  have hscale : (pow10 workDigits : ℝ) = 10 ^ 64 := by norm_num [workDigits, precision, pow10]
  have hlarge : 17 / 1000 < Real.sin
      (174532925199432957692369076848861271344287188854000000000000000 / 10 ^ 64) :=
    lt_trans (by norm_num) (Real.sin_gt_sub_cube (by norm_num))
  have hsmall : Real.sin
      (97883580501108153843671874275820027439303493157658640357038269 / 10 ^ 64) < 1 / 100 :=
    (Real.sin_lt (by norm_num)).trans (by norm_num)
  have hdifference := (Rat.cast_le (K := ℝ)).2 hle
  push_cast at hnear hfar hdifference
  rw [hscale, abs_le] at hnear hfar
  rw [abs_le] at hdifference
  norm_num only at hnear hfar hdifference hlarge hsmall
  linarith

end Calculator

end Keypad
