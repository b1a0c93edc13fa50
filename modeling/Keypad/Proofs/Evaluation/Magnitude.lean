import Keypad.Proofs.Decimal.Functions
import Keypad.Proofs.Evaluation.Canonical

/-!
# No value is too large

Only some operations compare their result with the largest answer. The others cannot exceed it:
neither π nor `e`, nor a root or a logarithm of a decimal that does not, nor any circular function.
So a value is too large only if a constant is.
-/

namespace Keypad

/-! ## Ratios and inverse ratios -/

namespace Trigonometry

open Decimal

variable {r : Ratio} {x d s c : Decimal}

theorem isFixed_withoutNoise {w k : Nat} (h : d.IsFixed w k) (x : Decimal) :
    (withoutNoise d x).IsFixed w k := by
  rw [withoutNoise]
  split
  · exact isFixed_zero w k
  · exact h

/-- A ratio with a divisor is small, because the divisor has a digit among its decimal places. -/
theorem atMost_of_fromSineCosine? (hs : s.IsFixed workDigits (workDigits + 264))
    (hc : c.IsFixed workDigits (workDigits + 264)) (h : fromSineCosine? r s c = some d) :
    d.AtMost 400 := by
  have hsine := hs.atMost (by decide)
  have hcosine := hc.atMost (by decide)
  cases r with
  | sin =>
    cases h
    exact hsine.mono (by decide)
  | cos =>
    cases h
    exact hcosine.mono (by decide)
  | tan => exact (hsine.div_isFixed hc (by decide) (by decide) h).mono (by decide)
  | sec => exact (atMost_one.div_isFixed hc (by decide) (by decide) h).mono (by decide)
  | csc => exact (atMost_one.div_isFixed hs (by decide) (by decide) h).mono (by decide)
  | cot => exact (hcosine.div_isFixed hs (by decide) (by decide) h).mono (by decide)

theorem atMost_of_ofRadians (h : ofRadians r x = .ok d) : d.AtMost 400 := by
  rw [ofRadians] at h
  split at h
  · next s c hs hc =>
    split at h
    · next e he =>
      cases h
      exact atMost_of_fromSineCosine? (isFixed_withoutNoise (isFixed_of_sin? hs) x)
        (isFixed_withoutNoise (isFixed_of_cos? hc) x) he
    · cases h
  · cases h

theorem atMost_of_arc (h : arc r x = .ok d) : d.AtMost 72 := by
  obtain ⟨y, rfl | rfl | rfl⟩ := exists_of_arc h
  · exact (atMost_asin y).mono (by decide)
  · exact atMost_acos y
  · exact ((isFixed_atan y).atMost (by decide)).mono (by decide)

end Trigonometry

/-! ## Evaluation -/

namespace Decimal

/-- A decimal in canonical form that is not too large for an answer. -/
structure IsAnswer (d : Decimal) : Prop where
  isCanonical : d.IsCanonical
  atMost : d.AtMost maxExponent

theorem isAnswer_of_atMost {d : Decimal} {n : Int} (hd : d.IsCanonical) (h : d.AtMost n)
    (hn : n ≤ maxExponent) : d.IsAnswer := ⟨hd, h.mono hn⟩

/-- No operation leads beyond the largest answer if no constant does. -/
theorem invariant_isAnswer {table : ConstantTable}
    (h : ∀ name d, table.value? name = some d → d.IsAnswer) : Invariant table IsAnswer where
  zero := ⟨isCanonical_zero, atMost_zero _⟩
  scaled m e hle := ⟨isCanonical_scaled m e, exceedsMaximum_eq_false_iff.1 hle⟩
  neg hd := ⟨hd.isCanonical.neg, hd.atMost.neg⟩
  pi := ⟨isCanonical_ofFixed _ _, fun _ => by decide +kernel⟩
  euler := ⟨isCanonical_euler, atMost_euler⟩
  constant hd := h _ _ hd
  sqrt hx := ⟨isCanonical_sqrt _, hx.atMost.sqrt (by decide)⟩
  ln hx :=
    have hsize := (isFixed_ln hx.isCanonical).atMost (by decide)
    isAnswer_of_atMost (isCanonical_ln _) hsize (by decide)
  log10 hx := isAnswer_of_atMost (isCanonical_log10 _) (atMost_log10 hx.isCanonical) (by decide)
  logarithmTo hbase hx hd :=
    have hsize := (isFixed_ln hx.isCanonical).atMost (by decide)
    have hquotient := hsize.div_isFixed (isFixed_ln hbase.isCanonical) (by decide) (by decide) hd
    isAnswer_of_atMost (isCanonical_of_div? hd) hquotient (by decide)
  ratio hd :=
    isAnswer_of_atMost (Trigonometry.isCanonical_of_ofRadians hd)
      (Trigonometry.atMost_of_ofRadians hd) (by decide)
  arc hd :=
    isAnswer_of_atMost (Trigonometry.isCanonical_of_arc hd) (Trigonometry.atMost_of_arc hd)
      (by decide)
  arcDegrees hd :=
    have hdegrees : degreesPerRadian.AtMost 1 := fun _ => by decide +kernel
    isAnswer_of_atMost (isCanonical_mul _ _) ((Trigonometry.atMost_of_arc hd).mul hdegrees)
      (by decide)

end Decimal

namespace Calculator

/-- Where no constant is too large, no value is. -/
theorem isAnswer_of_value {c : Calculator}
    (hc : ∀ name d, c.constants.value? name = some d → d.IsAnswer) {formula : String} {v : Quantity}
    (h : c.value formula = .ok v) : v.toDecimal.IsAnswer := by
  obtain ⟨e, he, rfl⟩ := exists_evaluate_of_value h
  have hinvariant := Decimal.invariant_isAnswer hc
  exact hinvariant.toDecimal (within_evaluate hinvariant he)

/-- Without constants, a formula that has a value has one of at most the largest exponent. -/
theorem exceedsMaximum_value_eq_false (settings : Settings) (answer : Quantity) {formula : String}
    {v : Quantity}
    (h : ({ settings, answer, constants := .empty } : Calculator).value formula = .ok v) :
    Quantity.exceedsMaximum v.toDecimal = false := by
  have hv := isAnswer_of_value (fun _ _ hd => by cases hd) h
  exact Decimal.exceedsMaximum_eq_false_iff.2 hv.atMost

/-- The largest exponent is reached through a root, which is not compared with it. -/
theorem exceedsMaximum_value_eq_false_root :
    ({} : Calculator).value "√(1E9999998)×9E5000000" = .ok (.approx ⟨9, 9999999⟩) ∧
    Quantity.exceedsMaximum ⟨9, 9999999⟩ = false := by
  have hvalue : ({} : Calculator).value "√(1E9999998)×9E5000000"
      = .ok (.approx ⟨9, 9999999⟩) := by decide +kernel
  exact ⟨hvalue, exceedsMaximum_value_eq_false {} .zero hvalue⟩

end Calculator

end Keypad
