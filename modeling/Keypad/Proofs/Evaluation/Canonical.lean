import Keypad.Proofs.Decimal.Canonical
import Keypad.Proofs.Evaluation.Line

/-!
# Values in canonical form

A table of constants that was built by definitions and removals holds decimals in canonical form,
and evaluation keeps this form: every decimal that a formula gives has it.
-/

namespace Keypad

open Decimal

/-! ## Constants -/

namespace ConstantTable

/-- The tables that definitions and removals make. -/
inductive Built : ConstantTable → Prop where
  | empty : Built empty
  | define {t u : ConstantTable} {name text : String} (ht : Built t)
      (h : t.define name text = .ok u) : Built u
  | erase {t : ConstantTable} (ht : Built t) (name : String) : Built (t.erase name)

theorem isCanonical_of_read? {text : String} {d : Decimal} (h : read? text = some d) :
    d.IsCanonical := by
  rw [read?] at h
  split at h
  · obtain ⟨p, -, rfl⟩ := Option.map_eq_some_iff.1 h
    exact (isCanonical_scaled _ _).neg
  · obtain ⟨p, -, rfl⟩ := Option.map_eq_some_iff.1 h
    exact isCanonical_scaled _ _

theorem isCanonical_of_readValue {text : String} {d : Decimal} (h : readValue text = .ok d) :
    d.IsCanonical := by
  rw [readValue] at h
  dsimp only at h
  split at h
  · split at h
    · next hread =>
      cases h
      exact isCanonical_of_read? hread
    · cases h
  · split at h
    · cases h
    · cases h
      split
      · exact (isCanonical_ofRat _).neg
      · exact isCanonical_ofRat _

theorem Built.isCanonical {t : ConstantTable} (ht : t.Built) {name : String} {d : Decimal}
    (h : t.value? name = some d) : d.IsCanonical := by
  induction ht with
  | empty => cases h
  | define ht hdefine ih =>
    obtain ⟨⟨⟩, -, hdefine⟩ := Except.exists_of_bind hdefine
    obtain ⟨e, hread, hdefine⟩ := Except.exists_of_bind hdefine
    cases hdefine
    rw [value?_insert] at h
    split at h
    · cases h
      exact isCanonical_of_readValue hread
    · exact ih h
  | erase ht removed ih =>
    rw [value?_erase] at h
    split at h
    · cases h
    · exact ih h

end ConstantTable

/-! ## Functions -/

namespace Trigonometry

variable {r : Ratio} {x d s c : Decimal}

theorem isCanonical_withoutNoise (h : d.IsCanonical) (x : Decimal) :
    (withoutNoise d x).IsCanonical := by
  rw [withoutNoise]
  split
  · exact isCanonical_zero
  · exact h

theorem isCanonical_of_fromSineCosine? (hs : s.IsCanonical) (hc : c.IsCanonical)
    (h : fromSineCosine? r s c = some d) : d.IsCanonical := by
  cases r with
  | sin =>
    cases h
    exact hs
  | cos =>
    cases h
    exact hc
  | tan | sec | csc | cot => exact isCanonical_of_div? h

theorem isCanonical_of_ofRadians (h : ofRadians r x = .ok d) : d.IsCanonical := by
  rw [ofRadians] at h
  split at h
  · next s c hs hc =>
    split at h
    · next e he =>
      cases h
      exact isCanonical_of_fromSineCosine? (isCanonical_withoutNoise (isCanonical_of_sin? hs) x)
        (isCanonical_withoutNoise (isCanonical_of_cos? hc) x) he
    · cases h
  · cases h

/-- An inverse ratio is an inverse sine, cosine or tangent. -/
theorem exists_of_arc (h : arc r x = .ok d) :
    ∃ y : Decimal, d = y.asin ∨ d = y.acos ∨ d = y.atan := by
  cases r with
  | sin | cos =>
    simp only [arc] at h
    split at h
    · cases h
    · cases h
      exact ⟨x, by split <;> simp⟩
  | tan =>
    cases h
    exact ⟨x, .inr (.inr rfl)⟩
  | sec | csc =>
    simp only [arc] at h
    split at h
    · cases h
    · next i _ =>
      split at h
      · cases h
      · cases h
        exact ⟨i, by split <;> simp⟩
  | cot =>
    simp only [arc] at h
    split at h
    · cases h
    · next i _ =>
      cases h
      exact ⟨i, .inr (.inr rfl)⟩

theorem isCanonical_of_arc (h : arc r x = .ok d) : d.IsCanonical := by
  obtain ⟨y, rfl | rfl | rfl⟩ := exists_of_arc h
  · exact isCanonical_asin y
  · exact isCanonical_acos y
  · exact isCanonical_atan y

end Trigonometry

/-! ## Evaluation -/

/-- Evaluation keeps the canonical form if the constants have it. -/
theorem Decimal.invariant_isCanonical {table : ConstantTable}
    (h : ∀ name d, table.value? name = some d → d.IsCanonical) :
    Invariant table IsCanonical where
  zero := isCanonical_zero
  scaled m e _ := isCanonical_scaled m e
  neg hd := hd.neg
  pi := isCanonical_ofFixed _ _
  euler := isCanonical_euler
  constant hname := h _ _ hname
  sqrt _ := isCanonical_sqrt _
  ln _ := isCanonical_ln _
  log10 _ := isCanonical_log10 _
  logarithmTo _ _ hd := isCanonical_of_div? hd
  ratio hd := Trigonometry.isCanonical_of_ofRadians hd
  arc hd := Trigonometry.isCanonical_of_arc hd
  arcDegrees _ := isCanonical_mul _ _

theorem Calculator.isCanonical_evaluate {c : Calculator} (hc : c.constants.Built)
    {formula : String} {e : Evaluation} (h : c.evaluate formula = .ok e) :
    e.value.Within IsCanonical :=
  within_evaluate (invariant_isCanonical fun _ _ => hc.isCanonical) h

end Keypad
