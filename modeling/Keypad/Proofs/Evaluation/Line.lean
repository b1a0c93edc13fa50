import Keypad.Calculator
import Keypad.Proofs.Evaluation.Frame
import Keypad.Proofs.Evaluation.Invariant
import Keypad.Proofs.Failure

/-!
# What the evaluation of a line keeps

The operands that wait in the state of a level have the property that every operation keeps, at
every step of the level. Hence the values of a line have it, and so does the value of a formula.
-/

namespace Keypad

open Run Quantity

namespace Frame

/-- All operands that wait satisfy `P`. -/
structure All (P : Quantity → Prop) (c : Frame) : Prop where
  terms : ∀ v ∈ c.terms, P v
  factors : ∀ v ∈ c.factors, P v
  parts : ∀ v ∈ c.parts, P v
  last : ∀ v ∈ c.last, P v

theorem all_start (P : Quantity → Prop) : All P {} := by
  constructor <;> simp

variable {table : ConstantTable} {D : Decimal → Prop} {c : Frame} {v : Quantity}

theorem All.put (hneg : ∀ d, D d → D (-d)) (hc : c.All (Within D)) (hv : v.Within D) :
    (c.put v).All (Within D) where
  terms := hc.terms
  factors := hc.factors
  parts := hc.parts
  last u hu := by
    obtain rfl := Option.mem_some.1 hu
    split
    · exact hv.neg hneg
    · exact hv

theorem All.setLast {P : Quantity → Prop} (hc : c.All P) (hv : P v) :
    All P { c with last := some v } where
  terms := hc.terms
  factors := hc.factors
  parts := hc.parts
  last u hu := by
    obtain rfl := Option.mem_some.1 hu
    exact hv

/-! ## Reductions -/

/-- What a reduction of a level gives: an operand and the state it is taken from. -/
abbrev Reduced (P : Quantity → Prop) (r : Quantity × Frame) : Prop := P r.1 ∧ r.2.All P

theorem keeps_takeLast {P : Quantity → Prop} (hc : c.All P) : Keeps (Reduced P) c.takeLast := by
  rw [takeLast]
  split
  · next v hv =>
    exact keeps_pure ⟨hc.last v hv, ⟨hc.terms, hc.factors, hc.parts, by simp⟩⟩
  · exact keeps_throw _

section Laws

variable (hD : Decimal.Invariant table D)
include hD

theorem keeps_closeFraction {parts : List Quantity} (hparts : ∀ p ∈ parts, p.Within D)
    (hv : v.Within D) : Keeps (Within D) (closeFraction parts v) := by
  match parts, hparts with
  | [], _ => exact keeps_pure hv
  | [n], h => exact keeps_div hD (h n List.mem_cons_self) hv
  | [n, w], h =>
    have hw := h w (List.mem_cons_of_mem _ List.mem_cons_self)
    exact (keeps_div hD (h n List.mem_cons_self) hv).bind fun q hq => keeps_add hD hw hq
  | _ :: _ :: _ :: _, _ => exact keeps_throw _

theorem keeps_closeParts (hc : c.All (Within D)) : Keeps (Reduced (Within D)) c.closeParts := by
  refine (keeps_takeLast hc).bind fun r hr => ?_
  exact (keeps_closeFraction hD hr.2.parts hr.1).bind fun v hv =>
    keeps_pure ⟨hv, ⟨hr.2.terms, hr.2.factors, by simp, hr.2.last⟩⟩

theorem keeps_closeFactor (hc : c.All (Within D)) : Keeps (Reduced (Within D)) c.closeFactor := by
  refine (keeps_closeParts hD hc).bind fun r hr => ?_
  have hend (v : Quantity) (hv : v.Within D) : Keeps (Reduced (Within D))
      (pure (v, { r.2 with divides := false })) :=
    keeps_pure ⟨hv, ⟨hr.2.terms, hr.2.factors, hr.2.parts, hr.2.last⟩⟩
  dsimp only
  split
  · exact (keeps_inv hD hr.1).bind hend
  · exact hend _ hr.1

omit hD in
theorem keeps_foldrM {P : Quantity → Prop} {f : Quantity → Quantity → Run Quantity}
    (hf : ∀ a b, P a → P b → Keeps P (f a b)) {vs : List Quantity} (hvs : ∀ u ∈ vs, P u)
    (hv : P v) : Keeps P (vs.foldrM f v) := by
  induction vs with
  | nil => exact keeps_pure hv
  | cons u vs ih =>
    rw [List.foldrM_cons]
    have htail := ih fun w hw => hvs w (List.mem_cons_of_mem _ hw)
    exact htail.bind fun w hw => hf u w (hvs u List.mem_cons_self) hw

theorem keeps_closeTerm (hc : c.All (Within D)) : Keeps (Reduced (Within D)) c.closeTerm := by
  refine (keeps_closeFactor hD hc).bind fun r hr => ?_
  have hproduct := keeps_foldrM (fun a b ha hb => keeps_mul hD ha hb) hr.2.factors hr.1
  exact hproduct.bind fun v hv => keeps_pure ⟨hv, ⟨hr.2.terms, by simp, hr.2.parts, hr.2.last⟩⟩

theorem keeps_closeSigned (hc : c.All (Within D)) : Keeps (Reduced (Within D)) c.closeSigned := by
  refine (keeps_closeTerm hD hc).bind fun r hr => keeps_pure ⟨?_, ?_⟩
  · dsimp only
    split
    · exact hr.1.neg fun d => hD.neg
    · exact hr.1
  · exact ⟨hr.2.terms, hr.2.factors, hr.2.parts, hr.2.last⟩

theorem keeps_finish (hc : c.All (Within D)) : Keeps (Within D) c.finish := by
  rw [finish]
  split
  · exact (keeps_throw _ : Keeps (fun _ => True) _).bind fun _ _ =>
      (keeps_closeSigned hD hc).bind fun r hr =>
        keeps_foldrM (fun a b ha hb => keeps_add hD ha hb) hr.2.terms hr.1
  · exact (keeps_closeSigned hD hc).bind fun r hr =>
      keeps_foldrM (fun a b ha hb => keeps_add hD ha hb) hr.2.terms hr.1

/-! ## Steps -/

theorem keeps_sign (hc : c.All (Within D)) (minus : Bool) :
    Keeps (All (Within D)) (c.sign minus) := by
  rw [sign]
  split
  · exact keeps_pure ⟨hc.terms, hc.factors, hc.parts, hc.last⟩
  · refine (keeps_closeSigned hD hc).bind fun r hr => keeps_pure ?_
    exact ⟨List.forall_mem_cons.2 ⟨hr.1, hr.2.terms⟩, hr.2.factors, hr.2.parts, hr.2.last⟩

theorem keeps_factor (hc : c.All (Within D)) (divides : Bool) :
    Keeps (All (Within D)) (c.factor divides) := by
  refine (keeps_closeFactor hD hc).bind fun r hr => keeps_pure ?_
  exact ⟨hr.2.terms, List.forall_mem_cons.2 ⟨hr.1, hr.2.factors⟩, hr.2.parts, hr.2.last⟩

theorem keeps_bar (hc : c.All (Within D)) : Keeps (All (Within D)) c.bar := by
  have hend (r : Quantity × Frame) (hr : Reduced (Within D) r) :
      Keeps (All (Within D)) (pure { r.2 with parts := r.1 :: r.2.parts }) :=
    keeps_pure ⟨hr.2.terms, hr.2.factors, List.forall_mem_cons.2 ⟨hr.1, hr.2.parts⟩, hr.2.last⟩
  rw [bar]
  split
  · exact (keeps_closeParts hD hc).bind hend
  · exact (keeps_takeLast hc).bind hend

omit hD in
theorem keeps_update {P : Quantity → Prop} (hc : c.All P) {f : Quantity → Run Quantity}
    (hf : ∀ v, P v → Keeps P (f v)) : Keeps (All P) (c.update f) :=
  (keeps_takeLast hc).bind fun r hr =>
    (hf r.1 hr.1).bind fun _ hv => keeps_pure (hr.2.setLast hv)

theorem keeps_constant (k : Constant) : Keeps (Within D) (constant table k) := by
  cases k with
  | pi => exact keeps_degrade.bind fun _ _ => keeps_pure hD.pi
  | euler => exact keeps_degrade.bind fun _ _ => keeps_pure hD.euler
  | named name =>
    rw [constant]
    split
    · exact keeps_throw _
    · next d hd => exact keeps_degrade.bind fun _ _ => keeps_pure (hD.constant hd)

theorem keeps_key (hc : c.All (Within D)) (k : Key) : Keeps (All (Within D)) (c.key table k) := by
  have hneg : ∀ d, D d → D (-d) := fun d => hD.neg
  cases k with
  | literal text =>
    exact (keeps_literal hD.zero hD.scaled).bind fun v hv => keeps_pure (hc.put hneg hv)
  | constant k => exact (keeps_constant hD k).bind fun v hv => keeps_pure (hc.put hneg hv)
  | operation op => exact keeps_pure ⟨hc.terms, hc.factors, hc.parts, hc.last⟩
  | plus => exact keeps_sign hD hc false
  | minus => exact keeps_sign hD hc true
  | times => exact keeps_factor hD hc false
  | obelus => exact keeps_factor hD hc true
  | bar => exact keeps_bar hD hc
  | square => exact keeps_update hc fun v hv => keeps_squared hD hv
  | bang => exact keeps_update hc fun v _ => keeps_factorial hD v
  | answer | percent | comma => exact keeps_throw _

theorem keeps_group (hc : c.All (Within D)) (unit : AngleUnit) {content : Run (List Quantity)}
    (hcontent : Keeps (fun vs => ∀ v ∈ vs, v.Within D) content) :
    Keeps (All (Within D)) (c.group unit content) := by
  have hneg : ∀ d, D d → D (-d) := fun d => hD.neg
  rw [group]
  split
  · refine hcontent.bind fun vs hvs => ?_
    split
    · next v => exact keeps_pure (hc.put hneg (hvs v List.mem_cons_self))
    · exact keeps_throw _
  · next op _ =>
    have hc' : All (Within D) { c with pending := none } :=
      ⟨hc.terms, hc.factors, hc.parts, hc.last⟩
    dsimp only
    split
    · refine (keeps_takeLast hc').bind fun r hr => hcontent.bind fun vs hvs => ?_
      split
      · next right =>
        exact (keeps_applyBackward hD op r.1 right).bind fun v hv => keeps_pure (hr.2.setLast hv)
      · exact keeps_throw _
    · exact hcontent.bind fun vs hvs =>
        (keeps_applyAll hD unit op hvs).bind fun v hv => keeps_pure (hc'.put hneg hv)

end Laws

end Frame

namespace Line

variable {table : ConstantTable} {D : Decimal → Prop} (hD : Decimal.Invariant table D)
include hD

theorem keeps_values (unit : AngleUnit) (line : Line) {c : Frame} (hc : c.All (Within D)) :
    Keeps (fun vs => ∀ v ∈ vs, v.Within D) (line.values unit table c) := by
  induction line generalizing c with
  | nil =>
    exact (Frame.keeps_finish hD hc).bind fun v hv => keeps_pure (by simpa using hv)
  | key k rest ih =>
    by_cases hk : k = .comma
    · subst hk
      exact (Frame.keeps_finish hD hc).bind fun v hv =>
        (ih (Frame.all_start _)).bind fun vs hvs =>
          keeps_pure (List.forall_mem_cons.2 ⟨hv, hvs⟩)
    · rw [values_key unit table c hk]
      exact (Frame.keeps_key hD hc k).bind fun c' hc' => ih hc'
  | group inner rest ihi ihr =>
    exact (Frame.keeps_group hD hc unit (ihi (Frame.all_start _))).bind fun c' hc' => ihr hc'

theorem keeps_value (unit : AngleUnit) (line : Line) :
    Keeps (Within D) (line.value unit table) := by
  by_cases hnil : line = nil
  · rw [hnil]
    have hzero : D Quantity.zero.toDecimal := hD.ofRat_of_inBounds (q := 0) (by decide)
    exact keeps_settle hzero
  · rw [value]
    · refine (keeps_values hD unit line (Frame.all_start _)).bind fun vs hvs => ?_
      split
      · next v => exact keeps_settle (hD.toDecimal (hvs v List.mem_cons_self))
      · exact keeps_throw _
    · exact hnil

end Line

namespace Calculator

/-- The run behind an evaluation that succeeds. -/
theorem exists_run_of_evaluate {c : Calculator} {formula : String} {e : Evaluation}
    (h : c.evaluate formula = .ok e) :
    ∃ answer line trail, c.answerTokens = .ok answer ∧
      Canonical.ofFormula answer e.tokens = .ok line ∧ e.canonical = line.toTokens ∧
      (line.value c.settings.angleUnit c.constants).run {} = .ok (e.value, trail) := by
  rw [evaluate] at h
  obtain ⟨tokens, -, h⟩ := Except.exists_of_bind h
  obtain ⟨answer, hanswer, h⟩ := Except.exists_of_bind h
  obtain ⟨line, hline, h⟩ := Except.exists_of_bind h
  obtain ⟨⟨v, trail⟩, hrun, h⟩ := Except.exists_of_bind h
  cases h
  exact ⟨answer, line, trail, hanswer, hline, rfl, hrun⟩

theorem exists_evaluate_of_value {c : Calculator} {formula : String} {v : Quantity}
    (h : c.value formula = .ok v) : ∃ e, c.evaluate formula = .ok e ∧ e.value = v := by
  rw [value] at h
  cases he : c.evaluate formula with
  | error f =>
    rw [he] at h
    cases h
  | ok e =>
    rw [he] at h
    cases h
    exact ⟨e, rfl, rfl⟩

/-- The value of a formula has every property that evaluation keeps. -/
theorem within_evaluate {c : Calculator} {D : Decimal → Prop}
    (hD : Decimal.Invariant c.constants D) {formula : String} {e : Evaluation}
    (h : c.evaluate formula = .ok e) : e.value.Within D := by
  obtain ⟨answer, line, trail, -, -, -, hrun⟩ := exists_run_of_evaluate h
  exact (Line.keeps_value hD c.settings.angleUnit line).of_run hrun

end Calculator

end Keypad
