import Keypad.Proofs.Evaluation.Line

/-!
# When a value is exact

A value is exact if and only if the run that gave it stayed exact at every step, in whatever group
the step was. A constant, and a literal that is not accepted as exact, end the exact part of the
run wherever they stand.
-/

namespace Keypad

namespace Run

variable {α β : Type} {P : α → Prop} {Q : β → Prop} {t u : Trail} {m : Run α} {k : α → Run β}

theorem lost_throw (f : Failure) : Lost t (throw f : Run α) := trivial

/-- What the first of two steps loses is not found by the second. -/
theorem Lost.bind (h : Lost t m) (hm : Keeps P m) (hk : ∀ a, P a → Keeps Q (k a)) :
    Lost t (m >>= k) := by
  have hboth := hm t
  rw [Lost, ends_bind]
  rw [Lost] at h
  unfold Ends at h hboth ⊢
  cases hrun : m.run t with
  | error f => trivial
  | ok r =>
    simp only [hrun] at h hboth
    exact (hk r.1 hboth.1).lost h

theorem Keeps.bind_lost (h : Keeps P m) (hk : ∀ a u, P a → Lost u (k a)) : Lost t (m >>= k) := by
  rw [Lost, ends_bind]
  exact (h t).mono fun a u ⟨ha, _⟩ => hk a u ha

/-- Of two steps, the first of which is known. -/
theorem lost_bind_of_run {a : α} (hrun : m.run t = .ok (a, u)) (h : Lost u (k a)) :
    Lost t (m >>= k) := by
  rw [Lost, ends_bind, Ends, hrun]
  exact h

end Run

open Run Quantity

/-- The value of a literal that is accepted as exact. -/
def Literal.exactRat? (text : String) : Option Rat :=
  (parts? text.toList).bind fun p => Quantity.literalRat? p.1 p.2

/-- A constant, or a literal that is not accepted as exact. -/
def Key.Inexact : Key → Prop
  | .literal text => Literal.exactRat? text = none
  | .constant _ => True
  | _ => False

/-- Where only exactness matters, any decimal will do. -/
theorem Decimal.invariant_true (table : ConstantTable) : Invariant table fun _ => True := by
  constructor <;> intros <;> trivial

namespace Frame

/-- Any decimal, or an exact value within bounds. -/
abbrev Bounded : Quantity → Prop := Within fun _ => True

variable {table : ConstantTable} {c : Frame} {t : Trail}

theorem lost_literal {text : String} (h : Literal.exactRat? text = none) :
    Lost t (Run.literal text) := by
  rw [Run.literal]
  split
  · exact lost_throw _
  · next m e hparts =>
    have hrat : literalRat? m e = none := by simpa [Literal.exactRat?, hparts] using h
    refine (keeps_bounded (D := fun _ => True) fun _ => trivial).bind_lost fun d u _ => ?_
    split
    · rfl
    · simp only [Lost, ends_bind, ends_get, hrat]
      split
      · rfl
      · next hu => simpa using hu

theorem lost_constant (k : Constant) : Lost t (constant table k) := by
  cases k with
  | pi => rfl
  | euler => rfl
  | named name =>
    rw [constant]
    split
    · exact lost_throw _
    · rfl

theorem keeps_put (hc : c.All Bounded) (v : Quantity) (hv : Bounded v) :
    Keeps (All Bounded) (pure (c.put v)) := keeps_pure (hc.put (fun _ _ => trivial) hv)

theorem lost_key {k : Key} (hk : k.Inexact) (hc : c.All Bounded) : Lost t (c.key table k) := by
  have hD := Decimal.invariant_true table
  cases k with
  | literal text =>
    exact (lost_literal hk).bind (keeps_literal hD.zero hD.scaled) (keeps_put hc)
  | constant k => exact (lost_constant k).bind (keeps_constant hD k) (keeps_put hc)
  | _ => cases hk

/-- A group whose content is not exact. -/
theorem lost_group (hc : c.All Bounded) (unit : AngleUnit) {content : Run (List Quantity)}
    (hkeeps : Keeps (fun vs => ∀ v ∈ vs, Bounded v) content) (h : Lost t content) :
    Lost t (c.group unit content) := by
  have hD := Decimal.invariant_true {}
  rw [group]
  split
  · refine h.bind hkeeps (Q := All Bounded) fun vs hvs => ?_
    split
    · next v => exact keeps_put hc v (hvs v List.mem_cons_self)
    · exact keeps_throw _
  · next op _ =>
    have hc' : All Bounded { c with pending := none } := ⟨hc.terms, hc.factors, hc.parts, hc.last⟩
    dsimp only
    split
    · cases hlast : c.last with
      | none =>
        simp only [takeLast]
        trivial
      | some left =>
        simp only [takeLast, pure_bind]
        refine h.bind hkeeps (Q := All Bounded) fun vs hvs => ?_
        split
        · next right =>
          exact (keeps_applyBackward hD op left right).bind fun v hv => keeps_pure (hc'.setLast hv)
        · exact keeps_throw _
    · exact h.bind hkeeps fun vs hvs =>
        (keeps_applyAll hD unit op hvs).bind fun v hv => keeps_put hc' v hv

end Frame

namespace Line

variable {unit : AngleUnit} {table : ConstantTable} {c : Frame} {t u : Trail}

theorem keeps_values_start (unit : AngleUnit) (table : ConstantTable) (line : Line) :
    Keeps (fun vs => ∀ v ∈ vs, Frame.Bounded v) (line.values unit table {}) :=
  keeps_values (Decimal.invariant_true table) unit line (Frame.all_start _)

/-- A level with a key that is not exact, in whatever group of it. -/
theorem lost_values {line : Line} {k : Key} (hmem : .key k ∈ line.toTokens) (hk : k.Inexact)
    (hc : c.All Frame.Bounded) : Lost t (line.values unit table c) := by
  have hD := Decimal.invariant_true table
  induction line generalizing c t with
  | nil => cases hmem
  | key k' rest ih =>
    by_cases hcomma : k' = .comma
    · subst hcomma
      have hrest : .key k ∈ rest.toTokens := by
        rcases List.mem_cons.1 hmem with heq | hrest
        · cases heq
          cases hk
        · exact hrest
      refine (Frame.keeps_finish hD hc).bind_lost fun v u _ => ?_
      exact (ih hrest (Frame.all_start _)).bind (keeps_values_start unit table rest)
        fun vs _ => keeps_pure (P := fun _ => True) trivial
    · rw [values_key unit table c hcomma]
      rcases List.mem_cons.1 hmem with heq | hrest
      · cases heq
        exact (Frame.lost_key hk hc).bind (Frame.keeps_key hD hc k)
          fun c' hc' => keeps_values hD unit rest hc'
      · exact (Frame.keeps_key hD hc k').bind_lost fun c' u hc' => ih hrest hc'
  | group inner rest ihi ihr =>
    have hkeeps := Frame.keeps_group hD hc unit (keeps_values_start unit table inner)
    simp only [toTokens, List.mem_cons, List.mem_append, reduceCtorEq, false_or] at hmem
    rcases hmem with hinner | hrest
    · have hgroup := Frame.lost_group (t := t) hc unit (keeps_values_start unit table inner)
        (ihi hinner (Frame.all_start _))
      exact hgroup.bind hkeeps fun c' hc' => keeps_values hD unit rest hc'
    · exact hkeeps.bind_lost fun c' u hc' => ihr hrest hc'

/-! ## The trails of an evaluation -/

/-- The trails between the steps of a level, in the state `c` and with the trail `t` at first, and
between the steps of the groups in it. -/
inductive Passes (unit : AngleUnit) (table : ConstantTable) :
    Line → Frame → Trail → Trail → Prop where
  | here (line : Line) (c : Frame) (t : Trail) : Passes unit table line c t t
  | finish {c : Frame} {t u : Trail} {v : Quantity} (h : c.finish.run t = .ok (v, u)) :
      Passes unit table nil c t u
  | comma {rest : Line} {c : Frame} {t u w : Trail} {v : Quantity}
      (h : c.finish.run t = .ok (v, u)) (hrest : Passes unit table rest {} u w) :
      Passes unit table (key .comma rest) c t w
  | key {k : Key} {rest : Line} {c c' : Frame} {t u w : Trail} (hk : k ≠ .comma)
      (h : (c.key table k).run t = .ok (c', u)) (hrest : Passes unit table rest c' u w) :
      Passes unit table (key k rest) c t w
  | inside {inner rest : Line} {c : Frame} {t w : Trail}
      (hinner : Passes unit table inner {} t w) : Passes unit table (group inner rest) c t w
  | group {inner rest : Line} {c c' : Frame} {t u w : Trail}
      (h : (c.group unit (inner.values unit table {})).run t = .ok (c', u))
      (hrest : Passes unit table rest c' u w) : Passes unit table (group inner rest) c t w

/-- Exactness that is lost somewhere on the way is lost at the end. -/
theorem Passes.lost {line : Line} (h : Passes unit table line c t u) (hc : c.All Frame.Bounded)
    (hu : u.exact = false) : Lost t (line.values unit table c) := by
  have hD := Decimal.invariant_true table
  induction h with
  | here line c t => exact (keeps_values hD unit line hc).lost hu
  | finish hrun => exact lost_bind_of_run hrun hu
  | comma hrun _ ih =>
    refine lost_bind_of_run hrun ?_
    exact (ih (Frame.all_start _) hu).bind (keeps_values_start unit table _)
      fun vs _ => keeps_pure (P := fun _ => True) trivial
  | @key k rest c c' t u w hk hrun _ ih =>
    rw [values_key unit table c hk]
    exact lost_bind_of_run hrun (ih ((Frame.keeps_key hD hc k).of_run hrun) hu)
  | @inside inner rest c t w _ ih =>
    have hinner := keeps_values_start unit table inner
    have hgroup := Frame.lost_group hc unit hinner (ih (Frame.all_start _) hu)
    exact hgroup.bind (Frame.keeps_group hD hc unit hinner)
      fun c' hc' => keeps_values hD unit rest hc'
  | @group inner rest c c' t u w hrun _ ih =>
    have hgroup := Frame.keeps_group hD hc unit (keeps_values_start unit table inner)
    exact lost_bind_of_run hrun (ih (hgroup.of_run hrun) hu)

/-- The trails of the evaluation of a line from a fresh trail on, up to that at its end. -/
inductive Visits (unit : AngleUnit) (table : ConstantTable) (line : Line) : Trail → Prop where
  | level {u : Trail} (h : line.Passes unit table {} {} u) : Visits unit table line u
  | last {v : Quantity} {u : Trail} (h : (line.value unit table).run {} = .ok (v, u)) :
      Visits unit table line u

theorem lost_value {line : Line} (hne : line ≠ nil) (h : Lost t (line.values unit table {})) :
    Lost t (line.value unit table) := by
  rw [value]
  · refine h.bind (keeps_values_start unit table line) (Q := fun _ => True) fun vs _ => ?_
    split
    · exact (keeps_settle (D := fun _ => True) trivial).mono fun _ _ => trivial
    · exact keeps_throw _
  · exact hne

/-- At the end, the value agrees with the trail. -/
theorem isExact_of_run {line : Line} {v : Quantity}
    (h : (line.value unit table).run t = .ok (v, u)) : v.isExact = u.exact := by
  have hends : Ends (fun _ => True) t (line.value unit table) fun v u => v.isExact = u.exact := by
    by_cases hnil : line = nil
    · rw [hnil]
      exact ends_settle t .zero
    · rw [value]
      · rw [ends_bind]
        refine (keeps_values_start unit table line t).mono fun vs u _ => ?_
        split
        · exact ends_settle u _
        · trivial
      · exact hnil
  rwa [Ends, h] at hends

theorem isExact_iff_visits {line : Line} {v : Quantity}
    (h : (line.value unit table).run {} = .ok (v, u)) :
    v.isExact ↔ ∀ w, line.Visits unit table w → w.exact := by
  rw [isExact_of_run h]
  constructor
  · intro hu w hw
    cases hw with
    | last hlast =>
      cases h.symm.trans hlast
      exact hu
    | level hpasses =>
      by_cases hnil : line = nil
      · subst hnil
        cases hpasses with
        | here => rfl
        | finish hrun => cases hrun
      · by_contra hexact
        have hlost := lost_value hnil
          (hpasses.lost (Frame.all_start _) (by simpa using hexact))
        rw [Lost, Ends, h] at hlost
        exact absurd hu (by simpa using hlost)
  · intro hvisits
    exact hvisits u (.last h)

end Line

namespace Calculator

/-- An exact value is within bounds. A value is exact if and only if exactness was never lost on
the way, and it is not exact if the canonical formula has a constant in it or a literal that is not
accepted as exact. -/
theorem isExact_evaluate {c : Calculator} {formula : String} {e : Evaluation}
    (h : c.evaluate formula = .ok e) :
    (∀ q, e.value = .exact q → q.num.natAbs ≤ fractionBound ∧ q.den ≤ fractionBound) ∧
    (∃ line, Line.ofTokens? e.canonical = some line ∧
      (e.value.isExact ↔ ∀ t, line.Visits c.settings.angleUnit c.constants t → t.exact)) ∧
    ((∃ k, .key (.constant k) ∈ e.canonical) ∨
        (∃ text, .key (.literal text) ∈ e.canonical ∧ Literal.exactRat? text = none) →
      ∃ d, e.value = .approx d) := by
  obtain ⟨answer, line, trail, -, -, hcanonical, hrun⟩ := exists_run_of_evaluate h
  refine ⟨fun q hq => ?_, ⟨line, ?_, Line.isExact_iff_visits hrun⟩, fun hkey => ?_⟩
  · have hv : e.value.Within fun _ => True := within_evaluate (Decimal.invariant_true _) h
    rw [hq] at hv
    exact ⟨natAbs_num_le hv, den_le hv⟩
  · rw [hcanonical]
    exact Line.ofTokens?_toTokens line
  · rw [hcanonical] at hkey
    obtain ⟨k, hmem, hk⟩ : ∃ k, .key k ∈ line.toTokens ∧ k.Inexact := by
      rcases hkey with ⟨k, hmem⟩ | ⟨text, hmem, htext⟩
      · exact ⟨.constant k, hmem, trivial⟩
      · exact ⟨.literal text, hmem, htext⟩
    have hne : line ≠ .nil := by
      rintro rfl
      cases hmem
    have hvalues : Lost {} (line.values c.settings.angleUnit c.constants {}) :=
      Line.lost_values hmem hk (Frame.all_start _)
    have hlost := Line.lost_value hne hvalues
    rw [Lost, Ends, hrun] at hlost
    have hexact := (Line.isExact_of_run hrun).trans hlost
    cases hvalue : e.value with
    | exact q => simp [hvalue, isExact] at hexact
    | approx d => exact ⟨d, rfl⟩

/-- A third has been formed exactly before the large literal is read. -/
theorem isExact_evaluate_large_literal :
    ∃ e, evaluate {} "1/3+1E60" = .ok e ∧ .key (.literal "1E60") ∈ e.canonical ∧
      Literal.exactRat? "1E60" = none ∧ ∃ d, e.value = .approx d := by
  have h : evaluate {} "1/3+1E60" = .ok ⟨.approx ⟨1, 60⟩,
      [.key (.literal "1"), .key .bar, .key (.literal "3"), .key .plus, .key (.literal "1E60")],
      [.key (.literal "1"), .key .bar, .key (.literal "3"), .key .plus, .key (.literal "1E60")],
      []⟩ := by decide +kernel
  have hexact : Literal.exactRat? "1E60" = none := by decide +kernel
  exact ⟨_, h, by decide, hexact,
    (isExact_evaluate h).2.2 (.inr ⟨"1E60", by decide, hexact⟩)⟩

end Calculator

end Keypad
