import Keypad.Proofs.Evaluation.Frame

/-!
# What the value of a line depends on

A line is evaluated with a table of constants and a unit of angles. Of the table, only the constants
that the line names are looked up. The unit is read by the trigonometric operations alone: such an
operation waits in the state of its level until its group is read, so the operation that waits is
always one of the line.
-/

namespace Keypad

/-- Is the operation a trigonometric ratio or an inverse one? -/
def Operation.isTrigonometric (op : Operation) : Bool := op.isRatio || op.isArc

namespace Run

variable {α β : Type} {P : α → Prop} {R : β → Prop} {m : Run α} {k k' : α → Run β}

/-- Every value with which the run may end satisfies `P`. -/
def Gives (P : α → Prop) (m : Run α) : Prop := ∀ t, Ends (fun _ => True) t m fun a _ => P a

theorem gives_pure {a : α} (h : P a) : Gives P (pure a) := fun _ => h

theorem gives_throw (f : Failure) : Gives P (throw f : Run α) := fun _ => trivial

theorem Gives.bind (h : Gives P m) (hk : ∀ a, P a → Gives R (k a)) : Gives R (m >>= k) := by
  intro t
  rw [ends_bind]
  exact (h t).mono fun a u ha => hk a ha u

/-- Whatever the first step gives. -/
theorem gives_bind (hk : ∀ a, Gives R (k a)) : Gives R (m >>= k) := by
  have hm : Gives (fun _ => True) m := by
    intro t
    rw [Ends]
    split <;> trivial
  exact hm.bind fun a _ => hk a

/-- Two runs with the same first step are one if they agree on all that it may give. -/
theorem Gives.bind_congr (h : Gives P m) (hk : ∀ a, P a → k a = k' a) : m >>= k = m >>= k' := by
  apply StateT.ext
  intro t
  have hends := h t
  rw [Ends] at hends
  rw [StateT.run_bind, StateT.run_bind]
  cases hrun : m.run t with
  | error f => rfl
  | ok r =>
    rw [hrun] at hends
    exact congrArg (fun step : Run β => step.run r.2) (hk r.1 hends)

end Run

open Run

theorem Operation.applyAll_congr {unit unit' : AngleUnit} {op : Operation}
    (h : op.isTrigonometric → unit = unit') (values : List Quantity) :
    op.applyAll unit values = op.applyAll unit' values := by
  cases op with
  | ratio r => rw [h rfl]
  | arc r => rw [h rfl]
  | _ => rfl

namespace Frame

/-! ## The operation that waits -/

/-- A reduction of a level does not touch the operation that waits. -/
abbrev Leaves (c : Frame) (r : Quantity × Frame) : Prop := r.2.pending = c.pending

theorem gives_takeLast (c : Frame) : Gives c.Leaves c.takeLast := by
  rw [takeLast]
  split
  · exact gives_pure rfl
  · exact gives_throw _

theorem gives_closeParts (c : Frame) : Gives c.Leaves c.closeParts :=
  c.gives_takeLast.bind fun _ hr => gives_bind fun _ => gives_pure hr

theorem gives_closeFactor (c : Frame) : Gives c.Leaves c.closeFactor := by
  refine c.gives_closeParts.bind fun r hr => ?_
  dsimp only
  split <;> exact gives_bind fun _ => gives_pure hr

theorem gives_closeSigned (c : Frame) : Gives c.Leaves c.closeSigned := by
  have hterm : Gives c.Leaves c.closeTerm :=
    c.gives_closeFactor.bind fun _ hr => gives_bind fun _ => gives_pure hr
  exact hterm.bind fun _ hr => gives_pure hr

theorem gives_sign (c : Frame) (minus : Bool) :
    Gives (fun c' => c'.pending = c.pending) (c.sign minus) := by
  rw [sign]
  split
  · exact gives_pure rfl
  · exact c.gives_closeSigned.bind fun _ hr => gives_pure hr

theorem gives_bar (c : Frame) : Gives (fun c' => c'.pending = c.pending) c.bar := by
  rw [bar]
  split
  · exact c.gives_closeParts.bind fun _ hr => gives_pure hr
  · exact c.gives_takeLast.bind fun _ hr => gives_pure hr

theorem gives_update (c : Frame) (f : Quantity → Run Quantity) :
    Gives (fun c' => c'.pending = c.pending) (c.update f) :=
  c.gives_takeLast.bind fun _ hr => gives_bind fun _ => gives_pure hr

/-- Behind a key, the operation that waits is the one that waited before it, or the key. -/
theorem gives_key (table : ConstantTable) (c : Frame) (k : Key) :
    Gives (fun c' => ∀ op ∈ c'.pending, op ∈ c.pending ∨ k = .operation op) (c.key table k) := by
  have hkept {m : Run Frame} (h : Gives (fun c' => c'.pending = c.pending) m) :
      Gives (fun c' => ∀ op ∈ c'.pending, op ∈ c.pending ∨ k = .operation op) m :=
    fun t => (h t).mono fun c' _ hc' op hop => .inl (hc' ▸ hop)
  cases k with
  | literal text => exact hkept (gives_bind fun _ => gives_pure rfl)
  | constant k => exact hkept (gives_bind fun _ => gives_pure rfl)
  | operation op =>
    refine gives_pure fun other hother => .inr ?_
    rw [Option.mem_some.1 hother]
  | plus => exact hkept (c.gives_sign false)
  | minus => exact hkept (c.gives_sign true)
  | times => exact hkept (c.gives_closeFactor.bind fun _ hr => gives_pure hr)
  | obelus => exact hkept (c.gives_closeFactor.bind fun _ hr => gives_pure hr)
  | bar => exact hkept c.gives_bar
  | square => exact hkept (c.gives_update _)
  | bang => exact hkept (c.gives_update _)
  | answer | percent | comma => exact hkept (gives_throw _)

/-- Behind a group, no operation waits. -/
theorem gives_group (unit : AngleUnit) (c : Frame) (content : Run (List Quantity)) :
    Gives (fun c' => c'.pending = none) (c.group unit content) := by
  rw [group]
  split
  · next hpending =>
    refine gives_bind fun values => ?_
    split
    · exact gives_pure hpending
    · exact gives_throw _
  · dsimp only
    split
    · refine (gives_takeLast _).bind fun r hr => gives_bind fun values => ?_
      split
      · exact gives_bind fun _ => gives_pure hr
      · exact gives_throw _
    · exact gives_bind fun _ => gives_bind fun _ => gives_pure rfl

/-! ## Steps with another table or unit -/

variable {table table' : ConstantTable} {unit unit' : AngleUnit} {c : Frame}

theorem key_congr {k : Key}
    (h : ∀ name, k = .constant (.named name) → table.value? name = table'.value? name) :
    c.key table k = c.key table' k := by
  cases k with
  | constant k =>
    cases k with
    | named name => simp only [key, constant, h name rfl]
    | pi => rfl
    | euler => rfl
  | _ => rfl

theorem group_congr (h : ∀ op ∈ c.pending, op.isTrigonometric → unit = unit')
    (content : Run (List Quantity)) : c.group unit content = c.group unit' content := by
  rw [group, group]
  split
  · rfl
  · next op hpending =>
    simp only [Operation.applyAll_congr (h op hpending)]

end Frame

namespace Line

variable {table table' : ConstantTable} {unit unit' : AngleUnit}

/-- What the rest of a level does not mention does not change its values. -/
theorem values_congr {line : Line} {c : Frame}
    (hconstants : ∀ name, .key (.constant (.named name)) ∈ line.toTokens →
      table.value? name = table'.value? name)
    (hunit : ∀ op, .key (.operation op) ∈ line.toTokens → op.isTrigonometric → unit = unit')
    (hpending : ∀ op ∈ c.pending, op.isTrigonometric → unit = unit') :
    line.values unit table c = line.values unit' table' c := by
  -- The state of the level varies; what is kept is that a trigonometric operation that waits is one
  -- of the line, so that the two units are the same.
  induction line generalizing c with
  | nil => rfl
  | key k rest ih =>
    have htail {c : Frame} := ih (c := c)
      (fun name hname => hconstants name (List.mem_cons_of_mem _ hname))
      (fun op hop => hunit op (List.mem_cons_of_mem _ hop))
    by_cases hk : k = .comma
    · subst hk
      rw [values, values, htail (by simp)]
    · have hkey : c.key table k = c.key table' k :=
        Frame.key_congr fun name hname => hconstants name (hname ▸ List.mem_cons_self)
      rw [values_key unit table c hk, values_key unit' table' c hk, hkey]
      apply (c.gives_key table' k).bind_congr
      intro c' hc'
      apply htail
      intro op hop
      rcases hc' op hop with hbefore | rfl
      · exact hpending op hbefore
      · exact hunit op List.mem_cons_self
  | group inner rest ihi ihr =>
    have hinner : inner.values unit table {} = inner.values unit' table' {} :=
      ihi (fun name hname => hconstants name (mem_toTokens_group.2 (.inr (.inl hname))))
        (fun op hop => hunit op (mem_toTokens_group.2 (.inr (.inl hop)))) (by simp)
    rw [values, values, hinner, Frame.group_congr hpending]
    apply (Frame.gives_group unit' c _).bind_congr
    intro c' hc'
    apply ihr
    · exact fun name hname => hconstants name (mem_toTokens_group.2 (.inr (.inr (.inr hname))))
    · exact fun op hop => hunit op (mem_toTokens_group.2 (.inr (.inr (.inr hop))))
    · simp [hc']

/-- The value of a line depends on the constants that it names and, if an operation of it is
trigonometric, on the unit of angles. -/
theorem value_congr {line : Line}
    (hconstants : ∀ name, .key (.constant (.named name)) ∈ line.toTokens →
      table.value? name = table'.value? name)
    (hunit : ∀ op, .key (.operation op) ∈ line.toTokens → op.isTrigonometric → unit = unit') :
    line.value unit table = line.value unit' table' := by
  have hvalues := values_congr (c := {}) hconstants hunit (by simp)
  cases line with
  | nil => rfl
  | key k rest => rw [value, value, hvalues] <;> simp
  | group inner rest => rw [value, value, hvalues] <;> simp

end Line

end Keypad
