import Keypad.Proofs.Evaluation.Steps
import Keypad.Proofs.Percent.Operand

/-!
# Reading an operand

The canonical form of an operand is evaluated from any state in which an operand is expected. The
state matters for a sign that waits, and only what the operand begins with takes this sign; what
stands behind replaces the operand read last.
-/

namespace Keypad

open Canonical Run Quantity

variable {unit : AngleUnit} {table : ConstantTable} {answer : Except Failure Line}
variable {c : Frame}

/-- The quantity with its sign changed, if it is to be. -/
def Quantity.negIf (v : Quantity) (negative : Bool) : Quantity := if negative then v.neg else v

/-- The line is read as an operand. The state matters for the sign only, which changes the value. -/
structure Line.IsRead (unit : AngleUnit) (table : ConstantTable) (own : Line)
    (r : Bool → Run Quantity) : Prop where
  undivided : own.commas = 0
  signed : Agree (fun v w => w = v.neg) (r false) (r true)
  advance (c : Frame) (hc : c.pending = none) : own.advance unit table c
    = r c.negative >>= fun v => pure { c with last := some v, negative := false }

theorem isRead_of_put {own : Line} {m : Run Quantity} (hcommas : own.commas = 0)
    (hown : ∀ c : Frame, c.pending = none →
      own.advance unit table c = m >>= fun v => pure (c.put v)) :
    own.IsRead unit table fun negative => m >>= fun v => pure (v.negIf negative) where
  undivided := hcommas
  signed := agree_bind_left fun v => agree_pure rfl
  advance c hc := by
    rw [hown c hc, bind_assoc]
    rfl

theorem exists_isRead_key {k : Key} {m : Run Quantity} (hk : k ≠ .comma)
    (hm : ∀ c : Frame, c.key table k = m >>= fun v => pure (c.put v)) :
    ∃ r, (Line.key k .nil).IsRead unit table r := by
  refine ⟨_, isRead_of_put (m := m) (by simp [Line.commas, hk]) fun c _ => ?_⟩
  rw [Line.advance, hm, bind_assoc]
  rfl

theorem exists_isRead_group (content : Line) :
    ∃ r, (Line.group content .nil).IsRead unit table r := by
  refine ⟨_, isRead_of_put (m := content.values unit table {} >>= Frame.only) rfl fun c hc => ?_⟩
  rw [Line.advance_group, Frame.group_of_pending_none hc]

theorem exists_isRead_call {op : Operation} (hforward : op.isBackward = false) (content : Line) :
    ∃ r, (Line.key (.operation op) (.group content .nil)).IsRead unit table r := by
  refine ⟨_, isRead_of_put (m := content.values unit table {} >>= op.applyAll unit) rfl
    fun c hc => ?_⟩
  rw [Line.advance, Frame.key, pure_bind, Line.advance_group,
    Frame.group_of_not_isBackward rfl hforward]
  simp only [Frame.put, hc]

/-- The sign in front of the literal has changed what the power of ten multiplies. -/
theorem exists_isRead_scaled (digits : String) (content : Line) :
    ∃ r, (Line.key (.literal digits) (.key (.operation .exponent)
      (.group content .nil))).IsRead unit table r := by
  let scale (v : Quantity) : Run Quantity :=
    content.values unit table {} >>= Frame.only >>= timesPowerOfTen v
  refine ⟨fun negative => literal digits >>= fun v => scale (v.negIf negative), rfl, ?_,
    fun c hc => ?_⟩
  · exact agree_bind_left fun v => agree_bind_left fun k => agree_timesPowerOfTen_neg v k
  · have hgroup (v : Quantity) : Frame.group unit { c.put v with pending := some .exponent }
        (content.values unit table {}) = scale (v.negIf c.negative) >>= fun v =>
          pure { c with last := some v, negative := false } := by
      have hback : Operation.exponent.isBackward = true := rfl
      rw [Frame.group_of_isBackward rfl hback]
      simp only [Frame.update, Frame.takeLast, Frame.put, pure_bind, hc]
      rfl
    simp only [Line.advance, Frame.key, bind_assoc, pure_bind, bind_pure, hgroup]

theorem exists_isRead_of_form (unit : AngleUnit) (table : ConstantTable) {a : Atom} {own : Line}
    (h : a.form answer = .ok own) : ∃ r, own.IsRead unit table r := by
  cases a with
  | literal text hclosed =>
    simp only [Atom.form, Progress.emit, hclosed] at h
    obtain ⟨-, -, h⟩ := Except.exists_of_bind h
    cases h
    exact exists_isRead_key (by simp) fun _ => rfl
  | constant k =>
    cases h
    exact exists_isRead_key (by simp) fun _ => rfl
  | answer =>
    obtain ⟨content, -, h⟩ := Except.exists_of_bind h
    cases h
    exact exists_isRead_group content
  | group inner =>
    obtain ⟨content, -, rfl⟩ := exists_of_groupForm h
    exact exists_isRead_group content
  | call op hforward inner =>
    obtain ⟨own, hown, h⟩ := Except.exists_of_bind h
    obtain ⟨content, -, rfl⟩ := exists_of_groupForm hown
    cases h
    exact exists_isRead_call hforward content
  | scaled text hopened inner =>
    obtain ⟨base, hbase⟩ := Option.isSome_iff_exists.1 hopened
    obtain ⟨mantissa, hmantissa, h⟩ := Except.exists_of_bind h
    obtain ⟨own, hown, h⟩ := Except.exists_of_bind h
    obtain ⟨content, -, rfl⟩ := exists_of_groupForm hown
    cases h
    simp only [Progress.emit, hbase, Bool.not_true, if_neg Bool.false_ne_true] at hmantissa
    split at hmantissa
    · cases hmantissa
      exact exists_isRead_scaled _ content
    · obtain ⟨-, -, hmantissa⟩ := Except.exists_of_bind hmantissa
      cases hmantissa
      exact exists_isRead_scaled _ content

theorem Suffix.commas_of_form {s : Suffix} {own : Line} (h : s.form answer = .ok own) :
    own.commas = 0 := by
  cases s with
  | percent | square | bang =>
    cases h
    rfl
  | applied op hbackward inner =>
    obtain ⟨own, hown, h⟩ := Except.exists_of_bind h
    obtain ⟨content, -, rfl⟩ := exists_of_groupForm hown
    cases h
    rfl

theorem Suffix.commas_of_forms {suffixes : List Suffix} {own : Line}
    (h : forms answer suffixes = .ok own) : own.commas = 0 := by
  induction suffixes generalizing own with
  | nil =>
    cases h
    rfl
  | cons s suffixes ih =>
    obtain ⟨first, hfirst, h⟩ := Except.exists_of_bind h
    obtain ⟨others, hothers, h⟩ := Except.exists_of_bind h
    cases h
    rw [Line.commas_append, s.commas_of_form hfirst, ih hothers]

theorem TypedOperand.commas_of_form {x : TypedOperand} {own : Line} (h : x.form answer = .ok own) :
    own.commas = 0 := by
  obtain ⟨first, hfirst, h⟩ := Except.exists_of_bind h
  obtain ⟨others, hothers, h⟩ := Except.exists_of_bind h
  cases h
  obtain ⟨r, hread⟩ := exists_isRead_of_form .degree {} hfirst
  rw [Line.commas_append, hread.undivided, Suffix.commas_of_forms hothers]

theorem Suffix.eq_percent_of_isPercent {s : Suffix} (h : s.isPercent) : s = percent := by
  cases s with
  | percent => rfl
  | _ => cases h

/-- What stands behind an operand replaces it, unless it is a percent sign. -/
theorem exists_update_of_form (unit : AngleUnit) (table : ConstantTable) {s : Suffix} {own : Line}
    (h : s.form answer = .ok own) (hs : s.isPercent = false) :
    ∃ f : Quantity → Run Quantity, ∀ c : Frame,
      c.pending = none → own.advance unit table c = c.update f := by
  cases s with
  | percent => cases hs
  | square =>
    cases h
    exact ⟨_, fun c _ => bind_pure _⟩
  | bang =>
    cases h
    exact ⟨_, fun c _ => bind_pure _⟩
  | applied op hbackward inner =>
    obtain ⟨own, hown, h⟩ := Except.exists_of_bind h
    obtain ⟨content, -, rfl⟩ := exists_of_groupForm hown
    cases h
    refine ⟨fun v => content.values unit table {} >>= Frame.only >>= op.applyBackward v,
      fun c hc => ?_⟩
    rw [Line.advance, Frame.key, pure_bind, Line.advance_group,
      Frame.group_of_isBackward rfl hbackward, Frame.update, Frame.update]
    simp only [Frame.takeLast, hc]

/-- An operand may stand behind the state that is neither a divisor nor a part of a fraction. -/
structure Frame.Ready (c : Frame) : Prop where
  last : c.last = none
  parts : c.parts = []
  pending : c.pending = none
  divides : c.divides = false

end Keypad
