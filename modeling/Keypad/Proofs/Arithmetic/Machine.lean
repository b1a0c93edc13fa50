import Keypad.Proofs.Arithmetic.Semantics
import Keypad.Proofs.Evaluation.Frame

/-!
# The frame evaluates trees

On the line of a tree the frames of the levels compute what the tree is evaluated to, with the
arithmetic of a run: exact or not, and with the same failures in the same order.
-/

namespace Keypad

def Run.operations : Arithmetic.Operations Run Quantity where
  literal := literal
  neg := Quantity.neg
  add := add
  mul := mul
  div := div
  inv := inv
  square := square

namespace Arithmetic

open Run (operations)

/-! ## What waits for the next key -/

/-- The factors and the row of a term whose last row may go on. -/
structure Pending where
  factors : List Quantity
  divides : Bool
  parts : Parts Quantity

/-- Puts the parts of a row into a frame. -/
def Parts.load (c : Frame) : Parts Quantity → Frame
  | .whole x => { c with last := some x, parts := [] }
  | .fraction x y => { c with last := some y, parts := [x] }
  | .mixed x y z => { c with last := some z, parts := [y, x] }

def Pending.load (c : Frame) (s : Pending) : Frame :=
  s.parts.load { c with factors := s.factors, divides := s.divides }

/-- The frame at the start of a term, behind the terms `vs`. -/
def startTerm (vs : List Quantity) (minus : Bool) : Frame := { terms := vs, subtracts := minus }

def startRow (vs : List Quantity) (minus : Bool) (factors : List Quantity) (divides : Bool) :
    Frame :=
  { terms := vs, subtracts := minus, factors := factors, divides := divides }

theorem isNone_last_load (c : Frame) (s : Pending) : (s.load c).last.isNone = false := by
  obtain ⟨factors, divides, parts⟩ := s
  cases parts <;> rfl

theorem isNone_pending_load (vs : List Quantity) (minus : Bool) (s : Pending) :
    (s.load (startTerm vs minus)).pending.isSome = false := by
  obtain ⟨factors, divides, parts⟩ := s
  cases parts <;> rfl

theorem closeParts_load (c : Frame) (parts : Parts Quantity) :
    (parts.load c).closeParts = operations.close parts >>= fun v =>
      pure (v, { c with last := none, parts := [] }) := by
  cases parts with
  | whole x => rfl
  | fraction x y => rfl
  | mixed x y z => rfl

/-- Ends the last factor that waits, and gives all of them. -/
def Pending.close (s : Pending) : Run (Quantity × List Quantity) :=
  operations.close s.parts >>= fun v =>
    (if s.divides then Run.inv v else pure v) >>= fun w => pure (w, s.factors)

theorem closeFactor_load (c : Frame) (s : Pending) :
    (s.load c).closeFactor = s.close >>= fun g =>
      pure (g.1, { c with last := none, parts := [], factors := g.2, divides := false }) := by
  have hparts := closeParts_load { c with factors := s.factors, divides := s.divides } s.parts
  simp only [Frame.closeFactor, Pending.load, hparts, Pending.close, bind_assoc, pure_bind]
  cases s.divides <;> simp

theorem closeSigned_load (vs : List Quantity) (minus : Bool) (s : Pending) :
    (s.load (startTerm vs minus)).closeSigned = s.close >>= operations.product >>= fun v =>
      pure (if minus then v.neg else v, startTerm vs false) := by
  simp only [Frame.closeSigned, Frame.closeTerm, closeFactor_load, bind_assoc, pure_bind]
  rfl

def Factors.pending : Factors → Run Pending
  | .one r => r.gather operations >>= fun parts => pure ⟨[], false, parts⟩
  | .more p divides r => p.gather operations >>= fun g =>
    r.gather operations >>= fun parts => pure ⟨g.1 :: g.2, divides, parts⟩

theorem Factors.pending_close (p : Factors) :
    p.pending >>= Pending.close = p.gather operations := by
  cases p with
  | one r => simp [pending, Pending.close, Factors.gather_one, Row.eval]
  | more p divides r => simp [pending, Pending.close, Factors.gather_more, Row.eval]; rfl

/-- The terms before the last one of a level, its sign, and what waits of it. -/
def Terms.pending : Terms → Run ((List Quantity × Bool) × Pending)
  | .one p => p.pending >>= fun s => pure (([], false), s)
  | .more s minus p => s.gather operations >>= fun g =>
    p.pending >>= fun w => pure ((g.1 :: g.2, minus), w)

theorem Terms.pending_closeSigned (s : Terms) {α : Type} (k : Quantity × List Quantity → Run α) :
    (s.pending >>= fun g => (g.2.load (startTerm g.1.1 g.1.2)).closeSigned >>= fun r =>
      k (r.1, r.2.terms)) = s.gather operations >>= k := by
  cases s with
  | one p =>
    simp only [Terms.pending, closeSigned_load, Terms.gather_one, Factors.eval,
      ← p.pending_close, bind_assoc, pure_bind]
    rfl
  | more s minus p =>
    simp only [Terms.pending, closeSigned_load, Terms.gather_more, Factors.eval,
      ← p.pending_close, bind_assoc, pure_bind]
    rfl

/-! ## Lines of trees -/

variable {unit : AngleUnit} {table : ConstantTable}

theorem values_signLine (sign : Option Bool) (rest : Line) {c : Frame} (hlast : c.last = none)
    (hnegative : c.negative = false) :
    (signLine sign ++ rest).values unit table c
      = rest.values unit table { c with negative := decide (sign = some true) } := by
  obtain ⟨_, _, _, _, _, _, _, _⟩ := c
  cases hlast
  cases hnegative
  cases sign with
  | none => rfl
  | some minus => cases minus <;> rfl

/-- A key that works on the row before it finds that row closed. -/
theorem values_factorKey (divides : Bool) (rest : Line) (vs : List Quantity) (minus : Bool)
    (s : Pending) :
    (Line.key (factorKey divides) rest).values unit table (s.load (startTerm vs minus))
      = s.close >>= fun g =>
        rest.values unit table (startRow vs minus (g.1 :: g.2) divides) := by
  have hkey : (Line.key (factorKey divides) rest).values unit table (s.load (startTerm vs minus))
      = (s.load (startTerm vs minus)).factor divides >>= fun c => rest.values unit table c := by
    cases divides <;> rfl
  rw [hkey]
  simp only [Frame.factor, closeFactor_load, bind_assoc, pure_bind]
  rfl

theorem values_signKey (minus : Bool) (rest : Line) (vs : List Quantity) (before : Bool)
    (s : Pending) :
    (Line.key (signKey minus) rest).values unit table (s.load (startTerm vs before))
      = (s.load (startTerm vs before)).closeSigned >>= fun r =>
        rest.values unit table (startTerm (r.1 :: r.2.terms) minus) := by
  have hkey : (Line.key (signKey minus) rest).values unit table (s.load (startTerm vs before))
      = (s.load (startTerm vs before)).sign minus >>= fun c => rest.values unit table c := by
    cases minus <;> rfl
  rw [hkey]
  simp only [Frame.sign, isNone_last_load, Bool.false_eq_true, if_false, closeSigned_load,
    bind_assoc, pure_bind]
  rfl

/-- Behind a bar the row waits for an operand, which the line starts with, and goes on. -/
theorem values_bar {line rest : Line} {x : Run Quantity}
    (hx : ∀ {c : Frame}, c.last = none → c.pending = none → c.negative = false →
      line.values unit table c = x >>= fun v => rest.values unit table { c with last := some v })
    (vs : List Quantity) (minus : Bool) (factors : List Quantity) (divides : Bool)
    (parts : Parts Quantity) :
    (Line.key .bar line).values unit table (parts.load (startRow vs minus factors divides))
      = operations.bar parts >>= fun k => x >>= fun v =>
        rest.values unit table ((k v).load (startRow vs minus factors divides)) := by
  have hbar : (Line.key .bar line).values unit table
        (parts.load (startRow vs minus factors divides))
      = (parts.load (startRow vs minus factors divides)).bar >>= fun c =>
        line.values unit table c := rfl
  rw [hbar]
  cases parts with
  | whole y => exact hx rfl rfl rfl
  | fraction y z => exact hx rfl rfl rfl
  | mixed y z w =>
    have hclose := closeParts_load (startRow vs minus factors divides) (.mixed y z w)
    have hlength :
        ((Parts.mixed y z w).load (startRow vs minus factors divides)).parts.length = 2 := rfl
    simp only [Frame.bar, hlength, if_true, hclose, Operations.bar, bind_assoc, pure_bind]
    exact bind_congr fun v => hx rfl rfl rfl

theorem put_signed {c : Frame} (hnegative : c.negative = false) (sign : Option Bool)
    (v : Quantity) :
    ({ c with negative := decide (sign = some true) } : Frame).put v
      = { c with last := some (signed Quantity.neg sign v) } := by
  simp [Frame.put, signed, hnegative]

/-- A level that holds a single value, behind a sign that belongs to it. -/
theorem values_group (inner rest : Line) {c : Frame} {content : Run Quantity}
    (hpending : c.pending = none)
    (hinner : inner.values unit table {} = content >>= fun v => pure [v]) :
    (Line.group inner rest).values unit table c
      = content >>= fun v => rest.values unit table (c.put v) := by
  simp only [Line.values, Frame.group, hpending, hinner, bind_assoc, pure_bind]

theorem Terms.values_toLine_of_append {s : Terms}
    (h : (s.toLine ++ .nil).values unit table {} = s.pending >>= fun g =>
      Line.nil.values unit table (g.2.load (startTerm g.1.1 g.1.2))) :
    s.toLine.values unit table {} = s.eval operations >>= fun v => pure [v] := by
  have hclose := s.pending_closeSigned fun g => operations.sum g >>= fun v => pure [v]
  rw [Line.append_nil] at h
  rw [h, Terms.eval, bind_assoc, ← hclose]
  simp only [Line.values, Frame.finish, isNone_pending_load, Bool.false_eq_true, if_false,
    bind_assoc]
  rfl

mutual

theorem Terms.values_append : (s : Terms) → (rest : Line) →
    (s.toLine ++ rest).values unit table {} = s.pending >>= fun g =>
      rest.values unit table (g.2.load (startTerm g.1.1 g.1.2))
  | .one p, rest => by
    have hp := p.values_append rest [] false
    rw [Terms.toLine, Terms.pending, bind_assoc]
    exact hp
  | .more s minus p, rest => by
    have hs := s.values_append (.key (signKey minus) (p.toLine ++ rest))
    have hp (vs : List Quantity) := p.values_append rest vs minus
    have hclose := s.pending_closeSigned fun g => p.pending >>= fun w =>
      rest.values unit table (w.load (startTerm (g.1 :: g.2) minus))
    have hpending : (Terms.more s minus p).pending = s.gather operations >>= fun g =>
      p.pending >>= fun w => pure ((g.1 :: g.2, minus), w) := rfl
    rw [Terms.toLine, Line.append_assoc, Line.key_append, hs]
    simp only [values_signKey, hp, hpending, bind_assoc, pure_bind]
    exact hclose

theorem Factors.values_append : (p : Factors) → (rest : Line) → (vs : List Quantity) →
    (minus : Bool) →
    (p.toLine ++ rest).values unit table (startTerm vs minus) = p.pending >>= fun s =>
      rest.values unit table (s.load (startTerm vs minus))
  | .one r, rest, vs, minus => by
    have hr := r.values_append rest vs minus [] false
    rw [Factors.toLine, Factors.pending, bind_assoc]
    exact hr
  | .more p divides r, rest, vs, minus => by
    have hp := p.values_append (.key (factorKey divides) (r.toLine ++ rest)) vs minus
    have hr (factors : List Quantity) := r.values_append rest vs minus factors divides
    simp only [Factors.toLine, Line.append_assoc, Line.key_append, hp, values_factorKey, hr,
      Factors.pending, ← p.pending_close, bind_assoc, pure_bind]
    rfl

theorem Row.values_append : (r : Row) → (rest : Line) → (vs : List Quantity) → (minus : Bool) →
    (factors : List Quantity) → (divides : Bool) →
    (r.toLine ++ rest).values unit table (startRow vs minus factors divides)
      = r.gather operations >>= fun parts =>
        rest.values unit table (parts.load (startRow vs minus factors divides))
  | .one x, rest, vs, minus, factors, divides => by
    have hx := x.values_append rest (c := startRow vs minus factors divides) rfl rfl rfl
    rw [Row.toLine, Row.gather, hx, bind_assoc]
    rfl
  | .more r x, rest, vs, minus, factors, divides => by
    have hr := r.values_append (.key .bar (x.toLine ++ rest)) vs minus factors divides
    have hbar := values_bar (fun hlast => x.values_append rest hlast) vs minus factors divides
    rw [Row.toLine, Line.append_assoc, Line.key_append, hr, Row.gather]
    simp only [hbar, bind_assoc, pure_bind]

theorem Operand.values_append : (x : Operand) → (rest : Line) → {c : Frame} → c.last = none →
    c.pending = none → c.negative = false →
    (x.toLine ++ rest).values unit table c = x.eval operations >>= fun v =>
      rest.values unit table { c with last := some v }
  | .literal sign text, rest, c, hlast, hpending, hnegative => by
    rw [Operand.toLine, Line.append_assoc, values_signLine sign _ hlast hnegative,
      Operand.eval, bind_assoc]
    have hkey : (Line.key (.literal text) Line.nil ++ rest).values unit table
          { c with negative := decide (sign = some true) }
        = Run.literal text >>= fun v => rest.values unit table
          (({ c with negative := decide (sign = some true) } : Frame).put v) := by
      rw [Line.key_append, Line.nil_append, Line.values_key _ _ _ (by simp)]
      simp only [Frame.key, bind_assoc, pure_bind]
    rw [hkey]
    simp only [put_signed hnegative, pure_bind]
    rfl
  | .group sign s, rest, c, hlast, hpending, hnegative => by
    have hs := Terms.values_toLine_of_append (s.values_append .nil)
    rw [Operand.toLine, Line.append_assoc, values_signLine sign _ hlast hnegative,
      Operand.eval_group, bind_assoc, Line.group_append, Line.nil_append,
      values_group (c := { c with negative := decide (sign = some true) }) _ _ hpending hs]
    simp only [put_signed hnegative, pure_bind]
    rfl
  | .square x, rest, c, hlast, hpending, hnegative => by
    have hx := x.values_append (.key .square rest) hlast hpending hnegative
    rw [Operand.toLine, Line.append_assoc, Operand.eval, bind_assoc]
    refine hx.trans (bind_congr fun v => ?_)
    rw [Line.values_key _ _ _ (by simp)]
    simp only [Frame.key, Frame.update, Frame.takeLast, pure_bind, bind_assoc]
    rfl

end

/-! ## The value of a line -/

theorem append_ne_nil (l : Line) {m : Line} (h : m ≠ .nil) : l ++ m ≠ .nil := by
  cases l with
  | nil => exact h
  | key k rest => simp
  | group inner rest => simp

mutual

theorem Terms.toLine_ne_nil : (s : Terms) → s.toLine ≠ .nil
  | .one p => p.toLine_ne_nil
  | .more s _ _ => append_ne_nil s.toLine (by simp)

theorem Factors.toLine_ne_nil : (p : Factors) → p.toLine ≠ .nil
  | .one r => r.toLine_ne_nil
  | .more p _ _ => append_ne_nil p.toLine (by simp)

theorem Row.toLine_ne_nil : (r : Row) → r.toLine ≠ .nil
  | .one x => x.toLine_ne_nil
  | .more r _ => append_ne_nil r.toLine (by simp)

theorem Operand.toLine_ne_nil : (x : Operand) → x.toLine ≠ .nil
  | .literal sign _ => append_ne_nil (signLine sign) (by simp)
  | .group sign _ => append_ne_nil (signLine sign) (by simp)
  | .square x => append_ne_nil x.toLine (by simp)

end

/-- A line with one value is evaluated to it. -/
theorem value_of_values {line : Line} (hne : line ≠ .nil) {unit : AngleUnit} {table : ConstantTable}
    {m : Run Quantity} (h : line.values unit table {} = m >>= fun v => pure [v]) :
    line.value unit table = m >>= Run.settle := by
  rw [Line.value]
  · rw [h, bind_assoc]
    simp only [pure_bind]
  · exact hne

/-- The line of a tree is evaluated like the tree. -/
theorem Terms.value_toLine (s : Terms) (unit : AngleUnit) (table : ConstantTable) :
    s.toLine.value unit table = s.eval operations >>= Run.settle :=
  value_of_values s.toLine_ne_nil (Terms.values_toLine_of_append (s.values_append .nil))

end Arithmetic

end Keypad
