import Keypad.Evaluation.Operation

/-!
# Frames

The state of one level of a line while it is evaluated: the terms, factors and parts of a fraction
that wait for what follows, each kind with the latest first, and the operand read last. A sign
between two terms closes a term; a sign elsewhere belongs to the next operand. A division is
carried out as a product with the inverse when its divisor is complete. Waiting terms and factors
are drained from the first one on.
-/

namespace Keypad

structure Frame where
  terms : List Quantity := []
  factors : List Quantity := []
  parts : List Quantity := []
  last : Option Quantity := none
  /-- The operation whose group comes next. -/
  pending : Option Operation := none
  /-- The current term is subtracted. -/
  subtracts : Bool := false
  /-- The current factor is a divisor. -/
  divides : Bool := false
  /-- The next operand has a minus sign. -/
  negative : Bool := false

namespace Frame

/-- Puts an operand, with the sign that waits for it. -/
def put (c : Frame) (v : Quantity) : Frame :=
  { c with last := some (if c.negative then v.neg else v), negative := false }

/-- The last operand, which is taken away. -/
def takeLast (c : Frame) : Run (Quantity × Frame) :=
  match c.last with
  | some v => return (v, { c with last := none })
  | none => throw .missingOperand

/-- The value of a fraction `n/d` or `w/n/d`, given the parts before the last, latest first. -/
def closeFraction (parts : List Quantity) (v : Quantity) : Run Quantity :=
  match parts with
  | [] => return v
  | [n] => Run.div n v
  | [n, w] => do Run.add w (← Run.div n v)
  | _ => throw .brokenFraction

/-- Ends the row of fractions at the last operand. -/
def closeParts (c : Frame) : Run (Quantity × Frame) := do
  let (v, c) ← c.takeLast
  return (← closeFraction c.parts v, { c with parts := [] })

/-- The last factor, inverted if it is a divisor. -/
def closeFactor (c : Frame) : Run (Quantity × Frame) := do
  let (v, c) ← c.closeParts
  let v ← if c.divides then Run.inv v else pure v
  return (v, { c with divides := false })

/-- Ends a term: the product of the waiting factors and the last one. -/
def closeTerm (c : Frame) : Run (Quantity × Frame) := do
  let (v, c) ← c.closeFactor
  return (← c.factors.foldrM Run.mul v, { c with factors := [] })

/-- Ends a term and gives it its sign within the sum. -/
def closeSigned (c : Frame) : Run (Quantity × Frame) := do
  let (v, c) ← c.closeTerm
  return (if c.subtracts then v.neg else v, { c with subtracts := false })

/-- Ends the level: the sum of the waiting terms and the last one. -/
def finish (c : Frame) : Run Quantity := do
  if c.pending.isSome then throw .unusedOperation
  let (v, c) ← c.closeSigned
  c.terms.foldrM Run.add v

/-! ## Steps -/

def sign (c : Frame) (minus : Bool) : Run Frame := do
  if c.last.isNone then return { c with negative := minus }
  else
    let (v, c) ← c.closeSigned
    return { c with terms := v :: c.terms, subtracts := minus }

def factor (c : Frame) (divides : Bool) : Run Frame := do
  let (v, c) ← c.closeFactor
  return { c with factors := v :: c.factors, divides := divides, negative := false }

/-- A bar. After two parts the value so far starts a new row. -/
def bar (c : Frame) : Run Frame := do
  let (v, c) ← if c.parts.length = 2 then c.closeParts else c.takeLast
  return { c with parts := v :: c.parts }

/-- Replaces the last operand. -/
def update (c : Frame) (f : Quantity → Run Quantity) : Run Frame := do
  let (v, c) ← c.takeLast
  return { c with last := some (← f v) }

/-- The value of a constant. -/
def constant (table : ConstantTable) : Constant → Run Quantity
  | .pi => do
    Run.degrade
    return .approx .pi
  | .euler => do
    Run.degrade
    return .approx .euler
  | .named name =>
    match table.value? name with
    | none => throw (.unknownConstant name)
    | some d => do
      Run.degrade
      return .approx d

/-- Reads a key. -/
def key (table : ConstantTable) (c : Frame) : Key → Run Frame
  | .literal text => do return c.put (← Run.literal text)
  | .constant k => do return c.put (← constant table k)
  | .operation op => return { c with pending := some op }
  | .plus => c.sign false
  | .minus => c.sign true
  | .times => c.factor false
  | .obelus => c.factor true
  | .bar => c.bar
  | .square => c.update Run.square
  | .bang => c.update Run.factorial
  | k => throw (.strayKey k)

/-- Reads a group, given the evaluation of its content. The operation in front of it is applied. -/
def group (unit : AngleUnit) (c : Frame) (content : Run (List Quantity)) : Run Frame := do
  match c.pending with
  | none =>
    match ← content with
    | [v] => return c.put v
    | _ => throw (.strayKey .comma)
  | some op =>
    let c := { c with pending := none }
    if op.isBackward then
      let (left, c) ← c.takeLast
      match ← content with
      | [right] => return { c with last := some (← op.applyBackward left right) }
      | _ => throw (.strayKey .comma)
    else return c.put (← op.applyAll unit (← content))

end Frame

end Keypad
