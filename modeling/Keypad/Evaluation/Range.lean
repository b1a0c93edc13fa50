import Keypad.Evaluation.Frame
import Keypad.Token.Paired

/-!
# The value of tokens

Tokens are evaluated in place: a level is the range of positions between two parentheses or commas.
At a left parenthesis the evaluation goes into the range up to the right one, and then on behind it.
The arguments of an operation are the ranges between the commas. A canonical line has the same value
when it is evaluated as a tree.
-/

namespace Keypad

/-- Reads a group: `whole` evaluates its content, and `arguments` the ranges between the commas. -/
def Frame.groupAt (unit : AngleUnit) (c : Frame) (whole : Run Quantity)
    (arguments : List (Run Quantity)) : Run Frame := do
  match c.pending with
  | none => return c.put (← whole)
  | some op =>
    let c := { c with pending := none }
    if op.isBackward then
      let (left, c) ← c.takeLast
      return { c with last := some (← op.applyBackward left (← whole)) }
    else if op.commas?.isSome ∧ 1 < arguments.length then
      return c.put (← op.applyAll unit (← arguments.mapM id))
    else return c.put (← op.apply unit (← whole))

/-- What an evaluation reads and never changes. -/
structure Evaluator where
  unit : AngleUnit
  table : ConstantTable
  buffer : PairedTokens

namespace Evaluator

mutual

/-- The value of the positions from `start` to `stop`; where there are none it is zero. -/
def range (e : Evaluator) (start stop : Nat) : Run Quantity :=
  if start = stop then return .zero else e.level stop {} start
termination_by (stop - start, 1)

/-- The value of the level that ends at `stop`, of which `c` is the state at the position `i`. -/
def level (e : Evaluator) (stop : Nat) (c : Frame) (i : Nat) : Run Quantity :=
  if i < stop then
    match e.buffer.tokens[i]? with
    | none => throw .missingToken
    | some (.key k) => do e.level stop (← c.key e.table k) (i + 1)
    | some .right => throw .strayRight
    | some .left =>
      match e.buffer.closing? i with
      | none => throw .openGroup
      | some ⟨j, hij⟩ =>
        if hj : j < stop then do
          let arguments := (commaRanges e.buffer.tokens (i + 1) j).attach.map fun r =>
            e.range r.1.1 r.1.2
          let c ← c.groupAt e.unit (e.range (i + 1) j) arguments
          e.level stop c (j + 1)
        else throw .openGroup
  else c.finish
termination_by (stop - i, 0)
decreasing_by
  · exact Prod.Lex.left _ _ (by omega)
  · have hbounds := bounds_of_mem_commaRanges r.2 hij
    exact Prod.Lex.left _ _ (by omega)
  · exact Prod.Lex.left _ _ (by omega)
  · exact Prod.Lex.left _ _ (by omega)

end

end Evaluator

/-- The value of canonical tokens. -/
def tokensValue (unit : AngleUnit) (table : ConstantTable) (tokens : List Token) : Run Quantity :=
  match PairedTokens.ofTokens tokens with
  | .error _ => throw .unpaired
  | .ok buffer =>
    if buffer.pairing.missing = 0 then do
      Run.settle (← Evaluator.range ⟨unit, table, buffer⟩ 0 tokens.length)
    else throw .unpaired

end Keypad
