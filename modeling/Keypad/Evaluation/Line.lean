import Keypad.Evaluation.Frame
import Keypad.Line

/-!
# The value of a line

A canonical line is evaluated level by level. A level has one value between any two commas; only
the arguments of an operation make use of more than one.
-/

namespace Keypad.Line

/-- The values of the rest of a level, of which `c` is the state. -/
def values (unit : AngleUnit) (table : ConstantTable) (c : Frame) : Line → Run (List Quantity)
  | nil => do return [← c.finish]
  | key .comma rest => do
    let v ← c.finish
    return v :: (← values unit table {} rest)
  | key k rest => do values unit table (← c.key table k) rest
  | group inner rest => do
    values unit table (← c.group unit (values unit table {} inner)) rest

/-- The value of a line; an empty one is zero. -/
def value (unit : AngleUnit) (table : ConstantTable) (line : Line) : Run Quantity := do
  match line with
  | nil => Run.settle .zero
  | line =>
    match ← line.values unit table {} with
    | [v] => Run.settle v
    | _ => throw (.strayKey .comma)

end Keypad.Line
