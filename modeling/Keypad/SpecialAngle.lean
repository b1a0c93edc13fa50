import Keypad.Decimal.Literal
import Keypad.Quantity.Notation
import Keypad.Token

/-!
# Special angles

The angles, in degrees, at which a trigonometric ratio is rational or is not defined. They are
multiples of fifteen degrees, of which a turn has twenty-four.
-/

namespace Keypad

/-- What is known of a ratio at a special angle. -/
inductive SpecialValue where
  | rational (q : Rat)
  | undefined
  deriving DecidableEq, Repr

namespace SpecialAngle

/-- The multiple of fifteen degrees that an angle is, counted modulo a full turn. A remainder with
the sign of the angle is taken first; it fits into 64 bits, and is then brought between zero and a
turn. -/
def step? (angle : Rat) : Option Nat :=
  let q := angle / 15
  if q.den = 1 then
    let rest := q.num.tmod 24
    if Literal.InWord rest then some (rest % 24).toNat else none
  else none

/-- The sine of `k` times fifteen degrees, where it is rational. -/
def sine? (k : Nat) : Option Rat :=
  match k % 24 with
  | 0 | 12 => some 0
  | 2 | 10 => some (mkRat 1 2)
  | 6 => some 1
  | 14 | 22 => some (mkRat (-1) 2)
  | 18 => some (-1)
  | _ => none

def cosine? (k : Nat) : Option Rat := sine? (k + 6)

/-- One over a value; the inverse of zero is not defined. -/
def inverse (q : Rat) : SpecialValue := if q.num = 0 then .undefined else .rational q.inv

/-- The tangent of `k` times fifteen degrees, where it is rational or not defined. -/
def tangent? (k : Nat) : Option SpecialValue :=
  match k with
  | 0 | 12 => some (.rational 0)
  | 3 | 15 => some (.rational 1)
  | 9 | 21 => some (.rational (-1))
  | 6 | 18 => some .undefined
  | _ => none

def cotangent? (k : Nat) : Option SpecialValue :=
  match k with
  | 6 | 18 => some (.rational 0)
  | 3 | 15 => some (.rational 1)
  | 9 | 21 => some (.rational (-1))
  | 0 | 12 => some .undefined
  | _ => none

def atStep? (k : Nat) : Ratio → Option SpecialValue
  | .sin => (sine? k).map .rational
  | .cos => (cosine? k).map .rational
  | .tan => tangent? k
  | .sec => (cosine? k).map inverse
  | .csc => (sine? k).map inverse
  | .cot => cotangent? k

/-- The ratio of an angle in degrees, if the angle is special for it. -/
def value? (r : Ratio) (angle : Rat) : Option SpecialValue := do atStep? (← step? angle) r

/-- The line that records how a special angle was evaluated. -/
def record (r : Ratio) (angle : Rat) (v : SpecialValue) : String :=
  let outcome := match v with
    | .rational q => Quantity.ratText q
    | .undefined => "indéfini"
  s!"{r.name}({angle.num}°) = {outcome}"

end SpecialAngle

end Keypad
