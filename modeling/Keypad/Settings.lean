/-!
# Settings

The unit of angles and the way fractions are shown.
-/

namespace Keypad

inductive AngleUnit where
  | degree
  | radian
  deriving DecidableEq, Repr

/-- A fraction above one is shown as `7/2`, or with its integer part as `3/1/2`. -/
inductive FractionStyle where
  | improper
  | mixed
  deriving DecidableEq, Repr

structure Settings where
  angleUnit : AngleUnit := .degree
  fractionStyle : FractionStyle := .improper
  deriving DecidableEq, Repr

end Keypad
