import Keypad.Decimal.Notation
import Keypad.Quantity
import Keypad.Settings

/-!
# Written quantities

A quantity is displayed as a fraction when it is exact, not an integer and short enough, and as a
decimal otherwise. Its literal is the text by which a formula reads it back.
-/

namespace Keypad.Quantity

/-- The text of a fraction `n / d` of positive parts. -/
def fractionText (style : FractionStyle) (n d : Nat) : String :=
  match style with
  | .improper => s!"{n}/{d}"
  | .mixed =>
    let whole := n / d
    let rest := n % d
    if whole = 0 then s!"{rest}/{d}" else s!"{whole}/{rest}/{d}"

/-- The digits that a displayed fraction may have in its two parts together. -/
def fractionDigits : Nat := 16

def display (style : FractionStyle) : Quantity → String
  | exact q =>
    if q.den = 1 ∨ fractionDigits < Digits.count q.num.natAbs + Digits.count q.den then
      (Decimal.ofRat q).display
    else
      let body := fractionText style q.num.natAbs q.den
      if q.num < 0 then "-" ++ body else body
  | approx d => d.display

/-- A fraction in lowest terms; an integer has no bar. -/
def ratText (q : Rat) : String :=
  if q.den = 1 then toString q.num else s!"{q.num}/{q.den}"

/-- The text by which the quantity is typed. -/
def literal : Quantity → String
  | exact q => ratText q
  | approx d => d.raw

end Keypad.Quantity
