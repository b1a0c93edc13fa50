import Keypad.Decimal.Basic

/-!
# Factorials

A product of the integers up to `n` that is rounded to 58 digits whenever it exceeds 226 bits.
-/

namespace Keypad.Decimal

/-- The binary length at which a running product is rounded, about 68 decimal digits. -/
def productBits : Nat := (precision + 20) * 10 / 3

/-- The digits a rounded product keeps. -/
def productDigits : Nat := precision + 10

/-- A running product `m · 10 ^ e`, multiplied by `i`. -/
def productStep (p : Nat × Nat) (i : Nat) : Nat × Nat :=
  let m := p.1 * i
  if m.log2 < productBits then (m, p.2)
  else
    let k := Digits.count m - productDigits
    (Digits.roundDivNat m (pow10 k), p.2 + k)

def factorial (n : Nat) : Decimal :=
  let p := n.fold (fun i _ p => productStep p (i + 1)) (1, 0)
  scaled p.1 p.2

end Keypad.Decimal
