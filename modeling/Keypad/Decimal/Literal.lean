import Keypad.Text.Blank
import Keypad.Decimal.Basic

/-!
# Typed numbers

A keypad literal is digits with at most one point, then possibly `E`, a minus sign and digits;
`E5` alone stands for one times a power of ten. It is read without rounding, as an integer and a
power of ten. A decimal typed as a value may have a sign in front, `e` for `E` and a plus sign in
its exponent, and is rounded.
-/

namespace Keypad

namespace Literal

/-- Cuts a text at the first `c`, which is dropped. -/
def cut (c : Char) (cs : List Char) : Option (List Char × List Char) :=
  match cs.dropWhile (· != c) with
  | [] => none
  | _ :: rest => some (cs.takeWhile (· != c), rest)

/-- The text without the character `c` in front, if it is there. -/
def skip (c : Char) : List Char → List Char
  | [] => []
  | d :: cs => if d = c then cs else d :: cs

def allDigits (cs : List Char) : Bool := cs.all Char.isDigit

/-- The number that a row of decimal digits writes. -/
def value (cs : List Char) : Nat := cs.foldl (fun v c => 10 * v + (c.toNat - '0'.toNat)) 0

/-- The exponents that 64 bits hold. -/
def InWord (e : Int) : Prop := -9223372036854775808 ≤ e ∧ e ≤ 9223372036854775807

instance : DecidablePred InWord :=
  fun e => inferInstanceAs (Decidable (-9223372036854775808 ≤ e ∧ e ≤ 9223372036854775807))

/-- Exponents of literals are held in 64 bits. -/
def clampExponent (e : Int) : Int := max (-9223372036854775808) (min e 9223372036854775807)

/-- Digits, possibly after a minus sign. -/
def exponent? (cs : List Char) : Option Int :=
  let digits := skip '-' cs
  if digits.isEmpty || !allDigits digits then none
  else if cs.head? = some '-' then some (clampExponent (-(value digits : Int)))
  else some (clampExponent (value digits))

/-- Digits with at most one point, as an integer and the number of digits after the point. -/
def base? (cs : List Char) : Option (Nat × Nat) :=
  let (whole, decimals) := (cut '.' cs).getD (cs, [])
  if (whole.isEmpty && decimals.isEmpty) || !allDigits whole || !allDigits decimals then none
  else some (value (whole ++ decimals), decimals.length)

/-- The integer `m` and the exponent `e` of a literal worth `m · 10 ^ e`. -/
def parts? (cs : List Char) : Option (Nat × Int) :=
  match cut 'E' cs with
  | none => (base? cs).map fun (m, places) => (m, clampExponent (-places))
  | some ([], e) => (exponent? e).map fun k => (1, k)
  | some (b, e) => do
    let k ← exponent? e
    let (m, places) ← base? b
    return (m, clampExponent (k - places))

end Literal

namespace Decimal

/-- The parts of an unsigned value, whose exponent starts at the first `e` or `E`. -/
def unsignedParts? (cs : List Char) : Option (Nat × Int) :=
  let base := cs.takeWhile fun c => c != 'e' && c != 'E'
  match cs.dropWhile fun c => c != 'e' && c != 'E' with
  | [] => Literal.parts? base
  | _ :: e => if base.isEmpty then none else Literal.parts? (base ++ 'E' :: Literal.skip '+' e)

/-- Reads a typed value, such as `-12.5` or `1.5e+12`, with blanks around it. -/
def read? (text : String) : Option Decimal :=
  match Text.trim text.toList with
  | '-' :: cs => (unsignedParts? cs).map fun (m, e) => -(scaled m e)
  | cs => (unsignedParts? (Literal.skip '+' cs)).map fun (m, e) => scaled m e

end Decimal

end Keypad
