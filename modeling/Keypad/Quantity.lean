import Keypad.Decimal.Binary64

/-!
# Quantities

The value of an operand is exact, a fraction, or approximate, a decimal. A calculation keeps exact
values only while their parts stay within `fractionBound`.
-/

namespace Keypad

inductive Quantity where
  | exact (q : Rat)
  | approx (d : Decimal)
  deriving DecidableEq, Repr

namespace Quantity

def zero : Quantity := exact 0

def ofInt (n : Int) : Quantity := exact (mkRat n 1)

def isExact : Quantity → Bool
  | exact _ => true
  | approx _ => false

def sign : Quantity → Int
  | exact q => q.num.sign
  | approx d => d.sign

def isZero (v : Quantity) : Bool := v.sign == 0

def isNegative (v : Quantity) : Bool := v.sign < 0

def isOne : Quantity → Bool
  | exact q => q.num == 1 && q.den == 1
  | approx d => d == .one

def neg : Quantity → Quantity
  | exact q => exact q.neg
  | approx d => approx (-d)

def toDecimal : Quantity → Decimal
  | exact q => .ofRat q
  | approx d => d

def toBinary64 : Quantity → Nat
  | exact q => Binary64.ofRat q
  | approx d => Binary64.ofDecimal d

/-- The integer that a decimal is when compared to `comparedDigits` digits. -/
def comparedInt? (d : Decimal) : Option Int := (d.significant comparedDigits).toInt?

/-- The integer that the quantity is: exactly, or as far as its digits are compared. -/
def toInt? : Quantity → Option Int
  | exact q => if q.den = 1 then some q.num else none
  | approx d => comparedInt? d

/-! ## Bounds -/

/-- Are both parts of the fraction within the bound for exact values? -/
def inBounds (q : Rat) : Bool := q.num.natAbs ≤ fractionBound && q.den ≤ fractionBound

/-- Is the decimal larger in size than any answer may be? -/
def exceedsMaximum (d : Decimal) : Bool := !d.isZero && maxExponent < d.leading

/-- The exact value `m · 10 ^ e` of a literal, if it is within bounds. Exponents beyond 40 are not
tried. -/
def literalRat? (m : Int) (e : Int) : Option Rat :=
  if m = 0 then some 0
  else if 40 < e.natAbs then none
  else
    let q := Decimal.fraction m e
    if inBounds q then some q else none

/-- The largest number of decimal places of a decimal that looks rational. -/
def maxPlaces : Int := 8

/-- The fraction that a decimal is meant to be, if it looks rational: rounded to `comparedDigits`
digits it is an integer, or has at most `maxPlaces` places and is not below a thousandth, and its
fraction is within bounds. -/
def rational? (d : Decimal) : Option Rat :=
  let r := d.significant comparedDigits
  if r.isZero then some 0
  else if 9 < r.leading then none
  else if r.isInteger then r.toRat?.filter inBounds
  else if r.leading < -3 then none
  else if maxPlaces < -r.exponent then none
  else r.toRat?.filter fun q => inBounds q && (Decimal.ofRat q).significant comparedDigits == r

end Quantity

end Keypad
