import Keypad.Decimal.Basic

/-!
# Nearest doubles

The 64 bits of the binary floating-point number nearest to a fraction, a tie going to the even
neighbour. Values too large become infinite; values too small become subnormal, then a zero that
keeps the sign.
-/

namespace Keypad.Binary64

/-- The bits of infinity, which are also those after the largest finite number. -/
def infinityBits : Nat := 0x7ff0000000000000

/-- The quotient `n / d` rounded to the nearest integer, a tie to the even one. -/
def roundEven (n d : Nat) : Nat :=
  let q := n / d
  let r := n % d
  if d < 2 * r ∨ (2 * r = d ∧ q % 2 = 1) then q + 1 else q

/-- The quotient `n / (d · 2 ^ e)` as a pair of numerator and denominator. -/
def shifted (n d : Nat) (e : Int) : Nat × Nat :=
  if 0 ≤ e then (n, d <<< e.toNat) else (n <<< e.natAbs, d)

/-- The power of two that leaves 53 bits before the point of `n / d`, or the least allowed. -/
def scale (n d : Nat) : Int :=
  let e : Int := (n.log2 : Int) - d.log2 - 52
  let (a, b) := shifted n d e
  max (-1074) (if a < b <<< 52 then e - 1 else e)

/-- The bits of the magnitude `n / d`, for `n` and `d` positive. The significand is added, not
masked in: its leading bit and a carry out of it both step the exponent. -/
def magnitudeBits (n d : Nat) : Nat :=
  let e := scale n d
  let (a, b) := shifted n d e
  min infinityBits ((e + 1074).toNat <<< 52 + roundEven a b)

def signBit (negative : Bool) : Nat := if negative then 1 <<< 63 else 0

def ofRat (q : Rat) : Nat :=
  if q.num = 0 then 0 else signBit (q.num < 0) + magnitudeBits q.num.natAbs q.den

/-- The power of ten decides alone for magnitudes that no double can hold. -/
def ofDecimal (d : Decimal) : Nat :=
  if d.isZero then 0
  else if 400 < d.leading then signBit d.isNegative + infinityBits
  else if d.leading < -400 then signBit d.isNegative
  else ofRat d.value

end Keypad.Binary64
