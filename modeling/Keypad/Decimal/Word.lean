import Keypad.Decimal.Literal

/-!
# Decimals in machine words

The operations on decimals once more, with words of a fixed size for exponents and for numbers of
digits. Exponents have 64 bits. Some of their sums saturate: they stop at the nearest end. All
others are checked, and a calculation halts where one of them does not fit. The exponent of a power
of ten has 32 bits, and what does not fit is cut off without a check. So a rounding that drops
`2 ^ 32` digits or more divides by too small a power.

Mantissas may have any number of digits.
-/

namespace Keypad

open Digits Literal

/-- Why a calculation stops without a result. -/
inductive Halt where
  | overflow
  | undefined
  deriving DecidableEq, Repr

namespace Word

/-- The exponents of powers of ten are kept below this one, which is `2 ^ 32`. -/
def powerLimit : Nat := 4294967296

/-- The number of words of 64 bits, `2 ^ 64`. -/
def wordCount : Nat := 18446744073709551616

/-- Ten to the power that the last 32 bits of `n` make. -/
def pow10 (n : Nat) : Nat := Keypad.pow10 (n % powerLimit)

/-- An exponent that does not saturate. -/
def checked (e : Int) : Except Halt Int := if InWord e then .ok e else .error .overflow

/-- Each zero that leaves `m` raises the exponent, which may saturate. -/
def stripZeros (m : Nat) (e : Int) : Nat × Int :=
  if m ≠ 0 ∧ m % 10 = 0 then stripZeros (m / 10) (clampExponent (e + 1)) else (m, e)
termination_by m
decreasing_by omega

def normalize (m e : Int) : Decimal :=
  match stripZeros m.natAbs e with
  | (0, _) => .zero
  | (k, f) =>
    if f < exponentFloor then .zero
    else ⟨if m < 0 then -(k : Int) else k, min f exponentCeiling⟩

def round (m e : Int) (digits : Nat) : Decimal :=
  let excess := count m.natAbs - digits
  if excess = 0 then normalize m e
  else normalize (roundDiv m (pow10 excess)) (clampExponent (e + excess))

def scaled (m e : Int) : Decimal := round m e precision

/-- The width is an exponent before it is negated: a width from `2 ^ 63` on is taken for a negative
one, and the least of these has no opposite. -/
def ofFixed (s : Int) (w : Nat) : Except Halt Decimal :=
  do return scaled s (← checked (-Int.bmod w wordCount))

def quotient (n d e : Int) : Decimal :=
  if n = 0 then .zero
  else
    let k := precision + 3 + count d.natAbs - count n.natAbs
    scaled ((n * pow10 k).tdiv d) (clampExponent (e - k))

def ofRat (q : Rat) : Decimal := quotient q.num q.den 0

def leading (d : Decimal) : Except Halt Int :=
  if d.isZero then .ok 0 else do checked ((← checked (d.exponent + count d.mantissa.natAbs)) - 1)

def significant (d : Decimal) (digits : Nat) : Decimal := round d.mantissa d.exponent digits

def add (a b : Decimal) : Except Halt Decimal :=
  if a.isZero then .ok b
  else if b.isZero then .ok a
  else do
    let gap ← checked ((← leading a) - (← leading b))
    if (precision : Int) + 2 < gap then .ok a
    else do
      let back ← checked (-gap)
      if (precision : Int) + 2 < back then .ok b
      else do
        let e := min a.exponent b.exponent
        let i ← checked (a.exponent - e)
        let j ← checked (b.exponent - e)
        return scaled (a.mantissa * pow10 i.toNat + b.mantissa * pow10 j.toNat) e

def sub (a b : Decimal) : Except Halt Decimal := add a (-b)

def mul (a b : Decimal) : Decimal :=
  scaled (a.mantissa * b.mantissa) (clampExponent (a.exponent + b.exponent))

def div (a b : Decimal) : Except Halt Decimal :=
  if b.isZero then .error .undefined
  else .ok (quotient a.mantissa b.mantissa (clampExponent (a.exponent - b.exponent)))

def inv (d : Decimal) : Except Halt Decimal := div .one d

def compare (a b : Decimal) : Except Halt Ordering := do
  let s := (← sub a b).sign
  return if s < 0 then .lt else if s = 0 then .eq else .gt

/-- The integer part of `d · 10 ^ w`, cut towards zero. -/
def toFixed (d : Decimal) (w : Nat) : Except Halt Int := do
  let e ← checked (d.exponent + Int.bmod w wordCount)
  if 0 ≤ e then return d.mantissa * pow10 e.toNat
  else
    let k ← checked (-e)
    if count d.mantissa.natAbs + 1 < k.toNat then return 0
    else return d.mantissa.tdiv (pow10 k.toNat)

def read? (text : String) : Option Decimal :=
  match Text.trim text.toList with
  | '-' :: cs => (Decimal.unsignedParts? cs).map fun (m, e) => -(scaled m e)
  | cs => (Decimal.unsignedParts? (skip '+' cs)).map fun (m, e) => scaled m e

/-- The result, if it is defined. -/
def settle : Option Decimal → Except Halt Decimal
  | some d => .ok d
  | none => .error .undefined

end Word

end Keypad
