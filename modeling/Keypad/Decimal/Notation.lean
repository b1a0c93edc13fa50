import Keypad.Decimal.Basic

/-!
# Written decimals

The raw text of a decimal is its mantissa and its exponent, and reads back to it. The displayed
text has at most `displayedDigits` digits. It is positional for leading exponents from -3 to 9
and exponential elsewhere.
-/

namespace Keypad.Decimal

/-- The mantissa, followed by `E` and the exponent unless that is zero. -/
def raw (d : Decimal) : String :=
  if d.exponent = 0 then toString d.mantissa else s!"{d.mantissa}E{d.exponent}"

/-- Digits with the point after the first, `e`, and an exponent with its sign. -/
def exponential (digits : List Char) (e : Int) : List Char :=
  let fractional := match digits.drop 1 with
    | [] => []
    | rest => '.' :: rest
  digits.take 1 ++ fractional ++ 'e' :: (if e < 0 then '-' else '+') :: Nat.toDigits 10 e.natAbs

/-- Digits scaled by a power of ten and written out with zeros. -/
def positional (digits : List Char) (e : Int) : List Char :=
  if 0 ≤ e then digits ++ List.replicate e.toNat '0'
  else
    let places := e.natAbs
    if places < digits.length then
      digits.take (digits.length - places) ++ '.' :: digits.drop (digits.length - places)
    else '0' :: '.' :: List.replicate (places - digits.length) '0' ++ digits

/-- Is a value of this leading exponent displayed without an exponent? -/
def isPlain (leading : Int) : Bool := -3 ≤ leading && leading < 10

/-- The displayed text of a decimal. -/
def display (d : Decimal) : String :=
  if d.isZero then "0"
  else
    let r := d.significant displayedDigits
    let digits := Nat.toDigits 10 r.mantissa.natAbs
    let body := if isPlain r.leading then positional digits r.exponent
      else exponential digits r.leading
    String.ofList (if r.isNegative then '-' :: body else body)

@[simp] theorem display_zero : display zero = "0" := rfl

end Keypad.Decimal
