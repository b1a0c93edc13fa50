import Keypad.ConstantTable
import Keypad.Quantity
import Keypad.Settings

/-!
# Runs of a calculation

A calculation is exact until a value leaves the bounds for exact values or looks irrational; from
then on every result is a decimal. A run carries that state, records the special angles met and
ends with the first failure. The four operations of arithmetic are defined here.
-/

namespace Keypad

/-- What a run has gathered: whether it is still exact, and its records in order. -/
structure Trail where
  exact : Bool := true
  records : List String := []
  deriving DecidableEq, Repr

abbrev Run := StateT Trail (Except Failure)

namespace Run

/-- Ends the exact part of the run. -/
def degrade : Run Unit := modify fun t => { t with exact := false }

def record (line : String) : Run Unit := modify fun t => { t with records := t.records ++ [line] }

/-- A value in accord with the state of the run: an exact one stays exact only in an exact run and
within bounds, and a decimal ends the exact part. -/
def settle : Quantity → Run Quantity
  | .exact q => do
    if (← get).exact && Quantity.inBounds q then return .exact q
    else
      degrade
      return .approx (.ofRat q)
  | .approx d => do
    degrade
    return .approx d

/-- The decimal result of a function, made exact in an exact run if it looks rational. -/
def ofFunction (d : Decimal) : Run Quantity := do
  if (← get).exact then
    match Quantity.rational? d with
    | some q => return .exact q
    | none =>
      degrade
      return .approx d
  else return .approx d

/-- The exact result of a function. -/
def ofExact (q : Rat) : Run Quantity := do
  if (← get).exact then settle (.exact q) else return .approx (.ofRat q)

/-- Refuses a decimal that is too large for an answer. -/
def bounded (d : Decimal) : Run Decimal :=
  if Quantity.exceedsMaximum d then throw .tooLarge else return d

/-- An operation of arithmetic, on fractions in an exact run and on decimals otherwise. -/
def combine (onRat : Rat → Rat → Rat) (onDecimal : Decimal → Decimal → Option Decimal)
    (a b : Quantity) : Run Quantity := do
  match (← get).exact, a, b with
  | true, .exact x, .exact y => settle (.exact (onRat x y))
  | _, a, b =>
    match onDecimal a.toDecimal b.toDecimal with
    | none => throw .divisionByZero
    | some d => settle (.approx (← bounded d))

def add : Quantity → Quantity → Run Quantity := combine Rat.add fun a b => some (a.add b)

def mul : Quantity → Quantity → Run Quantity := combine Rat.mul fun a b => some (a.mul b)

def div (a b : Quantity) : Run Quantity :=
  if b.isZero then throw .divisionByZero else combine Rat.div Decimal.div? a b

def inv (v : Quantity) : Run Quantity := div (.ofInt 1) v

def square : Quantity → Run Quantity
  | .exact q => do
    if (← get).exact then settle (.exact (q.mul q))
    else
      let d := Decimal.ofRat q
      settle (.approx (← bounded (d.mul d)))
  | .approx d => do settle (.approx (← bounded (d.mul d)))

/-! ## Operands -/

/-- The value of a literal. One that is too small to be told from zero is zero, but not exact. -/
def literal (text : String) : Run Quantity := do
  match Literal.parts? text.toList with
  | none => throw (.unreadLiteral text)
  | some (m, e) =>
    let d ← bounded (.scaled m e)
    if d.leading < -2 * maxExponent then
      degrade
      return .approx .zero
    else if (← get).exact then
      match Quantity.literalRat? m e with
      | some q => return .exact q
      | none =>
        degrade
        return .approx d
    else return .approx d

end Run

end Keypad
