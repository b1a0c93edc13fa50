import Keypad.Decimal.Circular
import Keypad.Decimal.Factorial
import Keypad.Evaluation.Run
import Keypad.SpecialAngle

/-!
# Operations on quantities

What each operation of the keypad does to its operands: its domain, its exact cases and its
decimal result. A power of a fraction is computed exactly when it is not too long, and a
trigonometric ratio is exact at the special angles.
-/

namespace Keypad

/-! ## Roots and logarithms -/

def Run.sqrt (x : Quantity) : Run Quantity :=
  if x.isNegative then throw .negativeRoot else ofFunction x.toDecimal.sqrt

/-- The decimal or the natural logarithm. -/
def Run.logarithm (op : Operation) (x : Quantity) : Run Quantity :=
  if x.sign ≤ 0 then throw (.notPositive op)
  else ofFunction (if op = .log then x.toDecimal.log10 else x.toDecimal.ln)

/-- The logarithm of `x` to a base. -/
def Run.logarithmTo (base x : Quantity) : Run Quantity :=
  if base.sign ≤ 0 || base.isOne then throw .logBase
  else if x.sign ≤ 0 then throw (.notPositive .log)
  else
    match x.toDecimal.ln.div? base.toDecimal.ln with
    | none => throw .divisionByZero
    | some d => ofFunction d

/-! ## Trigonometry -/

namespace Trigonometry

/-- The noise that stands for a zero of the sine or the cosine, unless the angle is itself small,
counts as zero. -/
def withoutNoise (v angle : Decimal) : Decimal :=
  if !v.isZero && !angle.isZero && -30 ≤ angle.leading && v.leading < -40 then .zero else v

/-- A ratio from the sine and the cosine; none where its divisor is zero. -/
def fromSineCosine? (r : Ratio) (s c : Decimal) : Option Decimal :=
  match r with
  | .sin => some s
  | .cos => some c
  | .tan => s.div? c
  | .sec => Decimal.one.div? c
  | .csc => Decimal.one.div? s
  | .cot => c.div? s

/-- The decimal value of a ratio of an angle in radians. -/
def ofRadians (r : Ratio) (angle : Decimal) : Except Failure Decimal :=
  match angle.sin?, angle.cos? with
  | some s, some c =>
    match fromSineCosine? r (withoutNoise s angle) (withoutNoise c angle) with
    | some d => .ok d
    | none => .error (.undefinedRatio r)
  | _, _ => .error (.angleTooLarge r)

/-- The angle of a quantity as a fraction, to be looked up among the special angles. -/
def angle? : Quantity → Option Rat
  | .exact q => some q
  | .approx d => d.toRat?

/-- The inverse ratio of `d`, in radians. -/
def arc (r : Ratio) (d : Decimal) : Except Failure Decimal :=
  match r with
  | .sin | .cos =>
    if d.abs.compare .one = .gt then .error (.outsideUnit (.arc r))
    else .ok (if r = .sin then d.asin else d.acos)
  | .tan => .ok d.atan
  | .sec | .csc =>
    match d.inv? with
    | none => .error (.insideUnit (.arc r))
    | some i =>
      if i.abs.compare .one = .gt then .error (.insideUnit (.arc r))
      else .ok (if r = .sec then i.acos else i.asin)
  | .cot =>
    match d.inv? with
    | none => .error .zeroCotangent
    | some i => .ok i.atan

end Trigonometry

open Trigonometry in
/-- A trigonometric ratio of an angle in the given unit. -/
def Run.ratio (unit : AngleUnit) (r : Ratio) (x : Quantity) : Run Quantity :=
  match unit with
  | .radian => do ofFunction (← ofRadians r x.toDecimal)
  | .degree =>
    match (angle? x).bind fun a => (SpecialAngle.value? r a).map fun v => (a, v) with
    | some (a, v) => do
      record (SpecialAngle.record r a v)
      match v with
      | .rational q => ofExact q
      | .undefined => throw (.undefinedRatio r)
    | none => do ofFunction (← ofRadians r (x.toDecimal.mul .radiansPerDegree))

/-- An inverse ratio, as an angle in the given unit. -/
def Run.arc (unit : AngleUnit) (r : Ratio) (x : Quantity) : Run Quantity := do
  let radians ← Trigonometry.arc r x.toDecimal
  match unit with
  | .radian => ofFunction radians
  | .degree => ofFunction (radians.mul .degreesPerRadian)

/-! ## Powers -/

def isOdd (n : Int) : Bool := n % 2 != 0

/-- The number of digits above which the power of a fraction is not computed exactly. -/
def exactPowerDigits : Nat := 20000

/-- The product `acc · b ^ e`: the last binary digit of `e` tells whether `b` is a factor, the
others are those of a power of its square. -/
def mulPower (acc b : Rat) (e : Nat) : Rat :=
  if e = 0 then acc
  else
    let acc := if e % 2 = 1 then acc.mul b else acc
    if e / 2 = 0 then acc else mulPower acc (b.mul b) (e / 2)
termination_by e
decreasing_by omega

/-- The power `q ^ n`; for a negative `n` it is the inverse of the opposite one. -/
def integerPower (q : Rat) (n : Int) : Rat :=
  if n < 0 then (mulPower 1 q (-n).toNat).inv else mulPower 1 q n.toNat

/-- The power `q ^ n`, if its length is estimated within bounds. -/
def exactPower? (q : Rat) (n : Int) : Option Rat :=
  if exactPowerDigits < n.natAbs * (Digits.count q.num.natAbs + Digits.count q.den) then none
  else some (integerPower q n)

/-- The exact power of an exact base with an integer exponent. -/
def Quantity.exactPower? (a b : Quantity) : Option Rat :=
  match a, b.toInt? with
  | .exact q, some n => Keypad.exactPower? q n
  | _, _ => none

/-- Whether a power of a negative base with this exponent is negative; none if it is not real. An
exponent that is a fraction needs an odd denominator. -/
def Quantity.oddExponent? (b : Quantity) : Option Bool :=
  match b.toInt?, b with
  | some n, _ => some (isOdd n)
  | none, .exact q => if isOdd q.den then some (isOdd q.num) else none
  | none, .approx _ => none

/-- The decimal of an exponent or an index; one that is compared as an integer is that integer. -/
def Quantity.exponentDecimal (b : Quantity) : Decimal :=
  match b.toInt? with
  | some n => .ofInt n
  | none => b.toDecimal

/-- A decimal result with its sign; none is too large. -/
def Run.signed (negative : Bool) (magnitude : Option Decimal) : Run Quantity := do
  match magnitude with
  | none => throw .tooLarge
  | some m =>
    let m ← bounded m
    ofFunction (if negative then -m else m)

/-- A power of zero. -/
def Run.powerOfZero (b : Quantity) : Run Quantity :=
  if b.isNegative then throw .divisionByZero
  else if b.isZero then ofFunction .one
  else ofFunction .zero

def Run.power (a b : Quantity) : Run Quantity :=
  if a.isZero then powerOfZero b
  else
    match a.exactPower? b with
    | some r => signed false (some (.ofRat r))
    | none =>
      let base := a.toDecimal
      match if base.isNegative then b.oddExponent? else some false with
      | none => throw .negativeBase
      | some negative => signed negative (base.abs.realPower? b.exponentDecimal)

/-- The root of the given index. -/
def Run.root (index x : Quantity) : Run Quantity :=
  if index.isZero then throw .zeroIndex
  else if x.isNegative && !index.toInt?.any isOdd then throw .negativeRadicand
  else if x.isZero then
    if index.isNegative then throw .divisionByZero else ofFunction .zero
  else signed x.isNegative (x.toDecimal.abs.realRoot? index.exponentDecimal)

/-- The product `a · 10 ^ k` for an integer `k`. A hopelessly small power makes zero. -/
def Run.timesPowerOfTen (a k : Quantity) : Run Quantity :=
  match k.toInt? with
  | none => throw .fractionalExponent
  | some k =>
    if (k.natAbs : Int) ≤ 2 * maxExponent then
      let d := a.toDecimal
      signed false (some (.scaled d.mantissa (d.exponent + k)))
    else if k < 0 then ofFunction .zero
    else throw .tooLarge

/-! ## Factorial -/

def Run.factorial (x : Quantity) : Run Quantity :=
  match x.toInt? with
  | none => throw .factorialDomain
  | some n =>
    if n < 0 then throw .factorialDomain
    else if (maxFactorial : Int) < n then throw .tooLarge
    else signed false (some (.factorial n.natAbs))

/-! ## By operation -/

/-- An operation on the value of the group behind it. -/
def Operation.apply (unit : AngleUnit) (op : Operation) (x : Quantity) : Run Quantity :=
  match op with
  | squareRoot => Run.sqrt x
  | log | ln => Run.logarithm op x
  | ratio r => Run.ratio unit r x
  | arc r => Run.arc unit r x
  | power | nthRoot | exponent => throw (.misapplied op 1)

/-- An operation on the values between the commas of the group behind it. -/
def Operation.applyAll (unit : AngleUnit) (op : Operation) : List Quantity → Run Quantity
  | [x] => op.apply unit x
  | [base, x] => if op = .log then Run.logarithmTo base x else throw (.misapplied op 2)
  | values => throw (.misapplied op values.length)

/-- An operation on the operand before it and the value of the group behind it. -/
def Operation.applyBackward (op : Operation) (left right : Quantity) : Run Quantity :=
  match op with
  | power => Run.power left right
  | nthRoot => Run.root left right
  | exponent => Run.timesPowerOfTen left right
  | _ => throw (.notBackward op)

end Keypad
