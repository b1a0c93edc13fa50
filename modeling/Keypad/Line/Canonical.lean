import Keypad.Decimal.Literal
import Keypad.Failure
import Keypad.Line
import Keypad.Token.Adjacency

/-!
# Canonical lines

The shorthand of a typed line is written out: every left parenthesis is closed, understood
multiplications are shown, a run of signs becomes one sign, a percent sign becomes a division by a
hundred, `Ans` becomes the previous answer in parentheses and an `E` before a group becomes an
operation. One pass over each level does this and refuses what cannot be evaluated. Commas are
admitted only between the arguments of an operation that takes several, where each argument is a
level of its own.
-/

namespace Keypad

/-- Refuses a literal that does not write a number. -/
def Literal.check (text : String) : Except Failure Unit :=
  let cs := text.toList
  let late := match Literal.cut 'E' cs with
    | some (_, exponent) => exponent.contains '.'
    | none => false
  if 1 < cs.count '.' then .error (.manyPoints text)
  else if 1 < cs.count 'E' then .error (.manyExponents text)
  else if late then .error (.pointAfterExponent text)
  else if (Literal.parts? cs).isNone then .error (.badLiteral text)
  else .ok ()

namespace Canonical

/-- Where a level stands: behind which operation, and whether commas divide it. -/
structure Place where
  operation : Option Operation := none
  divided : Bool := false

/-- The place inside a group that follows an operation or none. -/
def Place.inside (op : Option Operation) : Place :=
  ⟨op, (op.bind Operation.commas?).isSome⟩

/-- What is known of a level while it is read. -/
structure Progress where
  /-- A run of signs that waits; `true` if it holds an odd number of minus signs. -/
  sign : Option Bool := none
  /-- Bars in the current row of fractions. -/
  bars : Nat := 0
  /-- The last token read. -/
  previous : Option Token := none
  /-- The operation to which the next group belongs. -/
  pending : Option Operation := none

/-- At most two bars, as in `a/b/c`. -/
def maxBars : Nat := 2

namespace Progress

def hasOperand (p : Progress) : Bool := p.previous.any Token.completes

/-- Is a multiplication understood before the token? -/
def multiplies (p : Progress) (t : Token) : Bool := p.hasOperand && t.begins

/-- The keys to write before the next token: the folded sign, or an understood multiplication. -/
def lead (p : Progress) (t : Token) : Line :=
  match p.sign with
  | some odd => .key (if odd then .minus else .plus) .nil
  | none => if p.multiplies t then .key .times .nil else .nil

def addSign (p : Progress) (minus : Bool) : Progress :=
  { sign := some (p.sign.getD false != minus)
    previous := some (.key (if minus then .minus else .plus)) }

/-- A key that works on an operand must follow one. -/
def requireOperand (p : Progress) (k : Key) : Except Failure Unit :=
  if p.hasOperand then .ok () else .error (.incomplete (.key k))

/-- The end of a level: it is not empty and its last operand is complete. -/
def finish (p : Progress) (place : Place) : Except Failure Unit :=
  match p.previous with
  | none => .error (.emptyGroup place.operation)
  | some t => if p.sign.isNone && t.completes then .ok () else .error (.incomplete t)

/-- The canonical form of a key other than a sign or a comma. -/
def emit (p : Progress) (answer : Except Failure Line) (beforeGroup : Bool) :
    Key → Except Failure Line
  | .literal text =>
    match Token.exponentBase? text with
    | some base =>
      if !beforeGroup then .error (.openExponent text)
      else if base.isEmpty then .ok (.key (.literal "1") (.key (.operation .exponent) .nil))
      else do
        Literal.check base
        return .key (.literal base) (.key (.operation .exponent) .nil)
    | none => do
      Literal.check text
      return .key (.literal text) .nil
  | .operation op => do
    if op.isBackward then p.requireOperand (.operation op)
    if beforeGroup then return .key (.operation op) .nil else throw (.missingGroup op)
  | .percent => do
    p.requireOperand .percent
    return .key .obelus (.key (.literal "100") .nil)
  | .bar => do
    p.requireOperand .bar
    if p.bars < maxBars then return .key .bar .nil else throw .manyBars
  | .answer => do return .group (← answer) .nil
  | .constant c => .ok (.key (.constant c) .nil)
  | k => do
    p.requireOperand k
    return .key k .nil

/-- What is known after such a key. -/
def after (p : Progress) (k : Key) : Progress :=
  let bars := if p.multiplies (.key k) then 0 else p.bars
  match k with
  | .literal text =>
    if (Token.exponentBase? text).isSome then
      { bars, previous := some (.key (.operation .exponent)), pending := some .exponent }
    else { bars, previous := some (.key k) }
  | .operation op => { bars, previous := some (.key k), pending := some op }
  | .bar => { bars := bars + 1, previous := some (.key k) }
  | .percent | .times | .obelus => { previous := some (.key k) }
  | _ => { bars, previous := some (.key k) }

/-- What is known after a group. -/
def afterGroup : Progress := { previous := some .right }

end Progress

/-- Refuses a group with a number of commas that the operation in front of it does not take. -/
def checkCommas (pending : Option Operation) (inner : Line) : Except Failure Unit :=
  match pending with
  | none => .ok ()
  | some op =>
    if op.commas?.all fun counts => counts.contains inner.commas then .ok ()
    else .error (.commaCount op)

/-- The canonical form of the rest of a level, of which `p` is known. -/
def level (answer : Except Failure Line) (place : Place) (p : Progress) :
    Line → Except Failure Line
  | .nil => do
    p.finish place
    return .nil
  | .key .plus rest => level answer place (p.addSign false) rest
  | .key .minus rest => level answer place (p.addSign true) rest
  | .key .comma rest =>
    if place.divided then do
      p.finish place
      return .key .comma (← level answer place {} rest)
    else .error .strayComma
  | .key k rest => do
    let own ← p.emit answer rest.startsWithGroup k
    let tail ← level answer place (p.after k) rest
    return p.lead (.key k) ++ (own ++ tail)
  | .group inner rest => do
    checkCommas p.pending inner
    let content ← level answer (.inside p.pending) {} inner
    let tail ← level answer place .afterGroup rest
    return p.lead .left ++ .group content tail

/-- The canonical line of tokens that fill a level. -/
def fill (answer : Except Failure Line) (place : Place) (tokens : List Token) :
    Except Failure Line :=
  match Line.ofTokens? tokens with
  | none => .error .unbalanced
  | some line => level answer place {} line

/-- The canonical line to which `Ans` stands for, given the tokens of the previous answer. These
may not hold `Ans` themselves. -/
def ofAnswer (tokens : List Token) : Except Failure Line := fill (.error .nestedAnswer) {} tokens

/-- The canonical line of tokens. Those of a whole formula may be missing; those of a group, which
follows the operation `op` or none, may not. -/
def ofTokens (answer tokens : List Token) (inGroup : Bool) (op : Option Operation) :
    Except Failure Line :=
  if tokens.isEmpty && !inGroup then .ok .nil else fill (ofAnswer answer) { operation := op } tokens

/-- The canonical line of a formula. -/
def ofFormula (answer tokens : List Token) : Except Failure Line :=
  ofTokens answer tokens false none

end Canonical

end Keypad
