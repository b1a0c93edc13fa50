/-!
# Keys and tokens

The vocabulary of a typed formula: literals, constants, operations, signs, operators and marks.
A key is anything but a parenthesis; a token is a key or a parenthesis. Each has the text by which
it is typed and shown.
-/

namespace Keypad

/-- The six trigonometric ratios. -/
inductive Ratio where
  | sin | cos | tan | sec | csc | cot
  deriving DecidableEq, Repr

namespace Ratio

def name : Ratio → String
  | sin => "sin"
  | cos => "cos"
  | tan => "tan"
  | sec => "sec"
  | csc => "csc"
  | cot => "cot"

def all : List Ratio := [sin, cos, tan, sec, csc, cot]

/-- Tangent and secant divide by the cosine, the other quotients by the sine. -/
def dividesByCosine : Ratio → Bool
  | tan | sec => true
  | _ => false

end Ratio

/-- An operation is typed in front of a group. The first three also take the operand before it. -/
inductive Operation where
  | power
  | nthRoot
  | exponent
  | squareRoot
  | log
  | ln
  | ratio (r : Ratio)
  | arc (r : Ratio)
  deriving DecidableEq, Repr

namespace Operation

def symbol : Operation → String
  | power => "^"
  | nthRoot => "x√"
  | exponent => "E"
  | squareRoot => "√"
  | log => "log"
  | ln => "ln"
  | ratio r => r.name
  | arc r => "arc" ++ r.name

/-- The operations in the order of the keypad. -/
def all : List Operation :=
  [power, nthRoot, exponent, squareRoot, log, ln] ++ Ratio.all.map ratio ++ Ratio.all.map arc

/-- Does the operation take the operand before it? -/
def isBackward : Operation → Bool
  | power | nthRoot | exponent => true
  | _ => false

/-- The numbers of commas between the arguments, of an operation that may have several. -/
def commas? : Operation → Option (List Nat)
  | log => some [0, 1]
  | _ => none

def isRatio : Operation → Bool
  | ratio _ => true
  | _ => false

def isArc : Operation → Bool
  | arc _ => true
  | _ => false

end Operation

inductive Constant where
  | pi
  | euler
  | named (name : String)
  deriving DecidableEq, Repr

/-- A key other than a parenthesis. A literal is kept as typed; the bar writes a fraction. -/
inductive Key where
  | literal (text : String)
  | constant (c : Constant)
  | answer
  | operation (op : Operation)
  | plus
  | minus
  | times
  | obelus
  | bar
  | square
  | bang
  | percent
  | comma
  deriving DecidableEq, Repr

namespace Key

def text : Key → String
  | literal s => s
  | constant .pi => "π"
  | constant .euler => "e"
  | constant (.named name) => name
  | answer => "Ans"
  | operation op => op.symbol
  | plus => "+"
  | minus => "-"
  | times => "×"
  | obelus => "÷"
  | bar => "/"
  | square => "²"
  | bang => "!"
  | percent => "%"
  | comma => ","

end Key

inductive Token where
  | key (k : Key)
  | left
  | right
  deriving DecidableEq, Repr

namespace Token

def text : Token → String
  | key k => k.text
  | left => "("
  | right => ")"

/-- The tokens that are typed by their own text in any formula. The operation `E` is not among
them: it is recognized at the end of a literal. -/
def fixed : List Token :=
  [key .plus, key .minus, key .times, key .obelus, key .bar, left, right,
    key (.operation .power), key .square, key .bang, key .percent,
    key (.operation .squareRoot), key (.operation .nthRoot),
    key (.operation .log), key (.operation .ln)]
  ++ (Ratio.all.map Operation.ratio ++ Ratio.all.map Operation.arc).map (key ∘ Key.operation)
  ++ [key .comma, key .answer, key (.constant .pi), key (.constant .euler)]

/-- Tokens as shown: one space between two neighbours. -/
def line (tokens : List Token) : String := String.intercalate " " (tokens.map text)

end Token

end Keypad
