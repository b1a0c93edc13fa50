/-!
# JSON texts

The reader accepts exactly the JSON grammar: one value, blanks around it, no trailing text. A
string whose escapes do not make Unicode text is kept as such, because only its use tells whether
that matters. The writer makes compact texts of strings.
-/

namespace Keypad

/-- A JSON value. Numbers are checked but not kept, since no stored record has any. -/
inductive Json where
  | null
  | bool (b : Bool)
  | number
  | string (text : Option String)
  | array (items : List Json)
  | object (members : List (Option String × Json))

namespace Json

/-! ## Strings -/

def hexDigit? (c : Char) : Option Nat :=
  if c.isDigit then some (c.toNat - '0'.toNat)
  else if 'a' ≤ c ∧ c ≤ 'f' then some (c.toNat - 'a'.toNat + 10)
  else if 'A' ≤ c ∧ c ≤ 'F' then some (c.toNat - 'A'.toNat + 10)
  else none

/-- The 16-bit unit that four hexadecimal digits write. -/
def unit? (a b c d : Char) : Option Nat := do
  return (((← hexDigit? a) * 16 + (← hexDigit? b)) * 16 + (← hexDigit? c)) * 16 + (← hexDigit? d)

/-- The character after a backslash, for the escapes of one letter. -/
def escape? : Char → Option Char
  | '"' => some '"'
  | '\\' => some '\\'
  | '/' => some '/'
  | 'b' => some '\x08'
  | 'f' => some '\x0c'
  | 'n' => some '\n'
  | 'r' => some '\r'
  | 't' => some '\t'
  | _ => none

/-- The code points and 16-bit units of a string up to its closing quote, and the text behind. -/
def units? : List Char → Option (List Nat × List Char)
  | [] => none
  | '"' :: cs => some ([], cs)
  | '\\' :: 'u' :: a :: b :: c :: d :: cs => do
    let u ← unit? a b c d
    let (us, rest) ← units? cs
    return (u :: us, rest)
  | '\\' :: c :: cs => do
    let e ← escape? c
    let (us, rest) ← units? cs
    return (e.toNat :: us, rest)
  | c :: cs =>
    if c.toNat < 0x20 then none else (units? cs).map fun (us, rest) => (c.toNat :: us, rest)

def isHighSurrogate (u : Nat) : Bool := 0xd800 ≤ u && u < 0xdc00

def isLowSurrogate (u : Nat) : Bool := 0xdc00 ≤ u && u < 0xe000

/-- Joins surrogate pairs; a surrogate without its partner makes no text. -/
def decode? : List Nat → Option (List Char)
  | [] => some []
  | u :: v :: us =>
    if isHighSurrogate u then
      if isLowSurrogate v then
        (decode? us).map (Char.ofNat (0x10000 + (u - 0xd800) * 0x400 + (v - 0xdc00)) :: ·)
      else none
    else if isLowSurrogate u then none
    else (decode? (v :: us)).map (Char.ofNat u :: ·)
  | [u] => if isHighSurrogate u || isLowSurrogate u then none else some [Char.ofNat u]

/-- The string after its opening quote, and the text behind it. -/
def string? (cs : List Char) : Option (Option String × List Char) :=
  (units? cs).map fun (us, rest) => ((decode? us).map String.ofList, rest)

/-! ## Numbers -/

/-- The text behind a row of at least one digit. -/
def digits? : List Char → Option (List Char)
  | c :: cs => if c.isDigit then some (cs.dropWhile Char.isDigit) else none
  | [] => none

/-- The text behind the whole part of a number, which has no zero in front of other digits. -/
def whole? : List Char → Option (List Char)
  | '0' :: cs => some cs
  | cs => digits? cs

def decimals? : List Char → Option (List Char)
  | '.' :: cs => digits? cs
  | cs => some cs

def isExponentMark (c : Char) : Bool := c == 'e' || c == 'E'

def exponent? : List Char → Option (List Char)
  | c :: d :: cs =>
    if isExponentMark c then digits? (if d == '+' || d == '-' then cs else d :: cs)
    else some (c :: d :: cs)
  | [c] => if isExponentMark c then none else some [c]
  | [] => some []

/-- The text behind a number. -/
def number? (cs : List Char) : Option (List Char) := do
  let unsigned := match cs with
    | '-' :: rest => rest
    | _ => cs
  exponent? (← decimals? (← whole? unsigned))

/-! ## Values -/

def isBlank (c : Char) : Bool := c == ' ' || c == '\n' || c == '\t' || c == '\r'

def skipBlanks (cs : List Char) : List Char := cs.dropWhile isBlank

/-- The text behind a word. -/
def word? (w cs : List Char) : Option (List Char) :=
  if w.isPrefixOf cs then some (cs.drop w.length) else none

mutual

/-- A value and the text behind it. Every level of nesting and every further element costs fuel. -/
def value? : Nat → List Char → Option (Json × List Char)
  | 0, _ => none
  | fuel + 1, cs =>
    match skipBlanks cs with
    | '"' :: rest => (string? rest).map fun (s, rest) => (string s, rest)
    | '[' :: rest =>
      match skipBlanks rest with
      | ']' :: rest => some (array [], rest)
      | rest => (items? fuel rest).map fun (vs, rest) => (array vs, rest)
    | '\x7b' :: rest =>
      match skipBlanks rest with
      | '\x7d' :: rest => some (object [], rest)
      | rest => (members? fuel rest).map fun (ms, rest) => (object ms, rest)
    | 'n' :: rest => (word? ['u', 'l', 'l'] rest).map fun rest => (null, rest)
    | 't' :: rest => (word? ['r', 'u', 'e'] rest).map fun rest => (bool true, rest)
    | 'f' :: rest => (word? ['a', 'l', 's', 'e'] rest).map fun rest => (bool false, rest)
    | rest => (number? rest).map fun rest => (number, rest)

/-- The elements of an array up to its end. -/
def items? : Nat → List Char → Option (List Json × List Char)
  | 0, _ => none
  | fuel + 1, cs => do
    let (v, rest) ← value? fuel cs
    match skipBlanks rest with
    | ']' :: rest => some ([v], rest)
    | ',' :: rest => (items? fuel rest).map fun (vs, rest) => (v :: vs, rest)
    | _ => none

/-- The members of an object up to its end. -/
def members? : Nat → List Char → Option (List (Option String × Json) × List Char)
  | 0, _ => none
  | fuel + 1, cs =>
    match skipBlanks cs with
    | '"' :: rest => do
      let (key, rest) ← string? rest
      match skipBlanks rest with
      | ':' :: rest =>
        let (v, rest) ← value? fuel rest
        match skipBlanks rest with
        | '\x7d' :: rest => some ([(key, v)], rest)
        | ',' :: rest => (members? fuel rest).map fun (ms, rest) => ((key, v) :: ms, rest)
        | _ => none
      | _ => none
    | _ => none

end

/-- The value of a whole text. -/
def read? (text : String) : Option Json :=
  let cs := text.toList
  match value? (2 * cs.length + 2) cs with
  | some (v, rest) => if (skipBlanks rest).isEmpty then some v else none
  | none => none

/-! ## Writing -/

def hexText (n : Nat) : List Char :=
  let digits := Nat.toDigits 16 n
  List.replicate (4 - digits.length) '0' ++ digits

/-- A character within a written string. -/
def escaped (c : Char) : List Char :=
  match c with
  | '"' => ['\\', '"']
  | '\\' => ['\\', '\\']
  | '\x08' => ['\\', 'b']
  | '\x0c' => ['\\', 'f']
  | '\n' => ['\\', 'n']
  | '\r' => ['\\', 'r']
  | '\t' => ['\\', 't']
  | c => if c.toNat < 0x20 then '\\' :: 'u' :: hexText c.toNat else [c]

def stringText (s : String) : List Char := '"' :: (s.toList.flatMap escaped ++ ['"'])

/-- Parts with commas between them. -/
def separated (parts : List (List Char)) : List Char := List.intercalate [','] parts

/-- An object of strings. -/
def objectText (members : List (String × String)) : List Char :=
  let member (m : String × String) : List Char := stringText m.1 ++ ':' :: stringText m.2
  '\x7b' :: (separated (members.map member) ++ ['\x7d'])

def arrayText (items : List (List Char)) : List Char := '[' :: (separated items ++ [']'])

end Json

end Keypad
