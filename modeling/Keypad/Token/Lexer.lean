import Keypad.Failure
import Keypad.Text.Blank

/-!
# From text to tokens

A formula loses its blanks and is then cut from left to right. At each position the longest text
among the fixed tokens and the known constant names wins; characters at which none of them starts
gather into a literal. A minus sign right after the `E` of a literal belongs to that literal. Some
arrangements of characters are refused before the text is cut.
-/

namespace Keypad.Lexer

/-! ## Arrangements that are refused -/

def forbiddenStarts : List String := ["×", "÷", "/", ")", "^", "x√", "²", "!", "%", ","]

def forbiddenEnds : List String := ["+", "-", "×", "÷", "/", "(", ",", "E"]

/-- One of the characters of `before` may not have one of the texts `after` behind it. -/
structure Rule where
  before : List Char
  after : List String
  failure : Failure

def rules : List Rule :=
  [⟨['×', '÷', '/'], ["×", "÷", "/"], .repeatedDivision⟩,
    ⟨['+', '-'], ["×", "÷", "/", "!"], .signBeforeOperator⟩,
    ⟨[')'], ["."], .pointAfterGroup⟩,
    ⟨['+', '-', '×', '÷', '(', '/'], ["²", "x√"], .unsupportedSuffix⟩]

/-- Does the rule's arrangement occur anywhere in the text? -/
def Rule.occurs (rule : Rule) : List Char → Bool
  | [] => false
  | c :: cs =>
    (rule.before.contains c && rule.after.any fun s => s.toList.isPrefixOf cs) || rule.occurs cs

/-- The first reason to refuse a text without blanks, if there is one. -/
def refusal? (cs : List Char) : Option Failure :=
  match forbiddenStarts.find? fun s => s.toList.isPrefixOf cs with
  | some s => some (.forbiddenStart s)
  | none =>
    match forbiddenEnds.find? fun s => s.toList.isSuffixOf cs with
    | some s => some (.forbiddenEnd s)
    | none => (rules.find? fun rule => rule.occurs cs).map Rule.failure

/-! ## Cutting -/

/-- The tokens of a formula with the given constant names, literals apart. -/
def vocabulary (names : List String) : List Token :=
  Token.fixed ++ names.map fun name => .key (.constant (.named name))

/-- The better of two tokens at the start of a text: the one typed there, and the longer one. -/
def longer (cs : List Char) (best : Option Token) (t : Token) : Option Token :=
  if t.text.toList.isPrefixOf cs && best.all fun b => b.text.length < t.text.length
  then some t else best

/-- The longest token at the start of a text. -/
def longest? (names : List String) (cs : List Char) : Option Token :=
  (vocabulary names).foldl (longer cs) none

/-- The token at the start of a text, after the characters `literal` in reverse order. -/
def next? (names : List String) (literal cs : List Char) : Option Token :=
  if literal.head? = some 'E' && cs.head? = some '-' then none else longest? names cs

/-- The literal gathered in reverse order, if there is one. -/
def gathered (literal : List Char) : List Token :=
  if literal.isEmpty then [] else [.key (.literal (String.ofList literal.reverse))]

/-- Cuts a text, given the characters of a literal read before it, in reverse order. -/
def cut (names : List String) (literal : List Char) : List Char → List Token
  | [] => gathered literal
  | c :: cs =>
    match next? names literal (c :: cs) with
    | some t => gathered literal ++ t :: cut names [] (cs.drop (t.text.length - 1))
    | none => cut names (c :: literal) cs
termination_by cs => cs.length
decreasing_by
  · simp only [List.length_drop, List.length_cons]; omega
  · simp

/-- The tokens of a formula. -/
def tokenize (names : List String) (formula : String) : Except Failure (List Token) :=
  let cs := Text.squeeze formula.toList
  if cs.isEmpty then .ok []
  else
    match refusal? cs with
    | some failure => .error failure
    | none => .ok (cut names [] cs)

end Keypad.Lexer
