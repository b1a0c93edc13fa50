import Keypad.Evaluation.Line
import Keypad.Evaluation.Range
import Keypad.Quantity.Notation
import Keypad.Token.Canonical
import Keypad.Token.Lexer

/-!
# The calculator

A calculator holds its settings, the previous answer and the named constants. A formula is cut into
tokens, brought into canonical form with the previous answer in place of `Ans`, and evaluated. A
failed command changes nothing.
-/

namespace Keypad

structure Calculator where
  settings : Settings := {}
  answer : Quantity := .zero
  constants : ConstantTable := {}
  deriving DecidableEq, Repr

/-- The value of a formula with the steps that led to it. -/
structure Evaluation where
  value : Quantity
  tokens : List Token
  canonical : List Token
  records : List String
  deriving DecidableEq, Repr

/-- How every evaluation proceeds, in words. -/
def Evaluation.note : String :=
  "Pipeline: jetons → canon → paires → piles (fraction, produit, somme) → test de rationalité."

/-- The records of special angles, one on a line. -/
def Evaluation.proof (e : Evaluation) : String := String.intercalate "\n" e.records

namespace Calculator

/-- The tokens that type the previous answer. They hold no constant. -/
def answerTokens (c : Calculator) : Except Failure (List Token) :=
  Lexer.tokenize [] c.answer.literal

def evaluate (c : Calculator) (formula : String) : Except Failure Evaluation := do
  let tokens ← Lexer.tokenize c.constants.names formula
  let answer ← c.answerTokens
  let line ← Canonical.ofFormula answer tokens
  let (value, trail) ← (line.value c.settings.angleUnit c.constants).run {}
  return ⟨value, tokens, line.toTokens, trail.records⟩

/-- The same on tokens alone: the evaluation looks up each right parenthesis and each comma in the
canonical tokens, instead of going through their line. -/
def evaluateTokens (c : Calculator) (formula : String) : Except Failure Evaluation := do
  let tokens ← Lexer.tokenize c.constants.names formula
  let answer ← c.answerTokens
  let canonical ← Canonical.normalizeTokens answer tokens false none
  let (value, trail) ← (tokensValue c.settings.angleUnit c.constants canonical).run {}
  return ⟨value, tokens, canonical, trail.records⟩

/-- The value of a formula. -/
def value (c : Calculator) (formula : String) : Except Failure Quantity :=
  (c.evaluate formula).map Evaluation.value

/-- A quantity in the style of the settings. -/
def display (c : Calculator) (v : Quantity) : String := v.display c.settings.fractionStyle

/-! ## Commands -/

/-- Evaluates a formula and keeps its value as the previous answer. -/
def enter (c : Calculator) (formula : String) : Except Failure (Evaluation × Calculator) := do
  let e ← c.evaluate formula
  return (e, { c with answer := e.value })

def define (c : Calculator) (name text : String) : Except Failure Calculator := do
  return { c with constants := ← c.constants.define name text }

/-- Removes a constant; tells whether there was one. -/
def remove (c : Calculator) (name : String) : Bool × Calculator :=
  ((c.constants.value? name).isSome, { c with constants := c.constants.erase name })

/-- Defines a constant as the previous answer is displayed. -/
def store (c : Calculator) (name : String) : Except Failure Calculator :=
  c.define name (c.display c.answer)

end Calculator

end Keypad
