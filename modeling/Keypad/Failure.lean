import Keypad.Limits
import Keypad.Token

/-!
# Failures

Why a formula or a value is refused. Each cause belongs to one kind: the formula is badly typed,
the value is not defined or not representable, or the passes over a formula disagree. The last
kind stands for look-ups that the earlier pass is to make safe. The wording of every cause is in
one place.
-/

namespace Keypad

inductive Failure where
  -- the text of a formula
  | forbiddenStart (text : String)
  | forbiddenEnd (text : String)
  | repeatedDivision
  | signBeforeOperator
  | pointAfterGroup
  | unsupportedSuffix
  -- the order of its tokens
  | unbalanced
  | emptyGroup (after : Option Operation)
  | incomplete (token : Token)
  | missingGroup (op : Operation)
  | openExponent (literal : String)
  | manyBars
  | commaCount (op : Operation)
  | strayComma
  -- literals, values and names
  | manyPoints (literal : String)
  | manyExponents (literal : String)
  | pointAfterExponent (literal : String)
  | badLiteral (literal : String)
  | badDecimal (text : String)
  | badFraction (text : String)
  | nameLength
  | nameLetters (name : String)
  | nameReserved (name : String)
  | nameExponent (name : String)
  -- values
  | tooLarge
  | divisionByZero
  | negativeRoot
  | notPositive (op : Operation)
  | logBase
  | undefinedRatio (r : Ratio)
  | angleTooLarge (r : Ratio)
  | outsideUnit (op : Operation)
  | insideUnit (op : Operation)
  | zeroCotangent
  | negativeBase
  | zeroIndex
  | negativeRadicand
  | fractionalExponent
  | factorialDomain
  -- passes that disagree
  | nestedAnswer
  | unclosedGroup
  | unopenedGroup
  | unpaired
  | openGroup
  | strayRight
  | missingToken
  | missingOperand
  | brokenFraction
  | unusedOperation
  | strayKey (key : Key)
  | unreadLiteral (text : String)
  | unknownConstant (name : String)
  | misapplied (op : Operation) (count : Nat)
  | notBackward (op : Operation)
  deriving DecidableEq, Repr

/-- The three kinds of failure. -/
inductive FailureKind where
  | formula
  | math
  | internal
  deriving DecidableEq, Repr

/-- The title under which a failure of a kind is announced. -/
def FailureKind.title : FailureKind → String
  | formula => "Erreur de syntaxe"
  | math => "Erreur mathématique"
  | internal => "Erreur interne"

/-- A title and a message, as shown together. -/
def FailureKind.announce (kind : FailureKind) (message : String) : String :=
  kind.title ++ " : " ++ message

namespace Failure

def kind : Failure → FailureKind
  | tooLarge | divisionByZero | negativeRoot | notPositive _ | logBase | undefinedRatio _
  | angleTooLarge _ | outsideUnit _ | insideUnit _ | zeroCotangent | negativeBase | zeroIndex
  | negativeRadicand | fractionalExponent | factorialDomain => .math
  | nestedAnswer | unclosedGroup | unopenedGroup | unpaired | openGroup | strayRight
  | missingToken | missingOperand | brokenFraction | unusedOperation | strayKey _
  | unreadLiteral _ | unknownConstant _ | misapplied _ _ | notBackward _ => .internal
  | _ => .formula

/-- A text between quotation marks. -/
def quote (text : String) : String := "« " ++ text ++ " »"

/-- Choices in words: commas, then "ou" before the last. -/
def choices : List String → String
  | [] => ""
  | [last] => last
  | [next, last] => next ++ " ou " ++ last
  | first :: rest => first ++ ", " ++ choices rest

def message : Failure → String
  | forbiddenStart text => s!"La formule ne peut pas commencer par {quote text}."
  | forbiddenEnd text => s!"La formule ne peut pas se terminer par {quote text}."
  | repeatedDivision => "Les signes ×, ÷ et / ne peuvent pas se suivre."
  | signBeforeOperator => "Un signe + ou - ne peut pas précéder ×, ÷, / ou !."
  | pointAfterGroup => "Un point ne peut pas suivre une parenthèse fermante."
  | unsupportedSuffix => "² et x√ doivent suivre une valeur, pas +, -, ×, ÷, / ou (."
  | unbalanced => "Parenthèses non appariées."
  | emptyGroup none => "Parenthèses vides détectées."
  | emptyGroup (some op) => s!"Parenthèses vides après {quote op.symbol}."
  | incomplete token => s!"Opération incomplète à {quote token.text}."
  | missingGroup op => s!"{quote op.symbol} doit être suivi d’une parenthèse ouvrante."
  | openExponent literal => s!"Exposant incomplet dans {quote literal}."
  | manyBars => "Au plus deux barres de fraction « / » par terme (a/b ou a/b/c)."
  | commaCount op =>
    let counts := choices ((op.commas?.getD []).map toString)
    s!"{op.symbol} doit recevoir {counts} virgule(s)."
  | strayComma => "Virgule inattendue hors des arguments d’une fonction."
  | manyPoints literal => s!"Le nombre {quote literal} contient plusieurs points."
  | manyExponents literal => s!"Le nombre {quote literal} contient plusieurs E."
  | pointAfterExponent literal => s!"Le point doit précéder le E dans {quote literal}."
  | badLiteral literal => s!"Nombre invalide : {quote literal}."
  | badDecimal text => s!"Valeur numérique invalide : {quote text}."
  | badFraction text => s!"Valeur de constante invalide : {quote text}."
  | nameLength => "Le nom d’une constante doit compter de 1 à 10 lettres."
  | nameLetters name => s!"Le nom {quote name} ne doit contenir que des lettres (a-z, A-Z)."
  | nameReserved name => s!"Le nom {quote name} est réservé."
  | nameExponent name => s!"Le nom {quote name} ne peut pas se terminer par E."
  | tooLarge =>
    s!"La solution est trop grande. (Valeur maximale permise : exp({maxExponent + 1}))"
  | divisionByZero => "Division par zéro."
  | negativeRoot => "L’argument de √ doit être positif ou nul."
  | notPositive op => s!"L’argument de {op.symbol} doit être strictement positif."
  | logBase => "La base de log doit être strictement positive et différente de 1."
  | undefinedRatio r =>
    let divisor := if r.dividesByCosine then "cos" else "sin"
    s!"{r.name} n’est pas défini pour cet angle ({divisor} = 0)."
  | angleTooLarge r => s!"L’angle de {r.name} est trop grand."
  | outsideUnit op => s!"L’argument de {op.symbol} doit être compris entre -1 et 1."
  | insideUnit op => s!"L’argument de {op.symbol} doit être ≤ -1 ou ≥ 1."
  | zeroCotangent => "L’argument de arccot ne peut pas être nul."
  | negativeBase =>
    "Une base négative exige un exposant entier ou une fraction à dénominateur impair."
  | zeroIndex => "L’indice de x√ ne peut pas être nul."
  | negativeRadicand => "Un radicande négatif exige un indice entier impair."
  | fractionalExponent => "L’exposant de E doit être un entier."
  | factorialDomain => "La factorielle exige un entier positif ou nul."
  | nestedAnswer => "Réponse dans la réponse."
  | unclosedGroup => "canon : parenthèse sans fermante"
  | unopenedGroup => "canon : fermante hors paire"
  | unpaired => "eval : parenthèses non appariées"
  | openGroup => "eval : paire de parenthèses absente"
  | strayRight => "eval : fermante hors paire"
  | missingToken => "eval : jeton hors de la séquence"
  | missingOperand => "eval : opérande manquante"
  | brokenFraction => "eval : pile de fraction invalide"
  | unusedOperation => "eval : fonction sans argument"
  | strayKey key => s!"eval : jeton non canonique {quote key.text}"
  | unreadLiteral text => s!"eval : littéral non canonique {quote text}"
  | unknownConstant name => s!"eval : constante inconnue {quote name}"
  | misapplied op 1 => s!"eval : {quote op.symbol} n’est pas une fonction à un argument"
  | misapplied op count => s!"eval : {op.symbol} ne prend pas {count} arguments"
  | notBackward op => s!"eval : {quote op.symbol} n’est pas une fonction arrière"

end Failure

end Keypad
