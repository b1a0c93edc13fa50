import Keypad.Calculator
import Keypad.Decimal.Word
import Keypad.Evaluation.Range
import Keypad.Fixed.Index
import Keypad.Fixed.Stored
import Keypad.Proofs.Algebraic
import Keypad.Proofs.Answer.Reading
import Keypad.Proofs.Answer.Substitution
import Keypad.Proofs.Answer.Tokens
import Keypad.Proofs.Arithmetic.Chain
import Keypad.Proofs.Arithmetic.Decimal
import Keypad.Proofs.Arithmetic.Exactness
import Keypad.Proofs.Arithmetic.Machine
import Keypad.Proofs.Arithmetic.Semantics
import Keypad.Proofs.Canonical.Arguments
import Keypad.Proofs.Canonical.Fixpoint
import Keypad.Proofs.Canonical.Formula
import Keypad.Proofs.Canonical.Longhand
import Keypad.Proofs.Canonical.Tokens
import Keypad.Proofs.ConstantTable
import Keypad.Proofs.Decimal.Addition
import Keypad.Proofs.Decimal.Calculation
import Keypad.Proofs.Decimal.Canonical
import Keypad.Proofs.Decimal.Circular
import Keypad.Proofs.Decimal.Division
import Keypad.Proofs.Decimal.Exponential
import Keypad.Proofs.Decimal.Factorial
import Keypad.Proofs.Decimal.Functions
import Keypad.Proofs.Decimal.Grammar
import Keypad.Proofs.Decimal.Magnitude
import Keypad.Proofs.Decimal.Nearest
import Keypad.Proofs.Decimal.Notation
import Keypad.Proofs.Decimal.Order
import Keypad.Proofs.Decimal.Rounding
import Keypad.Proofs.Decimal.RoundingLaws
import Keypad.Proofs.Decimal.SquareRoot
import Keypad.Proofs.Decimal.Symmetry
import Keypad.Proofs.Decimal.Termination
import Keypad.Proofs.Decimal.Word
import Keypad.Proofs.Degrees
import Keypad.Proofs.Evaluation.Canonical
import Keypad.Proofs.Evaluation.ExactPower
import Keypad.Proofs.Evaluation.Exactness
import Keypad.Proofs.Evaluation.Frame
import Keypad.Proofs.Evaluation.Invariant
import Keypad.Proofs.Evaluation.Line
import Keypad.Proofs.Evaluation.Magnitude
import Keypad.Proofs.Evaluation.Range
import Keypad.Proofs.Evaluation.Safety
import Keypad.Proofs.ExactLiteral
import Keypad.Proofs.Fixed.Constant
import Keypad.Proofs.Fixed.Index
import Keypad.Proofs.Fixed.OddSeries
import Keypad.Proofs.Fixed.Series
import Keypad.Proofs.Fixed.Stored
import Keypad.Proofs.Lexer
import Keypad.Proofs.LongestMatch
import Keypad.Proofs.Longhand
import Keypad.Proofs.PairedTokens
import Keypad.Proofs.Pairing
import Keypad.Proofs.Parity
import Keypad.Proofs.Percent
import Keypad.Proofs.PowerOfTen
import Keypad.Proofs.Quantity
import Keypad.Proofs.Quotient
import Keypad.Proofs.Rationality
import Keypad.Proofs.Refusal
import Keypad.Proofs.Relevance
import Keypad.Proofs.SmallAngle
import Keypad.Proofs.SpecialAngle.Laws
import Keypad.Proofs.Typing
import Keypad.Storage.Records
import Keypad.Token.Canonical
import Keypad.Token.Paired
import Keypad.Token.Pairing
