/-!
# Limits of the calculator

The magnitudes and digit counts at which the calculator changes its behaviour.
-/

namespace Keypad

/-- Significant digits kept after every decimal operation. -/
def precision : Nat := 48

/-- Below this exponent a decimal is flushed to zero. -/
def exponentFloor : Int := -4503599627370496

/-- Above this exponent a decimal keeps this exponent; it is too large for any answer. -/
def exponentCeiling : Int := 4503599627370496

/-- Bound of the numerator and of the denominator of an exact value. -/
def fractionBound : Nat := 2147483647

/-- The largest decimal exponent of an answer. -/
def maxExponent : Int := 9999999

/-- The largest argument of the factorial; the next one exceeds `maxExponent`. -/
def maxFactorial : Nat := 1723507

/-- Significant digits of a decimal that decide whether it looks rational. -/
def comparedDigits : Nat := 16

/-- Significant digits of a displayed decimal. -/
def displayedDigits : Nat := 15

end Keypad
