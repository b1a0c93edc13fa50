import Keypad.Fixed.Series

/-!
# Constants in fixed-point arithmetic

The number π and the logarithms of 2 and 10, cut to a number of decimal places. Each is computed
with ten more places than it keeps.
-/

namespace Keypad.Fixed

/-- Places computed beyond those kept. -/
def spare : Nat := 10

/-- The inverse tangent of `1/q` at the given scale. -/
def arctanInverse (q scale : Nat) : Int := inverseSeries true q scale 0

/-- The inverse hyperbolic tangent of `1/q` at the given scale. -/
def artanhInverse (q scale : Nat) : Int := inverseSeries false q scale 0

/-- By `π = 16 arctan (1/5) - 4 arctan (1/239)`. -/
def pi (places : Nat) : Int :=
  let s := pow10 (places + spare)
  (16 * arctanInverse 5 s - 4 * arctanInverse 239 s).tdiv (pow10 spare)

/-- By `ln 2 = 2 artanh (1/3)`. -/
def ln2 (places : Nat) : Int :=
  let s := pow10 (places + spare)
  (2 * artanhInverse 3 s).tdiv (pow10 spare)

/-- By `ln 10 = 6 artanh (1/3) + 2 artanh (1/9)`. -/
def ln10 (places : Nat) : Int :=
  let s := pow10 (places + spare)
  (6 * artanhInverse 3 s + 2 * artanhInverse 9 s).tdiv (pow10 spare)

end Keypad.Fixed
