import Keypad.Fixed.Constant

/-!
# Stored constants

A constant is stored with the most places that it was computed with. Fewer places are cut out of
what is stored. When more are asked for, it is computed again, with at least half as many places
again as were stored, and replaces what was there.
-/

namespace Keypad.Fixed

/-- A constant with the number of its places. -/
structure Entry where
  places : Nat
  value : Int
  deriving DecidableEq, Repr

/-- The places with which a constant is computed when so many are asked for. -/
def targetPlaces (stored : Option Entry) (places : Nat) : Nat :=
  let known := (stored.map Entry.places).getD 0
  max places (known + known / 2)

/-- The constant with the places asked for, and what is stored from then on. -/
def lookUp (compute : Nat → Int) (places : Nat) : StateM (Option Entry) Int := do
  let stored ← get
  match stored.filter (places ≤ ·.places) with
  | some entry => return entry.value.tdiv (pow10 (entry.places - places))
  | none =>
    let target := targetPlaces stored places
    let value := compute target
    set (some (⟨target, value⟩ : Entry))
    return value.tdiv (pow10 (target - places))

end Keypad.Fixed
