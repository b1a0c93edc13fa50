import Keypad.ConstantTable
import Keypad.Settings
import Keypad.Storage.Json

/-!
# Stored records

The settings and the list of constants as JSON texts. A record is an object of named fields or an
array of its fields in order. Unknown fields are ignored, known ones may not be repeated. The
settings may leave fields out; a constant may not.
-/

namespace Keypad.Storage

/-- The value of a field that may be absent; none if it is repeated. -/
def field? (name : String) (members : List (Option String × Json)) : Option (Option Json) :=
  match members.filter fun m => m.1 == some name with
  | [] => some none
  | [m] => some (some m.2)
  | _ => none

/-- Every name of a field is text. -/
def hasNames (members : List (Option String × Json)) : Bool := members.all fun m => m.1.isSome

/-- A choice among names, written as its name or as an object of that name and null. -/
def choice? {α : Type} (choices : List (String × α)) : Json → Option α
  | .string (some name) => choices.lookup name
  | .object [(some name, .null)] => choices.lookup name
  | _ => none

/-- A choice that may be absent. -/
def choiceOr? {α : Type} (default : α) (choices : List (String × α)) : Option Json → Option α
  | none => some default
  | some v => choice? choices v

/-! ## Settings -/

def angleUnits : List (String × AngleUnit) := [("degre", .degree), ("radian", .radian)]

def fractionStyles : List (String × FractionStyle) := [("impropre", .improper), ("mixte", .mixed)]

def angleUnitText : AngleUnit → String
  | .degree => "degre"
  | .radian => "radian"

def fractionStyleText : FractionStyle → String
  | .improper => "impropre"
  | .mixed => "mixte"

/-- The settings whose fields have the given values. -/
def settingsOf? (unit style : Option Json) : Option Settings := do
  let unit ← choiceOr? .degree angleUnits unit
  let style ← choiceOr? .improper fractionStyles style
  return ⟨unit, style⟩

def settings? (text : String) : Option Settings := do
  match ← Json.read? text with
  | .object members =>
    if hasNames members then
      settingsOf? (← field? "unite_angle" members) (← field? "style_fraction" members)
    else none
  | .array [] => settingsOf? none none
  | .array [unit] => settingsOf? (some unit) none
  | .array [unit, style] => settingsOf? (some unit) (some style)
  | _ => none

def settingsText (s : Settings) : String :=
  String.ofList (Json.objectText
    [("unite_angle", angleUnitText s.angleUnit),
      ("style_fraction", fractionStyleText s.fractionStyle)])

/-! ## Constants -/

def text? : Json → Option String
  | .string s => s
  | _ => none

/-- The name and the value of a constant, as typed. -/
def constant? : Json → Option (String × String)
  | .object members =>
    if hasNames members then do
      let name ← text? (← (← field? "nom" members))
      let value ← text? (← (← field? "valeur" members))
      return (name, value)
    else none
  | .array [name, value] => do return (← text? name, ← text? value)
  | _ => none

def constants? (text : String) : Option (List (String × String)) := do
  match ← Json.read? text with
  | .array items => items.mapM constant?
  | _ => none

def constantsText (constants : List (String × String)) : String :=
  String.ofList (Json.arrayText
    (constants.map fun c => Json.objectText [("nom", c.1), ("valeur", c.2)]))

end Keypad.Storage
