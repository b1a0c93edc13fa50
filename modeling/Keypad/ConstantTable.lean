import Keypad.Decimal.Literal
import Keypad.Failure

/-!
# Named constants

A table of constants, in the order of their names. A name has one to ten letters, is not a word of
the keypad and does not end in `E`. A value is typed as a decimal, a fraction `n/d` or a mixed
number `q/n/d`.
-/

namespace Keypad

structure ConstantTable where
  entries : List (String × Decimal) := []
  deriving DecidableEq, Repr

namespace ConstantTable

def empty : ConstantTable := {}

def names (t : ConstantTable) : List String := t.entries.map Prod.fst

def size (t : ConstantTable) : Nat := t.entries.length

def value? (t : ConstantTable) (name : String) : Option Decimal := t.entries.lookup name

/-- Puts an entry into its place, over one of the same name. -/
def insertEntry (name : String) (d : Decimal) : List (String × Decimal) → List (String × Decimal)
  | [] => [(name, d)]
  | entry :: rest =>
    if name = entry.1 then (name, d) :: rest
    else if name < entry.1 then (name, d) :: entry :: rest
    else entry :: insertEntry name d rest

def insert (t : ConstantTable) (name : String) (d : Decimal) : ConstantTable :=
  ⟨insertEntry name d t.entries⟩

def erase (t : ConstantTable) (name : String) : ConstantTable :=
  ⟨t.entries.filter fun entry => entry.1 != name⟩

@[simp] theorem value?_empty (name : String) : empty.value? name = none := rfl

theorem isSome_value?_iff (t : ConstantTable) {name : String} :
    (t.value? name).isSome ↔ name ∈ t.names := by
  rw [value?, List.lookup_isSome_iff]
  constructor
  · intro ⟨entry, hentry, heq⟩
    exact List.mem_map.2 ⟨entry, hentry, (eq_of_beq heq).symm⟩
  · intro h
    obtain ⟨entry, hentry, rfl⟩ := List.mem_map.1 h
    exact ⟨entry, hentry, beq_self_eq_true _⟩

theorem lookup_entry (key : String) (d : Decimal) (es : List (String × Decimal)) (name : String) :
    ((key, d) :: es).lookup name = if name = key then some d else es.lookup name := by
  by_cases h : name = key
  · simp [h]
  · simp [List.lookup_cons, h, beq_false_of_ne h]

theorem lookup_insertEntry (name : String) (d : Decimal) (es : List (String × Decimal))
    (other : String) :
    (insertEntry name d es).lookup other = if other = name then some d else es.lookup other := by
  induction es with
  | nil => exact lookup_entry name d [] other
  | cons entry rest ih =>
    obtain ⟨key, value⟩ := entry
    simp only [insertEntry]
    split
    · rename_i h
      subst h
      simp only [lookup_entry]
      split <;> rfl
    · rename_i hne
      split
      · exact lookup_entry name d _ other
      · rw [lookup_entry, ih, lookup_entry]
        by_cases hk : other = key
        · rw [if_pos hk, if_neg (fun hn => hne (hn.symm.trans hk)), if_pos hk]
        · rw [if_neg hk, if_neg hk]

/-- A definition gives its own name the value and leaves every other name alone. -/
theorem value?_insert (t : ConstantTable) (name : String) (d : Decimal) (other : String) :
    (t.insert name d).value? other = if other = name then some d else t.value? other :=
  lookup_insertEntry name d t.entries other

theorem lookup_eraseEntry (name : String) (es : List (String × Decimal)) (other : String) :
    (es.filter fun entry => entry.1 != name).lookup other
      = if other = name then none else es.lookup other := by
  induction es with
  | nil => simp
  | cons entry rest ih =>
    obtain ⟨key, value⟩ := entry
    by_cases hk : key = name
    · rw [List.filter_cons_of_neg (by simp [hk]), ih, lookup_entry]
      by_cases h : other = name
      · rw [if_pos h, if_pos h]
      · rw [if_neg h, if_neg h, if_neg (fun he => h (he.trans hk))]
    · rw [List.filter_cons_of_pos (by simp [hk]), lookup_entry, ih, lookup_entry]
      by_cases h : other = name
      · rw [if_neg (fun he => hk (he.symm.trans h)), if_pos h, if_pos h]
      · rw [if_neg h, if_neg h]

/-- A removal forgets its own name and leaves every other name alone. -/
theorem value?_erase (t : ConstantTable) (name other : String) :
    (t.erase name).value? other = if other = name then none else t.value? other :=
  lookup_eraseEntry name t.entries other

/-! ## Names and values as typed -/

def maxNameLength : Nat := 10

/-- Words that a name would hide, beside the tokens of the keypad. -/
def reserved : List String := Token.fixed.map Token.text ++ ["E", "x"]

def checkName (name : String) : Except Failure Unit :=
  let cs := name.toList
  if name.utf8ByteSize = 0 ∨ maxNameLength < name.utf8ByteSize then .error .nameLength
  else if !cs.all Char.isAlpha then .error (.nameLetters name)
  else if reserved.contains name then .error (.nameReserved name)
  else if cs.getLast? = some 'E' then .error (.nameExponent name)
  else .ok ()

/-- The number that a row of digits writes, if it is one. -/
def digits? (cs : List Char) : Option Nat :=
  if cs.isEmpty || !Literal.allDigits cs then none else some (Literal.value cs)

/-- The whole part, the numerator and the denominator of `n/d` or `q/n/d`. -/
def mixed? (cs : List Char) : Option (Nat × Nat × Nat) :=
  match (cs.splitOn '/').mapM digits? with
  | some [n, d] => if d = 0 then none else some (0, n, d)
  | some [q, n, d] => if d = 0 then none else some (q, n, d)
  | _ => none

/-- A value as typed, without blanks around it. -/
def readValue (text : String) : Except Failure Decimal :=
  let cs := Text.trim text.toList
  if !cs.contains '/' then
    match Decimal.read? (String.ofList cs) with
    | some d => .ok d
    | none => .error (.badDecimal (String.ofList cs))
  else
    match mixed? (Literal.skip '-' cs) with
    | none => .error (.badFraction (String.ofList cs))
    | some (q, n, d) =>
      let v := Decimal.ofRat (mkRat (q * d + n : Nat) d)
      .ok (if cs.head? = some '-' then -v else v)

/-- Adds a constant, or gives it a new value. -/
def define (t : ConstantTable) (name text : String) : Except Failure ConstantTable := do
  checkName name
  return t.insert name (← readValue text)

/-- The table of the given names and values, defined in order. -/
def ofList (entries : List (String × String)) : Except Failure ConstantTable :=
  entries.foldlM (fun t entry => t.define entry.1 entry.2) empty

end ConstantTable

end Keypad
