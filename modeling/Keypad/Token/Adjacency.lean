import Keypad.Token

/-!
# Ends and beginnings of operands

Which tokens complete an operand, and which ones begin one that sticks to its left neighbour. Where
the first kind stands before the second, a multiplication is understood.
-/

namespace Keypad.Token

/-- The literal without a final `E`, if it ends in one. -/
def exponentBase? (text : String) : Option String :=
  if text.toList.getLast? = some 'E' then some (String.ofList text.toList.dropLast) else none

/-- Does the token complete an operand? A literal that ends in `E` waits for its exponent. -/
def completes : Token → Bool
  | key (.literal text) => (exponentBase? text).isNone
  | key (.constant _) | key .answer | key .square | key .bang | key .percent | right => true
  | _ => false

/-- Does the token begin an operand? -/
def begins : Token → Bool
  | key (.operation op) => !op.isBackward
  | key (.literal _) | key (.constant _) | key .answer | left => true
  | _ => false

@[simp] theorem completes_right : completes right = true := rfl

@[simp] theorem begins_left : begins left = true := rfl

@[simp] theorem begins_right : begins right = false := rfl

end Keypad.Token
