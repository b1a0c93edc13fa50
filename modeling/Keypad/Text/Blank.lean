/-!
# Blank characters

The characters that count as white space, in a formula and around a typed value: the Unicode
property `White_Space`. A formula loses all of them; a value loses those at its two ends.
-/

namespace Keypad.Text

/-- The code points of the property, as inclusive ranges. -/
def blankRanges : List (Nat × Nat) :=
  [(0x09, 0x0d), (0x20, 0x20), (0x85, 0x85), (0xa0, 0xa0), (0x1680, 0x1680), (0x2000, 0x200a),
    (0x2028, 0x2029), (0x202f, 0x202f), (0x205f, 0x205f), (0x3000, 0x3000)]

def isBlank (c : Char) : Bool :=
  blankRanges.any fun range => range.1 ≤ c.toNat && c.toNat ≤ range.2

/-- The text without its blanks. -/
def squeeze (cs : List Char) : List Char :=
  cs.filter fun c => !isBlank c

/-- The text without the blanks at its two ends. -/
def trim (cs : List Char) : List Char :=
  ((cs.dropWhile isBlank).reverse.dropWhile isBlank).reverse

@[simp] theorem squeeze_nil : squeeze [] = [] := rfl

end Keypad.Text
