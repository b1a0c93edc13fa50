import Keypad.Token

/-!
# Positions of parentheses and commas

Which right parenthesis closes which left one. Left parentheses that stay open are closed behind
the end of the sequence, the innermost first. The commas outside all parentheses cut a stretch of
tokens into ranges of positions.
-/

namespace Keypad

/-- Positions of left parentheses with those of their right ones; `missing` of the latter lie
behind the end. -/
structure Pairing where
  pairs : List (Nat × Nat)
  missing : Nat
  deriving DecidableEq, Repr

namespace Pairing

/-- Pairs the tokens from position `i` on, given the positions still open, innermost first. The
error is the position of a right parenthesis without a left one. -/
def pairFrom (opened : List Nat) (i : Nat) : List Token → Except Nat Pairing
  | [] => .ok ⟨opened.zipIdx i, opened.length⟩
  | .left :: ts => pairFrom (i :: opened) (i + 1) ts
  | .right :: ts =>
    match opened with
    | [] => .error i
    | o :: os => (pairFrom os (i + 1) ts).map fun p => { p with pairs := (o, i) :: p.pairs }
  | .key _ :: ts => pairFrom opened (i + 1) ts

def ofTokens (tokens : List Token) : Except Nat Pairing := pairFrom [] 0 tokens

/-- The position that closes the left parenthesis at position `i`. -/
def closing? (p : Pairing) (i : Nat) : Option Nat := p.pairs.lookup i

end Pairing

/-- The tokens at the positions of a range. -/
def tokensIn (tokens : List Token) (range : Nat × Nat) : List Token :=
  (tokens.take range.2).drop range.1

/-- The ranges cut out by the commas outside parentheses: `start` is where the current range
begins and `i` the position of the next token. -/
def rangesFrom (start stop i depth : Nat) : List Token → List (Nat × Nat)
  | [] => [(start, stop)]
  | .left :: ts => rangesFrom start stop (i + 1) (depth + 1) ts
  | .right :: ts => rangesFrom start stop (i + 1) (depth - 1) ts
  | .key k :: ts =>
    if k = .comma ∧ depth = 0 then (start, i) :: rangesFrom (i + 1) stop (i + 1) depth ts
    else rangesFrom start stop (i + 1) depth ts

/-- The ranges between the commas of the stretch from `start` to `stop`. -/
def commaRanges (tokens : List Token) (start stop : Nat) : List (Nat × Nat) :=
  rangesFrom start stop start 0 ((tokens.take stop).drop start)

end Keypad
