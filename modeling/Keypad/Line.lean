import Keypad.Token

/-!
# Lines

A line is a sequence of keys and parenthesized groups, each group holding a line. It is what a
token sequence becomes once its parentheses are paired; left parentheses that stay open are closed
at its end. Writing a line out as tokens and reading it back changes nothing.
-/

namespace Keypad

inductive Line where
  | nil
  | key (k : Key) (rest : Line)
  | group (inner rest : Line)
  deriving DecidableEq, Repr

namespace Line

def append : Line → Line → Line
  | nil, m => m
  | key k rest, m => key k (append rest m)
  | group inner rest, m => group inner (append rest m)

instance : Append Line := ⟨append⟩

@[simp] theorem nil_append (m : Line) : nil ++ m = m := rfl

@[simp] theorem key_append (k : Key) (l m : Line) : key k l ++ m = key k (l ++ m) := rfl

@[simp] theorem group_append (i l m : Line) : group i l ++ m = group i (l ++ m) := rfl

@[simp] theorem append_nil (l : Line) : l ++ nil = l := by
  induction l with
  | nil => rfl
  | key k rest ih => rw [key_append, ih]
  | group inner rest _ ih => rw [group_append, ih]

theorem append_assoc (l m n : Line) : l ++ m ++ n = l ++ (m ++ n) := by
  induction l with
  | nil => rfl
  | key k rest ih => simp only [key_append, ih]
  | group inner rest _ ih => simp only [group_append, ih]

/-- Does the line start with a group? -/
def startsWithGroup : Line → Bool
  | group _ _ => true
  | _ => false

/-- The number of commas outside groups. -/
def commas : Line → Nat
  | nil => 0
  | key k rest => (if k = .comma then 1 else 0) + commas rest
  | group _ rest => commas rest

/-! ## Lines and tokens -/

def toTokens : Line → List Token
  | nil => []
  | key k rest => .key k :: toTokens rest
  | group inner rest => .left :: (toTokens inner ++ .right :: toTokens rest)

/-- Puts a token in front of a line that is being read from its end. The lines in `outer` follow
right parentheses whose left ones are still to come. -/
def place (t : Token) (state : Line × List Line) : Line × List Line :=
  match t, state with
  | .key k, (line, outer) => (key k line, outer)
  | .right, (line, outer) => (nil, line :: outer)
  | .left, (line, []) => (group line nil, [])
  | .left, (line, after :: outer) => (group line after, outer)

/-- The line of a token sequence; none if a right parenthesis has no left one. -/
def ofTokens? (tokens : List Token) : Option Line :=
  match tokens.foldr place (nil, []) with
  | (line, []) => some line
  | _ => none

@[simp] theorem toTokens_append (l m : Line) :
    (l ++ m).toTokens = l.toTokens ++ m.toTokens := by
  induction l with
  | nil => rfl
  | key k rest ih => simp [toTokens, ih]
  | group inner rest _ ih => simp [toTokens, ih]

theorem foldr_place_toTokens (l m : Line) (outer : List Line) :
    l.toTokens.foldr place (m, outer) = (l ++ m, outer) := by
  induction l generalizing m outer with
  | nil => rfl
  | key k rest ih => simp [toTokens, ih, place]
  | group inner rest ihi ihr => simp [toTokens, ihr, ihi, place]

@[simp] theorem ofTokens?_toTokens (l : Line) : ofTokens? l.toTokens = some l := by
  simp [ofTokens?, foldr_place_toTokens]

end Line

end Keypad
