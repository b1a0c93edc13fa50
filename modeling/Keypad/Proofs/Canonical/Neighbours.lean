import Keypad.Line.Canonical
import Mathlib.Data.List.Chain

/-!
# Canonical lines by their neighbours

What a canonical line is, said without the pass that makes one: which tokens may stand side by
side, which keys may occur at all, where commas belong and how many bars a row of fractions has.
`Line.Shaped` says the same from left to right, given the token before the rest of a level.
-/

namespace Keypad

namespace Token

def isSign : Token → Bool
  | key .plus | key .minus => true
  | _ => false

/-- Does the token work on the operand before it, or end a level or a part of one? -/
def continues : Token → Bool
  | key .times | key .obelus | key .bar | key .square | key .bang | key .comma | right => true
  | key (.operation op) => op.isBackward
  | _ => false

def operation? : Token → Option Operation
  | key (.operation op) => some op
  | _ => none

/-- Does the token end a row of fractions? -/
def endsRow : Token → Bool
  | key .plus | key .minus | key .times | key .obelus | key .comma | left | right => true
  | _ => false

/-- May `b` stand right behind `a`? -/
structure Fits (a b : Token) : Prop where
  /-- What continues an operand stands behind a complete one. -/
  operand : b.continues → a.completes
  /-- No operand starts right behind the end of another. -/
  separate : b.begins → a.completes = false
  /-- A sign stands before an operand. -/
  signed : a.isSign → b.begins
  /-- An operation stands before its group. -/
  applied : a.operation?.isSome → b = left

instance (a b : Token) : Decidable (Fits a b) :=
  decidable_of_iff ((b.continues → a.completes) ∧ (b.begins → a.completes = false) ∧
      (a.isSign → b.begins) ∧ (a.operation?.isSome → b = left))
    ⟨fun ⟨h₁, h₂, h₃, h₄⟩ => ⟨h₁, h₂, h₃, h₄⟩, fun ⟨h₁, h₂, h₃, h₄⟩ => ⟨h₁, h₂, h₃, h₄⟩⟩

theorem operation?_of_completes {a : Token} (h : a.completes) : a.operation? = none := by
  cases a with
  | key k => cases k <;> simp_all [completes, operation?]
  | left => rfl
  | right => rfl

theorem isSign_of_completes {a : Token} (h : a.completes) : a.isSign = false := by
  cases a with
  | key k => cases k <;> first | rfl | cases h
  | left => rfl
  | right => rfl

/-- Whatever begins no operand may stand behind a complete one. -/
theorem fits_of_completes {a b : Token} (ha : a.completes) (hb : b.begins = false) :
    a.Fits b where
  operand _ := ha
  separate h := by simp [hb] at h
  signed h := by simp [isSign_of_completes ha] at h
  applied h := by simp [operation?_of_completes ha] at h

theorem begins_of_continues {b : Token} (h : b.continues) : b.begins = false := by
  cases b with
  | key k => cases k <;> simp_all [continues, begins]
  | left => cases h
  | right => rfl

/-- An operand may begin behind whatever neither ends one nor waits for its group. -/
theorem fits_of_begins {a b : Token} (ha : a.completes = false) (ho : a.operation? = none)
    (hb : b.begins) : a.Fits b where
  operand h := by simp [begins_of_continues h] at hb
  separate _ := ha
  signed _ := hb
  applied h := by simp [ho] at h

theorem eq_of_isSign {t : Token} (h : t.isSign) : t = key .plus ∨ t = key .minus := by
  cases t with
  | key k => cases k <;> simp_all [isSign]
  | left => cases h
  | right => cases h

/-- A sign may stand wherever neither another sign nor an operation waits. -/
theorem fits_sign {a s : Token} (hs : s.isSign) (ha : a.isSign = false)
    (ho : a.operation? = none) : a.Fits s where
  operand h := by rcases eq_of_isSign hs with rfl | rfl <;> cases h
  separate h := by rcases eq_of_isSign hs with rfl | rfl <;> cases h
  signed h := by simp [ha] at h
  applied h := by simp [ho] at h

/-- Whatever begins an operand may stand behind a sign. -/
theorem fits_of_isSign {s b : Token} (hs : s.isSign) (hb : b.begins) : s.Fits b := by
  rcases eq_of_isSign hs with rfl | rfl
  · exact fits_of_begins rfl rfl hb
  · exact fits_of_begins rfl rfl hb

end Token

/-- May the key occur in a canonical line? -/
def Key.Plain : Key → Prop
  | literal text => (Literal.parts? text.toList).isSome
  | answer | percent => False
  | _ => True

/-- A group holds at most one comma, and one only behind the operation that takes it. -/
def CommasFit (op : Option Operation) (inner : Line) : Prop :=
  inner.commas = 0 ∨ op = some .log ∧ inner.commas = 1

theorem CommasFit.commas_eq_zero {op : Option Operation} {inner : Line} (h : CommasFit op inner)
    (hop : op ≠ some .log) : inner.commas = 0 := by
  rcases h with hzero | ⟨hlog, -⟩
  · exact hzero
  · exact absurd hlog hop

namespace Line

/-- Every comma of the line belongs to a group that may have it. The operation `op` stands before
the line. -/
def CommasBelong (op : Option Operation) : Line → Prop
  | nil => True
  | key k rest => rest.CommasBelong (Token.key k).operation?
  | group inner rest => CommasFit op inner ∧ inner.CommasBelong none ∧ rest.CommasBelong none

/-- A canonical line: it may stand between parentheses, and so may the content of each of its
groups. -/
structure IsCanonical (line : Line) : Prop where
  /-- Neighbours fit, those at the two ends with the parentheses around the line. Hence neither
  the line nor a group is empty, and every level ends on a complete operand. -/
  neighbours : (Token.left :: (line.toTokens ++ [.right])).IsChain Token.Fits
  /-- Literals can be read; answers and percent signs are gone. -/
  plain : ∀ k, .key k ∈ line.toTokens → k.Plain
  /-- Commas stand directly in groups. -/
  undivided : line.commas = 0
  /-- Each of these groups is that of a logarithm and has one comma. -/
  commas : line.CommasBelong none
  /-- No row of fractions has more than two bars. -/
  rows : ∀ s, s <:+: line.toTokens → (∀ t ∈ s, t.endsRow = false) →
    s.count (.key .bar) ≤ Canonical.maxBars

/-! ## From left to right -/

/-- The bars of the current row of fractions behind a key, given those before it. -/
def barsAfter (k : Key) (bars : Nat) : Nat :=
  if (Token.key k).endsRow then 0 else if k = .bar then bars + 1 else bars

/-- The rest of a level is canonical behind the token `a`, in a row of `bars` bars. -/
def Shaped (a : Token) (bars : Nat) : Line → Prop
  | nil => a.Fits .right
  | key k rest =>
    a.Fits (.key k) ∧ k.Plain ∧ (k = .bar → bars < Canonical.maxBars) ∧
      rest.Shaped (.key k) (barsAfter k bars)
  | group inner rest =>
    a.Fits .left ∧ CommasFit a.operation? inner ∧ inner.Shaped .left 0 ∧ rest.Shaped .right 0

theorem Shaped.chain {a : Token} {bars : Nat} {line : Line} (h : line.Shaped a bars)
    (tail : List Token) (ht : (Token.right :: tail).IsChain Token.Fits) :
    (a :: (line.toTokens ++ .right :: tail)).IsChain Token.Fits := by
  induction line generalizing a bars tail with
  | nil => exact List.isChain_cons_cons.2 ⟨h, ht⟩
  | key k rest ih => exact List.isChain_cons_cons.2 ⟨h.1, ih h.2.2.2 tail ht⟩
  | group inner rest ihi ihr =>
    obtain ⟨hl, -, hi, hr⟩ := h
    simp only [toTokens, List.cons_append, List.append_assoc]
    exact List.isChain_cons_cons.2 ⟨hl, ihi hi _ (ihr hr tail ht)⟩

theorem Shaped.plain {a : Token} {bars : Nat} {line : Line} (h : line.Shaped a bars) {k : Key}
    (hk : .key k ∈ line.toTokens) : k.Plain := by
  induction line generalizing a bars with
  | nil => simp [toTokens] at hk
  | key k' rest ih =>
    rcases List.mem_cons.1 hk with hk | hk
    · cases hk
      exact h.2.1
    · exact ih h.2.2.2 hk
  | group inner rest ihi ihr =>
    obtain ⟨-, -, hi, hr⟩ := h
    simp only [toTokens, List.mem_cons, List.mem_append, reduceCtorEq, false_or] at hk
    rcases hk with hk | hk
    · exact ihi hi hk
    · exact ihr hr hk

theorem Shaped.commasBelong {a : Token} {bars : Nat} {line : Line} (h : line.Shaped a bars) :
    line.CommasBelong a.operation? := by
  induction line generalizing a bars with
  | nil => trivial
  | key k rest ih => exact ih h.2.2.2
  | group inner rest ihi ihr => exact ⟨h.2.1, ihi h.2.2.1, ihr h.2.2.2⟩

/-- Rows of fractions keep to the bound, the first one with `bars` bars before the tokens. -/
def RowsFit (bars : Nat) : List Token → Prop
  | [] => bars ≤ Canonical.maxBars
  | t :: ts =>
    bars ≤ Canonical.maxBars ∧
      RowsFit (if t.endsRow then 0 else if t = .key .bar then bars + 1 else bars) ts

theorem RowsFit.le {bars : Nat} {ts : List Token} (h : RowsFit bars ts) :
    bars ≤ Canonical.maxBars := by
  cases ts with
  | nil => exact h
  | cons t ts => exact h.1

theorem Shaped.rowsFit {a : Token} {bars : Nat} {line : Line} (h : line.Shaped a bars)
    (hb : bars ≤ Canonical.maxBars) (tail : List Token) (ht : RowsFit 0 tail) :
    RowsFit bars (line.toTokens ++ .right :: tail) := by
  induction line generalizing a bars tail with
  | nil => exact ⟨hb, ht⟩
  | key k rest ih =>
    obtain ⟨-, -, hbar, hr⟩ := h
    have hk : barsAfter k bars ≤ Canonical.maxBars := by
      rw [barsAfter]
      split
      · exact Nat.zero_le _
      · split
        · next hk => exact hbar hk
        · exact hb
    refine ⟨hb, ?_⟩
    simpa [barsAfter] using ih hr hk tail ht
  | group inner rest ihi ihr =>
    obtain ⟨-, -, hi, hr⟩ := h
    refine ⟨hb, ?_⟩
    have := ihi hi (Nat.zero_le _) _ (ihr hr (Nat.zero_le _) tail ht)
    simpa [toTokens, Token.endsRow] using this

theorem RowsFit.count_le_of_prefix {bars : Nat} {s ts : List Token} (h : RowsFit bars ts)
    (hs : s <+: ts) (hrow : ∀ t ∈ s, t.endsRow = false) :
    bars + s.count (.key .bar) ≤ Canonical.maxBars := by
  induction ts generalizing bars s with
  | nil => simpa [List.prefix_nil.1 hs] using h.le
  | cons t ts ih =>
    cases s with
    | nil => simpa using h.1
    | cons u s =>
      obtain ⟨rfl, hs'⟩ := List.cons_prefix_cons.1 hs
      have htail := ih h.2 hs' fun t ht => hrow t (List.mem_cons_of_mem _ ht)
      rw [if_neg (by simp [hrow u List.mem_cons_self])] at htail
      rw [List.count_cons]
      split at htail
      · next hu => simp only [hu, beq_self_eq_true, if_true]; omega
      · next hu => simpa [hu] using htail

theorem RowsFit.count_le {bars : Nat} {s ts : List Token} (h : RowsFit bars ts)
    (hs : s <:+: ts) (hrow : ∀ t ∈ s, t.endsRow = false) :
    s.count (.key .bar) ≤ Canonical.maxBars := by
  induction ts generalizing bars with
  | nil => simp [List.infix_nil.1 hs]
  | cons t ts ih =>
    rcases List.infix_cons_iff.1 hs with hp | hi
    · have := h.count_le_of_prefix hp hrow
      omega
    · exact ih h.2 hi

/-- What is canonical from left to right is canonical. -/
theorem Shaped.isCanonical {line : Line} (h : line.Shaped .left 0) (hc : line.commas = 0) :
    line.IsCanonical where
  neighbours := h.chain [] (List.IsChain.singleton _)
  plain _ hk := h.plain hk
  undivided := hc
  commas := h.commasBelong
  rows _ hs hrow :=
    (h.rowsFit (Nat.zero_le _) [] (Nat.zero_le _)).count_le
      (hs.trans (List.infix_append [] _ _)) hrow

end Line

end Keypad
