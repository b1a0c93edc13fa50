import Keypad.Proofs.Canonical.Neighbours
import Keypad.Proofs.Literal

/-!
# The syntax of arithmetic

Canonical lines of literals, signs, `×`, `÷`, bars, squares and groups, as trees. A level is a sum
of terms, a term a product of rows of fractions, and a row is cut into operands by its bars. All
three grow to the right, as they are read.
-/

namespace Keypad

def Key.isArithmetic : Key → Bool
  | literal _ | plus | minus | times | obelus | bar | square => true
  | _ => false

def Token.isArithmetic : Token → Bool
  | key k => k.isArithmetic
  | _ => true

/-- Every key of the line, also in its groups, is one of arithmetic. -/
def Line.IsArithmetic (line : Line) : Prop := ∀ t ∈ line.toTokens, t.isArithmetic

instance (line : Line) : Decidable line.IsArithmetic :=
  inferInstanceAs (Decidable (∀ t ∈ line.toTokens, t.isArithmetic = true))

namespace Arithmetic

mutual

inductive Terms where
  | one (p : Factors)
  | more (s : Terms) (minus : Bool) (p : Factors)

inductive Factors where
  | one (r : Row)
  | more (p : Factors) (divides : Bool) (r : Row)

inductive Row where
  | one (x : Operand)
  | more (r : Row) (x : Operand)

/-- A sign that is not between two terms belongs to one operand, and is `true` for a minus. -/
inductive Operand where
  | literal (sign : Option Bool) (text : String)
  | group (sign : Option Bool) (s : Terms)
  | square (x : Operand)

end

def signKey (minus : Bool) : Key := if minus then .minus else .plus

def factorKey (divides : Bool) : Key := if divides then .obelus else .times

def signLine : Option Bool → Line
  | none => .nil
  | some minus => .key (signKey minus) .nil

theorem commas_signLine (sign : Option Bool) : (signLine sign).commas = 0 := by
  cases sign with
  | none => rfl
  | some minus => cases minus <;> rfl

mutual

def Terms.toLine : Terms → Line
  | .one p => p.toLine
  | .more s minus p => s.toLine ++ .key (signKey minus) p.toLine

def Factors.toLine : Factors → Line
  | .one r => r.toLine
  | .more p divides r => p.toLine ++ .key (factorKey divides) r.toLine

def Row.toLine : Row → Line
  | .one x => x.toLine
  | .more r x => r.toLine ++ .key .bar x.toLine

def Operand.toLine : Operand → Line
  | .literal sign text => signLine sign ++ .key (.literal text) .nil
  | .group sign s => signLine sign ++ .group s.toLine .nil
  | .square x => x.toLine ++ .key .square .nil

end

/-! ## Reading -/

/-- What has been read of a level before an operand. -/
structure Opening where
  terms : Option (Terms × Bool) := none
  factors : Option (Factors × Bool) := none
  row : Option Row := none

namespace Opening

variable (o : Opening) (x : Operand)

def toRow : Row :=
  match o.row with
  | none => .one x
  | some r => .more r x

def toFactors : Factors :=
  match o.factors with
  | none => .one (o.toRow x)
  | some (p, divides) => .more p divides (o.toRow x)

def toTerms : Terms :=
  match o.terms with
  | none => .one (o.toFactors x)
  | some (s, minus) => .more s minus (o.toFactors x)

/-- The line in front of the operand. -/
def toLine : Line :=
  (match o.terms with
    | none => .nil
    | some (s, minus) => s.toLine ++ .key (signKey minus) .nil) ++
  (match o.factors with
    | none => .nil
    | some (p, divides) => p.toLine ++ .key (factorKey divides) .nil) ++
  match o.row with
  | none => .nil
  | some r => r.toLine ++ .key .bar .nil

theorem toLine_toTerms : (o.toTerms x).toLine = o.toLine ++ x.toLine := by
  obtain ⟨terms, factors, row⟩ := o
  cases terms <;> cases factors <;> cases row <;>
    simp [toTerms, toFactors, toRow, toLine, Terms.toLine, Factors.toLine, Row.toLine,
      Line.append_assoc]

/-- The opening behind the operand and a sign, a factor key or a bar. -/
def afterSign (minus : Bool) : Opening := { terms := some (o.toTerms x, minus) }

def afterFactor (divides : Bool) : Opening :=
  { terms := o.terms, factors := some (o.toFactors x, divides) }

def afterBar : Opening := { o with row := some (o.toRow x) }

theorem toLine_afterSign (minus : Bool) (line : Line) :
    (o.afterSign x minus).toLine ++ line
      = o.toLine ++ (x.toLine ++ .key (signKey minus) line) := by
  have hterms := congrArg (· ++ Line.key (signKey minus) line) (o.toLine_toTerms x)
  simpa [afterSign, toLine, Line.append_assoc] using hterms

theorem toLine_afterFactor (divides : Bool) (line : Line) :
    (o.afterFactor x divides).toLine ++ line
      = o.toLine ++ (x.toLine ++ .key (factorKey divides) line) := by
  obtain ⟨terms, factors, row⟩ := o
  cases terms <;> cases factors <;> cases row <;>
    simp [afterFactor, toFactors, toRow, toLine, Factors.toLine, Row.toLine, Line.append_assoc]

theorem toLine_afterBar (line : Line) :
    (o.afterBar x).toLine ++ line = o.toLine ++ (x.toLine ++ .key .bar line) := by
  obtain ⟨terms, factors, row⟩ := o
  cases terms <;> cases factors <;> cases row <;>
    simp [afterBar, toRow, toLine, Row.toLine, Line.append_assoc]

end Opening

/-- The line can be read as the rest of a level behind an operand. -/
def Continues (line : Line) : Prop :=
  ∀ (o : Opening) (x : Operand), ∃ s : Terms, s.toLine = o.toLine ++ (x.toLine ++ line)

/-- The line can be read where an operand is expected, behind a sign if there is one. -/
def Resumes (sign : Option Bool) (line : Line) : Prop :=
  ∀ o : Opening, ∃ s : Terms, s.toLine = o.toLine ++ (signLine sign ++ line)

theorem continues_nil : Continues .nil := by
  intro o x
  exact ⟨o.toTerms x, by simp [o.toLine_toTerms]⟩

theorem Resumes.addTerm {rest : Line} (h : Resumes none rest) (minus : Bool) :
    Continues (.key (signKey minus) rest) := by
  intro o x
  obtain ⟨s, hs⟩ := h (o.afterSign x minus)
  refine ⟨s, ?_⟩
  rw [hs, ← o.toLine_afterSign]
  rfl

theorem Resumes.addFactor {rest : Line} (h : Resumes none rest) (divides : Bool) :
    Continues (.key (factorKey divides) rest) := by
  intro o x
  obtain ⟨s, hs⟩ := h (o.afterFactor x divides)
  refine ⟨s, ?_⟩
  rw [hs, ← o.toLine_afterFactor]
  rfl

theorem Resumes.addBar {rest : Line} (h : Resumes none rest) : Continues (.key .bar rest) := by
  intro o x
  obtain ⟨s, hs⟩ := h (o.afterBar x)
  refine ⟨s, ?_⟩
  rw [hs, ← o.toLine_afterBar]
  rfl

theorem Resumes.addSign {rest : Line} {minus : Bool} (h : Resumes (some minus) rest) :
    Resumes none (.key (signKey minus) rest) := h

theorem Continues.addSquare {rest : Line} (h : Continues rest) :
    Continues (.key .square rest) := by
  intro o x
  obtain ⟨s, hs⟩ := h o (.square x)
  refine ⟨s, ?_⟩
  rw [hs]
  simp [Operand.toLine, Line.append_assoc]

theorem Continues.addLiteral {rest : Line} (h : Continues rest) (sign : Option Bool)
    (text : String) : Resumes sign (.key (.literal text) rest) := by
  intro o
  obtain ⟨s, hs⟩ := h o (.literal sign text)
  refine ⟨s, ?_⟩
  rw [hs]
  simp [Operand.toLine, Line.append_assoc]

theorem Continues.addGroup {rest : Line} (h : Continues rest) (sign : Option Bool) (t : Terms) :
    Resumes sign (.group t.toLine rest) := by
  intro o
  obtain ⟨s, hs⟩ := h o (.group sign t)
  refine ⟨s, ?_⟩
  rw [hs]
  simp [Operand.toLine, Line.append_assoc]

theorem Resumes.exists_toLine {line : Line} (h : Resumes none line) :
    ∃ s : Terms, s.toLine = line := h {}

section Key

variable {k : Key} {rest : Line} (hk : k.isArithmetic)
  (hbehind : (Token.key k).completes → Continues rest)
  (hwaiting : ∀ sign : Option Bool, (Token.key k).completes = false →
    (sign.isSome → (Token.key k).isSign) → Resumes sign rest)
include hk hbehind hwaiting

/-- A key behind an operand. -/
theorem continues_key (hbegins : (Token.key k).begins = false) : Continues (.key k rest) := by
  cases k with
  | literal text => cases hbegins
  | plus => exact (hwaiting none rfl (by simp)).addTerm false
  | minus => exact (hwaiting none rfl (by simp)).addTerm true
  | times => exact (hwaiting none rfl (by simp)).addFactor false
  | obelus => exact (hwaiting none rfl (by simp)).addFactor true
  | bar => exact (hwaiting none rfl (by simp)).addBar
  | square => exact (hbehind rfl).addSquare
  | _ => cases hk

/-- A key where an operand is expected. No sign stands behind another one. -/
theorem resumes_key (hplain : k.Plain) {sign : Option Bool}
    (hsign : sign.isSome → (Token.key k).begins) (hneeds : (Token.key k).continues = false) :
    Resumes sign (.key k rest) := by
  have hnone (h : (Token.key k).begins = false) : sign = none := by
    cases sign with
    | none => rfl
    | some minus => simp [hsign rfl] at h
  cases k with
  | literal text =>
    have hcompletes : (Token.key (.literal text)).completes := by
      simp [Token.completes, Literal.exponentBase?_of_parts? hplain]
    exact (hbehind hcompletes).addLiteral sign text
  | plus =>
    rw [hnone rfl]
    exact (hwaiting (some false) rfl (fun _ => rfl)).addSign
  | minus =>
    rw [hnone rfl]
    exact (hwaiting (some true) rfl (fun _ => rfl)).addSign
  | times | obelus | bar | square => cases hneeds
  | _ => cases hk

end Key

/-- The rest of a level can be read, behind an operand and where one is expected. -/
theorem continues_and_resumes (line : Line) (hkeys : line.IsArithmetic)
    (hplain : ∀ k, .key k ∈ line.toTokens → k.Plain) (a : Token)
    (hchain : (a :: (line.toTokens ++ [.right])).IsChain Token.Fits) :
    (a.completes → Continues line) ∧
    ∀ sign : Option Bool, a.completes = false → (sign.isSome → a.isSign) → Resumes sign line := by
  induction line generalizing a with
  | nil =>
    refine ⟨fun _ => continues_nil, ?_⟩
    intro sign ha
    have hfit : a.Fits .right := by simpa [Line.toTokens] using hchain
    simp [hfit.operand rfl] at ha
  | key k rest ih =>
    obtain ⟨hbehind, hwaiting⟩ := ih (fun t ht => hkeys t (List.mem_cons_of_mem _ ht))
      (fun j hj => hplain j (List.mem_cons_of_mem _ hj)) (.key k) hchain.tail
    have hfit : a.Fits (.key k) := hchain.rel
    have hk : k.isArithmetic := hkeys (.key k) List.mem_cons_self
    refine ⟨fun ha => continues_key hk hbehind hwaiting ?_, fun sign ha hsign =>
      resumes_key hk hbehind hwaiting (hplain k List.mem_cons_self) (hfit.signed ∘ hsign) ?_⟩
    · by_contra hbegins
      simp [hfit.separate (by simpa using hbegins)] at ha
    · by_contra hcontinues
      simp [hfit.operand (by simpa using hcontinues)] at ha
  | group inner rest ihi ihr =>
    have hparts : (a :: ((Line.group inner rest).toTokens ++ [.right]))
        = (a :: .left :: inner.toTokens) ++ .right :: (rest.toTokens ++ [.right]) := by
      simp [Line.toTokens]
    rw [hparts, List.isChain_split] at hchain
    obtain ⟨hbefore, hafter⟩ := hchain
    have hfit : a.Fits .left := hbefore.rel
    obtain ⟨-, hinner⟩ := ihi (fun t ht => hkeys t (by simp [Line.toTokens, ht]))
      (fun j hj => hplain j (by simp [Line.toTokens, hj])) .left hbefore.tail
    obtain ⟨hrest, -⟩ := ihr (fun t ht => hkeys t (by simp [Line.toTokens, ht]))
      (fun j hj => hplain j (by simp [Line.toTokens, hj])) .right hafter
    constructor
    · intro ha
      simp [hfit.separate rfl] at ha
    · intro sign _ _
      obtain ⟨t, rfl⟩ := (hinner none rfl (by simp)).exists_toLine
      exact (hrest rfl).addGroup sign t

/-- A canonical line of arithmetic can be read. -/
theorem exists_toLine {line : Line} (hline : line.IsCanonical) (hkeys : line.IsArithmetic) :
    ∃ s : Terms, s.toLine = line := by
  obtain ⟨-, hwaiting⟩ := continues_and_resumes line hkeys hline.plain .left hline.neighbours
  exact (hwaiting none rfl (by simp)).exists_toLine

end Arithmetic

end Keypad
