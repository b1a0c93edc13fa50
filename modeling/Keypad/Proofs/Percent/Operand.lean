import Keypad.Proofs.Canonical.Levels

/-!
# Operands as they are typed

An operand is a literal, a constant, `Ans`, a group, an operation with its group, or a literal that
leaves its exponent to a group. Behind it may stand squares, factorials, percent signs, powers and
indices of roots. The canonical form of an operand does not depend on where the operand stands, but
for the sign or the multiplication that leads to it.
-/

namespace Keypad

open Canonical

/-- What an operand begins with. -/
inductive Atom where
  | literal (text : String) (closed : Token.exponentBase? text = none)
  | constant (c : Constant)
  | answer
  | group (inner : Line)
  | call (op : Operation) (forward : op.isBackward = false) (inner : Line)
  | scaled (text : String) (opened : (Token.exponentBase? text).isSome) (inner : Line)

/-- What may stand behind an operand and takes it. -/
inductive Suffix where
  | square
  | bang
  | percent
  | applied (op : Operation) (backward : op.isBackward) (inner : Line)

/-- An operand with all that stands behind it and takes it. -/
structure TypedOperand where
  atom : Atom
  suffixes : List Suffix := []

def Suffix.isPercent : Suffix → Bool
  | percent => true
  | _ => false

/-- A sign before the operand is a sign of its hundredth too: what it begins with is not taken
before by a power, a root, a factorial or a square. -/
def TypedOperand.takesSign (x : TypedOperand) : Bool := x.suffixes.head?.all Suffix.isPercent

def Atom.toLine : Atom → Line
  | literal text _ => .key (.literal text) .nil
  | constant c => .key (.constant c) .nil
  | answer => .key .answer .nil
  | group inner => .group inner .nil
  | call op _ inner => .key (.operation op) (.group inner .nil)
  | scaled text _ inner => .key (.literal text) (.group inner .nil)

def Suffix.toLine : Suffix → Line
  | square => .key .square .nil
  | bang => .key .bang .nil
  | percent => .key .percent .nil
  | applied op _ inner => .key (.operation op) (.group inner .nil)

def Suffix.toLines (suffixes : List Suffix) : Line :=
  suffixes.foldr (fun s line => s.toLine ++ line) .nil

def TypedOperand.toLine (x : TypedOperand) : Line := x.atom.toLine ++ Suffix.toLines x.suffixes

/-! ## Canonical forms -/

/-- The canonical form of a group behind an operation or none. -/
def Canonical.groupForm (answer : Except Failure Line) (op : Option Operation) (inner : Line) :
    Except Failure Line := do
  checkCommas op inner
  return .group (← level answer (.inside op) {} inner) .nil

def Atom.form (answer : Except Failure Line) : Atom → Except Failure Line
  | .literal text _ => Progress.emit {} answer false (.literal text)
  | .constant c => .ok (.key (.constant c) .nil)
  | .answer => return .group (← answer) .nil
  | .group inner => groupForm answer none inner
  | .call op _ inner => return .key (.operation op) (← groupForm answer (some op) inner)
  | .scaled text _ inner => do
    let mantissa ← Progress.emit {} answer true (.literal text)
    return mantissa ++ (← groupForm answer (some .exponent) inner)

/-- The canonical form of a percent sign. -/
def hundredth : Line := .key .obelus (.key (.literal "100") .nil)

def Suffix.form (answer : Except Failure Line) : Suffix → Except Failure Line
  | square => .ok (.key .square .nil)
  | bang => .ok (.key .bang .nil)
  | percent => .ok hundredth
  | applied op _ inner => return .key (.operation op) (← groupForm answer (some op) inner)

def Suffix.forms (answer : Except Failure Line) : List Suffix → Except Failure Line
  | [] => .ok .nil
  | s :: suffixes => return (← s.form answer) ++ (← forms answer suffixes)

def TypedOperand.form (answer : Except Failure Line) (x : TypedOperand) : Except Failure Line :=
  return (← x.atom.form answer) ++ (← Suffix.forms answer x.suffixes)

/-- A percent sign behind the others. -/
theorem Suffix.forms_concat {answer : Except Failure Line} {suffixes : List Suffix} {own : Line}
    (h : forms answer suffixes = .ok own) :
    forms answer (suffixes ++ [percent]) = .ok (own ++ hundredth) := by
  induction suffixes generalizing own with
  | nil =>
    cases h
    rfl
  | cons s suffixes ih =>
    obtain ⟨first, hfirst, h⟩ := Except.exists_of_bind h
    obtain ⟨others, hothers, h⟩ := Except.exists_of_bind h
    cases h
    rw [List.cons_append, forms, hfirst, ih hothers, Line.append_assoc]
    rfl

/-! ## Operands within a level -/

namespace Canonical

variable {answer : Except Failure Line} {place : Place} {p : Progress} {rest out : Line}

namespace Progress

/-- The level has just read an operand. -/
structure Completed (p : Progress) : Prop where
  sign : p.sign = none
  pending : p.pending = none
  operand : p.hasOperand

theorem completed_afterGroup : afterGroup.Completed := ⟨rfl, rfl, rfl⟩

/-- Nothing is written before what continues an operand. -/
theorem Completed.lead_eq_nil (h : p.Completed) {t : Token} (ht : t.begins = false) :
    p.lead t = .nil := by
  rw [lead, h.sign, multiplies, ht, Bool.and_false]
  rfl

theorem lead_of_begins {t : Token} (ht : t.begins) (p : Progress) : p.lead t = p.lead .left := by
  rw [lead, lead, multiplies, multiplies, ht]
  rfl

end Progress

theorem exists_of_groupForm {op : Option Operation} {inner own : Line}
    (h : groupForm answer op inner = .ok own) :
    ∃ content, level answer (.inside op) {} inner = .ok content ∧ own = .group content .nil := by
  obtain ⟨-, -, h⟩ := Except.exists_of_bind h
  obtain ⟨content, hcontent, h⟩ := Except.exists_of_bind h
  cases h
  exact ⟨content, hcontent, rfl⟩

theorem exists_of_level_key {k : Key} (hk : k ≠ .plus ∧ k ≠ .minus ∧ k ≠ .comma)
    (h : level answer place p (.key k rest) = .ok out) :
    ∃ own tail, p.emit answer rest.startsWithGroup k = .ok own ∧
      level answer place (p.after k) rest = .ok tail ∧ out = p.lead (.key k) ++ (own ++ tail) := by
  cases becomes_of_level h with
  | plus => exact absurd rfl hk.1
  | minus => exact absurd rfl hk.2.1
  | comma => exact absurd rfl hk.2.2
  | key _ hown htail => exact ⟨_, _, hown, htail.level_eq, rfl⟩

theorem exists_of_level_group {inner : Line}
    (h : level answer place p (.group inner rest) = .ok out) :
    ∃ own tail, groupForm answer p.pending inner = .ok own ∧
      level answer place .afterGroup rest = .ok tail ∧ out = p.lead .left ++ (own ++ tail) := by
  cases becomes_of_level h with
  | @group _ _ _ _ content tail hcheck hinner htail =>
    refine ⟨.group content .nil, tail, ?_, htail.level_eq, rfl⟩
    rw [groupForm, hcheck, hinner.level_eq]
    rfl

/-- An operation with its group. -/
theorem exists_of_level_call {op : Operation} {inner : Line}
    (h : level answer place p (.key (.operation op) (.group inner rest)) = .ok out) :
    ∃ own tail, groupForm answer (some op) inner = .ok own ∧
      level answer place .afterGroup rest = .ok tail ∧
      out = p.lead (.key (.operation op)) ++ (.key (.operation op) own ++ tail) := by
  obtain ⟨key, out, hkey, hout, rfl⟩ := exists_of_level_key ⟨by simp, by simp, by simp⟩ h
  obtain ⟨own, tail, hown, htail, rfl⟩ := exists_of_level_group hout
  cases (Progress.emit_operation_eq_ok hkey).2.2
  exact ⟨own, tail, hown, htail, rfl⟩

/-- A literal that leaves its exponent to a group. -/
theorem exists_of_level_scaled {text : String} (hopened : (Token.exponentBase? text).isSome)
    {inner : Line} (h : level answer place p (.key (.literal text) (.group inner rest)) = .ok out) :
    ∃ mantissa own tail, Progress.emit {} answer true (.literal text) = .ok mantissa ∧
      groupForm answer (some .exponent) inner = .ok own ∧
      level answer place .afterGroup rest = .ok tail ∧
      out = p.lead .left ++ (mantissa ++ (own ++ tail)) := by
  obtain ⟨base, hbase⟩ := Option.isSome_iff_exists.1 hopened
  obtain ⟨mantissa, out, hmantissa, hout, rfl⟩ :=
    exists_of_level_key ⟨by simp, by simp, by simp⟩ h
  obtain ⟨own, tail, hown, htail, rfl⟩ := exists_of_level_group hout
  have hafter : (p.after (.literal text)).lead .left = .nil ∧
      (p.after (.literal text)).pending = some .exponent := by
    simp only [Progress.after, hbase, Option.isSome_some, if_true]
    exact ⟨rfl, trivial⟩
  rw [hafter.2] at hown
  refine ⟨mantissa, own, tail, ?_, hown, htail, ?_⟩
  · simp only [Progress.emit, hbase] at hmantissa ⊢
    exact hmantissa
  · rw [Progress.lead_of_begins rfl, hafter.1, Line.nil_append]

theorem exists_of_level_atom {a : Atom} (hp : p.pending = none)
    (h : level answer place p (a.toLine ++ rest) = .ok out) :
    ∃ own q tail, a.form answer = .ok own ∧ q.Completed ∧ level answer place q rest = .ok tail ∧
      out = p.lead .left ++ (own ++ tail) := by
  cases a with
  | literal text hclosed =>
    obtain ⟨own, tail, hown, htail, rfl⟩ := exists_of_level_key ⟨by simp, by simp, by simp⟩ h
    refine ⟨own, _, tail, ?_, ?_, htail, by rw [Progress.lead_of_begins rfl]⟩
    · simpa only [Atom.form, Progress.emit, hclosed] using hown
    · simp only [Progress.after, hclosed]
      exact ⟨rfl, rfl, by simp [Progress.hasOperand, Token.completes, hclosed]⟩
  | constant c =>
    obtain ⟨own, tail, hown, htail, rfl⟩ := exists_of_level_key ⟨by simp, by simp, by simp⟩ h
    exact ⟨own, _, tail, hown, ⟨rfl, rfl, rfl⟩, htail, by rw [Progress.lead_of_begins rfl]⟩
  | answer =>
    obtain ⟨own, tail, hown, htail, rfl⟩ := exists_of_level_key ⟨by simp, by simp, by simp⟩ h
    exact ⟨own, _, tail, hown, ⟨rfl, rfl, rfl⟩, htail, by rw [Progress.lead_of_begins rfl]⟩
  | group inner =>
    obtain ⟨own, tail, hown, htail, rfl⟩ := exists_of_level_group h
    rw [hp] at hown
    exact ⟨own, _, tail, hown, Progress.completed_afterGroup, htail, rfl⟩
  | call op hforward inner =>
    obtain ⟨own, tail, hown, htail, rfl⟩ := exists_of_level_call h
    refine ⟨.key (.operation op) own, _, tail, ?_, Progress.completed_afterGroup, htail, ?_⟩
    · rw [Atom.form, hown]
      rfl
    · rw [Progress.lead_of_begins (t := .key (.operation op)) (by simp [Token.begins, hforward])]
  | scaled text hopened inner =>
    obtain ⟨mantissa, own, tail, hmantissa, hown, htail, rfl⟩ := exists_of_level_scaled hopened h
    refine ⟨mantissa ++ own, _, tail, ?_, Progress.completed_afterGroup, htail, ?_⟩
    · rw [Atom.form, hmantissa, hown]
      rfl
    · rw [Line.append_assoc]

theorem exists_of_level_suffix {s : Suffix} (hp : p.Completed)
    (h : level answer place p (s.toLine ++ rest) = .ok out) :
    ∃ own q tail, s.form answer = .ok own ∧ q.Completed ∧ level answer place q rest = .ok tail ∧
      out = own ++ tail := by
  have hmark {k : Key} {form : Line} (hk : k ≠ .plus ∧ k ≠ .minus ∧ k ≠ .comma)
      (hbegins : (Token.key k).begins = false) (hemit : ∀ g, p.emit answer g k = .ok form)
      (hafter : (p.after k).Completed) (h : level answer place p (.key k rest) = .ok out) :
      ∃ q tail, q.Completed ∧ level answer place q rest = .ok tail ∧ out = form ++ tail := by
    obtain ⟨own, tail, hown, htail, rfl⟩ := exists_of_level_key hk h
    cases (hemit _).symm.trans hown
    exact ⟨_, tail, hafter, htail, by rw [hp.lead_eq_nil hbegins, Line.nil_append]⟩
  have hrequire (k : Key) : p.requireOperand k = .ok () := if_pos hp.operand
  cases s with
  | square =>
    obtain ⟨q, tail, hq, htail, rfl⟩ := hmark ⟨by simp, by simp, by simp⟩ rfl
      (fun g => by simp only [Progress.emit, hrequire]; rfl) ⟨rfl, rfl, rfl⟩ h
    exact ⟨_, q, tail, rfl, hq, htail, rfl⟩
  | bang =>
    obtain ⟨q, tail, hq, htail, rfl⟩ := hmark ⟨by simp, by simp, by simp⟩ rfl
      (fun g => by simp only [Progress.emit, hrequire]; rfl) ⟨rfl, rfl, rfl⟩ h
    exact ⟨_, q, tail, rfl, hq, htail, rfl⟩
  | percent =>
    obtain ⟨q, tail, hq, htail, rfl⟩ := hmark ⟨by simp, by simp, by simp⟩ rfl
      (fun g => by simp only [Progress.emit, hrequire]; rfl) ⟨rfl, rfl, rfl⟩ h
    exact ⟨_, q, tail, rfl, hq, htail, rfl⟩
  | applied op hbackward inner =>
    obtain ⟨own, tail, hown, htail, rfl⟩ := exists_of_level_call h
    refine ⟨.key (.operation op) own, _, tail, ?_, Progress.completed_afterGroup, htail, ?_⟩
    · rw [Suffix.form, hown]
      rfl
    · rw [hp.lead_eq_nil (by simp [Token.begins, hbackward]), Line.nil_append]

theorem exists_of_level_suffixes {suffixes : List Suffix} (hp : p.Completed)
    (h : level answer place p (Suffix.toLines suffixes ++ rest) = .ok out) :
    ∃ own q tail, Suffix.forms answer suffixes = .ok own ∧ q.Completed ∧
      level answer place q rest = .ok tail ∧ out = own ++ tail := by
  induction suffixes generalizing p out with
  | nil => exact ⟨.nil, p, out, rfl, hp, h, rfl⟩
  | cons s suffixes ih =>
    rw [Suffix.toLines, List.foldr_cons, Line.append_assoc] at h
    obtain ⟨own, q, tail, hown, hq, htail, rfl⟩ := exists_of_level_suffix hp h
    obtain ⟨others, r, rest, hothers, hr, hrest, rfl⟩ := ih hq htail
    refine ⟨own ++ others, r, rest, ?_, hr, hrest, by rw [Line.append_assoc]⟩
    rw [Suffix.forms, hown, hothers]
    rfl

/-- Within a level, an operand becomes its canonical form behind what leads to it. -/
theorem exists_of_level_operand {x : TypedOperand} (hp : p.pending = none)
    (h : level answer place p (x.toLine ++ rest) = .ok out) :
    ∃ own q tail, x.form answer = .ok own ∧ q.Completed ∧ level answer place q rest = .ok tail ∧
      out = p.lead .left ++ (own ++ tail) := by
  rw [TypedOperand.toLine, Line.append_assoc] at h
  obtain ⟨own, q, tail, hown, hq, htail, rfl⟩ := exists_of_level_atom hp h
  obtain ⟨others, r, rest, hothers, hr, hrest, rfl⟩ := exists_of_level_suffixes hq htail
  refine ⟨own ++ others, r, rest, ?_, hr, hrest, by rw [Line.append_assoc]⟩
  rw [TypedOperand.form, hown, hothers]
  rfl

end Canonical

end Keypad
