import Keypad.Proofs.Canonical.Fixpoint
import Keypad.Proofs.Longhand

/-!
# The canonical form of longhand

The pass over a level closes, shows and folds by itself what longhand spells out. So the canonical
form of a formula, or that it has none, does not depend on whether it is typed in shorthand.
-/

namespace Keypad

theorem Except.toOption_bind {ε α β : Type} (x : Except ε α) (f : α → Except ε β) :
    (x >>= f).toOption = x.toOption.bind fun a => (f a).toOption := by
  cases x with
  | error e => rfl
  | ok a => rfl

namespace Canonical

variable {answer : Except Failure Line} {place : Place} {k : Key} {rest : Line}

namespace Progress

/-- What is known behind an operand that is complete and followed by a shown multiplication. -/
def afterTimes : Progress := { previous := some (.key .times) }

/-- The last token of a level is `a`. Behind an operand neither a sign nor an operation waits. -/
structure Reads (p : Progress) (a : Token) : Prop where
  operand : p.hasOperand = a.completes
  unsigned : p.hasOperand → p.sign = none
  applied : p.hasOperand → p.pending = none

variable {p q : Progress} {a : Token}

theorem reads_start (ha : a = .left ∨ a = .key .comma) : Progress.Reads {} a := by
  rcases ha with rfl | rfl <;> exact ⟨rfl, nofun, nofun⟩

theorem reads_afterGroup : afterGroup.Reads .right := ⟨rfl, fun _ => rfl, fun _ => rfl⟩

theorem reads_addSign (p : Progress) (minus : Bool) :
    (p.addSign minus).Reads (.key (if minus then .minus else .plus)) := by
  cases minus <;> exact ⟨rfl, nofun, nofun⟩

theorem reads_after (p : Progress) (hk : k ≠ .plus ∧ k ≠ .minus ∧ k ≠ .comma) :
    (p.after k).Reads (.key k) := by
  cases k with
  | literal text =>
    cases hbase : Token.exponentBase? text with
    | none =>
      simp only [after, hbase]
      exact ⟨rfl, fun _ => rfl, fun _ => rfl⟩
    | some base =>
      simp only [after, hbase]
      exact ⟨by simp [hasOperand, Token.completes, hbase], by rintro ⟨⟩, by rintro ⟨⟩⟩
  | operation op => exact ⟨rfl, by rintro ⟨⟩, by rintro ⟨⟩⟩
  | plus => exact absurd rfl hk.1
  | minus => exact absurd rfl hk.2.1
  | comma => exact absurd rfl hk.2.2
  | _ => exact ⟨rfl, fun _ => rfl, fun _ => rfl⟩

theorem Reads.multiplies (h : p.Reads a) (t : Token) : p.multiplies t = a.understood t :=
  congrArg (· && t.begins) h.operand

theorem Reads.hasOperand_of_understood (h : p.Reads a) {t : Token} (ht : a.understood t) :
    p.hasOperand := h.operand.trans (Bool.and_eq_true_iff.1 ht).1

theorem Reads.lead_of_understood (h : p.Reads a) {t : Token} (ht : a.understood t) :
    p.lead t = .key .times .nil := by
  rw [lead, h.unsigned (h.hasOperand_of_understood ht)]
  exact if_pos ((h.multiplies t).trans ht)

/-- What begins an operand is written in the same way behind a shown multiplication. -/
theorem emit_afterTimes (hk : (Token.key k).begins) (p : Progress) (g : Bool) :
    afterTimes.emit answer g k = p.emit answer g k := by
  cases k with
  | operation op =>
    have hback : op.isBackward = false := by simpa [Token.begins] using hk
    simp only [emit, hback]
    rfl
  | literal _ | constant _ | answer => rfl
  | _ => cases hk

theorem after_afterTimes (hk : p.multiplies (.key k)) : afterTimes.after k = p.after k := by
  have hbegins : (Token.key k).begins := (Bool.and_eq_true_iff.1 hk).2
  have hbars : (if afterTimes.multiplies (.key k) then 0 else afterTimes.bars) = 0 := ite_self 0
  cases k with
  | literal _ | constant _ | answer | operation _ => simp only [after, hk, hbars, if_true]
  | _ => cases hbegins

/-- A key that completes an operand is written without a look at what follows it. -/
theorem emit_congr {g g' : Bool} (h : (Token.key k).completes = false → g = g') :
    p.emit answer g k = p.emit answer g' k := by
  cases k with
  | literal text =>
    cases hbase : Token.exponentBase? text with
    | none => simp only [emit, hbase]
    | some base => rw [h (by simp [Token.completes, hbase])]
  | operation op => rw [h rfl]
  | _ => rfl

end Progress

open Progress

theorem startsWithGroup_showTimes {a : Token} (ha : a.completes = false) (line : Line) :
    (line.showTimes a).startsWithGroup = line.startsWithGroup := by
  cases line with
  | nil => rfl
  | key k rest => simp [Line.showTimes, Token.understood, ha, Line.startsWithGroup]
  | group inner rest => simp [Line.showTimes, Token.understood, ha, Line.startsWithGroup]

theorem commas_showTimes (a : Token) (line : Line) :
    (line.showTimes a).commas = line.commas := by
  induction line generalizing a with
  | nil => rfl
  | key k rest ih =>
    rw [Line.showTimes]
    split <;> simp [Line.commas, ih]
  | group inner rest _ ih =>
    rw [Line.showTimes]
    split <;> simp [Line.commas, ih]

/-- Where a multiplication is understood, it may be shown. -/
theorem level_times {p : Progress} {a t : Token} (h : p.Reads a) (ht : a.understood t)
    (answer : Except Failure Line) (place : Place) (line : Line) :
    level answer place p (.key .times line)
      = (level answer place afterTimes line).map (Line.key .times) := by
  have hoperand := h.hasOperand_of_understood ht
  have hemit : p.emit answer line.startsWithGroup .times = .ok (.key .times .nil) := by
    rw [emit, requireOperand, if_pos hoperand]
    · rfl
    all_goals simp
  have hlead : p.lead (.key .times) = .nil := by
    rw [lead, h.unsigned hoperand]
    simp [multiplies, Token.begins]
  rw [level_key (by simp), hemit, hlead]
  rfl

/-- A level is the same with its multiplications shown. -/
theorem level_showTimes {p : Progress} {a : Token} (h : p.Reads a) (line : Line) :
    level answer place p (line.showTimes a) = level answer place p line := by
  fun_induction level answer place p line generalizing a with
  | case1 place p => rfl
  | case2 place p rest ih =>
    rw [Line.showTimes, if_neg (by simp [Token.understood, Token.begins])]
    exact ih (reads_addSign p false)
  | case3 place p rest ih =>
    rw [Line.showTimes, if_neg (by simp [Token.understood, Token.begins])]
    exact ih (reads_addSign p true)
  | case4 place p rest hd ih =>
    rw [Line.showTimes, if_neg (by simp [Token.understood, Token.begins]), level, if_pos hd,
      ih (reads_start (.inr rfl))]
  | case5 place p rest hd =>
    rw [Line.showTimes, if_neg (by simp [Token.understood, Token.begins]), level, if_neg hd]
  | case6 place p k rest hplus hminus hcomma ih =>
    have hk : k ≠ .plus ∧ k ≠ .minus ∧ k ≠ .comma := ⟨hplus, hminus, hcomma⟩
    have hrest := ih (reads_after p hk)
    have hemit : p.emit answer (rest.showTimes (.key k)).startsWithGroup k
        = p.emit answer rest.startsWithGroup k :=
      emit_congr fun hc => startsWithGroup_showTimes hc rest
    rw [Line.showTimes]
    split
    · next hu =>
      have hbegins := (Bool.and_eq_true_iff.1 hu).2
      have hmultiplies := (h.multiplies (.key k)).trans hu
      rw [level_times h hu, level_key hk, emit_afterTimes hbegins p, after_afterTimes hmultiplies,
        h.lead_of_understood hu, hemit, hrest]
      cases p.emit answer rest.startsWithGroup k with
      | error f => rfl
      | ok own => cases level answer place (p.after k) rest <;> rfl
    · rw [level_key hk, hemit, hrest]
  | case7 place p inner rest ihi ihr =>
    have hcheck := checkCommas_congr (commas_showTimes .left inner) p.pending
    have hinner := ihi (reads_start (.inl rfl))
    have hrest := ihr reads_afterGroup
    rw [Line.showTimes]
    split
    · next hu =>
      have hpending : afterTimes.pending = p.pending :=
        (h.applied (h.hasOperand_of_understood hu)).symm
      rw [level_times h hu, level, hpending, hcheck, hinner, hrest, h.lead_of_understood hu]
      cases checkCommas p.pending inner with
      | error f => rfl
      | ok checked =>
        cases level answer (.inside p.pending) {} inner with
        | error f => rfl
        | ok content => cases level answer place afterGroup rest <;> rfl
    · rw [level, hcheck, hinner, hrest]

/-! ## Folded signs -/

namespace Progress

/-- Both know the same, but for which sign was read last. -/
structure Alike (p q : Progress) : Prop where
  sign : p.sign = q.sign
  bars : p.bars = q.bars
  pending : p.pending = q.pending
  operand : p.hasOperand = q.hasOperand

/-- What is known behind a run of signs. -/
def behindRun (p : Progress) : Option Bool → Progress
  | none => p
  | some minus => p.addSign minus

variable {p q : Progress}

theorem Alike.refl (p : Progress) : p.Alike p := ⟨rfl, rfl, rfl, rfl⟩

theorem Alike.toOption_finish (h : p.Alike q) (place : Place) :
    (p.finish place).toOption = (q.finish place).toOption := by
  have hiff : p.finish place = .ok () ↔ q.finish place = .ok () := by
    rw [finish_eq_ok_iff, finish_eq_ok_iff, h.sign, h.operand]
  cases hp : p.finish place with
  | ok => rw [hiff.1 hp]
  | error f =>
    cases hq : q.finish place with
    | ok => rw [hiff.2 hq] at hp; cases hp
    | error g => rfl

theorem Alike.lead (h : p.Alike q) (t : Token) : p.lead t = q.lead t := by
  unfold Progress.lead multiplies
  rw [h.sign, h.operand]

theorem Alike.emit (h : p.Alike q) (answer : Except Failure Line) (g : Bool) (k : Key) :
    p.emit answer g k = q.emit answer g k := by
  have hrequire (k : Key) : p.requireOperand k = q.requireOperand k := by
    rw [requireOperand, requireOperand, h.operand]
  unfold Progress.emit
  simp only [hrequire, h.bars]

theorem Alike.after (h : p.Alike q) (k : Key) : p.after k = q.after k := by
  unfold Progress.after multiplies
  simp only [h.operand, h.bars]

theorem Alike.behindRun (hq : q.sign = none) {run : Option Bool} (h : p.Alike (q.behindRun run))
    (minus : Bool) : (p.addSign minus).Alike (q.behindRun (some (run.getD false != minus))) := by
  have hsign : p.sign.getD false = run.getD false := by
    rw [h.sign]
    cases run with
    | none => rw [Progress.behindRun, hq]
    | some m => simp [Progress.behindRun, Progress.addSign, hq]
  constructor
  · simp [Progress.behindRun, Progress.addSign, hsign, hq]
  · rfl
  · rfl
  · cases minus <;> cases run.getD false <;> rfl

end Progress

open Arithmetic (signLine commas_signLine)

theorem level_signLine (q : Progress) (run : Option Bool) (line : Line) :
    level answer place q (signLine run ++ line) = level answer place (q.behindRun run) line := by
  cases run with
  | none => rfl
  | some minus => cases minus <;> rfl

theorem foldSigns_sign {k : Key} (hk : (Token.key k).isSign) (run : Option Bool) (rest : Line) :
    ∃ minus, (Line.key k rest).foldSigns run = rest.foldSigns (some minus) := by
  rcases Token.eq_of_isSign hk with hplus | hminus
  · cases hplus
    exact ⟨_, rfl⟩
  · cases hminus
    exact ⟨_, rfl⟩

theorem commas_foldSigns (run : Option Bool) (line : Line) :
    (line.foldSigns run).commas = line.commas := by
  induction line generalizing run with
  | nil => exact commas_signLine run
  | key k rest ih =>
    by_cases hk : (Token.key k).isSign
    · have hcomma : k ≠ .comma := by
        rintro rfl
        cases hk
      obtain ⟨minus, hfold⟩ := foldSigns_sign hk run rest
      rw [hfold, ih, Line.commas, if_neg hcomma, Nat.zero_add]
    · rw [Line.foldSigns_key (by simpa using hk), Line.commas_append, commas_signLine, Line.commas,
        Line.commas, ih, Nat.zero_add]
  | group inner rest _ ih =>
    rw [Line.foldSigns, Line.commas_append, commas_signLine, Line.commas, Line.commas, ih,
      Nat.zero_add]

/-- Behind a sign there is no group without a sign before it. -/
theorem startsWithGroup_foldSigns_some (minus : Bool) (line : Line) :
    (line.foldSigns (some minus)).startsWithGroup = false := by
  induction line generalizing minus with
  | nil => rfl
  | key k rest ih =>
    by_cases hk : (Token.key k).isSign
    · obtain ⟨other, hfold⟩ := foldSigns_sign hk (some minus) rest
      rw [hfold, ih]
    · rw [Line.foldSigns_key (by simpa using hk)]
      rfl
  | group inner rest => rfl

theorem startsWithGroup_foldSigns (line : Line) :
    (line.foldSigns none).startsWithGroup = line.startsWithGroup := by
  cases line with
  | nil => rfl
  | group inner rest => rfl
  | key k rest =>
    by_cases hk : (Token.key k).isSign
    · obtain ⟨minus, hfold⟩ := foldSigns_sign hk none rest
      rw [hfold, startsWithGroup_foldSigns_some]
      rfl
    · rw [Line.foldSigns_key (by simpa using hk)]
      rfl

/-- A level gives the same with its signs folded, or fails in both cases. -/
theorem toOption_level_foldSigns {p q : Progress} {run : Option Bool} (hq : q.sign = none)
    (h : p.Alike (q.behindRun run)) (line : Line) :
    (level answer place q (line.foldSigns run)).toOption
      = (level answer place p line).toOption := by
  fun_induction level answer place p line generalizing q run with
  | case1 place p =>
    rw [Line.foldSigns, ← Line.append_nil (signLine run), level_signLine, level,
      Except.toOption_bind, Except.toOption_bind, h.toOption_finish]
  | case2 place p rest ih => exact ih hq (h.behindRun hq false)
  | case3 place p rest ih => exact ih hq (h.behindRun hq true)
  | case4 place p rest hd ih =>
    have hrest : (level answer place {} (rest.foldSigns none)).toOption
        = (level answer place {} rest).toOption := ih rfl (Alike.refl {})
    rw [Line.foldSigns_key rfl, level_signLine, level, if_pos hd]
    simp only [Except.toOption_bind, h.toOption_finish, hrest]
  | case5 place p rest hd =>
    rw [Line.foldSigns_key rfl, level_signLine, level, if_neg hd]
  | case6 place p k rest hplus hminus hcomma ih =>
    have hk : k ≠ .plus ∧ k ≠ .minus ∧ k ≠ .comma := ⟨hplus, hminus, hcomma⟩
    have hsign : (Token.key k).isSign = false := by
      cases k <;> simp_all [Token.isSign]
    have hrest : (level answer place (p.after k) (rest.foldSigns none)).toOption
        = (level answer place (p.after k) rest).toOption := ih (sign_after p k) (Alike.refl _)
    rw [Line.foldSigns_key hsign, level_signLine, level_key hk, startsWithGroup_foldSigns,
      ← h.emit, ← h.lead, ← h.after]
    simp only [Except.toOption_bind, hrest]
  | case7 place p inner rest ihi ihr =>
    have hinner : (level answer (.inside p.pending) {} (inner.foldSigns none)).toOption
        = (level answer (.inside p.pending) {} inner).toOption := ihi rfl (Alike.refl {})
    have hrest : (level answer place afterGroup (rest.foldSigns none)).toOption
        = (level answer place afterGroup rest).toOption := ihr rfl (Alike.refl _)
    rw [Line.foldSigns, level_signLine, level, ← h.pending, ← h.lead,
      checkCommas_congr (commas_foldSigns none inner)]
    simp only [Except.toOption_bind, hinner, hrest]

/-! ## Formulas -/

theorem toOption_level_longhand (answer : Except Failure Line) (place : Place) (line : Line) :
    (level answer place {} line.longhand).toOption = (level answer place {} line).toOption :=
  calc (level answer place {} line.longhand).toOption
      = (level answer place {} (line.showTimes .left)).toOption :=
        toOption_level_foldSigns (p := {}) (q := {}) rfl ⟨rfl, rfl, rfl, rfl⟩ _
    _ = (level answer place {} line).toOption :=
        congrArg Except.toOption (level_showTimes (reads_start (.inl rfl)) line)

/-- A formula and the formula in longhand have the same canonical form, or none of them has one. In
longhand every left parenthesis is closed, every multiplication is shown, and every run of signs is
one sign. -/
theorem toOption_ofFormula_longhand (answer tokens : List Token) :
    (ofFormula answer (Token.longhand tokens)).toOption = (ofFormula answer tokens).toOption := by
  rw [ofFormula, ofFormula, ofTokens, ofTokens, Token.isEmpty_longhand]
  split
  · rfl
  · rw [fill, fill, Line.ofTokens?_longhand]
    cases Line.ofTokens? tokens with
    | none => rfl
    | some line => exact toOption_level_longhand (ofAnswer answer) { operation := none } line

end Canonical

end Keypad
