import Keypad.Proofs.Canonical.Levels

/-!
# Canonical lines stay as they are

The pass over the tokens of a canonical line writes that line again: nothing is left to fold, to
insert or to replace, and nothing is refused. So the canonical form of a formula is its own.
-/

namespace Keypad

theorem Literal.check_of_parts? {text : String} (h : (parts? text.toList).isSome) :
    check text = .ok () := by
  obtain ⟨r, hr⟩ := Option.isSome_iff_exists.1 h
  obtain ⟨hpoints, hexponents, hlate⟩ := counts_of_parts? hr
  dsimp only [check]
  rw [if_neg (by omega), if_neg (by omega), hr]
  cases hcut : cut 'E' text.toList with
  | none => rfl
  | some parts =>
    have hpoint : '.' ∉ parts.2 := hlate parts.1 parts.2 hcut
    simp [hpoint]

/-- A level behind an operation starts with the group of that operation. -/
theorem Line.Shaped.startsWithGroup {a : Token} {bars : Nat} {line : Line}
    (h : line.Shaped a bars) (ha : a.operation?.isSome) : line.startsWithGroup := by
  cases line with
  | nil => cases Token.Fits.applied h ha
  | key k rest => cases h.1.applied ha
  | group inner rest => rfl

namespace Canonical

namespace Progress

/-- The sign that waits to be written. -/
def waiting (p : Progress) : Line :=
  match p.sign with
  | some odd => .key (if odd then .minus else .plus) .nil
  | none => .nil

/-- What is known of a level behind the token `a` of a canonical line, in a row of `bars` bars. -/
structure Follows (p : Progress) (a : Token) (bars : Nat) : Prop where
  signed : p.sign.isSome = a.isSign
  operand : p.hasOperand = a.completes
  pending : p.pending = a.operation?
  bars : p.bars ≤ bars

variable {p : Progress} {a : Token} {bars : Nat} {k : Key} {rest : Line} {place : Place}

theorem follows_start (ha : a = .left ∨ a = .key .comma) : Progress.Follows {} a 0 := by
  rcases ha with rfl | rfl <;> exact ⟨rfl, rfl, rfl, Nat.le_refl 0⟩

theorem follows_afterGroup : afterGroup.Follows .right 0 := ⟨rfl, rfl, rfl, Nat.le_refl 0⟩

theorem follows_addSign (p : Progress) (minus : Bool) :
    (p.addSign minus).Follows (.key (if minus then .minus else .plus)) 0 := by
  cases minus <;> exact ⟨rfl, rfl, rfl, Nat.le_refl 0⟩

theorem waiting_addSign (hsign : p.sign = none) (minus : Bool) :
    (p.addSign minus).waiting = .key (if minus then .minus else .plus) .nil := by
  cases minus <;> simp [waiting, addSign, hsign]

theorem sign_after (p : Progress) (k : Key) : (p.after k).sign = none := by
  cases k with
  | literal text =>
    unfold after
    dsimp only
    split <;> rfl
  | _ => rfl

/-- No sign waits behind a key. -/
theorem waiting_after (p : Progress) (k : Key) : (p.after k).waiting = .nil := by
  rw [waiting, sign_after]

/-- No sign waits before a token that begins no operand. -/
theorem Follows.sign_of_fits (h : p.Follows a bars) {t : Token} (hfit : a.Fits t)
    (ht : t.begins = false) : p.sign = none := by
  have hsign : a.isSign = false := by
    cases ha : a.isSign with
    | false => rfl
    | true => simp [hfit.signed ha] at ht
  simpa using h.signed.trans hsign

theorem Follows.waiting_of_fits (h : p.Follows a bars) {t : Token} (hfit : a.Fits t)
    (ht : t.begins = false) : p.waiting = .nil := by
  rw [waiting, h.sign_of_fits hfit ht]

theorem Follows.finish (h : p.Follows a bars) {t : Token} (hfit : a.Fits t)
    (ht : t.continues) : p.finish place = .ok () := by
  have hsign := h.sign_of_fits hfit (Token.begins_of_continues ht)
  have hoperand : p.hasOperand := h.operand.trans (hfit.operand ht)
  exact (p.finish_eq_ok_iff place).2 ⟨hsign, hoperand⟩

/-- No multiplication is understood before a token that fits. -/
theorem Follows.lead (h : p.Follows a bars) {t : Token} (ht : a.Fits t) :
    p.lead t = p.waiting := by
  rw [Progress.lead, waiting]
  cases hsign : p.sign with
  | some odd => rfl
  | none =>
    have hmultiplies : p.multiplies t = false := by
      rw [multiplies]
      rw [h.operand]
      cases hbegins : t.begins with
      | false => simp
      | true => simp [ht.separate hbegins]
    simp [hmultiplies]

theorem Follows.requireOperand (h : p.Follows a bars) (hfit : a.Fits (.key k))
    (hk : (Token.key k).continues) : p.requireOperand k = .ok () := by
  rw [Progress.requireOperand]
  rw [h.operand, hfit.operand hk]
  rfl

/-- A key of a canonical line is kept as it is. -/
theorem Follows.emit {answer : Except Failure Line} {g : Bool} (h : p.Follows a bars)
    (hfit : a.Fits (.key k)) (hplain : k.Plain) (hbar : k = .bar → bars < maxBars)
    (hgroup : (Token.key k).operation?.isSome → g)
    (hk : k ≠ .plus ∧ k ≠ .minus ∧ k ≠ .comma) :
    p.emit answer g k = .ok (.key k .nil) := by
  cases k with
  | literal text =>
    have hbase := Literal.exponentBase?_of_parts? hplain
    have hcheck := Literal.check_of_parts? hplain
    simp only [Progress.emit, hbase, hcheck]
    rfl
  | operation op =>
    have hg : g = true := hgroup rfl
    rw [hg, Progress.emit]
    cases hback : op.isBackward with
    | false => rfl
    | true =>
      rw [h.requireOperand hfit hback]
      rfl
  | bar =>
    have hlt : p.bars < maxBars := Nat.lt_of_le_of_lt h.bars (hbar rfl)
    rw [Progress.emit, h.requireOperand hfit rfl, if_pos hlt]
    rfl
  | constant c => rfl
  | answer | percent => cases hplain
  | plus => exact absurd rfl hk.1
  | minus => exact absurd rfl hk.2.1
  | comma => exact absurd rfl hk.2.2
  | times | obelus | square | bang =>
    rw [Progress.emit, h.requireOperand hfit rfl]
    · rfl
    all_goals simp

theorem Follows.after (h : p.Follows a bars) (hfit : a.Fits (.key k)) (hplain : k.Plain)
    (hk : k ≠ .plus ∧ k ≠ .minus ∧ k ≠ .comma) :
    (p.after k).Follows (.key k) (Line.barsAfter k bars) := by
  have hle : (if p.multiplies (.key k) then 0 else p.bars) ≤ bars := by
    have hbars := h.bars
    split <;> omega
  cases k with
  | literal text =>
    have hbase := Literal.exponentBase?_of_parts? hplain
    simp only [Progress.after, hbase, Option.isSome_none, Bool.false_eq_true, if_false]
    exact ⟨rfl, rfl, rfl, hle⟩
  | operation _ | constant _ | square | bang => exact ⟨rfl, rfl, rfl, hle⟩
  | bar => exact ⟨rfl, rfl, rfl, Nat.succ_le_succ hle⟩
  | times | obelus => exact ⟨rfl, rfl, rfl, Nat.le_refl 0⟩
  | answer | percent => cases hplain
  | plus => exact absurd rfl hk.1
  | minus => exact absurd rfl hk.2.1
  | comma => exact absurd rfl hk.2.2

end Progress

open Progress

theorem checkCommas_of_commasFit {op : Option Operation} {inner : Line}
    (h : CommasFit op inner) : checkCommas op inner = .ok () := by
  cases op with
  | none => rfl
  | some op =>
    rcases h with hnone | ⟨hlog, hone⟩
    · cases op <;> simp [checkCommas, Operation.commas?, hnone]
    · cases hlog
      simp [checkCommas, Operation.commas?, hone]

/-- A group that holds commas is divided by them. -/
theorem divided_of_commasFit {op : Option Operation} {inner : Line} (h : CommasFit op inner)
    (hcommas : inner.commas ≠ 0) : (Place.inside op).divided := by
  obtain ⟨rfl, -⟩ := h.resolve_left hcommas
  rfl

/-- The pass over the rest of a canonical level writes it again, behind the sign that waits. -/
theorem level_of_shaped {answer : Except Failure Line} {line : Line} {place : Place}
    {p : Progress} {a : Token} {bars : Nat} (h : line.Shaped a bars) (hp : p.Follows a bars)
    (hcommas : line.commas ≠ 0 → place.divided) :
    level answer place p line = .ok (p.waiting ++ line) := by
  fun_induction level answer place p line generalizing a bars with
  | case1 place p =>
    rw [hp.finish h rfl, hp.waiting_of_fits h rfl]
    rfl
  | case2 place p rest ih =>
    obtain ⟨hfit, -, -, hrest⟩ := h
    have hcommas' : rest.commas ≠ 0 → place.divided := by simpa [Line.commas] using hcommas
    rw [ih hrest (follows_addSign p false) hcommas', hp.waiting_of_fits hfit rfl,
      waiting_addSign (hp.sign_of_fits hfit rfl)]
    rfl
  | case3 place p rest ih =>
    obtain ⟨hfit, -, -, hrest⟩ := h
    have hcommas' : rest.commas ≠ 0 → place.divided := by simpa [Line.commas] using hcommas
    rw [ih hrest (follows_addSign p true) hcommas', hp.waiting_of_fits hfit rfl,
      waiting_addSign (hp.sign_of_fits hfit rfl)]
    rfl
  | case4 place p rest hd ih =>
    obtain ⟨hfit, -, -, hrest⟩ := h
    rw [hp.finish hfit rfl, hp.waiting_of_fits hfit rfl,
      ih hrest (follows_start (.inr rfl)) fun _ => hd]
    rfl
  | case5 place p rest hd => exact absurd (hcommas (by simp [Line.commas])) hd
  | case6 place p k rest hplus hminus hcomma ih =>
    obtain ⟨hfit, hplain, hbar, hrest⟩ := h
    have hk : k ≠ .plus ∧ k ≠ .minus ∧ k ≠ .comma := ⟨hplus, hminus, hcomma⟩
    have hcommas' : rest.commas ≠ 0 → place.divided := by
      simpa [Line.commas, hk] using hcommas
    rw [hp.emit hfit hplain hbar hrest.startsWithGroup hk, hp.lead hfit]
    rw [ih hrest (hp.after hfit hplain hk) hcommas', waiting_after]
    rfl
  | case7 place p inner rest ihi ihr =>
    obtain ⟨hfit, hcount, hinner, hrest⟩ := h
    rw [← hp.pending] at hcount
    rw [checkCommas_of_commasFit hcount, ihi hinner (follows_start (.inl rfl))
      (divided_of_commasFit hcount), ihr hrest follows_afterGroup hcommas, hp.lead hfit]
    rfl

theorem fill_toTokens {answer : Except Failure Line} {line : Line} (h : line.Shaped .left 0)
    (hcommas : line.commas = 0) : fill answer {} line.toTokens = .ok line := by
  rw [fill, Line.ofTokens?_toTokens]
  exact level_of_shaped h (follows_start (.inl rfl)) fun hne => absurd hcommas hne

/-- The tokens of a canonical line are its own canonical form. -/
theorem ofTokens_toTokens {answer : List Token} {line : Line} (h : line.Shaped .left 0)
    (hcommas : line.commas = 0) : ofTokens answer line.toTokens false none = .ok line := by
  rw [ofTokens]
  split
  · next hempty =>
    cases line with
    | nil => exact absurd (Token.Fits.operand h rfl) (by decide)
    | key k rest => simp [Line.toTokens] at hempty
    | group inner rest => simp [Line.toTokens] at hempty
  · exact fill_toTokens h hcommas

/-- What a formula becomes is kept as it is when it is typed again, whatever the answer is then. -/
theorem toTokens_ofFormula_fixed {answer tokens out : List Token}
    (h : (ofFormula answer tokens).map Line.toTokens = .ok out) (other : List Token) :
    (ofFormula other out).map Line.toTokens = .ok out := by
  cases hline : ofFormula answer tokens with
  | error f => simp [hline, Except.map] at h
  | ok line =>
    obtain rfl : line.toTokens = out := by simpa [hline, Except.map] using h
    rcases ofTokens_shaped hline with rfl | ⟨hshape, hcommas⟩
    · rfl
    · rw [ofFormula, ofTokens_toTokens hshape hcommas]
      rfl

/-- The formula `2Ans%---2E(1` where the answer is `7`, and its canonical form where the answer
is `Ans`. -/
theorem toTokens_ofFormula_fixed_shorthand :
    let tokens := [.key (.literal "2"), .key .answer, .key .percent, .key .minus, .key .minus,
      .key .minus, .key (.literal "2E"), .left, .key (.literal "1")]
    let out := [.key (.literal "2"), .key .times, .left, .key (.literal "7"), .right, .key .obelus,
      .key (.literal "100"), .key .minus, .key (.literal "2"), .key (.operation .exponent), .left,
      .key (.literal "1"), .right]
    (ofFormula [.key (.literal "7")] tokens).map Line.toTokens = .ok out ∧
      (ofFormula [.key .answer] out).map Line.toTokens = .ok out := by
  intro tokens out
  have h : (ofFormula [.key (.literal "7")] tokens).map Line.toTokens = .ok out := by
    decide +kernel
  exact ⟨h, toTokens_ofFormula_fixed h [.key .answer]⟩

end Canonical

end Keypad
