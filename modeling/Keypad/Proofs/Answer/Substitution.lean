import Keypad.Proofs.Answer.Tokens

/-!
# The previous answer in place of `Ans`

`Ans` stands for the tokens of the previous answer in parentheses: a formula in which these are
typed instead has the same canonical form. The converse fails, since `Ans` does not start a new row
of fractions and is no group behind an operation.
-/

namespace Keypad

/-- The tokens with the answer in parentheses in place of every `Ans`. -/
def Token.substitute (answer tokens : List Token) : List Token :=
  tokens.flatMap fun t => if t = .key .answer then .left :: (answer ++ [.right]) else [t]

namespace Line

/-- The line with a group of the answer in place of every `Ans`. -/
def substitute (answer : Line) : Line → Line
  | nil => nil
  | key k rest =>
    if k = .answer then group answer (substitute answer rest) else key k (substitute answer rest)
  | group inner rest => group (substitute answer inner) (substitute answer rest)

/-- The answer in parentheses is read as one group. -/
theorem foldr_place_group (answer line : Line) (outer : List Line) :
    (Token.left :: (answer.toTokens ++ [.right])).foldr place (line, outer)
      = (group answer line, outer) := by
  rw [List.foldr_cons, List.foldr_append]
  show place .left (answer.toTokens.foldr place (nil, line :: outer)) = _
  rw [foldr_place_toTokens, append_nil]
  rfl

theorem foldr_place_substitute (answer : Line) (tokens : List Token) :
    (Token.substitute answer.toTokens tokens).foldr place (nil, [])
      = (tokens.foldr place (nil, [])).map (substitute answer) (List.map (substitute answer)) := by
  induction tokens with
  | nil => rfl
  | cons t ts ih =>
    rw [Token.substitute] at ih ⊢
    rw [List.flatMap_cons, List.foldr_append, ih, List.foldr_cons]
    generalize ts.foldr place (nil, []) = state
    obtain ⟨line, outer⟩ := state
    cases t with
    | left => cases outer <;> rfl
    | right => rfl
    | key k =>
      by_cases hk : k = .answer
      · subst hk
        exact foldr_place_group answer _ _
      · rw [if_neg (by simpa using hk)]
        simp [place, substitute, hk]

/-- The substitution takes place within the line of the tokens. -/
theorem ofTokens?_substitute (answer : Line) (tokens : List Token) :
    ofTokens? (Token.substitute answer.toTokens tokens)
      = (ofTokens? tokens).map (substitute answer) := by
  rw [ofTokens?, ofTokens?, foldr_place_substitute]
  generalize tokens.foldr place (nil, []) = state
  obtain ⟨line, outer⟩ := state
  cases outer <;> rfl

theorem commas_substitute (answer line : Line) :
    (substitute answer line).commas = line.commas := by
  induction line with
  | nil => rfl
  | key k rest ih =>
    by_cases hk : k = .answer
    · simp [substitute, commas, hk, ih]
    · simp [substitute, commas, hk, ih]
  | group inner rest _ ih => exact ih

theorem startsWithGroup_substitute (answer : Line) {line : Line} (h : line.startsWithGroup) :
    (substitute answer line).startsWithGroup := by
  cases line with
  | group inner rest => rfl
  | nil => cases h
  | key k rest => cases h

end Line

namespace Canonical

namespace Progress

variable {p q : Progress} {answer : Except Failure Line} {k : Key} {own : Line} {g g' : Bool}

/-- Both know the same, but `q` may have counted fewer bars. -/
structure Relaxes (q p : Progress) : Prop where
  sign : q.sign = p.sign
  pending : q.pending = p.pending
  operand : q.hasOperand = p.hasOperand
  bars : q.bars ≤ p.bars

theorem Relaxes.refl (p : Progress) : p.Relaxes p := ⟨rfl, rfl, rfl, Nat.le_refl _⟩

theorem Relaxes.addSign (h : q.Relaxes p) (minus : Bool) :
    (q.addSign minus).Relaxes (p.addSign minus) :=
  ⟨congrArg (fun sign : Option Bool => some (sign.getD false != minus)) h.sign, rfl, rfl,
    Nat.le_refl _⟩

/-- A group has begun a new row of fractions. -/
theorem relaxes_afterGroup (p : Progress) : afterGroup.Relaxes (p.after .answer) :=
  ⟨rfl, rfl, rfl, Nat.zero_le _⟩

theorem Relaxes.multiplies (h : q.Relaxes p) (t : Token) : q.multiplies t = p.multiplies t :=
  congrArg (· && t.begins) h.operand

theorem Relaxes.lead (h : q.Relaxes p) {t u : Token} (ht : t.begins = u.begins) :
    q.lead t = p.lead u := by
  unfold Progress.lead Progress.multiplies
  rw [h.sign, h.operand, ht]

theorem Relaxes.finish (h : q.Relaxes p) {place : Place} (hp : p.finish place = .ok ()) :
    q.finish place = .ok () := by
  rw [finish_eq_ok_iff] at hp ⊢
  rw [h.sign, h.operand]
  exact hp

theorem Relaxes.after (h : q.Relaxes p) (k : Key) : (q.after k).Relaxes (p.after k) := by
  have hbars : (if q.multiplies (.key k) then 0 else q.bars)
      ≤ (if p.multiplies (.key k) then 0 else p.bars) := by
    rw [h.multiplies]
    split
    · exact Nat.le_refl 0
    · exact h.bars
  cases k with
  | literal text =>
    cases hbase : Token.exponentBase? text with
    | none =>
      simp only [Progress.after, hbase]
      exact ⟨rfl, rfl, rfl, hbars⟩
    | some base =>
      simp only [Progress.after, hbase]
      exact ⟨rfl, rfl, rfl, hbars⟩
  | bar => exact ⟨rfl, rfl, rfl, Nat.succ_le_succ hbars⟩
  | percent | times | obelus => exact ⟨rfl, rfl, rfl, Nat.le_refl 0⟩
  | _ => exact ⟨rfl, rfl, rfl, hbars⟩

/-- What is written of a key is also written of it with fewer bars, or if a group follows. -/
theorem Relaxes.emit (h : q.Relaxes p) (hk : k ≠ .answer) (hg : g → g')
    (he : p.emit answer g k = .ok own) (other : Except Failure Line) :
    q.emit other g' k = .ok own := by
  have hrequire (k : Key) : q.requireOperand k = p.requireOperand k := by
    rw [requireOperand, requireOperand, h.operand]
  cases k with
  | literal text =>
    cases hbase : Token.exponentBase? text with
    | none =>
      simp only [Progress.emit, hbase] at he ⊢
      exact he
    | some base =>
      have hgroup := group_of_emit_literal (Option.isSome_of_eq_some hbase) he
      rw [hg hgroup]
      rw [hgroup] at he
      simp only [Progress.emit, hbase] at he ⊢
      exact he
  | operation op =>
    obtain ⟨-, hgroup, -⟩ := emit_operation_eq_ok he
    rw [hg hgroup]
    rw [hgroup] at he
    simp only [Progress.emit, hrequire] at he ⊢
    exact he
  | bar =>
    obtain ⟨⟨⟩, hoperand, he⟩ := Except.exists_of_bind he
    split at he
    · next hlt =>
      rw [Progress.emit, hrequire, hoperand, if_pos (Nat.lt_of_le_of_lt h.bars hlt)]
      exact he
    · cases he
  | answer => exact absurd rfl hk
  | constant c => exact he
  | _ =>
    simp only [Progress.emit, hrequire] at he ⊢
    exact he

end Progress

open Progress

section Level

variable {rep : Line} (hrep : rep.Shaped .left 0) (hcommas : rep.commas = 0)
include hrep hcommas

/-- A canonical answer is written in its group as it is. -/
theorem becomes_group_answer (other : Except Failure Line) (place : Place) {p : Progress}
    {rest tail : Line} (hp : p.pending = none) (h : Becomes other place afterGroup rest tail) :
    Becomes other place p (.group rep rest) (p.lead .left ++ .group rep tail) := by
  have hinner : level other (.inside p.pending) {} rep = .ok rep :=
    level_of_shaped hrep (follows_start (.inl rfl)) fun hne => absurd hcommas hne
  refine .group ?_ (becomes_of_level hinner) h
  rw [hp]
  rfl

/-- A level with a group of the answer in place of every `Ans` becomes what the level becomes. -/
theorem level_substitute (other : Except Failure Line) {place : Place} {p q : Progress}
    {line out : Line} (hq : q.Relaxes p) (hp : p.pending.isSome → line.startsWithGroup)
    (h : level (.ok rep) place p line = .ok out) :
    level other place q (.substitute rep line) = .ok out := by
  replace h := becomes_of_level h
  refine Becomes.level_eq ?_
  induction h generalizing q with
  | nil hfinish => exact .nil (hq.finish hfinish)
  | plus _ ih => exact .plus (ih (hq.addSign false) (by rintro ⟨⟩))
  | minus _ ih => exact .minus (ih (hq.addSign true) (by rintro ⟨⟩))
  | comma hd hfinish _ ih =>
    exact .comma hd (hq.finish hfinish) (ih (Relaxes.refl {}) (by rintro ⟨⟩))
  | @key place p k rest own tail hk hown _ ih =>
    rw [← hq.lead rfl]
    by_cases hanswer : k = .answer
    · subst hanswer
      cases hown
      have hpending : q.pending = none := by
        rw [hq.pending, Option.eq_none_iff_forall_ne_some]
        intro op hop
        cases hp (Option.isSome_of_eq_some hop)
      exact becomes_group_answer hrep hcommas other place hpending
        (ih (relaxes_afterGroup p) (by rintro ⟨⟩))
    · rw [Line.substitute, if_neg hanswer]
      exact .key hk (hq.emit hanswer (Line.startsWithGroup_substitute rep) hown other)
        (ih (hq.after k) (group_of_pending hown))
  | @group place p inner rest content tail hcheck _ _ ihi ih =>
    rw [← hq.lead rfl, Line.substitute]
    refine .group ?_ ?_ (ih (Relaxes.refl _) (by rintro ⟨⟩))
    · rw [hq.pending, checkCommas_congr (Line.commas_substitute rep inner), hcheck]
    · rw [hq.pending]
      exact ihi (Relaxes.refl {}) (by rintro ⟨⟩)

/-! ## Formulas -/

theorem fill_substitute (other : Except Failure Line) (place : Place) {tokens : List Token}
    {out : Line} (h : fill (.ok rep) place tokens = .ok out) :
    fill other place (Token.substitute rep.toTokens tokens) = .ok out := by
  rw [fill] at h ⊢
  rw [Line.ofTokens?_substitute]
  cases hline : Line.ofTokens? tokens with
  | none => simp [hline] at h
  | some line =>
    rw [hline] at h
    exact level_substitute hrep hcommas other (Relaxes.refl {}) (by rintro ⟨⟩) h

end Level

end Canonical

theorem Token.isEmpty_substitute (answer tokens : List Token) :
    (substitute answer tokens).isEmpty = tokens.isEmpty := by
  cases tokens with
  | nil => rfl
  | cons t ts =>
    rw [substitute, List.flatMap_cons]
    split <;> rfl

namespace Quantity

open Canonical

/-- The text of a quantity is cut into tokens that may fill a group. In every formula that is
accepted with them as the previous answer, they may be typed in parentheses in place of `Ans`. -/
theorem ofFormula_substitute (v : Quantity) :
    ∃ rep, Lexer.tokenize [] v.literal = .ok rep ∧
      (∀ answer, ∃ line, ofTokens answer rep true none = .ok line) ∧
      ∀ answer tokens line, ofFormula rep tokens = .ok line →
        ofFormula answer (Token.substitute rep tokens) = .ok line := by
  refine ⟨v.tokens, Lexer.tokenize_literal v, fun answer => ⟨v.terms.toLine, ?_⟩,
    fun answer tokens line h => ?_⟩
  · rw [ofTokens, if_neg (by simp)]
    exact fill_toTokens v.shaped_terms v.commas_terms
  · rw [ofFormula, ofTokens] at h ⊢
    rw [Token.isEmpty_substitute]
    split at h
    · next hempty =>
      rw [if_pos hempty]
      exact h
    · next hempty =>
      rw [ofAnswer_tokens] at h
      rw [if_neg hempty]
      exact fill_substitute v.shaped_terms v.commas_terms (ofAnswer answer) _ h

/-- With the answer `-7/2`, the formula `1/2Ans²` has the canonical form of `1/2(-7/2)²`. -/
theorem ofFormula_substitute_fraction :
    ofFormula [] [.key (.literal "1"), .key .bar, .key (.literal "2"), .left, .key .minus,
      .key (.literal "7"), .key .bar, .key (.literal "2"), .right, .key .square]
    = .ok (.key (.literal "1") (.key .bar (.key (.literal "2") (.key .times (.group
        (.key .minus (.key (.literal "7") (.key .bar (.key (.literal "2") .nil))))
        (.key .square .nil)))))) := by
  obtain ⟨rep, hrep, -, h⟩ := ofFormula_substitute (.exact (-7 / 2))
  have htokens : Lexer.tokenize [] (literal (.exact (-7 / 2)))
      = .ok [.key .minus, .key (.literal "7"), .key .bar, .key (.literal "2")] := by decide +kernel
  obtain rfl := Except.ok.inj (hrep.symm.trans htokens)
  exact h [] [.key (.literal "1"), .key .bar, .key (.literal "2"), .key .answer, .key .square] _
    (by decide +kernel)

end Quantity

end Keypad
