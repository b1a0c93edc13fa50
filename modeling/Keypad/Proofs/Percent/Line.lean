import Keypad.Proofs.Percent.Grouping
import Keypad.Proofs.Percent.Position

/-!
# Lines with a hundredth in a group

A typed line may have a percent sign behind an operand or, in its place, a group in which the
operand is divided by a hundred. Their canonical lines begin alike, up to the operand. There the
evaluations part for the length of one operand and agree again, whatever follows, if the operand is
no divisor, no part of a fraction and not taken by what stands behind it.
-/

namespace Keypad

open Canonical Run

variable {answer : Except Failure Line} {place : Place} {unit : AngleUnit} {table : ConstantTable}
variable {p q : Canonical.Progress} {c : Frame} {a : Token} {t : Trail} {line own out : Line}

/-- The line behind signs; `true` is a minus sign. -/
def Line.signed (signs : List Bool) (line : Line) : Line :=
  signs.foldr (fun minus line => .key (Arithmetic.signKey minus) line) line

/-- Does the token take the operand before it, other than as a term or a factor? A factorial is not
counted, since it makes nothing exact of a hundred. -/
def Token.takes : Token → Bool
  | key .square | key .bar => true
  | key (.operation op) => op.isBackward
  | _ => false

namespace Canonical

theorem level_signed (signs : List Bool) (p : Progress) (line : Line) :
    level answer place p (line.signed signs)
      = level answer place (signs.foldl Progress.addSign p) line := by
  induction signs generalizing p with
  | nil => rfl
  | cons minus signs ih =>
    rw [List.foldl_cons, ← ih]
    cases minus <;> rfl

namespace Progress

theorem pending_foldl_addSign (hp : p.pending = none) (signs : List Bool) :
    (signs.foldl addSign p).pending = none := by
  induction signs generalizing p with
  | nil => exact hp
  | cons minus signs ih => exact ih rfl

/-- A run of signs stands for a minus sign if it has an odd number of these. -/
theorem getD_sign_foldl_addSign (p : Progress) (signs : List Bool) :
    (signs.foldl addSign p).sign.getD false
      = (p.sign.getD false != decide (signs.count true % 2 = 1)) := by
  induction signs generalizing p with
  | nil => simp
  | cons minus signs ih =>
    rw [List.foldl_cons, ih, addSign, Option.getD_some]
    cases minus with
    | false => simp
    | true =>
      have hparity :
          decide ((signs.count true + 1) % 2 = 1) = !decide (signs.count true % 2 = 1) := by
        rcases Nat.mod_two_eq_zero_or_one (signs.count true) with h | h <;> simp [h, Nat.add_mod]
      rw [List.count_cons_self, hparity]
      cases p.sign.getD false <;> simp

theorem isSome_sign_foldl_addSign (p : Progress) {signs : List Bool} (h : signs ≠ []) :
    (signs.foldl addSign p).sign.isSome := by
  induction signs generalizing p with
  | nil => exact absurd rfl h
  | cons minus signs ih =>
    by_cases hnil : signs = []
    · rw [hnil]
      rfl
    · exact ih (p.addSign minus) hnil

/-- No operation waits where an operand begins that is neither a divisor nor a part of a
fraction. -/
theorem Meets.pending_eq_none (h : p.Meets c a) (ha : a.completes ∨ a.multiplied) :
    p.pending = none := by
  obtain ⟨b, -, hop, hcompletes, hmultiplied⟩ := h.behind
  rw [← hop]
  rcases ha with ha | ha
  · exact Token.operation?_of_completes (hcompletes ha)
  · exact Token.operation?_of_multiplied (hmultiplied ha)

/-- No sign waits either. -/
theorem Meets.sign_eq_none (h : p.Meets c a) (ha : a.completes ∨ a.multiplied) : p.sign = none := by
  rcases ha with ha | ha
  · exact h.reads.unsigned (h.reads.operand.trans ha)
  · exact h.unsigned ha

/-- What leads to an operand without signs. -/
theorem Meets.ends_lead_left (h : p.Meets c a) (ha : a.completes ∨ a.multiplied) :
    Ends (fun _ => True) t ((p.lead .left).advance unit table c) fun c _ =>
      c.Ready ∧ c.negative = false := by
  have hp := h.pending_eq_none ha
  obtain ⟨b, hb, hop, -, hmultiplied⟩ := h.behind
  have hc : c.pending = none := hb.pending.trans (hop.trans hp)
  by_cases hcompletes : a.completes
  · have hlead : p.lead .left = .key .times .nil :=
      h.reads.lead_of_understood (by simp [Token.understood, hcompletes])
    rw [hlead, Line.advance, ends_bind]
    refine (Frame.ends_factor hc false).mono fun c _ hc => ?_
    obtain ⟨hlast, hparts, hdivides, hnegative⟩ := hc.multiplied rfl
    exact ⟨⟨hlast, hparts, hc.pending, hdivides⟩, hnegative⟩
  · have hlead : p.lead .left = .nil := by
      rw [lead, h.sign_eq_none ha, h.reads.multiplies]
      simp [Token.understood, hcompletes]
    obtain ⟨hlast, hparts, hdivides, hnegative⟩ :=
      hb.multiplied (hmultiplied (ha.resolve_left hcompletes))
    rw [hlead]
    exact ⟨⟨hlast, hparts, hc, hdivides⟩, hnegative⟩

/-- A sign is left to the operand behind it unless it ends the term before it. -/
theorem Meets.ends_sign (h : p.Meets c a) (ha : a.completes ∨ a.multiplied) (odd : Bool) :
    Ends (fun _ => True) t (c.sign odd) fun c _ =>
      c.Ready ∧ (c.negative → a.completes = false ∧ odd) := by
  have hp := h.pending_eq_none ha
  obtain ⟨b, hb, hop, hlast, hmultiplied⟩ := h.behind
  have hc : c.pending = none := hb.pending.trans (hop.trans hp)
  rw [Frame.sign]
  by_cases hcompletes : a.completes
  · obtain ⟨v, hv⟩ := Option.isSome_iff_exists.1 (hb.last (hlast hcompletes))
    have hnegative := hb.unsigned (hb.last (hlast hcompletes))
    rw [if_neg (by simp [hv]), ends_bind]
    refine (Frame.ends_closeSigned c).mono fun r _ hr => ?_
    rw [ends_pure, hr]
    exact ⟨⟨rfl, rfl, hc, rfl⟩, by simp [hnegative]⟩
  · obtain ⟨hnone, hparts, hdivides, -⟩ := hb.multiplied (hmultiplied (ha.resolve_left hcompletes))
    rw [if_pos (by simp [hnone])]
    exact ⟨⟨hnone, hparts, hc, hdivides⟩, fun hodd => ⟨by simpa using hcompletes, hodd⟩⟩

/-- What leads to an operand behind signs. A minus sign is left to the operand unless it ends the
term before it. -/
theorem Meets.ends_lead_signed (h : p.Meets c a) (ha : a.completes ∨ a.multiplied)
    (signs : List Bool) :
    Ends (fun _ => True) t (((signs.foldl addSign p).lead .left).advance unit table c) fun c _ =>
      c.Ready ∧ (c.negative → a.completes = false ∧ signs.count true % 2 = 1) := by
  by_cases hsigns : signs = []
  · subst hsigns
    exact (h.ends_lead_left ha).mono fun c _ hc => ⟨hc.1, by simp [hc.2]⟩
  · obtain ⟨odd, hodd⟩ := Option.isSome_iff_exists.1 (isSome_sign_foldl_addSign p hsigns)
    have hparity : odd = decide (signs.count true % 2 = 1) := by
      have hrun := getD_sign_foldl_addSign p signs
      simpa [hodd, h.sign_eq_none ha] using hrun
    have hlead : ((signs.foldl addSign p).lead .left).advance unit table c = c.sign odd := by
      rw [lead, hodd]
      cases odd <;> exact bind_pure _
    rw [hlead]
    refine (h.ends_sign ha odd).mono fun c _ hc => ⟨hc.1, fun hnegative => ?_⟩
    obtain ⟨hcompletes, hodd⟩ := hc.2 hnegative
    exact ⟨hcompletes, of_decide_eq_true (hparity.symm.trans hodd)⟩

/-- Behind an operand a multiplication is written before the next one. -/
theorem Completed.lead_eq_times (h : p.Completed) {u : Token} (hu : u.begins) :
    p.lead u = .key .times .nil := by
  rw [lead, h.sign, multiplies, h.operand, hu]
  rfl

end Progress

open Progress

theorem separated_lead (hp : p.sign.isSome) (u : Token) (tail : Line) :
    (p.lead u ++ tail).separated := by
  obtain ⟨odd, hodd⟩ := Option.isSome_iff_exists.1 hp
  rw [lead, hodd]
  cases odd <;> rfl

theorem finish_ne_ok_of_sign (hp : p.sign.isSome) : p.finish place ≠ .ok () := fun hfinish => by
  simp [((p.finish_eq_ok_iff place).1 hfinish).1] at hp

/-- Signs that wait are written before what follows them. -/
theorem separated_of_sign (hp : p.sign.isSome) (h : level answer place p line = .ok out) :
    out.separated := by
  replace h := becomes_of_level h
  induction h with
  | nil hfinish => exact absurd hfinish (finish_ne_ok_of_sign hp)
  | plus _ ih | minus _ ih => exact ih rfl
  | comma _ hfinish => exact absurd hfinish (finish_ne_ok_of_sign hp)
  | key | group => exact separated_lead hp _ _

theorem exists_of_level_comma {rest : Line}
    (h : level answer place p (.key .comma rest) = .ok out) :
    ∃ tail, level answer place {} rest = .ok tail ∧ out = .key .comma tail := by
  cases becomes_of_level h with
  | comma _ _ htail => exact ⟨_, htail.level_eq, rfl⟩
  | key hk => exact absurd rfl hk.2.2

/-- A key is set apart from the operand before it by a multiplication or by how it is written. -/
theorem separated_of_level_key {k : Key} {rest : Line} (hp : p.Completed)
    (hk : k ≠ .plus ∧ k ≠ .minus ∧ k ≠ .comma) (h : level answer place p (.key k rest) = .ok out)
    (hown : ∀ own, p.emit answer rest.startsWithGroup k = .ok own →
      (Token.key k).begins = false → own.separated ∧ own ≠ .nil) : out.separated := by
  obtain ⟨own, tail, hemit, -, rfl⟩ := exists_of_level_key hk h
  cases hbegins : (Token.key k).begins with
  | true =>
    rw [hp.lead_eq_times hbegins]
    rfl
  | false =>
    obtain ⟨hseparated, hne⟩ := hown own hemit hbegins
    rw [hp.lead_eq_nil hbegins]
    exact Line.separated_append hseparated hne tail

/-- Behind an operand that is not taken, the line ends or goes on with a sign, an operator, a comma
or a factorial. -/
theorem separated_or_bang_of_level (hp : p.Completed)
    (hline : ∀ u ∈ line.toTokens.head?, u.takes = false) (h : level answer place p line = .ok out) :
    out.separated ∨ ∃ tail, out = .key .bang tail := by
  cases line with
  | nil =>
    obtain ⟨-, -, h⟩ := Except.exists_of_bind h
    cases h
    exact .inl rfl
  | group inner rest =>
    obtain ⟨own, tail, -, -, rfl⟩ := exists_of_level_group h
    rw [hp.lead_eq_times rfl]
    exact .inl rfl
  | key k rest =>
    have htakes : (Token.key k).takes = false := hline _ (by simp [Line.toTokens])
    cases k with
    | plus => exact .inl (separated_of_sign (p := p.addSign false) rfl h)
    | minus => exact .inl (separated_of_sign (p := p.addSign true) rfl h)
    | comma =>
      obtain ⟨tail, -, rfl⟩ := exists_of_level_comma h
      exact .inl rfl
    | times | obelus | percent =>
      refine .inl (separated_of_level_key hp ⟨by simp, by simp, by simp⟩ h fun own hemit _ => ?_)
      obtain ⟨-, -, hemit⟩ := Except.exists_of_bind hemit
      cases hemit
      exact ⟨rfl, by simp⟩
    | bang =>
      obtain ⟨own, tail, hemit, -, rfl⟩ := exists_of_level_key ⟨by simp, by simp, by simp⟩ h
      obtain ⟨-, -, hemit⟩ := Except.exists_of_bind hemit
      cases hemit
      rw [hp.lead_eq_nil rfl]
      exact .inr ⟨tail, rfl⟩
    | square | bar => cases htakes
    | operation op =>
      refine .inl (separated_of_level_key hp ⟨by simp, by simp, by simp⟩ h fun own _ hbegins => ?_)
      simp [Token.begins, show op.isBackward = false from htakes] at hbegins
    | literal _ | constant _ | answer =>
      exact .inl (separated_of_level_key hp ⟨by simp, by simp, by simp⟩ h fun own _ hbegins => by
        cases hbegins)

/-- The division by a hundred is its own canonical form. -/
theorem eq_hundredth_of_level (hp : p.Completed) (h : level answer place p hundredth = .ok out) :
    out = hundredth := by
  obtain ⟨own, tail, hown, htail, rfl⟩ := exists_of_level_key ⟨by simp, by simp, by simp⟩ h
  obtain ⟨text, tail, htext, hend, rfl⟩ := exists_of_level_key ⟨by simp, by simp, by simp⟩ htail
  obtain ⟨-, -, hown⟩ := Except.exists_of_bind hown
  obtain ⟨-, -, hend⟩ := Except.exists_of_bind hend
  have hbase : Token.exponentBase? "100" = none := by decide
  simp only [emit, hbase] at htext
  obtain ⟨-, -, htext⟩ := Except.exists_of_bind htext
  cases hown
  cases hend
  cases htext
  rw [hp.lead_eq_nil rfl]
  rfl

/-- An operand with a percent sign and the group in its place have canonical forms that begin and
go on alike. -/
theorem exists_of_level_percent {x : TypedOperand} {rest out' : Line} (hp : p.pending = none)
    (h : level answer place p (x.toLine ++ .key .percent rest) = .ok out)
    (h' : level answer place p (.group (x.toLine ++ hundredth) rest) = .ok out') :
    ∃ own tail, x.form answer = .ok own ∧ level answer place .afterGroup rest = .ok tail ∧
      out = p.lead .left ++ (own ++ (hundredth ++ tail)) ∧
      out' = p.lead .left ++ .group (own ++ hundredth) tail := by
  obtain ⟨own, q, out, hown, hq, hout, rfl⟩ := exists_of_level_operand hp h
  obtain ⟨mark, tail, hmark, htail, rfl⟩ := exists_of_level_key ⟨by simp, by simp, by simp⟩ hout
  have hmark' : q.emit answer rest.startsWithGroup .percent = .ok hundredth := by
    rw [emit, requireOperand, if_pos hq.operand]
    rfl
  cases hmark.symm.trans hmark'
  obtain ⟨group, tail', hgroup, htail', rfl⟩ := exists_of_level_group h'
  rw [hp] at hgroup
  obtain ⟨content, hcontent, rfl⟩ := exists_of_groupForm hgroup
  obtain ⟨own', q', end', hown', hq', hend, rfl⟩ := exists_of_level_operand rfl hcontent
  cases hown.symm.trans hown'
  obtain rfl := eq_hundredth_of_level hq' hend
  have halike : (q.after .percent).Alike afterGroup := ⟨rfl, rfl, rfl, rfl⟩
  have hsame : (level answer place (q.after .percent) rest).toOption
      = (level answer place .afterGroup rest).toOption :=
    toOption_level_of_alike halike rfl rest
  rw [htail, htail'] at hsame
  cases hsame
  refine ⟨own, tail, hown, htail', ?_, rfl⟩
  rw [hq.lead_eq_nil rfl]
  rfl

end Canonical

/-- Where the first line has an operand with a percent sign, the second has a group in which the
operand is divided by a hundred. The lines stand behind the token `a`. -/
inductive Line.Grouped : Token → Line → Line → Prop where
  | here {a : Token} (signs : List Bool) (x : TypedOperand) (rest : Line)
      (ha : a.completes ∨ a.multiplied)
      (hsign : a.completes ∨ signs.count true % 2 = 0 ∨ x.takesSign)
      (hrest : ∀ u ∈ rest.toTokens.head?, u.takes = false) :
      Grouped a ((x.toLine ++ .key .percent rest).signed signs)
        ((Line.group (x.toLine ++ hundredth) rest).signed signs)
  | key {a : Token} (k : Key) {line line' : Line} (h : Grouped (.key k) line line') :
      Grouped a (.key k line) (.key k line')
  | inner {a : Token} {line line' : Line} (rest : Line) (h : Grouped .left line line') :
      Grouped a (.group line rest) (.group line' rest)
  | rest {a : Token} (inner : Line) {line line' : Line} (h : Grouped .right line line') :
      Grouped a (.group inner line) (.group inner line')

/-- Where the lines part, they agree again behind the operand. -/
theorem Canonical.Progress.Meets.agree_percent {signs : List Bool} {x : TypedOperand}
    {rest out' : Line} (hp : p.Meets c a) (hc : c.All Frame.Bounded)
    (ha : a.completes ∨ a.multiplied)
    (hsign : a.completes ∨ signs.count true % 2 = 0 ∨ x.takesSign)
    (hrest : ∀ u ∈ rest.toTokens.head?, u.takes = false)
    (hout : level answer place p ((x.toLine ++ .key .percent rest).signed signs) = .ok out)
    (hout' : level answer place p ((Line.group (x.toLine ++ hundredth) rest).signed signs)
      = .ok out') :
    Agree Eq (out.values unit table c) (out'.values unit table c) := by
  rw [level_signed] at hout hout'
  have hpending := Progress.pending_foldl_addSign (hp.pending_eq_none ha) signs
  obtain ⟨own, tail, hown, htail, rfl, rfl⟩ := exists_of_level_percent hpending hout hout'
  refine Line.agree_values_append (Progress.commas_lead _ _) hc
    (fun t => hp.ends_lead_signed ha signs) fun c₀ hready hc₀ => ?_
  rcases separated_or_bang_of_level Progress.completed_afterGroup hrest htail with
    hseparated | ⟨tail, rfl⟩
  · refine hready.1.agree_group hc₀ hown (fun hnegative => ?_) hseparated
    obtain ⟨hcompletes, hodd⟩ := hready.2 hnegative
    rcases hsign with hsign | heven | htakes
    · simp [hcompletes] at hsign
    · omega
    · exact htakes
  · exact Frame.agree_bang hc₀ hown tail _

/-- Groups whose contents agree are evaluated alike, whatever follows. -/
theorem Line.agree_values_group {content content' : Line} (hc : c.All Frame.Bounded)
    (h : Agree Eq (content.values unit table {}) (content'.values unit table {})) (tail : Line) :
    Agree Eq ((Line.group content tail).values unit table c)
      ((Line.group content' tail).values unit table c) := by
  have hkept (content : Line) := Line.keeps_values_start unit table content
  refine (Frame.agree_group h (hkept content) (hkept content') unit).bind
    (Frame.keeps_group (Decimal.invariant_true {}) hc unit (hkept content))
    (Frame.keeps_group (Decimal.invariant_true {}) hc unit (hkept content'))
    (fun _ hc => Line.keepsLoss_values unit table tail hc)
    (fun _ hc => Line.keepsLoss_values unit table tail hc) ?_
  rintro c _ - - rfl
  exact (agree_refl fun t => ends_true t _).imp fun _ _ h => h.1

/-- The canonical lines agree behind a token that both have reached. -/
theorem Line.Grouped.agree_values {line' out' : Line} (h : Line.Grouped a line line')
    (hp : p.Meets c a) (hc : c.All Frame.Bounded) (hgroup : p.pending.isSome → line.startsWithGroup)
    (hout : level answer place p line = .ok out) (hout' : level answer place p line' = .ok out') :
    Agree Eq (out.values unit table c) (out'.values unit table c) := by
  induction h generalizing place p c out out' with
  | @here a signs x rest ha hsign hrest =>
    exact hp.agree_percent hc ha hsign hrest hout hout'
  | @key a k line line' h ih =>
    have hpending : p.pending = none := by
      by_contra hsome
      have hstarts := hgroup (Option.isSome_iff_ne_none.2 hsome)
      simp [Line.startsWithGroup] at hstarts
    by_cases hk : k ≠ .plus ∧ k ≠ .minus ∧ k ≠ .comma
    · obtain ⟨own, tail, hemit, htail, rfl⟩ := exists_of_level_key hk hout
      obtain ⟨own', tail', hemit', htail', rfl⟩ := exists_of_level_key hk hout'
      cases Progress.emit_inj hemit hemit'
      have hcommas : (p.lead (.key k) ++ own).commas = 0 := by
        rw [Line.commas_append, Progress.commas_lead, Progress.commas_of_emit hk.2.2 hemit]
      rw [← Line.append_assoc, ← Line.append_assoc]
      exact Line.agree_values_append hcommas hc (fun t => hp.ends_key hpending hk hemit)
        fun c hmeets hc => ih hmeets hc (Progress.group_of_pending hemit) htail htail'
    · obtain rfl | rfl | rfl : k = .plus ∨ k = .minus ∨ k = .comma := by
        by_contra hnone
        exact hk ⟨fun h => hnone (.inl h), fun h => hnone (.inr (.inl h)),
          fun h => hnone (.inr (.inr h))⟩
      · exact ih (hp.sign hpending false) hc (by simp [Progress.addSign]) hout hout'
      · exact ih (hp.sign hpending true) hc (by simp [Progress.addSign]) hout hout'
      · obtain ⟨tail, htail, rfl⟩ := exists_of_level_comma hout
        obtain ⟨tail', htail', rfl⟩ := exists_of_level_comma hout'
        have hrest : Agree Eq (tail.values unit table {}) (tail'.values unit table {}) :=
          ih (Progress.meets_start (.inr rfl)) (Frame.all_start _) (by simp) htail htail'
        rw [Line.values, Line.values]
        exact agree_bind_left fun v => hrest.map fun _ _ h => congrArg (v :: ·) h
  | @inner a line line' rest h ih =>
    obtain ⟨own, tail, hown, htail, rfl⟩ := exists_of_level_group hout
    obtain ⟨own', tail', hown', htail', rfl⟩ := exists_of_level_group hout'
    cases htail.symm.trans htail'
    obtain ⟨content, hcontent, rfl⟩ := exists_of_groupForm hown
    obtain ⟨content', hcontent', rfl⟩ := exists_of_groupForm hown'
    have hinner : Agree Eq (content.values unit table {}) (content'.values unit table {}) :=
      ih (Progress.meets_start (.inl rfl)) (Frame.all_start _) (by simp) hcontent hcontent'
    exact Line.agree_values_append (Progress.commas_lead _ _) hc (fun t => ends_true t _)
      fun _ _ hc => Line.agree_values_group hc hinner tail
  | @rest a inner line line' h ih =>
    obtain ⟨own, tail, hown, htail, rfl⟩ := exists_of_level_group hout
    obtain ⟨own', tail', hown', htail', rfl⟩ := exists_of_level_group hout'
    cases hown.symm.trans hown'
    obtain ⟨content, -, rfl⟩ := exists_of_groupForm hown
    rw [← Line.append_assoc, ← Line.append_assoc]
    refine Line.agree_values_append ?_ hc (fun t => hp.ends_group) fun c hmeets hc =>
      ih hmeets hc (by simp [Progress.afterGroup]) htail htail'
    rw [Line.commas_append, Progress.commas_lead]
    rfl

end Keypad
