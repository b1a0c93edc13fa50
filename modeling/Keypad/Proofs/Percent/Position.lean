import Keypad.Proofs.Canonical.Longhand
import Keypad.Proofs.Evaluation.Steps
import Keypad.Proofs.Percent.Operand

/-!
# Typed and canonical line, side by side

While a typed line is written out in canonical form, the canonical line may be evaluated as far as
it is written. Behind each typed token, what is known of the level and the state of the evaluation
fit together: both know which operation waits for its group and whether there is an operand, and a
run of signs waits in the one until it gets into the other.
-/

namespace Keypad.Canonical

open Run

variable {answer : Except Failure Line} {place : Place} {unit : AngleUnit} {table : ConstantTable}
variable {p q : Canonical.Progress} {c : Frame} {a : Token} {t : Trail} {line own out : Line}

theorem toOption_level_of_alike (h : p.Alike q) (hq : q.sign = none) (line : Line) :
    (level answer place p line).toOption = (level answer place q line).toOption := by
  have hp : (level answer place q (line.foldSigns none)).toOption
      = (level answer place p line).toOption := toOption_level_foldSigns hq h line
  exact hp.symm.trans (toOption_level_foldSigns hq (.refl q) line)

namespace Progress

/-- The typed line has been read up to the token `a`, and the canonical line evaluated as far as it
is written then. -/
structure Meets (p : Progress) (c : Frame) (a : Token) : Prop where
  reads : p.Reads a
  waiting : p.sign.isSome → p.pending = none
  unsigned : a.multiplied → p.sign = none
  behind : ∃ b, c.Behind b ∧ b.operation? = p.pending ∧ (a.completes → b.completes) ∧
    (a.multiplied → b.multiplied)

theorem meets_start (ha : a = .left ∨ a = .key .comma) : Progress.Meets {} {} a where
  reads := reads_start ha
  waiting _ := rfl
  unsigned _ := rfl
  behind := ⟨a, Frame.behind_start ha, by rcases ha with rfl | rfl <;> rfl, id, id⟩

theorem Meets.sign (h : p.Meets c a) (hp : p.pending = none) (minus : Bool) :
    (p.addSign minus).Meets c (.key (Arithmetic.signKey minus)) := by
  obtain ⟨b, hb, hop, -, -⟩ := h.behind
  refine ⟨reads_addSign p minus, fun _ => rfl, ?_, b, hb, hop.trans hp, ?_, ?_⟩
  all_goals cases minus <;> simp [Arithmetic.signKey, Token.multiplied, Token.completes]

/-- What leads to the next token. -/
theorem Meets.ends_lead (h : p.Meets c a) (u : Token) :
    Ends (fun _ => True) t ((p.lead u).advance unit table c) fun c _ =>
      ∃ b, c.Behind b ∧ b.operation? = p.pending := by
  obtain ⟨b, hb, hop, -, -⟩ := h.behind
  have hkey {k : Key} (hk : ∀ text, k ≠ .literal text) (hp : p.pending = none)
      (hnone : (Token.key k).operation? = none) :
      Ends (fun _ => True) t ((Line.key k .nil).advance unit table c) fun c _ =>
        ∃ b, c.Behind b ∧ b.operation? = p.pending := by
    rw [Line.advance, ends_bind]
    have hpending : c.pending = none := hb.pending.trans (hop.trans hp)
    exact (hb.ends_key hpending fun text htext => absurd htext (hk text)).mono fun c _ hc =>
      ⟨_, hc, hnone.trans hp.symm⟩
  unfold lead
  split
  · next odd hsign =>
    have hp := h.waiting (by simp [hsign])
    cases odd with
    | false => exact hkey (by simp) hp rfl
    | true => exact hkey (by simp) hp rfl
  · split
    · next hmultiplies =>
      exact hkey (by simp) (h.reads.applied (Bool.and_eq_true_iff.1 hmultiplies).1) rfl
    · exact ⟨b, hb, hop⟩

theorem emit_true_of_emit {k : Key} {g : Bool} (he : p.emit answer g k = .ok own) :
    p.emit answer true k = .ok own := by
  cases g with
  | true => exact he
  | false =>
    cases k with
    | literal text =>
      cases hbase : Token.exponentBase? text with
      | none => simpa only [emit, hbase] using he
      | some base => simp [emit, hbase] at he
    | operation op => cases (emit_operation_eq_ok he).2.1
    | _ => exact he

/-- A key is written in the same way before a group or not, where it may be written at all. -/
theorem emit_inj {k : Key} {g g' : Bool} {own' : Line} (he : p.emit answer g k = .ok own)
    (he' : p.emit answer g' k = .ok own') : own = own' := by
  have hsame := (emit_true_of_emit he).symm.trans (emit_true_of_emit he')
  exact Except.ok.inj hsame

theorem operation?_eq_pending_after {k : Key} (p : Progress)
    (h : ∀ text, k = .literal text → Token.exponentBase? text = none) :
    (Token.key k).operation? = (p.after k).pending := by
  cases k with
  | literal text =>
    simp only [after, h text rfl]
    rfl
  | _ => rfl

/-- What is written for a key. -/
theorem Meets.ends_key (h : p.Meets c a) (hp : p.pending = none) {k : Key}
    (hk : k ≠ .plus ∧ k ≠ .minus ∧ k ≠ .comma) {g : Bool} (he : p.emit answer g k = .ok own) :
    Ends (fun _ => True) t ((p.lead (.key k) ++ own).advance unit table c) fun c _ =>
      (p.after k).Meets c (.key k) := by
  have hmeets : ∀ c b, c.Behind b → b.operation? = (p.after k).pending →
      ((Token.key k).completes → b.completes) → ((Token.key k).multiplied → b.multiplied) →
      (p.after k).Meets c (.key k) := fun c b hb hop hcompletes hmultiplied =>
    ⟨reads_after p hk, by simp [sign_after], fun _ => sign_after p k, b, hb, hop, hcompletes,
      hmultiplied⟩
  rw [Line.advance_append, ends_bind]
  refine h.ends_lead _ |>.mono fun c u ⟨b, hb, hop⟩ => ?_
  have hpending : c.pending = none := hb.pending.trans (hop.trans hp)
  obtain ⟨rfl, hliteral⟩ | ⟨text, base, rfl, hopened, rfl⟩ | ⟨rfl, rfl⟩ | ⟨rfl, inner, -, rfl⟩ :=
    eq_of_emit he
  · rw [Line.advance, ends_bind]
    exact (hb.ends_key hpending hliteral).mono fun c _ hc =>
      hmeets c _ hc (operation?_eq_pending_after p hliteral) id id
  · have hclosed : Token.completes .right := rfl
    rw [Line.advance, ends_bind]
    refine (Frame.ends_put hpending hclosed _).mono fun c u hc => ?_
    rw [Line.advance, ends_bind]
    refine (hc.ends_key hc.pending (by simp)).mono fun c _ hc => hmeets c _ hc ?_ ?_ ?_
    · simp only [after, hopened]
      rfl
    · obtain ⟨b, hb⟩ := Option.isSome_iff_exists.1 hopened
      simp [Token.completes, hb]
    · simp [Token.multiplied]
  · rw [Line.advance, ends_bind]
    refine (Frame.ends_factor hpending true).mono fun c u hc => ?_
    rw [Line.advance, ends_bind]
    refine (hc.ends_key hc.pending fun text htext => ?_).mono fun c _ hc =>
      hmeets c _ hc rfl ?_ ?_
    · cases htext
      decide
    · exact fun _ => by decide
    · simp [Token.multiplied]
  · rw [Line.advance_group]
    exact (hb.ends_group unit _).mono fun c _ hc =>
      hmeets c _ hc rfl id (by simp [Token.multiplied])

theorem Meets.ends_group (h : p.Meets c a) {inner : Line} :
    Ends (fun _ => True) t ((p.lead .left ++ .group inner .nil).advance unit table c) fun c _ =>
      afterGroup.Meets c .right := by
  rw [Line.advance_append, ends_bind]
  refine (h.ends_lead _).mono fun c u ⟨b, hb, _⟩ => ?_
  rw [Line.advance_group]
  exact (hb.ends_group unit _).mono fun c _ hc =>
    ⟨reads_afterGroup, fun _ => rfl, fun _ => rfl, _, hc, rfl, id, id⟩

end Progress

open Progress

/-- A level has something in it. -/
theorem ne_nil_of_level (hp : p.sign.isSome ∨ p.hasOperand = false)
    (h : level answer place p line = .ok out) : out ≠ .nil := by
  have happend {lead own : Line} (hown : own ≠ .nil) (tail : Line) :
      lead ++ (own ++ tail) ≠ .nil := by
    cases lead <;> cases own <;> simp_all
  replace h := becomes_of_level h
  induction h with
  | @nil place p hfinish =>
    obtain ⟨hsign, hoperand⟩ := (p.finish_eq_ok_iff place).1 hfinish
    simp [hsign, hoperand] at hp
  | plus _ ih | minus _ ih => exact ih (.inl rfl)
  | comma => simp
  | key _ hown =>
    refine happend ?_ _
    obtain ⟨rfl, -⟩ | ⟨text, base, -, -, rfl⟩ | ⟨-, rfl⟩ | ⟨-, inner, -, rfl⟩ := eq_of_emit hown
    all_goals simp
  | @group _ _ _ _ content =>
    have hown : Line.group content .nil ≠ .nil := by simp
    exact happend hown _

end Keypad.Canonical
