import Keypad.Proofs.Canonical.Neighbours
import Keypad.Proofs.Failure
import Keypad.Proofs.Literal
import Mathlib.Tactic.SplitIfs

/-!
# The pass over a level writes a canonical line

What is known of a level while it is read agrees with what has been written of it. Every key that
is read keeps this agreement, and so the line that a level becomes is canonical.
-/

namespace Keypad

theorem Literal.isSome_parts?_of_check {text : String} (h : Literal.check text = .ok ()) :
    (Literal.parts? text.toList).isSome := by
  by_contra hn
  simp only [check, Option.not_isSome_iff_eq_none.1 hn, Option.isNone_none, if_true] at h
  split_ifs at h

namespace Canonical.Progress

theorem hasOperand_of_requireOperand {p : Progress} {k : Key}
    (h : p.requireOperand k = .ok ()) : p.hasOperand := by
  rw [requireOperand] at h
  split at h
  · assumption
  · cases h

/-- A level may end behind a complete operand. -/
theorem finish_eq_ok_iff (p : Progress) (place : Place) :
    p.finish place = .ok () ↔ p.sign = none ∧ p.hasOperand := by
  rw [finish, hasOperand]
  cases p.previous with
  | none => simp
  | some t => simp [Option.isNone_iff_eq_none]

/-- What is known of a level before the line `rest` agrees with what was written: `a` is the token
written last, in a row of `bars` bars. -/
structure Tracks (p : Progress) (a : Token) (bars : Nat) (rest : Line) : Prop where
  unsigned : a.isSign = false
  operand : p.sign = none → p.hasOperand = a.completes
  waiting : p.sign.isSome → p.hasOperand = false ∧ p.pending = none
  pending : p.pending = a.operation?
  grouped : p.pending.isSome → rest.startsWithGroup
  bars : p.sign = none → bars ≤ p.bars

theorem Tracks.of_key {p : Progress} {a : Token} {bars : Nat} {k : Key} {rest : Line}
    (h : p.Tracks a bars (.key k rest)) : p.pending = none := by
  cases hp : p.pending with
  | none => rfl
  | some op => simpa [hp, Line.startsWithGroup] using h.grouped

/-- Behind the signs and the multiplication that lead to a token, what is written of it fits. -/
theorem Tracks.lead_append {p : Progress} {a : Token} {bars : Nat} {rest : Line}
    (h : p.Tracks a bars rest) {t u : Token} {line : Line} (hb : u.begins = t.begins)
    (hc : u.continues → p.hasOperand) (ho : t.begins = false → p.hasOperand)
    (ha : p.pending.isSome → u = .left)
    (hline : ∀ b n, b.Fits u → b.operation? = p.pending →
      n ≤ (if p.multiplies t then 0 else p.bars) → line.Shaped b n) :
    (p.lead t ++ line).Shaped a bars := by
  have hp := h.pending
  cases hs : p.sign with
  | some odd =>
    obtain ⟨hno, hnone⟩ := h.waiting (by simp [hs])
    have hbegins : u.begins := by
      rw [hb]
      by_contra hn
      simp [ho (by simpa using hn)] at hno
    have hsign (k : Key) (hk : k = .plus ∨ k = .minus) : (Line.key k line).Shaped a bars := by
      have hfree : a.operation? = none := hp.symm.trans hnone
      rcases hk with rfl | rfl
      · exact ⟨Token.fits_sign rfl h.unsigned hfree, trivial, by simp,
          hline _ _ (Token.fits_of_isSign rfl hbegins) hnone.symm (Nat.zero_le _)⟩
      · exact ⟨Token.fits_sign rfl h.unsigned hfree, trivial, by simp,
          hline _ _ (Token.fits_of_isSign rfl hbegins) hnone.symm (Nat.zero_le _)⟩
    cases odd with
    | true => simpa [lead, hs] using hsign .minus (.inr rfl)
    | false => simpa [lead, hs] using hsign .plus (.inl rfl)
  | none =>
    have hop := h.operand hs
    cases hm : p.multiplies t with
    | true =>
      simp only [multiplies, Bool.and_eq_true] at hm
      have hnone : a.operation? = none := Token.operation?_of_completes (hop ▸ hm.1)
      have hfits : a.Fits (.key .times) := Token.fits_of_completes (hop ▸ hm.1) rfl
      have hnext : (Token.key .times).Fits u := Token.fits_of_begins rfl rfl (hb.trans hm.2)
      simp only [lead, hs, multiplies, hm, Bool.and_self, if_true, Line.key_append, Line.nil_append]
      exact ⟨hfits, trivial, by simp, hline _ _ hnext (hp.trans hnone).symm (Nat.zero_le _)⟩
    | false =>
      simp only [lead, hs, hm]
      refine hline a bars ⟨fun hc' => hop ▸ hc hc', fun hb' => ?_, by simp [h.unsigned],
        fun ha' => ha (hp ▸ ha')⟩ hp.symm (by simpa [hm] using h.bars hs)
      rw [hb] at hb'
      simpa [multiplies, hb', hop] using hm

/-- A key `k` that is written as `k'`. -/
theorem Tracks.write {p : Progress} {a : Token} {bars : Nat} {k k' : Key} {rest tail : Line}
    (h : p.Tracks a bars (.key k rest)) (hk : k'.Plain)
    (hb : (Token.key k').begins = (Token.key k).begins)
    (hc : (Token.key k').continues → p.hasOperand)
    (ho : (Token.key k).begins = false → p.hasOperand)
    (hbar : k' = .bar → k = .bar ∧ p.bars < maxBars)
    (htail : ∀ n ≤ (if p.multiplies (.key k) then 0 else p.bars),
      tail.Shaped (.key k') (Line.barsAfter k' n)) :
    (p.lead (.key k) ++ .key k' tail).Shaped a bars := by
  apply h.lead_append hb hc ho (by simp [h.of_key])
  intro b n hfit _ hn
  refine ⟨hfit, hk, fun heq => ?_, htail n hn⟩
  obtain ⟨rfl, hlt⟩ := hbar heq
  have : n ≤ p.bars := by simpa [multiplies, Token.begins] using hn
  omega

/-- Tokens written last that leave nothing to wait for. -/
theorem tracks_of_settled {p : Progress} {a : Token} {bars : Nat} {rest : Line}
    (hs : p.sign = none) (hp : p.pending = none) (ha : a.isSign = false)
    (ho : a.operation? = none) (hc : p.hasOperand = a.completes) (hb : bars ≤ p.bars) :
    p.Tracks a bars rest where
  unsigned := ha
  operand _ := hc
  waiting h := by simp [hs] at h
  pending := hp.trans ho.symm
  grouped h := by simp [hp] at h
  bars _ := hb

section Emit

variable {p : Progress} {a : Token} {bars : Nat} {rest own tail : Line}
  {answer : Except Failure Line}

/-- A key that needs an operand and is kept as it is. -/
theorem Tracks.emit_kept {k : Key} (h : p.Tracks a bars (.key k rest)) (hk : k.Plain)
    (hc : (Token.key k).begins = false) (hop : p.hasOperand)
    (hbar : k = .bar → p.bars < maxBars)
    (hnext : ∀ n ≤ p.bars, (p.after k).Tracks (.key k) (Line.barsAfter k n) rest)
    (htail : ∀ b n, (p.after k).Tracks b n rest → tail.Shaped b n) :
    (p.lead (.key k) ++ .key k tail).Shaped a bars :=
  h.write hk rfl (fun _ => hop) (fun _ => hop) (fun heq => ⟨heq, hbar heq⟩) fun n hn =>
    htail _ _ (hnext n (by simpa [multiplies, hc] using hn))

theorem Tracks.emit_literal {text : String} (h : p.Tracks a bars (.key (.literal text) rest))
    (he : p.emit answer rest.startsWithGroup (.literal text) = .ok own)
    (htail : ∀ b n, (p.after (.literal text)).Tracks b n rest → tail.Shaped b n) :
    (p.lead (.key (.literal text)) ++ (own ++ tail)).Shaped a bars := by
  cases hbase : Token.exponentBase? text with
  | none =>
    simp only [emit, hbase] at he
    obtain ⟨⟨⟩, hcheck, he⟩ := Except.exists_of_bind he
    cases he
    refine h.write (Literal.isSome_parts?_of_check hcheck) rfl (by simp [Token.continues])
      (by simp [Token.begins]) (by simp) fun n hn => htail _ _ ?_
    exact tracks_of_settled (by simp [after, hbase]) (by simp [after, hbase]) rfl rfl
      (by simp [after, hbase, hasOperand]) (by simpa [after, hbase, Line.barsAfter, Token.endsRow])
  | some base =>
    -- the mark of an exponent becomes a literal and an operation, which waits for its group
    have hwrite (texu : String) (hplain : (Key.literal texu).Plain)
        (hg : rest.startsWithGroup = true) :
        (p.lead (.key (.literal text)) ++
          .key (.literal texu) (.key (.operation .exponent) tail)).Shaped a bars := by
      have hends := Literal.exponentBase?_of_parts? hplain
      have hfits : (Token.key (.literal texu)).Fits (.key (.operation .exponent)) :=
        Token.fits_of_completes (by simp [Token.completes, hends]) rfl
      refine h.write hplain rfl (by simp [Token.continues]) (by simp [Token.begins]) (by simp)
        fun n hn => ⟨hfits, trivial, by simp, htail _ _ ⟨rfl, fun _ => ?_, ?_, ?_, fun _ => hg, ?_⟩⟩
      · simp [after, hbase, hasOperand, Token.completes]
      · simp [after, hbase]
      · simp [after, hbase, Token.operation?]
      · simpa [after, hbase, Line.barsAfter, Token.endsRow] using hn
    simp only [emit, hbase] at he
    split at he
    · cases he
    · next hg =>
      have hg : rest.startsWithGroup = true := by simpa using hg
      split at he
      · cases he
        exact hwrite "1" rfl hg
      · obtain ⟨⟨⟩, hcheck, he⟩ := Except.exists_of_bind he
        cases he
        exact hwrite base (Literal.isSome_parts?_of_check hcheck) hg

theorem emit_operation_eq_ok {op : Operation} {g : Bool}
    (he : p.emit answer g (.operation op) = .ok own) :
    (op.isBackward → p.hasOperand) ∧ g ∧ own = .key (.operation op) .nil := by
  simp only [emit] at he
  split at he
  · obtain ⟨⟨⟩, hreq, he⟩ := Except.exists_of_bind he
    split at he
    · next hg =>
      cases he
      exact ⟨fun _ => hasOperand_of_requireOperand hreq, hg, rfl⟩
    · cases he
  · next hforward =>
    split at he
    · next hg =>
      cases he
      exact ⟨fun hback => absurd hback hforward, hg, rfl⟩
    · cases he

theorem Tracks.emit_operation {op : Operation} (h : p.Tracks a bars (.key (.operation op) rest))
    (he : p.emit answer rest.startsWithGroup (.operation op) = .ok own)
    (htail : ∀ b n, (p.after (.operation op)).Tracks b n rest → tail.Shaped b n) :
    (p.lead (.key (.operation op)) ++ (own ++ tail)).Shaped a bars := by
  obtain ⟨hop, hg, rfl⟩ := emit_operation_eq_ok he
  refine h.write trivial rfl (fun hc => hop hc) (fun hb => hop (by simpa [Token.begins] using hb))
    (by simp) fun n hn => htail _ _ ⟨rfl, fun _ => rfl, ?_, rfl, fun _ => hg, fun _ => ?_⟩
  · simp [after]
  · simpa [after, Line.barsAfter, Token.endsRow] using hn

theorem Tracks.emit_percent (h : p.Tracks a bars (.key .percent rest))
    (he : p.emit answer rest.startsWithGroup .percent = .ok own)
    (htail : ∀ b n, (p.after .percent).Tracks b n rest → tail.Shaped b n) :
    (p.lead (.key .percent) ++ (own ++ tail)).Shaped a bars := by
  obtain ⟨⟨⟩, hreq, he⟩ := Except.exists_of_bind he
  cases he
  have hop := hasOperand_of_requireOperand hreq
  have hfits : (Token.key .obelus).Fits (.key (.literal "100")) := by decide
  refine h.write trivial rfl (fun _ => hop) (fun _ => hop) (by simp) fun n _ =>
    ⟨hfits, rfl, by simp, htail _ _ ?_⟩
  exact tracks_of_settled rfl rfl rfl rfl rfl (Nat.zero_le _)

theorem Tracks.emit_answer (h : p.Tracks a bars (.key .answer rest))
    (ha : ∀ m, answer = .ok m → m.Shaped .left 0 ∧ m.commas = 0)
    (he : p.emit answer rest.startsWithGroup .answer = .ok own)
    (htail : ∀ b n, (p.after .answer).Tracks b n rest → tail.Shaped b n) :
    (p.lead (.key .answer) ++ (own ++ tail)).Shaped a bars := by
  obtain ⟨m, hm, he⟩ := Except.exists_of_bind he
  cases he
  obtain ⟨hshape, hcommas⟩ := ha m hm
  refine h.lead_append (u := .left) rfl (by simp [Token.continues]) (by simp [Token.begins])
    (fun _ => rfl) fun b n hfit _ _ => ⟨hfit, .inl hcommas, hshape, htail _ _ ?_⟩
  exact tracks_of_settled rfl rfl rfl rfl rfl (Nat.zero_le _)

/-- What is written of a key, and of what follows it, is canonical. -/
theorem Tracks.emit_append {k : Key} (h : p.Tracks a bars (.key k rest))
    (hk : k ≠ .plus ∧ k ≠ .minus ∧ k ≠ .comma)
    (ha : ∀ m, answer = .ok m → m.Shaped .left 0 ∧ m.commas = 0)
    (he : p.emit answer rest.startsWithGroup k = .ok own)
    (htail : ∀ b n, (p.after k).Tracks b n rest → tail.Shaped b n) :
    (p.lead (.key k) ++ (own ++ tail)).Shaped a bars := by
  cases k with
  | literal text => exact h.emit_literal he htail
  | operation op => exact h.emit_operation he htail
  | percent => exact h.emit_percent he htail
  | answer => exact h.emit_answer ha he htail
  | constant c =>
    cases he
    refine h.write trivial rfl (by simp [Token.continues]) (by simp [Token.begins]) (by simp)
      fun n hn => htail _ _ (tracks_of_settled rfl rfl rfl rfl rfl ?_)
    simpa [after, Line.barsAfter, Token.endsRow] using hn
  | plus => exact absurd rfl hk.1
  | minus => exact absurd rfl hk.2.1
  | comma => exact absurd rfl hk.2.2
  | bar =>
    obtain ⟨⟨⟩, hreq, he⟩ := Except.exists_of_bind he
    split at he
    · next hlt =>
      cases he
      refine h.emit_kept trivial rfl (hasOperand_of_requireOperand hreq) (fun _ => hlt)
        (fun n hn => tracks_of_settled rfl rfl rfl rfl rfl ?_) htail
      simpa [after, multiplies, Token.begins, Line.barsAfter, Token.endsRow] using hn
    · cases he
  | times | obelus =>
    obtain ⟨⟨⟩, hreq, he⟩ := Except.exists_of_bind he
    cases he
    exact h.emit_kept trivial rfl (hasOperand_of_requireOperand hreq) (by simp)
      (fun n _ => tracks_of_settled rfl rfl rfl rfl rfl (Nat.zero_le _)) htail
  | square | bang =>
    obtain ⟨⟨⟩, hreq, he⟩ := Except.exists_of_bind he
    cases he
    refine h.emit_kept trivial rfl (hasOperand_of_requireOperand hreq) (by simp)
      (fun n hn => tracks_of_settled rfl rfl rfl rfl rfl ?_) htail
    simpa [after, multiplies, Token.begins, Line.barsAfter, Token.endsRow] using hn

theorem commas_lead (p : Progress) (t : Token) : (p.lead t).commas = 0 := by
  rw [lead]
  split
  · split <;> rfl
  · split <;> rfl

/-- The mark of an exponent is written before a group only. -/
theorem group_of_emit_literal {text : String} {g : Bool}
    (hbase : (Token.exponentBase? text).isSome) (he : p.emit answer g (.literal text) = .ok own) :
    g := by
  obtain ⟨base, hbase⟩ := Option.isSome_iff_exists.1 hbase
  simp only [emit, hbase] at he
  cases g with
  | true => rfl
  | false => cases he

/-- Only before a group does an operation wait. -/
theorem group_of_pending {k : Key} {g : Bool} (he : p.emit answer g k = .ok own)
    (h : (p.after k).pending.isSome) : g := by
  cases k with
  | literal text =>
    cases hbase : Token.exponentBase? text with
    | none => simp [after, hbase] at h
    | some base => exact group_of_emit_literal (Option.isSome_of_eq_some hbase) he
  | operation op => exact (emit_operation_eq_ok he).2.1
  | _ => cases h

/-- A key is written as itself, but for an open literal, a percent sign and `Ans`. -/
theorem eq_of_emit {k : Key} {g : Bool} (he : p.emit answer g k = .ok own) :
    (own = .key k .nil ∧ (∀ text, k = .literal text → Token.exponentBase? text = none)) ∨
    (∃ text base, k = .literal text ∧ (Token.exponentBase? text).isSome ∧
      own = .key (.literal base) (.key (.operation .exponent) .nil)) ∨
    (k = .percent ∧ own = .key .obelus (.key (.literal "100") .nil)) ∨
    (k = .answer ∧ ∃ inner, answer = .ok inner ∧ own = .group inner .nil) := by
  cases k with
  | literal text =>
    cases hbase : Token.exponentBase? text with
    | none =>
      simp only [emit, hbase] at he
      obtain ⟨-, -, he⟩ := Except.exists_of_bind he
      cases he
      exact .inl ⟨rfl, fun _ h => by cases h; exact hbase⟩
    | some base =>
      refine .inr (.inl ?_)
      simp only [emit, hbase] at he
      split at he
      · cases he
      split at he
      · cases he
        exact ⟨text, "1", rfl, by simp [hbase], rfl⟩
      · obtain ⟨-, -, he⟩ := Except.exists_of_bind he
        cases he
        exact ⟨text, base, rfl, by simp [hbase], rfl⟩
  | operation op => exact .inl ⟨(emit_operation_eq_ok he).2.2, by simp⟩
  | percent =>
    obtain ⟨-, -, he⟩ := Except.exists_of_bind he
    cases he
    exact .inr (.inr (.inl ⟨rfl, rfl⟩))
  | bar =>
    obtain ⟨-, -, he⟩ := Except.exists_of_bind he
    split at he
    · cases he
      exact .inl ⟨rfl, by simp⟩
    · cases he
  | answer =>
    obtain ⟨inner, hinner, he⟩ := Except.exists_of_bind he
    cases he
    exact .inr (.inr (.inr ⟨rfl, inner, hinner, rfl⟩))
  | constant k =>
    cases he
    exact .inl ⟨rfl, by simp⟩
  | _ =>
    obtain ⟨-, -, he⟩ := Except.exists_of_bind he
    cases he
    exact .inl ⟨rfl, by simp⟩

/-- A key that is no comma becomes no comma. -/
theorem commas_of_emit {k : Key} {g : Bool} (hk : k ≠ .comma) (he : p.emit answer g k = .ok own) :
    own.commas = 0 := by
  obtain ⟨rfl, -⟩ | ⟨text, base, -, -, rfl⟩ | ⟨-, rfl⟩ | ⟨-, inner, -, rfl⟩ := eq_of_emit he
  · simp [Line.commas, hk]
  all_goals rfl

end Emit

end Canonical.Progress

namespace Line

@[simp] theorem commas_append (l m : Line) : (l ++ m).commas = l.commas + m.commas := by
  induction l with
  | nil => simp [commas]
  | key k rest ih => simp [commas, ih, Nat.add_assoc]
  | group inner rest _ ih => simp [commas, ih]

end Line

namespace Canonical

theorem checkCommas_congr {inner inner' : Line} (h : inner.commas = inner'.commas)
    (pending : Option Operation) : checkCommas pending inner = checkCommas pending inner' := by
  unfold checkCommas
  rw [h]

theorem commasFit_of_checkCommas {op : Option Operation} {inner content : Line}
    (h : checkCommas op inner = .ok ())
    (hc : content.commas = if (Place.inside op).divided then inner.commas else 0) :
    CommasFit op content := by
  cases op with
  | none => exact .inl hc
  | some op =>
    cases op with
    | log =>
      replace hc : content.commas = inner.commas := hc
      have hcount : ¬inner.commas = 0 → inner.commas = 1 := by
        simpa [checkCommas, Operation.commas?] using h
      by_cases h0 : inner.commas = 0
      · exact .inl (hc.trans h0)
      · exact .inr ⟨rfl, hc.trans (hcount h0)⟩
    | _ => exact .inl hc

namespace Progress

theorem Tracks.addSign {p : Progress} {a : Token} {bars : Nat} {k : Key} {rest : Line}
    (h : p.Tracks a bars (.key k rest)) (minus : Bool) : (p.addSign minus).Tracks a bars rest where
  unsigned := h.unsigned
  operand hs := by cases hs
  waiting _ := ⟨by cases minus <;> rfl, rfl⟩
  pending := h.pending.symm.trans h.of_key |>.symm
  grouped hg := by cases hg
  bars hs := by cases hs

/-- A level, or a part of one, ends on a complete operand. -/
theorem Tracks.fits_of_finish {p : Progress} {a : Token} {bars : Nat} {rest : Line} {place : Place}
    (h : p.Tracks a bars rest) (hf : p.finish place = .ok ()) {b : Token}
    (hb : b = .right ∨ b = .key .comma) : a.Fits b := by
  have hend := (p.finish_eq_ok_iff place).1 hf
  have hcomplete : a.completes := (h.operand hend.1).symm.trans hend.2
  have hbegins : b.begins = false := by rcases hb with rfl | rfl <;> rfl
  refine ⟨fun _ => hcomplete, fun hb' => ?_, fun hs => ?_, fun ho => ?_⟩
  · simp [hbegins] at hb'
  · simp [h.unsigned] at hs
  · simp [Token.operation?_of_completes hcomplete] at ho

end Progress

open Progress

/-- A key other than a sign or a comma is written, and then what follows it. -/
theorem level_key {k : Key} (hk : k ≠ .plus ∧ k ≠ .minus ∧ k ≠ .comma)
    (answer : Except Failure Line) (place : Place) (p : Progress) (rest : Line) :
    level answer place p (.key k rest) = (do
      let own ← p.emit answer rest.startsWithGroup k
      let tail ← level answer place (p.after k) rest
      return p.lead (.key k) ++ (own ++ tail)) := by
  rw [level]
  · exact hk.1
  · exact hk.2.1
  · exact hk.2.2

/-- A level and what the pass writes of it, when it accepts the level. A run of signs is counted
until something else is read. -/
inductive Becomes (answer : Except Failure Line) : Place → Progress → Line → Line → Prop where
  | nil {place : Place} {p : Progress} (hfinish : p.finish place = .ok ()) :
      Becomes answer place p .nil .nil
  | plus {place : Place} {p : Progress} {rest out : Line}
      (h : Becomes answer place (p.addSign false) rest out) :
      Becomes answer place p (.key .plus rest) out
  | minus {place : Place} {p : Progress} {rest out : Line}
      (h : Becomes answer place (p.addSign true) rest out) :
      Becomes answer place p (.key .minus rest) out
  | comma {place : Place} {p : Progress} {rest tail : Line} (hd : place.divided)
      (hfinish : p.finish place = .ok ()) (h : Becomes answer place {} rest tail) :
      Becomes answer place p (.key .comma rest) (.key .comma tail)
  | key {place : Place} {p : Progress} {k : Key} {rest own tail : Line}
      (hk : k ≠ .plus ∧ k ≠ .minus ∧ k ≠ .comma)
      (hown : p.emit answer rest.startsWithGroup k = .ok own)
      (h : Becomes answer place (p.after k) rest tail) :
      Becomes answer place p (.key k rest) (p.lead (.key k) ++ (own ++ tail))
  | group {place : Place} {p : Progress} {inner rest content tail : Line}
      (hcheck : checkCommas p.pending inner = .ok ())
      (hinner : Becomes answer (.inside p.pending) {} inner content)
      (h : Becomes answer place afterGroup rest tail) :
      Becomes answer place p (.group inner rest) (p.lead .left ++ .group content tail)

section Becomes

variable {answer : Except Failure Line} {place : Place} {p : Progress} {line out : Line}

theorem becomes_of_level (h : level answer place p line = .ok out) :
    Becomes answer place p line out := by
  fun_induction level answer place p line generalizing out with
  | case1 place p =>
    obtain ⟨⟨⟩, hfinish, h⟩ := Except.exists_of_bind h
    cases h
    exact .nil hfinish
  | case2 place p rest ih => exact .plus (ih h)
  | case3 place p rest ih => exact .minus (ih h)
  | case4 place p rest hd ih =>
    obtain ⟨⟨⟩, hfinish, h⟩ := Except.exists_of_bind h
    obtain ⟨tail, htail, h⟩ := Except.exists_of_bind h
    cases h
    exact .comma hd hfinish (ih htail)
  | case5 => cases h
  | case6 place p k rest hplus hminus hcomma ih =>
    obtain ⟨own, hown, h⟩ := Except.exists_of_bind h
    obtain ⟨tail, htail, h⟩ := Except.exists_of_bind h
    cases h
    exact .key ⟨hplus, hminus, hcomma⟩ hown (ih htail)
  | case7 place p inner rest ihi ihr =>
    obtain ⟨⟨⟩, hcheck, h⟩ := Except.exists_of_bind h
    obtain ⟨content, hinner, h⟩ := Except.exists_of_bind h
    obtain ⟨tail, htail, h⟩ := Except.exists_of_bind h
    cases h
    exact .group hcheck (ihi hinner) (ihr htail)

theorem Becomes.level_eq (h : Becomes answer place p line out) :
    level answer place p line = .ok out := by
  induction h with
  | nil hfinish =>
    rw [level, hfinish]
    rfl
  | plus _ ih => exact ih
  | minus _ ih => exact ih
  | comma hd hfinish _ ih =>
    rw [level, if_pos hd, hfinish, ih]
    rfl
  | key hk hown _ ih =>
    rw [level_key hk, hown, ih]
    rfl
  | group hcheck _ _ ihi ih =>
    rw [level, hcheck, ihi, ih]
    rfl

/-- A divided level keeps its commas, and no other level has any. -/
theorem commas_of_level (h : level answer place p line = .ok out) :
    out.commas = if place.divided then line.commas else 0 := by
  replace h := becomes_of_level h
  induction h with
  | nil => simp [Line.commas]
  | plus _ ih | minus _ ih => simpa [Line.commas] using ih
  | comma hd _ _ ih => simpa [Line.commas, hd] using ih
  | key hk hown _ ih =>
    simpa [Line.commas, commas_lead, commas_of_emit hk.2.2 hown, hk.2.2] using ih
  | group _ _ _ _ ih => simpa [Line.commas, commas_lead] using ih

theorem tracks_start {a : Token} (ha : a = .left ∨ a = .key .comma) (line : Line) :
    Progress.Tracks {} a 0 line := by
  rcases ha with rfl | rfl <;> exact tracks_of_settled rfl rfl rfl rfl rfl (Nat.zero_le _)

/-- A level is written as a canonical line. -/
theorem level_shaped (ha : ∀ m, answer = .ok m → m.Shaped .left 0 ∧ m.commas = 0) {a : Token}
    {bars : Nat} (h : level answer place p line = .ok out) (hp : p.Tracks a bars line) :
    out.Shaped a bars := by
  replace h := becomes_of_level h
  induction h generalizing a bars with
  | nil hfinish => exact hp.fits_of_finish hfinish (.inl rfl)
  | plus _ ih => exact ih (hp.addSign false)
  | minus _ ih => exact ih (hp.addSign true)
  | comma _ hfinish _ ih =>
    exact ⟨hp.fits_of_finish hfinish (.inr rfl), trivial, by simp, ih (tracks_start (.inr rfl) _)⟩
  | key hk hown _ ih => exact hp.emit_append hk ha hown fun b n hn => ih hn
  | group hcheck hinner _ ihi ih =>
    have hcontent := ihi (tracks_start (.inl rfl) _)
    have htail := ih (a := .right) (tracks_of_settled rfl rfl rfl rfl rfl (Nat.zero_le 0))
    refine hp.lead_append (u := .left) rfl (by simp [Token.continues]) (by simp [Token.begins])
      (fun _ => rfl) fun b n hfit hop _ => ⟨hfit, ?_, hcontent, htail⟩
    rw [hop]
    exact commasFit_of_checkCommas hcheck (commas_of_level hinner.level_eq)

end Becomes

/-! ## Formulas -/

theorem fill_shaped {answer : Except Failure Line}
    (ha : ∀ m, answer = .ok m → m.Shaped .left 0 ∧ m.commas = 0) {op : Option Operation}
    {tokens : List Token} {out : Line} (h : fill answer { operation := op } tokens = .ok out) :
    out.Shaped .left 0 ∧ out.commas = 0 := by
  rw [fill] at h
  split at h
  · cases h
  · next line _ =>
    exact ⟨level_shaped ha h (tracks_start (.inl rfl) line), by simpa using commas_of_level h⟩

/-- The canonical line of tokens, if there is anything to write, is canonical. -/
theorem ofTokens_shaped {answer tokens : List Token} {inGroup : Bool} {op : Option Operation}
    {line : Line} (h : ofTokens answer tokens inGroup op = .ok line) :
    line = .nil ∨ line.Shaped .left 0 ∧ line.commas = 0 := by
  have hanswer (m : Line) (hm : ofAnswer answer = .ok m) : m.Shaped .left 0 ∧ m.commas = 0 :=
    fill_shaped (fun _ hn => by cases hn) hm
  rw [ofTokens] at h
  split at h
  · cases h
    exact .inl rfl
  · exact .inr (fill_shaped hanswer h)

end Canonical

end Keypad
