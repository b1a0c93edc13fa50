import Keypad.Evaluation.Line
import Keypad.Proofs.Canonical.Content
import Keypad.Proofs.Evaluation.Outcome

/-!
# Frames on canonical lines

While a canonical line is evaluated, the state of a level has what the next step looks up: the last
operand where one is needed, at most two parts of a fraction, and the operation of the next group.
-/

namespace Keypad

open Run

namespace Frame

/-- The state of a level agrees with the token `a` read last. -/
structure Follows (c : Frame) (a : Token) : Prop where
  last : c.last.isSome = (a.completes || a.operation?.any Operation.isBackward)
  pending : c.pending = a.operation?
  parts : c.parts.length ≤ 2

theorem follows_start {a : Token} (h : a = .left ∨ a = .key .comma) : Follows {} a := by
  rcases h with rfl | rfl <;> exact ⟨rfl, rfl, Nat.zero_le _⟩

theorem Follows.isSome_last {c : Frame} {a : Token} (h : c.Follows a) (ha : a.completes) :
    c.last.isSome := by
  rw [h.last, ha, Bool.true_or]

theorem Follows.pending_eq_none {c : Frame} {a : Token} (h : c.Follows a) (ha : a.completes) :
    c.pending = none := h.pending.trans (Token.operation?_of_completes ha)

/-- A key is not read between an operation and its group. -/
theorem Follows.pending_of_key {c : Frame} {a : Token} {k : Key} (h : c.Follows a)
    (hfit : a.Fits (.key k)) : c.pending = none := by
  rw [h.pending]
  cases hop : a.operation? with
  | none => rfl
  | some op => cases hfit.applied (by simp [hop])

/-! ## Reductions -/

theorem safe_takeLast {c : Frame} (h : c.last.isSome) :
    Safe c.takeLast fun r => r.2 = { c with last := none } := by
  obtain ⟨v, hv⟩ := Option.isSome_iff_exists.1 h
  simp only [takeLast, hv]
  exact safe_pure rfl

theorem safe_closeFraction {parts : List Quantity} (h : parts.length ≤ 2) (v : Quantity) :
    Safe (closeFraction parts v) fun _ => True := by
  match parts, h with
  | [], _ => exact safe_pure trivial
  | [n], _ => exact safe_div n v
  | [n, w], _ => exact (safe_div n v).then fun q => safe_add w q

theorem safe_closeParts {c : Frame} (hl : c.last.isSome) (hp : c.parts.length ≤ 2) :
    Safe c.closeParts fun r => r.2 = { c with last := none, parts := [] } := by
  refine (safe_takeLast hl).bind ?_
  rintro ⟨v, c'⟩ rfl
  exact (safe_closeFraction hp v).then fun q => safe_pure rfl

theorem safe_closeFactor {c : Frame} (hl : c.last.isSome) (hp : c.parts.length ≤ 2) :
    Safe c.closeFactor fun r => r.2 = { c with last := none, parts := [], divides := false } := by
  refine (safe_closeParts hl hp).bind ?_
  rintro ⟨v, c'⟩ rfl
  dsimp only
  split
  · exact (safe_inv v).then fun q => safe_pure rfl
  · exact safe_pure rfl

theorem safe_foldrM {f : Quantity → Quantity → Run Quantity} (h : ∀ a b, Safe (f a b) fun _ => True)
    (vs : List Quantity) (v : Quantity) : Safe (vs.foldrM f v) fun _ => True := by
  induction vs with
  | nil => exact safe_pure trivial
  | cons u vs ih =>
    rw [List.foldrM_cons]
    exact ih.then fun w => h u w

theorem safe_closeSigned {c : Frame} (hl : c.last.isSome) (hp : c.parts.length ≤ 2) :
    Safe c.closeSigned fun r => r.2.last = none ∧ r.2.parts = [] ∧ r.2.pending = c.pending := by
  have hterm : Safe c.closeTerm fun r =>
      r.2.last = none ∧ r.2.parts = [] ∧ r.2.pending = c.pending := by
    refine (safe_closeFactor hl hp).bind ?_
    rintro ⟨v, c'⟩ rfl
    exact (safe_foldrM safe_mul _ _).then fun q => safe_pure ⟨rfl, rfl, rfl⟩
  apply hterm.bind
  rintro ⟨v, c'⟩ hc
  exact safe_pure hc

theorem safe_finish {c : Frame} {a : Token} (h : c.Follows a) (ha : a.completes) :
    Safe c.finish fun _ => True := by
  simp only [finish, h.pending_eq_none ha, Option.isSome_none]
  exact (safe_closeSigned (h.isSome_last ha) h.parts).bind fun r _ => safe_foldrM safe_add _ _

/-! ## Steps -/

variable {table : ConstantTable} {c : Frame} {a : Token}

/-- A frame with a last operand, read up to a token that completes one. -/
theorem follows_of_last {b : Token} (hl : c.last.isSome) (hb : b.completes) (hp : c.pending = none)
    (hparts : c.parts.length ≤ 2) : c.Follows b :=
  ⟨by simp [hl, hb], by rw [hp, Token.operation?_of_completes hb], hparts⟩

/-- A frame without a last operand, read up to a token that waits for one. -/
theorem follows_of_none {b : Token} (hl : c.last = none) (hb : b.completes = false)
    (ho : b.operation? = none) (hp : c.pending = none) (hparts : c.parts.length ≤ 2) :
    c.Follows b :=
  ⟨by simp [hl, hb, ho], by rw [hp, ho], hparts⟩

theorem safe_constant {k : Constant} (h : ∀ name, k = .named name → (table.value? name).isSome) :
    Safe (constant table k) fun _ => True := by
  cases k with
  | pi => exact safe_degrade.then fun _ => safe_pure trivial
  | euler => exact safe_degrade.then fun _ => safe_pure trivial
  | named name =>
    obtain ⟨d, hd⟩ := Option.isSome_iff_exists.1 (h name rfl)
    simp only [constant, hd]
    exact safe_degrade.then fun _ => safe_pure trivial

theorem Follows.safe_sign (h : c.Follows a) {k : Key} (hfit : a.Fits (.key k))
    (hk : k = .plus ∨ k = .minus) (minus : Bool) :
    Safe (c.sign minus) fun c' => c'.Follows (.key k) := by
  have hp := h.pending_of_key hfit
  have hb : (Token.key k).completes = false ∧ (Token.key k).operation? = none := by
    rcases hk with rfl | rfl <;> exact ⟨rfl, rfl⟩
  cases hl : c.last with
  | none =>
    simp only [sign, hl, Option.isNone_none, if_true]
    exact safe_pure (follows_of_none rfl hb.1 hb.2 hp h.parts)
  | some v =>
    simp only [sign, hl, Option.isNone_some]
    refine (safe_closeSigned (by simp [hl]) h.parts).bind ?_
    rintro ⟨v, c'⟩ ⟨hlast, hparts, hpending⟩
    refine safe_pure (follows_of_none hlast hb.1 hb.2 (hpending.trans hp) ?_)
    have hlength : c'.parts.length = 0 := congrArg List.length hparts
    exact hlength.trans_le (Nat.zero_le 2)

theorem Follows.safe_factor (h : c.Follows a) (ha : a.completes) {k : Key}
    (hk : k = .times ∨ k = .obelus) (divides : Bool) :
    Safe (c.factor divides) fun c' => c'.Follows (.key k) := by
  have hb : (Token.key k).completes = false ∧ (Token.key k).operation? = none := by
    rcases hk with rfl | rfl <;> exact ⟨rfl, rfl⟩
  refine (safe_closeFactor (h.isSome_last ha) h.parts).bind ?_
  rintro ⟨v, c'⟩ rfl
  exact safe_pure (follows_of_none rfl hb.1 hb.2 (h.pending_eq_none ha) (Nat.zero_le _))

theorem Follows.safe_bar (h : c.Follows a) (ha : a.completes) :
    Safe c.bar fun c' => c'.Follows (.key .bar) := by
  have hlast := h.isSome_last ha
  have hpending := h.pending_eq_none ha
  rw [bar]
  split
  · refine (safe_closeParts hlast h.parts).bind ?_
    rintro ⟨v, c'⟩ rfl
    exact safe_pure (follows_of_none rfl rfl rfl hpending (by simp))
  · next hlen =>
    refine (safe_takeLast hlast).bind ?_
    rintro ⟨v, c'⟩ rfl
    have hle := h.parts
    refine safe_pure (follows_of_none rfl rfl rfl hpending ?_)
    simp only [List.length_cons]
    omega

theorem Follows.safe_update (h : c.Follows a) (ha : a.completes) {f : Quantity → Run Quantity}
    (hf : ∀ v, Safe (f v) fun _ => True) {k : Key} (hk : k = .square ∨ k = .bang) :
    Safe (c.update f) fun c' => c'.Follows (.key k) := by
  have hb : (Token.key k).completes := by rcases hk with rfl | rfl <;> rfl
  refine (safe_takeLast (h.isSome_last ha)).bind ?_
  rintro ⟨v, c'⟩ rfl
  exact (hf v).then fun w => safe_pure (follows_of_last rfl hb (h.pending_eq_none ha) h.parts)

/-- A key of a canonical line is read, and the state agrees with it afterwards. -/
theorem Follows.safe_key {k : Key} (h : c.Follows a) (hfit : a.Fits (.key k)) (hk : k.Plain)
    (hcomma : k ≠ .comma)
    (htable : ∀ name, k = .constant (.named name) → (table.value? name).isSome) :
    Safe (c.key table k) fun c' => c'.Follows (.key k) := by
  have hp := h.pending_of_key hfit
  cases k with
  | literal text =>
    have hb : (Token.key (.literal text)).completes := by
      simp [Token.completes, Literal.exponentBase?_of_parts? hk]
    exact (safe_literal hk).then fun v => safe_pure (follows_of_last rfl hb hp h.parts)
  | constant k =>
    have hk : Safe (constant table k) fun _ => True :=
      safe_constant fun name hn => htable name (by rw [hn])
    exact hk.then fun v => safe_pure (follows_of_last rfl rfl hp h.parts)
  | operation op =>
    refine safe_pure ⟨?_, rfl, h.parts⟩
    show c.last.isSome = _
    cases hback : op.isBackward with
    | true => simp [h.isSome_last (hfit.operand hback), Token.operation?, hback]
    | false =>
      have hna : a.completes = false := hfit.separate (by simp [Token.begins, hback])
      rw [h.last, hna, ← h.pending, hp]
      simp [Token.completes, Token.operation?, hback]
  | plus => exact h.safe_sign hfit (.inl rfl) false
  | minus => exact h.safe_sign hfit (.inr rfl) true
  | times => exact h.safe_factor (hfit.operand rfl) (.inl rfl) false
  | obelus => exact h.safe_factor (hfit.operand rfl) (.inr rfl) true
  | bar => exact h.safe_bar (hfit.operand rfl)
  | square => exact h.safe_update (hfit.operand rfl) safe_square (.inl rfl)
  | bang => exact h.safe_update (hfit.operand rfl) safe_factorial (.inr rfl)
  | answer => exact hk.elim
  | percent => exact hk.elim
  | comma => exact absurd rfl hcomma

/-- A group without commas has one value. -/
theorem safe_single {inner : Line} {content : Run (List Quantity)}
    (hcontent : Safe content fun vs => vs.length = inner.commas + 1) (hnone : inner.commas = 0) :
    Safe content fun vs => ∃ v, vs = [v] := by
  rw [hnone] at hcontent
  exact hcontent.mono fun vs hvs => List.length_eq_one_iff.1 hvs

/-- A group of a canonical line is read, and the operation before it finds its operands. -/
theorem Follows.safe_group (h : c.Follows a) (hfit : a.Fits .left) (unit : AngleUnit)
    {inner : Line} (hcommas : CommasFit a.operation? inner) {content : Run (List Quantity)}
    (hcontent : Safe content fun vs => vs.length = inner.commas + 1) :
    Safe (c.group unit content) fun c' => c'.Follows .right := by
  have hna : a.completes = false := hfit.separate rfl
  rw [group]
  split
  · next hpend =>
    have hone : inner.commas = 0 := by
      apply hcommas.commas_eq_zero
      rw [← h.pending, hpend]
      simp
    refine (safe_single hcontent hone).bind ?_
    rintro _ ⟨v, rfl⟩
    exact safe_pure (follows_of_last rfl rfl hpend h.parts)
  · next op hpend =>
    have hop : a.operation? = some op := h.pending.symm.trans hpend
    rw [hop] at hcommas
    dsimp only
    split
    · next hback =>
      have hlast : c.last.isSome := by simp [h.last, hna, hop, hback]
      have hone : inner.commas = 0 := hcommas.commas_eq_zero (by rintro ⟨⟩; cases hback)
      have htake : Safe (takeLast { c with pending := none }) fun r =>
          r.2 = { c with pending := none, last := none } := safe_takeLast hlast
      refine htake.bind ?_
      rintro ⟨left, c'⟩ rfl
      refine (safe_single hcontent hone).bind ?_
      rintro _ ⟨right, rfl⟩
      exact (safe_applyBackward hback left right).then fun v =>
        safe_pure (follows_of_last rfl rfl rfl h.parts)
    · next hforward =>
      refine hcontent.bind fun vs hvs => ?_
      have hcount : vs.length = 1 ∨ op = .log ∧ vs.length = 2 :=
        hcommas.imp (by omega) fun ⟨hlog, hone⟩ => ⟨Option.some.inj hlog, by omega⟩
      exact (safe_applyAll unit (by simpa using hforward) hcount).then fun v =>
        safe_pure (follows_of_last rfl rfl rfl h.parts)

end Frame

namespace Line

theorem values_key (unit : AngleUnit) (table : ConstantTable) (c : Frame) {k : Key}
    (hk : k ≠ .comma) (rest : Line) :
    (key k rest).values unit table c = c.key table k >>= fun c' => rest.values unit table c' := by
  cases k <;> first | rfl | exact absurd rfl hk

/-- The rest of a canonical level has one value between any two commas, or fails for reasons that
lie in the values. -/
theorem Shaped.safe_values {table : ConstantTable} {a : Token} {bars : Nat} {line : Line}
    (hline : line.Shaped a bars) (unit : AngleUnit) (hknown : table.Covers line.toTokens)
    {c : Frame}
    (hc : c.Follows a) :
    Safe (line.values unit table c) fun vs => vs.length = line.commas + 1 := by
  induction line generalizing a bars c with
  | nil =>
    exact (Frame.safe_finish hc (hline.operand rfl)).then fun v => safe_pure rfl
  | key k rest ih =>
    obtain ⟨hfit, hplain, -, hrest⟩ := hline
    have hknownRest : table.Covers rest.toTokens := hknown.of_subset (List.subset_cons_self _ _)
    by_cases hk : k = .comma
    · subst hk
      have hfinish := Frame.safe_finish hc (hfit.operand rfl)
      have htail := ih hrest hknownRest (Frame.follows_start (.inr rfl))
      refine hfinish.then fun v => htail.bind fun vs hvs => safe_pure ?_
      simp [commas, hvs, Nat.add_comm]
    · rw [values_key unit table c hk]
      have hkey := hc.safe_key hfit hplain hk
        fun name hn => hknown name (hn ▸ List.mem_cons_self)
      apply hkey.bind
      intro c' hc'
      simpa [commas, hk] using ih hrest hknownRest hc'
  | group inner rest ihi ihr =>
    obtain ⟨hfit, hcommas, hinner, hrest⟩ := hline
    have hknownInner : table.Covers inner.toTokens :=
      hknown.of_subset fun t ht => mem_toTokens_group.2 (.inr (.inl ht))
    have hknownRest : table.Covers rest.toTokens :=
      hknown.of_subset fun t ht => mem_toTokens_group.2 (.inr (.inr (.inr ht)))
    have hcontent := ihi hinner hknownInner (Frame.follows_start (.inl rfl))
    apply (hc.safe_group hfit unit hcommas hcontent).bind
    intro c' hc'
    exact ihr hrest hknownRest hc'

/-- A canonical line has a value, or fails for reasons that lie in the values. -/
theorem Shaped.safe_value {table : ConstantTable} {line : Line}
    (hline : line.Shaped .left 0) (unit : AngleUnit) (hcommas : line.commas = 0)
    (hknown : table.Covers line.toTokens) :
    Safe (line.value unit table) fun _ => True := by
  have hvalues := hline.safe_values unit hknown (Frame.follows_start (.inl rfl))
  by_cases hnil : line = nil
  · rw [hnil]
    exact safe_settle .zero
  · rw [value]
    · apply hvalues.bind
      intro vs hvs
      rw [hcommas] at hvs
      obtain ⟨v, rfl⟩ := List.length_eq_one_iff.1 hvs
      exact safe_settle v
    · exact hnil

end Line

end Keypad
