import Keypad.Proofs.Evaluation.Agreement

/-!
# Steps of a level

A level is read up to some point by a run of its own, so a line that is cut in two is evaluated in
two runs. What the state knows behind a key depends on that key alone: which operation waits for
its group, whether there is an operand, and, behind a multiplication or at the start, that the next
operand is neither a divisor nor a part of a fraction.
-/

namespace Keypad

open Run Quantity

variable {unit : AngleUnit} {table : ConstantTable} {c d : Frame} {t : Trail}

namespace Line

/-- Reads keys and groups of a level, which is left open. -/
def advance (unit : AngleUnit) (table : ConstantTable) (c : Frame) : Line → Run Frame
  | nil => return c
  | key k rest => do advance unit table (← c.key table k) rest
  | group inner rest => do
    advance unit table (← c.group unit (inner.values unit table {})) rest

theorem advance_group (content : Line) (c : Frame) :
    (group content nil).advance unit table c = c.group unit (content.values unit table {}) := by
  rw [advance]
  exact bind_pure _

theorem values_append {line : Line} (h : line.commas = 0) (rest : Line) (c : Frame) :
    (line ++ rest).values unit table c
      = line.advance unit table c >>= fun c => rest.values unit table c := by
  induction line generalizing c with
  | nil => rw [nil_append, advance, pure_bind]
  | key k line ih =>
    have hk : k ≠ .comma := by
      rintro rfl
      simp [commas] at h
    rw [key_append, values_key unit table c hk, advance, bind_assoc]
    refine congrArg _ (funext fun c => ih ?_ c)
    simpa [commas, hk] using h
  | group inner line _ ih =>
    rw [group_append, values, advance, bind_assoc]
    exact congrArg _ (funext fun c => ih h c)

theorem advance_append (line rest : Line) (c : Frame) :
    (line ++ rest).advance unit table c
      = line.advance unit table c >>= fun c => rest.advance unit table c := by
  induction line generalizing c with
  | nil => rw [nil_append, advance, pure_bind]
  | key k line ih =>
    rw [key_append, advance, advance, bind_assoc]
    exact congrArg _ (funext fun c => ih c)
  | group inner line _ ih =>
    rw [group_append, advance, advance, bind_assoc]
    exact congrArg _ (funext fun c => ih c)

theorem keeps_values_bounded (unit : AngleUnit) (table : ConstantTable) (line : Line)
    (hc : c.All Frame.Bounded) :
    Keeps (fun vs => ∀ v ∈ vs, Frame.Bounded v) (line.values unit table c) :=
  keeps_values (Decimal.invariant_true table) unit line hc

theorem keepsLoss_values (unit : AngleUnit) (table : ConstantTable) (line : Line)
    (hc : c.All Frame.Bounded) : KeepsLoss (line.values unit table c) :=
  (keeps_values_bounded unit table line hc).mono fun _ _ => trivial

theorem keeps_advance (unit : AngleUnit) (table : ConstantTable) (line : Line)
    (hc : c.All Frame.Bounded) : Keeps (Frame.All Frame.Bounded) (line.advance unit table c) := by
  have hD := Decimal.invariant_true table
  induction line generalizing c with
  | nil => exact keeps_pure hc
  | key k rest ih => exact (Frame.keeps_key hD hc k).bind fun c hc => ih hc
  | group inner rest _ ih =>
    exact (Frame.keeps_group hD hc unit (keeps_values_start unit table inner)).bind
      fun c hc => ih hc

theorem keepsLoss_advance (unit : AngleUnit) (table : ConstantTable) (line : Line)
    (hc : c.All Frame.Bounded) : KeepsLoss (line.advance unit table c) :=
  (keeps_advance unit table line hc).mono fun _ _ => trivial

/-- A line that is cut in two agrees with itself from two states if each part does. -/
theorem agree_advance_append {R S : Frame → Frame → Prop} {line rest : Line}
    (hc : c.All Frame.Bounded) (hd : d.All Frame.Bounded)
    (hline : Agree R (line.advance unit table c) (line.advance unit table d))
    (hrest : ∀ c d, c.All Frame.Bounded → d.All Frame.Bounded → R c d →
      Agree S (rest.advance unit table c) (rest.advance unit table d)) :
    Agree S ((line ++ rest).advance unit table c) ((line ++ rest).advance unit table d) := by
  rw [advance_append, advance_append]
  exact hline.bind (keeps_advance unit table line hc) (keeps_advance unit table line hd)
    (fun _ hc => keepsLoss_advance unit table rest hc)
    (fun _ hd => keepsLoss_advance unit table rest hd) hrest

/-- Two lines that begin alike. -/
theorem agree_values_append {Q : Frame → Prop} {line tail tail' : Line} (hline : line.commas = 0)
    (hc : c.All Frame.Bounded)
    (hends : ∀ t, Ends (fun _ => True) t (line.advance unit table c) fun c _ => Q c)
    (htail : ∀ c, Q c → c.All Frame.Bounded →
      Agree Eq (tail.values unit table c) (tail'.values unit table c)) :
    Agree Eq ((line ++ tail).values unit table c) ((line ++ tail').values unit table c) := by
  rw [values_append hline, values_append hline]
  refine (agree_refl hends).bind (keeps_advance unit table line hc)
    (keeps_advance unit table line hc) (fun _ hc => keepsLoss_values unit table tail hc)
    (fun _ hc => keepsLoss_values unit table tail' hc) ?_
  rintro c _ hc - ⟨rfl, hQ⟩
  exact htail c hQ hc

end Line

/-- The next operand behind the token is the first factor of its term, or multiplied. -/
def Token.multiplied : Token → Bool
  | left | key .comma | key .times => true
  | _ => false

theorem Token.operation?_of_multiplied {a : Token} (h : a.multiplied) : a.operation? = none := by
  unfold multiplied at h
  split at h
  · rfl
  · rfl
  · rfl
  · cases h

theorem Token.multiplied_of_completes {a : Token} (h : a.completes) : a.multiplied = false := by
  unfold multiplied
  split
  · cases h
  · cases h
  · cases h
  · rfl

namespace Frame

/-! ## The state behind a token -/

theorem ends_takeLast (c : Frame) : Ends (fun _ => True) t c.takeLast fun r _ =>
    c.last.isSome ∧ r.2 = { c with last := none } := by
  rw [takeLast]
  split
  · next v hv => exact ⟨by rw [hv]; rfl, rfl⟩
  · trivial

theorem ends_closeParts (c : Frame) : Ends (fun _ => True) t c.closeParts fun r _ =>
    c.last.isSome ∧ r.2 = { c with last := none, parts := [] } := by
  rw [closeParts, ends_bind]
  refine (ends_takeLast c).mono fun r u hr => ?_
  rw [ends_bind]
  refine (ends_true u _).mono fun v w _ => ?_
  rw [ends_pure, hr.2]
  exact ⟨hr.1, rfl⟩

theorem closeFactor_eq (c : Frame) :
    c.closeFactor = c.closeParts >>= fun r =>
      (if r.2.divides then Run.inv r.1 else pure r.1) >>= fun v =>
        pure (v, { r.2 with divides := false }) := by
  rw [closeFactor]
  refine congrArg _ (funext fun r => ?_)
  cases hr : r.2.divides with
  | true => simp only [hr, if_true]
  | false => simp only [hr, if_neg Bool.false_ne_true, pure_bind]

theorem ends_closeFactor (c : Frame) : Ends (fun _ => True) t c.closeFactor fun r _ =>
    c.last.isSome ∧ r.2 = { c with last := none, parts := [], divides := false } := by
  rw [closeFactor_eq, ends_bind]
  refine (ends_closeParts c).mono fun r u hr => ?_
  rw [ends_bind]
  refine (ends_true u _).mono fun v w _ => ?_
  rw [ends_pure, hr.2]
  exact ⟨hr.1, rfl⟩

theorem ends_closeSigned (c : Frame) : Ends (fun _ => True) t c.closeSigned fun r _ =>
    r.2 = { terms := c.terms, pending := c.pending, negative := c.negative } := by
  rw [closeSigned, closeTerm, ends_bind, ends_bind]
  refine (ends_closeFactor c).mono fun r u hr => ?_
  rw [ends_bind]
  refine (ends_true u _).mono fun v w _ => ?_
  rw [ends_pure, ends_pure, hr.2]

/-- What the state of a level knows behind a token of a canonical line. -/
structure Behind (c : Frame) (a : Token) : Prop where
  pending : c.pending = a.operation?
  last : a.completes → c.last.isSome
  unsigned : c.last.isSome → c.negative = false
  multiplied : a.multiplied →
    c.last = none ∧ c.parts = [] ∧ c.divides = false ∧ c.negative = false

theorem behind_start {a : Token} (h : a = .left ∨ a = .key .comma) : Behind {} a := by
  rcases h with rfl | rfl
  · exact ⟨rfl, by simp [Token.completes], by simp, fun _ => ⟨rfl, rfl, rfl, rfl⟩⟩
  · exact ⟨rfl, by simp [Token.completes], by simp, fun _ => ⟨rfl, rfl, rfl, rfl⟩⟩

theorem behind_of_completes {a : Token} (hc : c.pending = none) (hl : c.last.isSome)
    (hn : c.negative = false) (ha : a.completes) : c.Behind a where
  pending := hc.trans (Token.operation?_of_completes ha).symm
  last _ := hl
  unsigned _ := hn
  multiplied h := by simp [Token.multiplied_of_completes ha] at h

theorem ends_put {a : Token} (hc : c.pending = none) (ha : a.completes) (m : Run Quantity) :
    Ends (fun _ => True) t (m >>= fun v => pure (c.put v)) fun c _ => c.Behind a := by
  rw [ends_bind]
  exact (ends_true t m).mono fun v _ _ => behind_of_completes hc rfl rfl ha

theorem ends_sign (hc : c.pending = none) (minus : Bool) {s : Token} (hs : s.isSign) :
    Ends (fun _ => True) t (c.sign minus) fun c _ => c.Behind s := by
  obtain ⟨hoperation, hcompletes, hmultiplied⟩ :
      s.operation? = none ∧ s.completes = false ∧ s.multiplied = false := by
    rcases Token.eq_of_isSign hs with rfl | rfl <;> exact ⟨rfl, rfl, rfl⟩
  rw [sign]
  split
  · next hnone =>
    have hlast : c.last = none := Option.isNone_iff_eq_none.1 hnone
    exact ⟨hc.trans hoperation.symm, by simp [hcompletes], by simp [hlast], by simp [hmultiplied]⟩
  · rw [ends_bind]
    refine (ends_closeSigned c).mono fun r u hr => ?_
    rw [ends_pure, hr]
    exact ⟨hc.trans hoperation.symm, by simp [hcompletes], by simp, by simp [hmultiplied]⟩

theorem ends_factor (hc : c.pending = none) (divides : Bool) :
    Ends (fun _ => True) t (c.factor divides) fun c _ =>
      c.Behind (.key (if divides then .obelus else .times)) := by
  rw [factor, ends_bind]
  refine (ends_closeFactor c).mono fun r u hr => ?_
  rw [ends_pure, hr.2]
  cases divides with
  | false => exact ⟨hc, by simp [Token.completes], by simp, fun _ => ⟨rfl, rfl, rfl, rfl⟩⟩
  | true => exact ⟨hc, by simp [Token.completes], by simp, by simp [Token.multiplied]⟩

theorem ends_bar (hc : c.pending = none) :
    Ends (fun _ => True) t c.bar fun c _ => c.Behind (.key .bar) := by
  have htaken {m : Run (Quantity × Frame)} (hm : Ends (fun _ => True) t m fun r _ =>
      r.2.last = none ∧ r.2.pending = none) : Ends (fun _ => True) t
        (m >>= fun r => pure { r.2 with parts := r.1 :: r.2.parts })
        fun c _ => c.Behind (.key .bar) := by
    rw [ends_bind]
    refine hm.mono fun r u hr => ?_
    exact ⟨hr.2, by simp [Token.completes], by simp [hr.1], by simp [Token.multiplied]⟩
  rw [bar]
  split
  · exact htaken ((ends_closeParts c).mono fun r u hr => by rw [hr.2]; exact ⟨rfl, hc⟩)
  · exact htaken ((ends_takeLast c).mono fun r u hr => by rw [hr.2]; exact ⟨rfl, hc⟩)

theorem Behind.ends_update {a b : Token} (h : c.Behind a) (hc : c.pending = none)
    (hb : b.completes) (f : Quantity → Run Quantity) :
    Ends (fun _ => True) t (c.update f) fun c _ => c.Behind b := by
  rw [update, ends_bind]
  refine (ends_takeLast c).mono fun r u hr => ?_
  rw [ends_bind]
  refine (ends_true u _).mono fun v w _ => ?_
  rw [ends_pure, hr.2]
  exact behind_of_completes hc rfl (h.unsigned hr.1) hb

/-- A key of a canonical line. -/
theorem Behind.ends_key {a : Token} (h : c.Behind a) (hc : c.pending = none) {k : Key}
    (hk : ∀ text, k = .literal text → Token.exponentBase? text = none) :
    Ends (fun _ => True) t (c.key table k) fun c _ => c.Behind (.key k) := by
  cases k with
  | literal text => exact ends_put hc (by rw [Token.completes, hk text rfl]; rfl) _
  | constant k => exact ends_put hc rfl _
  | operation op =>
    exact ⟨rfl, by simp [Token.completes], h.unsigned, by simp [Token.multiplied]⟩
  | plus => exact ends_sign hc false rfl
  | minus => exact ends_sign hc true rfl
  | times => exact ends_factor hc false
  | obelus => exact ends_factor hc true
  | bar => exact ends_bar hc
  | square => exact h.ends_update hc rfl _
  | bang => exact h.ends_update hc rfl _
  | answer | percent | comma => trivial

/-- The value of a group that has one. -/
def only : List Quantity → Run Quantity
  | [v] => return v
  | _ => throw (.strayKey .comma)

theorem keepsLoss_only (vs : List Quantity) : KeepsLoss (only vs) := by
  rcases vs with _ | ⟨v, _ | ⟨w, vs⟩⟩
  · exact keeps_throw _
  · exact keepsLoss_pure v
  · exact keeps_throw _

theorem group_of_pending_none (hc : c.pending = none) (unit : AngleUnit)
    (content : Run (List Quantity)) :
    c.group unit content = content >>= only >>= fun v => pure (c.put v) := by
  simp only [group, hc, bind_assoc]
  refine congrArg _ (funext fun vs => ?_)
  rcases vs with _ | ⟨v, _ | ⟨w, vs⟩⟩ <;> rfl

/-- A group behind an operation that takes the operand before it replaces that operand. -/
theorem group_of_isBackward {op : Operation} (hc : c.pending = some op) (hop : op.isBackward)
    (unit : AngleUnit) (content : Run (List Quantity)) :
    c.group unit content = update { c with pending := none } fun left =>
      content >>= only >>= op.applyBackward left := by
  simp only [group, hc, hop, if_true, update, bind_assoc]
  refine congrArg _ (funext fun r => congrArg _ (funext fun vs => ?_))
  rcases vs with _ | ⟨v, _ | ⟨w, vs⟩⟩ <;> rfl

theorem group_of_not_isBackward {op : Operation} (hc : c.pending = some op)
    (hop : op.isBackward = false) (unit : AngleUnit) (content : Run (List Quantity)) :
    c.group unit content = content >>= op.applyAll unit >>= fun v =>
      pure (put { c with pending := none } v) := by
  simp [group, hc, hop]

/-- A group with another content that agrees with it. -/
theorem agree_group {m n : Run (List Quantity)} (h : Agree Eq m n)
    (hm : Keeps (fun vs => ∀ v ∈ vs, Bounded v) m) (hn : Keeps (fun vs => ∀ v ∈ vs, Bounded v) n)
    (unit : AngleUnit) : Agree Eq (c.group unit m) (c.group unit n) := by
  have hbind {k : List Quantity → Run Quantity}
      (hk : ∀ vs, (∀ v ∈ vs, Bounded v) → KeepsLoss (k vs)) : Agree Eq (m >>= k) (n >>= k) := by
    refine h.bind hm hn hk hk ?_
    rintro vs _ - - rfl
    exact (agree_refl fun t => ends_true t _).imp fun _ _ h => h.1
  cases hc : c.pending with
  | none =>
    rw [group_of_pending_none hc, group_of_pending_none hc]
    exact (hbind fun vs _ => keepsLoss_only vs).map fun _ _ h => congrArg c.put h
  | some op =>
    cases hop : op.isBackward with
    | true =>
      rw [group_of_isBackward hc hop, group_of_isBackward hc hop, update, update]
      refine agree_bind_left fun r => ?_
      have happlied : Agree Eq (m >>= only >>= op.applyBackward r.1)
          (n >>= only >>= op.applyBackward r.1) := by
        rw [bind_assoc, bind_assoc]
        exact hbind fun vs _ => (keepsLoss_only vs).bind fun v =>
          (keeps_applyBackward (Decimal.invariant_true {}) op r.1 v).keepsLoss
      exact happlied.map fun _ _ h => by rw [h]
    | false =>
      rw [group_of_not_isBackward hc hop, group_of_not_isBackward hc hop]
      have happlied : Agree Eq (m >>= op.applyAll unit) (n >>= op.applyAll unit) :=
        hbind fun vs hvs => (keeps_applyAll (Decimal.invariant_true {}) unit op hvs).keepsLoss
      exact happlied.map fun _ _ h => congrArg _ h

theorem Behind.ends_group {a : Token} (h : c.Behind a) (unit : AngleUnit)
    (content : Run (List Quantity)) :
    Ends (fun _ => True) t (c.group unit content) fun c _ => c.Behind .right := by
  cases hc : c.pending with
  | none =>
    rw [group_of_pending_none hc]
    exact ends_put hc rfl _
  | some op =>
    cases hop : op.isBackward with
    | true =>
      have hbehind : Behind { c with pending := none } (.key .plus) :=
        ⟨rfl, by simp [Token.completes], h.unsigned, by simp [Token.multiplied]⟩
      rw [group_of_isBackward hc hop]
      exact hbehind.ends_update rfl rfl _
    | false =>
      rw [group_of_not_isBackward hc hop]
      exact ends_put (c := { c with pending := none }) rfl rfl _

end Frame

end Keypad
