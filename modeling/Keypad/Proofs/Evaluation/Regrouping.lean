import Keypad.Proofs.Evaluation.Steps

/-!
# Waiting factors

A term is the product of its factors, which wait until it ends. Two states of a level that differ
in these factors, but not in what any operand times their product is, agree on whatever follows.
Each step of the evaluation keeps this relation, and a line keeps it by induction.
-/

namespace Keypad

open Run Quantity

variable {unit : AngleUnit} {table : ConstantTable} {c d : Frame}

namespace Frame

/-- The states are the same but for their waiting factors, which have the same products. -/
structure Regroups (c d : Frame) : Prop where
  eq : d = { c with factors := d.factors }
  product (v : Quantity) : Agree Eq (c.factors.foldrM Run.mul v) (d.factors.foldrM Run.mul v)

theorem regroups_refl (c : Frame) : c.Regroups c where
  eq := rfl
  product v t a u b w ha hb := by
    cases ha.1.symm.trans hb.1
    exact ⟨rfl, rfl⟩

theorem takeLast_factors (c : Frame) (fs : List Quantity) :
    takeLast { c with factors := fs }
      = c.takeLast >>= fun r => pure (r.1, { r.2 with factors := fs }) := by
  simp only [takeLast]
  cases c.last <;> rfl

theorem closeParts_factors (c : Frame) (fs : List Quantity) :
    closeParts { c with factors := fs }
      = c.closeParts >>= fun r => pure (r.1, { r.2 with factors := fs }) := by
  simp only [closeParts, takeLast_factors, bind_assoc, pure_bind]

theorem closeFactor_factors (c : Frame) (fs : List Quantity) :
    closeFactor { c with factors := fs }
      = c.closeFactor >>= fun r => pure (r.1, { r.2 with factors := fs }) := by
  simp only [closeFactor_eq, closeParts_factors, bind_assoc, pure_bind]

theorem setFactors_eq_of_regroups {fs : List Quantity} (h : c.Regroups d) :
    { d with factors := fs } = { c with factors := fs } := by
  rw [h.eq]

namespace Regroups

/-- The same change of everything but the factors. -/
theorem congr (h : c.Regroups d) {e f : Frame} (hc : e.factors = c.factors)
    (hd : f = { e with factors := d.factors }) : e.Regroups f where
  eq := by rw [hd]
  product := by
    rw [hd, hc]
    exact h.product

theorem push (h : c.Regroups d) (v : Quantity) (divides : Bool) :
    Regroups { c with factors := v :: c.factors, divides, negative := false }
      { d with factors := v :: d.factors, divides, negative := false } where
  eq := by rw [h.eq]
  product w := by
    have hkept (fs : List Quantity) : KeepsLoss (fs.foldrM Run.mul w) :=
      Arithmetic.KeepsLoss.foldrM keepsLoss_mul w fs
    simp only [List.foldrM_cons]
    refine (h.product w).bind (hkept _) (hkept _) (fun x _ => keepsLoss_mul v x)
      (fun x _ => keepsLoss_mul v x) ?_
    rintro x _ - - rfl
    exact (agree_refl fun t => ends_true t (Run.mul v x)).imp fun _ _ h => h.1

/-- What closes a part of a level, whatever the factors are. -/
theorem reduced (h : c.Regroups d) {m n : Run (Quantity × Frame)}
    (hn : n = m >>= fun r => pure (r.1, { r.2 with factors := d.factors }))
    (hm : Keeps (Reduced Bounded) m)
    (hfactors : ∀ t, Ends (fun _ => True) t m fun r _ => r.2.factors = c.factors) :
    Agree (fun r s => r.1 = s.1 ∧ r.2.Regroups s.2) m n := by
  have hkept : KeepsLoss m := hm.mono fun _ _ => trivial
  rw [hn]
  nth_rewrite 1 [← bind_pure m]
  refine (agree_refl hfactors).bind hkept hkept (fun _ _ => keepsLoss_pure _)
    (fun _ _ => keepsLoss_pure _) ?_
  rintro r _ - - ⟨rfl, hr⟩
  exact agree_pure ⟨rfl, h.congr hr rfl⟩

section Bounded

variable (h : c.Regroups d) (hc : c.All Bounded)
include h hc

theorem takeLast : Agree (fun r s => r.1 = s.1 ∧ r.2.Regroups s.2) c.takeLast d.takeLast := by
  refine h.reduced ?_ (keeps_takeLast hc) fun t =>
    (ends_takeLast c).mono fun r _ hr => by rw [hr.2]
  rw [h.eq]
  exact takeLast_factors c d.factors

theorem closeParts : Agree (fun r s => r.1 = s.1 ∧ r.2.Regroups s.2) c.closeParts d.closeParts := by
  refine h.reduced ?_ (keeps_closeParts (Decimal.invariant_true {}) hc) fun t =>
    (ends_closeParts c).mono fun r _ hr => by rw [hr.2]
  rw [h.eq]
  exact closeParts_factors c d.factors

theorem closeFactor :
    Agree (fun r s => r.1 = s.1 ∧ r.2.Regroups s.2) c.closeFactor d.closeFactor := by
  refine h.reduced ?_ (keeps_closeFactor (Decimal.invariant_true {}) hc) fun t =>
    (ends_closeFactor c).mono fun r _ hr => by rw [hr.2]
  rw [h.eq]
  exact closeFactor_factors c d.factors

end Bounded

variable (h : c.Regroups d) (hc : c.All Bounded) (hd : d.All Bounded)
include h hc hd

/-- The product that ends a term is the same. -/
theorem closeSigned : Agree Eq c.closeSigned d.closeSigned := by
  have hD := Decimal.invariant_true {}
  have hkept (r : Quantity × Frame) : KeepsLoss (r.2.factors.foldrM Run.mul r.1) :=
    Arithmetic.KeepsLoss.foldrM keepsLoss_mul _ _
  rw [Frame.closeSigned, Frame.closeSigned, closeTerm, closeTerm, bind_assoc, bind_assoc]
  refine (h.closeFactor hc).bind (keeps_closeFactor hD hc) (keeps_closeFactor hD hd)
    (fun r _ => ?_) (fun r _ => ?_) ?_
  · exact ((hkept r).bind fun _ => keepsLoss_pure _).bind fun _ => keepsLoss_pure _
  · exact ((hkept r).bind fun _ => keepsLoss_pure _).bind fun _ => keepsLoss_pure _
  rintro ⟨v, c⟩ ⟨w, d⟩ - - ⟨rfl, hr⟩
  dsimp only at hr ⊢
  rw [bind_assoc, bind_assoc]
  refine (hr.product v).bind (hkept (v, c)) (hkept (v, d))
    (fun _ _ => (keepsLoss_pure _).bind fun _ => keepsLoss_pure _)
    (fun _ _ => (keepsLoss_pure _).bind fun _ => keepsLoss_pure _) ?_
  rintro x _ - - rfl
  rw [pure_bind, pure_bind, setFactors_eq_of_regroups hr]
  exact agree_pure rfl

theorem finish : Agree Eq c.finish d.finish := by
  have hpending : d.pending = c.pending := by rw [h.eq]
  have hD := Decimal.invariant_true {}
  unfold Frame.finish
  rw [hpending]
  split
  · exact agree_throw _ _
  · have hkept (r : Quantity × Frame) : KeepsLoss (r.2.terms.foldrM Run.add r.1) :=
      Arithmetic.KeepsLoss.foldrM keepsLoss_add _ _
    refine (h.closeSigned hc hd).bind (keeps_closeSigned hD hc) (keeps_closeSigned hD hd)
      (fun r _ => hkept r) (fun r _ => hkept r) ?_
    rintro r _ - - rfl
    exact (agree_refl fun t => ends_true t _).imp fun _ _ h => h.1

theorem sign (minus : Bool) : Agree Regroups (c.sign minus) (d.sign minus) := by
  have hlast : d.last = c.last := by rw [h.eq]
  have hD := Decimal.invariant_true {}
  unfold Frame.sign
  rw [hlast]
  split
  · refine agree_pure (h.congr rfl ?_)
    rw [h.eq]
  · refine (h.closeSigned hc hd).bind (keeps_closeSigned hD hc) (keeps_closeSigned hD hd)
      (fun _ _ => keepsLoss_pure _) (fun _ _ => keepsLoss_pure _) ?_
    rintro r _ - - rfl
    exact agree_pure (regroups_refl _)

theorem factor (divides : Bool) : Agree Regroups (c.factor divides) (d.factor divides) := by
  have hD := Decimal.invariant_true {}
  refine (h.closeFactor hc).bind (keeps_closeFactor hD hc) (keeps_closeFactor hD hd)
    (fun _ _ => keepsLoss_pure _) (fun _ _ => keepsLoss_pure _) ?_
  rintro ⟨v, c⟩ ⟨w, d⟩ - - ⟨rfl, hr⟩
  exact agree_pure (hr.push v divides)

theorem bar : Agree Regroups c.bar d.bar := by
  have hD := Decimal.invariant_true {}
  have hparts : d.parts = c.parts := by rw [h.eq]
  have hpush : ∀ r s : Quantity × Frame, Reduced Bounded r → Reduced Bounded s →
      r.1 = s.1 ∧ r.2.Regroups s.2 →
        Agree Regroups (pure { r.2 with parts := r.1 :: r.2.parts })
          (pure { s.2 with parts := s.1 :: s.2.parts }) := by
    rintro ⟨v, c⟩ ⟨w, d⟩ - - ⟨rfl, hr⟩
    refine agree_pure (hr.congr rfl ?_)
    dsimp only at hr ⊢
    rw [hr.eq]
  unfold Frame.bar
  rw [hparts]
  split
  · exact (h.closeParts hc).bind (keeps_closeParts hD hc) (keeps_closeParts hD hd)
      (fun _ _ => keepsLoss_pure _) (fun _ _ => keepsLoss_pure _) hpush
  · exact (h.takeLast hc).bind (keeps_takeLast hc) (keeps_takeLast hd)
      (fun _ _ => keepsLoss_pure _) (fun _ _ => keepsLoss_pure _) hpush

theorem update {f : Quantity → Run Quantity} (hf : ∀ v, Bounded v → KeepsLoss (f v)) :
    Agree Regroups (c.update f) (d.update f) := by
  refine (h.takeLast hc).bind (keeps_takeLast hc) (keeps_takeLast hd)
    (fun r hr => (hf r.1 hr.1).bind fun _ => keepsLoss_pure _)
    (fun r hr => (hf r.1 hr.1).bind fun _ => keepsLoss_pure _) ?_
  rintro ⟨v, c⟩ ⟨w, d⟩ hv - ⟨rfl, hr⟩
  refine (agree_refl fun t => ends_true t (f v)).bind (hf v hv.1) (hf v hv.1)
    (fun _ _ => keepsLoss_pure _) (fun _ _ => keepsLoss_pure _) ?_
  rintro x _ - - ⟨rfl, -⟩
  refine agree_pure (hr.congr rfl ?_)
  dsimp only at hr ⊢
  rw [hr.eq]

omit hc hd in
/-- What puts the same operand behind both. -/
theorem put {m : Run Quantity} (hm : KeepsLoss m) :
    Agree Regroups (m >>= fun v => pure (c.put v)) (m >>= fun v => pure (d.put v)) := by
  refine (agree_refl fun t => ends_true t m).bind hm hm (fun _ _ => keepsLoss_pure _)
    (fun _ _ => keepsLoss_pure _) ?_
  rintro v _ - - ⟨rfl, -⟩
  refine agree_pure (h.congr rfl ?_)
  rw [h.eq]
  rfl

theorem key (k : Key) : Agree Regroups (c.key table k) (d.key table k) := by
  have hD := Decimal.invariant_true table
  cases k with
  | literal text => exact h.put (keepsLoss_literal text)
  | constant k => exact h.put (keeps_constant hD k).keepsLoss
  | operation op =>
    refine agree_pure (h.congr rfl ?_)
    rw [h.eq]
  | plus => exact h.sign hc hd false
  | minus => exact h.sign hc hd true
  | times => exact h.factor hc hd false
  | obelus => exact h.factor hc hd true
  | bar => exact h.bar hc hd
  | square => exact h.update hc hd fun v hv => (keeps_squared hD hv).keepsLoss
  | bang => exact h.update hc hd fun v _ => (keeps_factorial hD v).keepsLoss
  | answer | percent | comma => exact agree_throw _ _

theorem group (unit : AngleUnit) {content : Run (List Quantity)}
    (hcontent : Keeps (fun vs => ∀ v ∈ vs, Bounded v) content) :
    Agree Regroups (c.group unit content) (d.group unit content) := by
  have hD := Decimal.invariant_true {}
  have hpending : d.pending = c.pending := by rw [h.eq]
  have hopened : Regroups { c with pending := none } { d with pending := none } :=
    h.congr rfl (by rw [h.eq])
  have hc' : All Bounded { c with pending := none } := ⟨hc.terms, hc.factors, hc.parts, hc.last⟩
  have hd' : All Bounded { d with pending := none } := ⟨hd.terms, hd.factors, hd.parts, hd.last⟩
  have hloss : KeepsLoss content := hcontent.mono fun _ _ => trivial
  cases hop : c.pending with
  | none =>
    rw [group_of_pending_none hop, group_of_pending_none (hpending.trans hop)]
    exact h.put (hloss.bind keepsLoss_only)
  | some op =>
    cases hback : op.isBackward with
    | true =>
      rw [group_of_isBackward hop hback, group_of_isBackward (hpending.trans hop) hback]
      exact hopened.update hc' hd' fun v _ => (hloss.bind keepsLoss_only).bind fun w =>
        (keeps_applyBackward hD op v w).keepsLoss
    | false =>
      rw [group_of_not_isBackward hop hback, group_of_not_isBackward (hpending.trans hop) hback]
      exact hopened.put (hcontent.bind fun vs hvs => (keeps_applyAll hD unit op hvs).keepsLoss)

end Regroups

end Frame

/-- Whatever follows, it is not told from the factors how they are grouped. -/
theorem Frame.Regroups.values (h : c.Regroups d) (hc : c.All Bounded) (hd : d.All Bounded)
    (line : Line) : Agree Eq (line.values unit table c) (line.values unit table d) := by
  have hD := Decimal.invariant_true table
  induction line generalizing c d with
  | nil =>
    rw [Line.values, Line.values]
    refine (h.finish hc hd).bind (keeps_finish hD hc) (keeps_finish hD hd)
      (fun _ _ => keepsLoss_pure _) (fun _ _ => keepsLoss_pure _) ?_
    rintro v _ - - rfl
    exact agree_pure rfl
  | key k rest ih =>
    by_cases hk : k = .comma
    · subst hk
      have hrest : KeepsLoss (rest.values unit table {}) :=
        Line.keepsLoss_values unit table rest (all_start _)
      rw [Line.values, Line.values]
      refine (h.finish hc hd).bind (keeps_finish hD hc) (keeps_finish hD hd)
        (fun _ _ => hrest.bind fun _ => keepsLoss_pure _)
        (fun _ _ => hrest.bind fun _ => keepsLoss_pure _) ?_
      rintro v _ - - rfl
      exact (agree_refl fun t => ends_true t _).imp fun _ _ h => h.1
    · rw [Line.values_key unit table c hk, Line.values_key unit table d hk]
      exact (h.key hc hd k).bind (keeps_key hD hc k) (keeps_key hD hd k)
        (fun c hc => Line.keepsLoss_values unit table rest hc)
        (fun d hd => Line.keepsLoss_values unit table rest hd) fun c d hc hd h => ih h hc hd
  | group inner rest _ ih =>
    have hinner := Line.keeps_values_start unit table inner
    rw [Line.values, Line.values]
    exact (h.group hc hd unit hinner).bind (keeps_group hD hc unit hinner)
      (keeps_group hD hd unit hinner) (fun c hc => Line.keepsLoss_values unit table rest hc)
      (fun d hd => Line.keepsLoss_values unit table rest hd) fun c d hc hd h => ih h hc hd

end Keypad
