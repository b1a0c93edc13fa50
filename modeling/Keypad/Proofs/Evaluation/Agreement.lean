import Keypad.Proofs.Arithmetic.Exactness
import Keypad.Proofs.Decimal.Shift
import Keypad.Proofs.Evaluation.Exactness
import Keypad.Proofs.Evaluation.Literal
import Keypad.Proofs.Rationality

/-!
# Runs that agree where both are exact

Two runs agree if, whenever both end exactly from the same trail, they end on one trail and with
related results. Agreement is what remains of two evaluations that order their operations
differently: an exact result is a fraction, and a product of fractions depends neither on the order
nor on the grouping of its factors.
-/

namespace Keypad

namespace Run

variable {α β γ δ : Type} {m : Run α} {t u w : Trail} {a : α}

/-- The run ends with `a`, and exactly. -/
def Arrives (m : Run α) (t : Trail) (a : α) (u : Trail) : Prop := m.run t = .ok (a, u) ∧ u.exact

theorem arrives_pure {b : α} (h : Arrives (pure a) t b u) : a = b ∧ t = u := by
  cases h.1
  exact ⟨rfl, rfl⟩

theorem ends_true (t : Trail) (m : Run α) : Ends (fun _ => True) t m fun _ _ => True := by
  unfold Ends
  split <;> trivial

theorem Arrives.of_ends {Q : α → Trail → Prop} {E : Failure → Prop} (h : Arrives m t a u)
    (hm : Ends E t m Q) : Q a u := by
  rwa [Ends, h.1] at hm

theorem Arrives.exact (h : Arrives m t a u) (hm : KeepsLoss m) : t.exact := by
  by_contra hexact
  have hu := (h.of_ends (hm t)).2 (by simpa using hexact)
  simp [h.2] at hu

theorem exists_of_run_bind {n : α → Run β} {b : β} (h : (m >>= n).run t = .ok (b, w)) :
    ∃ a u, m.run t = .ok (a, u) ∧ (n a).run u = .ok (b, w) := by
  rw [StateT.run_bind] at h
  obtain ⟨⟨a, u⟩, ha, hb⟩ := Except.exists_of_bind h
  exact ⟨a, u, ha, hb⟩

/-- An exact run of two steps is exact after the first. -/
theorem Arrives.of_bind {P : α → Prop} {n : α → Run β} {b : β} (h : Arrives (m >>= n) t b w)
    (hm : Keeps P m) (hn : ∀ a, P a → KeepsLoss (n a)) :
    ∃ a u, P a ∧ Arrives m t a u ∧ Arrives (n a) u b w := by
  obtain ⟨a, u, ha, hb⟩ := exists_of_run_bind h.1
  have hpa : P a := hm.of_run ha
  exact ⟨a, u, hpa, ⟨ha, Arrives.exact ⟨hb, h.2⟩ (hn a hpa)⟩, hb, h.2⟩

/-- Where both runs end exactly, they end on one trail with related results. -/
def Agree (R : α → β → Prop) (m : Run α) (n : Run β) : Prop :=
  ∀ t a u b w, Arrives m t a u → Arrives n t b w → R a b ∧ u = w

variable {R : α → β → Prop} {S : γ → δ → Prop} {n : Run β}

theorem agree_pure {b : β} (h : R a b) : Agree R (pure a) (pure b) := by
  intro t a' u b' w ha hb
  obtain ⟨rfl, rfl⟩ := arrives_pure ha
  obtain ⟨rfl, rfl⟩ := arrives_pure hb
  exact ⟨h, rfl⟩

theorem agree_throw (f : Failure) (n : Run β) : Agree R (throw f) n := by
  intro t a u b w ha
  cases ha.1

/-- A run agrees with itself. -/
theorem agree_refl {Q : α → Prop} (hm : ∀ t, Ends (fun _ => True) t m fun a _ => Q a) :
    Agree (fun a b => a = b ∧ Q a) m m := by
  intro t a u b w ha hb
  cases ha.1.symm.trans hb.1
  exact ⟨⟨rfl, ha.of_ends (hm t)⟩, rfl⟩

theorem Agree.imp {R' : α → β → Prop} (h : Agree R m n) (himp : ∀ a b, R a b → R' a b) :
    Agree R' m n := fun t a u b w ha hb => (h t a u b w ha hb).imp_left (himp a b)

/-- Two runs that begin alike. -/
theorem agree_bind_left {k : α → Run γ} {l : α → Run δ} (h : ∀ a, Agree S (k a) (l a)) :
    Agree S (m >>= k) (m >>= l) := by
  intro t c u d w hc hd
  obtain ⟨a, v, ha, hk⟩ := exists_of_run_bind hc.1
  obtain ⟨b, v', hb, hl⟩ := exists_of_run_bind hd.1
  cases ha.symm.trans hb
  exact h a v c u d w ⟨hk, hc.2⟩ ⟨hl, hd.2⟩

theorem Agree.bind {P : α → Prop} {Q : β → Prop} {k : α → Run γ} {l : β → Run δ}
    (h : Agree R m n) (hm : Keeps P m) (hn : Keeps Q n) (hk : ∀ a, P a → KeepsLoss (k a))
    (hl : ∀ b, Q b → KeepsLoss (l b))
    (hkl : ∀ a b, P a → Q b → R a b → Agree S (k a) (l b)) : Agree S (m >>= k) (n >>= l) := by
  intro t c u d w hc hd
  obtain ⟨a, v, ha, hma, hkc⟩ := hc.of_bind hm hk
  obtain ⟨b, v', hb, hnb, hld⟩ := hd.of_bind hn hl
  obtain ⟨hab, rfl⟩ := h t a v b v' hma hnb
  exact hkl a b ha hb hab v c u d w hkc hld

theorem Agree.symm (h : Agree R m n) : Agree (fun b a => R a b) n m := by
  intro t b w a u hb ha
  exact (h t a u b w ha hb).imp_right Eq.symm

/-- Only the results are changed. -/
theorem Agree.map (h : Agree R m n) {f : α → γ} {g : β → δ} (hfg : ∀ a b, R a b → S (f a) (g b)) :
    Agree S (m >>= fun a => pure (f a)) (n >>= fun b => pure (g b)) := by
  intro t c u d w hc hd
  obtain ⟨a, v, ha, hfa⟩ := exists_of_run_bind hc.1
  obtain ⟨b, v', hb, hgb⟩ := exists_of_run_bind hd.1
  obtain ⟨rfl, rfl⟩ := arrives_pure ⟨hfa, hc.2⟩
  obtain ⟨rfl, rfl⟩ := arrives_pure ⟨hgb, hd.2⟩
  exact (h t a v b v' ⟨ha, hc.2⟩ ⟨hb, hd.2⟩).imp_left (hfg a b)

/-! ## Exact arithmetic -/

variable {x y v : Quantity} {q : Rat}

theorem Arrives.of_settle (h : Arrives (settle v) t x u) : x = v ∧ u = t := by
  obtain ⟨hrun, hu⟩ := h
  cases v with
  | approx d =>
    cases hrun
    cases hu
  | exact q =>
    simp only [settle, StateT.run_bind, StateT.run_get, pure_bind] at hrun
    split at hrun
    · cases hrun
      exact ⟨rfl, rfl⟩
    · cases hrun
      cases hu

/-- An exact result of arithmetic comes from exact operands. -/
theorem Arrives.of_combine {onRat : Rat → Rat → Rat}
    {onDecimal : Decimal → Decimal → Option Decimal}
    (h : Arrives (combine onRat onDecimal x y) t v u) :
    ∃ p q, x = .exact p ∧ y = .exact q ∧ v = .exact (onRat p q) ∧ u = t := by
  rw [combine] at h
  obtain ⟨s, t', hs, hrest⟩ := exists_of_run_bind h.1
  cases hs
  have harrives : Arrives _ t v u := ⟨hrest, h.2⟩
  split at harrives
  · next p q _ =>
    obtain ⟨rfl, rfl⟩ := harrives.of_settle
    exact ⟨p, q, rfl, rfl, rfl, rfl⟩
  · split at harrives
    · cases harrives.1
    · obtain ⟨d, w, -, hsettle⟩ := exists_of_run_bind harrives.1
      cases hsettle
      cases h.2

theorem Arrives.of_mul (h : Arrives (mul x y) t v u) :
    ∃ p q, x = .exact p ∧ y = .exact q ∧ v = .exact (p * q) ∧ u = t := h.of_combine

theorem Arrives.of_ofFunction {d : Decimal} (h : Arrives (ofFunction d) t v u) :
    ∃ q, Quantity.rational? d = some q ∧ v = .exact q ∧ u = t := by
  obtain ⟨hrun, hu⟩ := h
  simp only [ofFunction, StateT.run_bind, StateT.run_get, pure_bind] at hrun
  split at hrun
  · split at hrun
    · next q hq =>
      cases hrun
      exact ⟨q, hq, rfl, rfl⟩
    · cases hrun
      cases hu
  · next hexact =>
    cases hrun
    exact absurd hu hexact

/-- The exact product of waiting factors. -/
theorem Arrives.of_product {vs : List Quantity} (h : Arrives (vs.foldrM mul v) t x u) :
    ∃ qs : List Rat, vs = qs.map .exact ∧ u = t ∧
      (vs = [] ∧ x = v ∨ ∃ q, v = .exact q ∧ x = .exact (qs.prod * q)) := by
  induction vs generalizing x u with
  | nil =>
    obtain ⟨rfl, rfl⟩ := arrives_pure h
    exact ⟨[], rfl, rfl, .inl ⟨rfl, rfl⟩⟩
  | cons w vs ih =>
    rw [List.foldrM_cons] at h
    obtain ⟨y, s, -, hy, hmul⟩ := h.of_bind
      (Arithmetic.KeepsLoss.foldrM keepsLoss_mul v vs) fun y _ => keepsLoss_mul w y
    obtain ⟨p, q, rfl, rfl, rfl, rfl⟩ := hmul.of_mul
    obtain ⟨qs, rfl, rfl, ⟨hnil, rfl⟩ | ⟨r, rfl, hr⟩⟩ := ih hy
    · obtain rfl : qs = [] := List.map_eq_nil_iff.1 hnil
      exact ⟨[p], rfl, rfl, .inr ⟨q, rfl, by simp⟩⟩
    · refine ⟨p :: qs, rfl, rfl, .inr ⟨r, rfl, ?_⟩⟩
      rw [List.prod_cons, Quantity.exact.inj hr, mul_assoc]

theorem Arrives.of_product_exact {vs : List Quantity}
    (h : Arrives (vs.foldrM mul (.exact q)) t x u) :
    ∃ qs : List Rat, vs = qs.map .exact ∧ x = .exact (qs.prod * q) ∧ u = t := by
  obtain ⟨qs, rfl, rfl, ⟨hnil, rfl⟩ | ⟨r, hr, rfl⟩⟩ := h.of_product
  · obtain rfl : qs = [] := List.map_eq_nil_iff.1 hnil
    exact ⟨[], rfl, by simp, rfl⟩
  · cases hr
    exact ⟨qs, rfl, rfl, rfl⟩

/-- Products of exact factors that are the same agree, whatever they multiply. -/
theorem agree_product {ps qs : List Rat} (hps : ps ≠ []) (h : ps.prod = qs.prod)
    (v : Quantity) : Agree Eq ((ps.map Quantity.exact).foldrM mul v)
      ((qs.map Quantity.exact).foldrM mul v) := by
  intro t a u b w ha hb
  have hinjective : Function.Injective Quantity.exact := fun _ _ => Quantity.exact.inj
  obtain ⟨rs, hrs, rfl, ⟨hnil, -⟩ | ⟨q, rfl, rfl⟩⟩ := ha.of_product
  · exact absurd (List.map_eq_nil_iff.1 hnil) hps
  obtain ⟨ss, hss, rfl, rfl⟩ := hb.of_product_exact
  rw [← List.map_injective_iff.2 hinjective hrs, ← List.map_injective_iff.2 hinjective hss, h]
  exact ⟨rfl, rfl⟩

/-- Exact factors may be replaced by others with the same product among any factors. -/
theorem agree_product_append {ps qs : List Rat} (hps : ps ≠ []) (h : ps.prod = qs.prod)
    (vs : List Quantity) (v : Quantity) :
    Agree Eq ((ps.map Quantity.exact ++ vs).foldrM mul v)
      ((qs.map Quantity.exact ++ vs).foldrM mul v) := by
  rw [List.foldrM_append, List.foldrM_append]
  exact agree_bind_left fun w => agree_product hps h w

/-- Exact factors may be multiplied before the others. -/
theorem agree_product_exact (ps : List Rat) (vs : List Quantity) (q : Rat) :
    Agree Eq ((ps.map Quantity.exact ++ vs).foldrM mul (.exact q))
      (vs.foldrM mul (.exact (ps.prod * q))) := by
  intro t a u b w ha hb
  obtain ⟨rs, hrs, rfl, rfl⟩ := ha.of_product_exact
  obtain ⟨ss, rfl, rfl, rfl⟩ := hb.of_product_exact
  have hinjective : Function.Injective Quantity.exact := fun _ _ => Quantity.exact.inj
  rw [← List.map_append] at hrs
  rw [← List.map_injective_iff.2 hinjective hrs, List.prod_append]
  exact ⟨congrArg _ (by ring), rfl⟩

/-! ## Changes of sign -/

theorem agree_ofFunction_neg (d : Decimal) :
    Agree (fun v w => w = v.neg) (ofFunction d) (ofFunction (-d)) := by
  intro t v u w u' hv hw
  obtain ⟨q, hq, rfl, rfl⟩ := hv.of_ofFunction
  obtain ⟨r, hr, rfl, rfl⟩ := hw.of_ofFunction
  rw [Quantity.rational?_neg, hq] at hr
  cases hr
  exact ⟨rfl, rfl⟩

/-- A product with a power of ten changes its sign with the other factor. -/
theorem agree_timesPowerOfTen_neg (a k : Quantity) :
    Agree (fun v w => w = v.neg) (timesPowerOfTen a k) (timesPowerOfTen a.neg k) := by
  rw [timesPowerOfTen, timesPowerOfTen]
  split
  · exact agree_throw _ _
  split
  · next n _ _ =>
    have hscaled : Decimal.scaled (-a.toDecimal).mantissa ((-a.toDecimal).exponent + n)
        = -Decimal.scaled a.toDecimal.mantissa (a.toDecimal.exponent + n) :=
      Decimal.round_neg _ _ _
    simp only [Quantity.toDecimal_neg, hscaled, signed, bounded, Arithmetic.exceedsMaximum_neg]
    split
    · exact agree_throw _ _
    · exact agree_ofFunction_neg _
  · split
    · exact agree_ofFunction_neg .zero
    · exact agree_throw _ _

end Run

end Keypad
