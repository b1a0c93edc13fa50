import Keypad.Proofs.Arithmetic.Machine
import Keypad.Proofs.Canonical.Levels
import Keypad.Proofs.Evaluation.Invariant
import Keypad.Proofs.Quantity

/-!
# Exact results of arithmetic

A run that starts exact follows the numbers formed over the rationals as long as all of them are
exact, and is not exact anymore once one of them is not. So an exact result is the value of the
tree, and the run misses it only by a number that is not exact or a divisor that is zero.
-/

namespace Keypad

namespace Run

variable {α β : Type}

/-- Exactness that is lost before the run is not found again. -/
abbrev KeepsLoss (m : Run α) : Prop := Keeps (fun _ => True) m

theorem keepsLoss_pure (a : α) : KeepsLoss (pure a) := keeps_pure trivial

theorem KeepsLoss.bind {m : Run α} {k : α → Run β} (hm : KeepsLoss m)
    (hk : ∀ a, KeepsLoss (k a)) : KeepsLoss (m >>= k) := Keeps.bind hm fun a _ => hk a

/-- Where the decimals do not matter, any property of decimals will do. -/
theorem Keeps.keepsLoss {m : Run Quantity} (h : Keeps (Quantity.Within fun _ => True) m) :
    KeepsLoss m := h.mono fun _ _ => trivial

theorem keepsLoss_settle (v : Quantity) : KeepsLoss (settle v) := (keeps_settle trivial).keepsLoss

theorem keepsLoss_literal (text : String) : KeepsLoss (literal text) :=
  (keeps_literal trivial fun _ _ _ => trivial).keepsLoss

theorem keepsLoss_combine (onRat : Rat → Rat → Rat)
    (onDecimal : Decimal → Decimal → Option Decimal) (a b : Quantity) :
    KeepsLoss (combine onRat onDecimal a b) :=
  (keeps_combine (fun _ _ _ _ => trivial) fun _ _ _ => trivial).keepsLoss

theorem keepsLoss_add (a b : Quantity) : KeepsLoss (add a b) := keepsLoss_combine _ _ a b

theorem keepsLoss_mul (a b : Quantity) : KeepsLoss (mul a b) := keepsLoss_combine _ _ a b

theorem keepsLoss_div (a b : Quantity) : KeepsLoss (div a b) := by
  rw [div]
  split
  · exact keeps_throw _
  · exact keepsLoss_combine _ _ a b

theorem keepsLoss_square (v : Quantity) : KeepsLoss (square v) :=
  (keeps_square (fun _ _ => trivial) fun _ _ => trivial).keepsLoss

end Run

namespace Arithmetic

open Run

variable {α β γ δ : Type}

/-- The run follows the numbers that are formed while they are exact. -/
structure Simulates (m : Run α) (k : Formation β) (r : β → α) : Prop where
  kept : KeepsLoss m
  exact : ∀ t, t.exact = true → (∀ x ∈ k.formed, x.isExact) →
    m.run t = match k.result with
      | some b => .ok (r b, t)
      | none => .error .divisionByZero
  lost : ∀ t, t.exact = true → (∃ x ∈ k.formed, x.isExact = false) →
    Ends (fun _ => True) t m fun _ u => u.exact = false

theorem simulates_pure (b : β) (r : β → α) : Simulates (pure (r b)) (pure b) r where
  kept := keepsLoss_pure _
  exact _ _ _ := rfl
  lost _ _ h := by simp at h

theorem Simulates.bind {m : Run α} {k : Formation β} {r : β → α} (hm : Simulates m k r)
    {f : α → Run γ} {g : β → Formation δ} {s : δ → γ} (hf : ∀ b, Simulates (f (r b)) (g b) s)
    (hkept : ∀ a, KeepsLoss (f a)) : Simulates (m >>= f) (k >>= g) s where
  kept := hm.kept.bind hkept
  exact t ht hformed := by
    cases hk : k.result with
    | none =>
      rw [Formation.bind_of_none hk] at hformed ⊢
      have hrun := hm.exact t ht hformed
      rw [hk] at hrun
      rw [StateT.run_bind, hrun]
      rfl
    | some b =>
      rw [Formation.bind_of_some hk] at hformed ⊢
      have hrun := hm.exact t ht fun x hx => hformed x (List.mem_append_left _ hx)
      rw [hk] at hrun
      rw [StateT.run_bind, hrun]
      exact (hf b).exact t ht fun x hx => hformed x (List.mem_append_right _ hx)
  lost t ht hlost := by
    rw [ends_bind]
    by_cases hformed : ∀ x ∈ k.formed, x.isExact
    · have hrun := hm.exact t ht hformed
      cases hk : k.result with
      | none =>
        rw [hk] at hrun
        rw [Ends, hrun]
        trivial
      | some b =>
        rw [hk] at hrun
        rw [Ends, hrun]
        refine (hf b).lost t ht ?_
        obtain ⟨x, hx, hinexact⟩ := hlost
        rw [Formation.bind_of_some hk] at hx
        rcases List.mem_append.1 hx with hfirst | hsecond
        · simp [hformed x hfirst] at hinexact
        · exact ⟨x, hsecond, hinexact⟩
    · refine (hm.lost t ht ?_).mono fun a u hu => (hkept a).lost hu
      simpa using hformed

/-- Where a run starts exact, it may be replaced. -/
theorem Simulates.of_run_eq {m n : Run α} {k : Formation β} {r : β → α} (hm : Simulates m k r)
    (hkept : KeepsLoss n) (h : ∀ t, t.exact = true → n.run t = m.run t) : Simulates n k r where
  kept := hkept
  exact t ht hformed := (h t ht).trans (hm.exact t ht hformed)
  lost t ht hlost := by
    have hends := hm.lost t ht hlost
    rw [Ends] at hends ⊢
    rwa [h t ht]

/-! ## Operations -/

theorem simulates_settle (q : Rat) :
    Simulates (settle (.exact q)) (Formation.value q) Quantity.exact where
  kept := keepsLoss_settle _
  exact t ht hformed := by
    have hbounds : Quantity.inBounds q := hformed (.value q) (List.mem_singleton.2 rfl)
    simp only [settle, StateT.run_bind, StateT.run_get, pure_bind, ht, hbounds, Bool.and_self,
      if_true]
    rfl
  lost t ht hlost := by
    obtain ⟨x, hx, hinexact⟩ := hlost
    cases List.mem_singleton.1 hx
    have hbounds : Quantity.inBounds q = false := hinexact
    simp [settle, hbounds]

/-- A literal that is accepted as exact is far from the limits of a decimal. -/
theorem run_literal_of_exact {text : String} {m : Nat} {e : Int} {q : Rat} {t : Trail}
    (ht : t.exact = true) (hparts : Literal.parts? text.toList = some (m, e))
    (hrat : Quantity.literalRat? m e = some q) :
    (literal text).run t = .ok (.exact q, t) := by
  have hleading := Quantity.leading_of_literalRat? hrat
  have hmax : Quantity.exceedsMaximum (.scaled m e) = false :=
    Quantity.exceedsMaximum_of_leading (by rw [maxExponent]; omega)
  have hlow : ¬ (Decimal.scaled m e).leading < -2 * maxExponent := by rw [maxExponent]; omega
  simp only [literal, hparts, bounded, hmax, Bool.false_eq_true, if_false, pure_bind, if_neg hlow]
  simp only [StateT.run_bind, StateT.run_get, pure_bind, ht, if_true, hrat]
  rfl

theorem simulates_literal (text : String) :
    Simulates (literal text) (Formation.operations.literal text) Quantity.exact where
  kept := keepsLoss_literal text
  exact t ht hformed := by
    have hexact := hformed (.literal text) (List.mem_singleton.2 rfl)
    simp only [Formed.isExact, Option.isSome_iff_exists, Option.bind_eq_some_iff] at hexact
    obtain ⟨q, ⟨m, e⟩, hparts, hrat⟩ := hexact
    have hliteral : Literal.rat text = q := by
      rw [Literal.rat, hparts, (Quantity.literalRat?_eq_some hrat).1]
    rw [run_literal_of_exact ht hparts hrat, ← hliteral]
    rfl
  lost t ht hlost := by
    obtain ⟨x, hx, hinexact⟩ := hlost
    cases List.mem_singleton.1 hx
    rw [literal]
    split
    · trivial
    · next m e hparts =>
      have hrat : Quantity.literalRat? m e = none := by
        simpa [Formed.isExact, hparts] using hinexact
      rw [ends_bind]
      rw [bounded]
      split
      · trivial
      · simp only [ends_pure]
        split
        · simp
        · simp [ht, hrat]

theorem simulates_combine (onRat : Rat → Rat → Rat)
    (onDecimal : Decimal → Decimal → Option Decimal) (x y : Rat) :
    Simulates (combine onRat onDecimal (.exact x) (.exact y)) (Formation.value (onRat x y))
      Quantity.exact := by
  apply (simulates_settle (onRat x y)).of_run_eq (keepsLoss_combine _ _ _ _)
  intro t ht
  simp [combine, ht]

theorem simulates_add (x y : Rat) :
    Simulates (add (.exact x) (.exact y)) (Formation.operations.add x y) Quantity.exact :=
  simulates_combine Rat.add _ x y

theorem simulates_mul (x y : Rat) :
    Simulates (mul (.exact x) (.exact y)) (Formation.operations.mul x y) Quantity.exact :=
  simulates_combine Rat.mul _ x y

theorem isZero_exact (q : Rat) : (Quantity.exact q).isZero = decide (q = 0) := by
  rw [Quantity.isZero, Quantity.sign, beq_eq_decide, decide_eq_decide, Int.sign_eq_zero_iff_zero,
    Rat.num_eq_zero]

theorem simulates_div (x y : Rat) :
    Simulates (div (.exact x) (.exact y)) (Formation.div x y) Quantity.exact := by
  rw [div, Formation.div]
  rw [isZero_exact]
  by_cases hy : y = 0
  · simp only [hy, decide_true, if_true]
    exact ⟨keeps_throw _, fun _ _ _ => rfl, fun _ _ h => by simp at h⟩
  · simp only [hy, decide_false, if_false, Bool.false_eq_true]
    exact simulates_combine Rat.div Decimal.div? x y

theorem simulates_square (x : Rat) :
    Simulates (square (.exact x)) (Formation.value (x * x)) Quantity.exact := by
  apply (simulates_settle (x * x)).of_run_eq (keepsLoss_square _)
  intro t ht
  simp [square, ht]
  rfl

/-! ## Trees -/

def Parts.map {V W : Type} (f : V → W) : Parts V → Parts W
  | .whole x => .whole (f x)
  | .fraction x y => .fraction (f x) (f y)
  | .mixed x y z => .mixed (f x) (f y) (f z)

/-- What has been gathered of a sum or a product, all of it exact. -/
def exactList (g : Rat × List Rat) : Quantity × List Quantity := (.exact g.1, g.2.map .exact)

theorem KeepsLoss.foldrM {f : Quantity → Quantity → Run Quantity} (h : ∀ a b, KeepsLoss (f a b))
    (v : Quantity) (vs : List Quantity) : KeepsLoss (vs.foldrM f v) := by
  induction vs with
  | nil => exact keepsLoss_pure v
  | cons w vs ih =>
    rw [List.foldrM_cons]
    exact ih.bind fun a => h w a

theorem Simulates.foldrM {f : Quantity → Quantity → Run Quantity} {g : Rat → Rat → Formation Rat}
    (h : ∀ x y, Simulates (f (.exact x) (.exact y)) (g x y) Quantity.exact)
    (hkept : ∀ a b, KeepsLoss (f a b)) (v : Rat) (vs : List Rat) :
    Simulates ((vs.map Quantity.exact).foldrM f (.exact v)) (vs.foldrM g v) Quantity.exact := by
  induction vs with
  | nil => exact simulates_pure v Quantity.exact
  | cons w vs ih =>
    rw [List.map_cons, List.foldrM_cons, List.foldrM_cons]
    exact ih.bind (h w) (hkept _)

theorem keepsLoss_sum (g : Quantity × List Quantity) : KeepsLoss (operations.sum g) :=
  KeepsLoss.foldrM keepsLoss_add g.1 g.2

theorem keepsLoss_product (g : Quantity × List Quantity) : KeepsLoss (operations.product g) :=
  KeepsLoss.foldrM keepsLoss_mul g.1 g.2

theorem simulates_sum (g : Rat × List Rat) :
    Simulates (operations.sum (exactList g)) (Formation.operations.sum g) Quantity.exact :=
  Simulates.foldrM simulates_add keepsLoss_add g.1 g.2

theorem simulates_product (g : Rat × List Rat) :
    Simulates (operations.product (exactList g)) (Formation.operations.product g)
      Quantity.exact :=
  Simulates.foldrM simulates_mul keepsLoss_mul g.1 g.2

theorem keepsLoss_close (parts : Parts Quantity) : KeepsLoss (operations.close parts) := by
  cases parts with
  | whole x => exact keepsLoss_pure x
  | fraction x y => exact keepsLoss_div x y
  | mixed x y z => exact (keepsLoss_div y z).bind fun v => keepsLoss_add x v

theorem simulates_close (parts : Parts Rat) :
    Simulates (operations.close (parts.map .exact)) (Formation.operations.close parts)
      Quantity.exact := by
  cases parts with
  | whole x => exact simulates_pure x Quantity.exact
  | fraction x y => exact simulates_div x y
  | mixed x y z =>
    exact (simulates_div y z).bind (simulates_add x) (keepsLoss_add _)

theorem keepsLoss_bar (parts : Parts Quantity) : KeepsLoss (operations.bar parts) := by
  cases parts with
  | whole x => exact keepsLoss_pure _
  | fraction x y => exact keepsLoss_pure _
  | mixed x y z => exact (keepsLoss_close _).bind fun v => keepsLoss_pure _

/-- A row that goes on behind a bar. -/
theorem simulates_bar (parts : Parts Rat) {x : Run Quantity} {k : Formation Rat}
    (hx : Simulates x k Quantity.exact) :
    Simulates (operations.bar (parts.map .exact) >>= fun push => x >>= fun v => pure (push v))
      (Formation.operations.bar parts >>= fun push => k >>= fun v => pure (push v))
      (Parts.map Quantity.exact) := by
  have hpush (push : Rat → Parts Rat) (push' : Quantity → Parts Quantity)
      (h : ∀ v, push' (.exact v) = (push v).map .exact) :
      Simulates (x >>= fun v => pure (push' v)) (k >>= fun v => pure (push v))
        (Parts.map Quantity.exact) := by
    refine hx.bind (fun v => ?_) fun v => keepsLoss_pure _
    rw [h]
    exact simulates_pure (push v) (Parts.map Quantity.exact)
  cases parts with
  | whole y => exact hpush (.fraction y) _ fun v => rfl
  | fraction y z => exact hpush (.mixed y z) _ fun v => rfl
  | mixed y z w =>
    have hmap : (Parts.mixed y z w).map Quantity.exact = .mixed (.exact y) (.exact z) (.exact w) :=
      rfl
    rw [hmap]
    simp only [Operations.bar, bind_assoc, pure_bind]
    exact (simulates_close (.mixed y z w)).bind (fun v => hpush (.fraction v) _ fun v => rfl)
      fun v => hx.kept.bind fun w => keepsLoss_pure _

theorem signed_exact (sign : Option Bool) (v : Rat) :
    signed Quantity.neg sign (.exact v) = .exact (signed (- ·) sign v) := by
  simp only [signed]
  split <;> rfl

theorem simulates_signed {x : Run Quantity} {k : Formation Rat}
    (hx : Simulates x k Quantity.exact) (sign : Option Bool) :
    Simulates (x >>= fun v => pure (signed Quantity.neg sign v))
      (k >>= fun v => pure (signed (- ·) sign v)) Quantity.exact := by
  refine hx.bind (fun v => ?_) fun v => keepsLoss_pure _
  rw [signed_exact]
  exact simulates_pure (signed (- ·) sign v) Quantity.exact

/-- A further factor, inverted if it is a divisor. -/
theorem keepsLoss_factor (divides : Bool) (v : Quantity) (g : Quantity × List Quantity) :
    KeepsLoss ((if divides then operations.inv v else pure v) >>= fun w =>
      pure (w, g.1 :: g.2)) := by
  refine KeepsLoss.bind ?_ fun w => keepsLoss_pure _
  split
  · exact keepsLoss_div _ v
  · exact keepsLoss_pure v

theorem simulates_factor (divides : Bool) (v : Rat) (g : Rat × List Rat) :
    Simulates
      ((if divides then operations.inv (.exact v) else pure (.exact v)) >>= fun w =>
        pure (w, (exactList g).1 :: (exactList g).2))
      ((if divides then Formation.operations.inv v else pure v) >>= fun w =>
        pure (w, g.1 :: g.2)) exactList := by
  have hfactor : Simulates (if divides then operations.inv (.exact v) else pure (.exact v))
      (if divides then Formation.operations.inv v else pure v) Quantity.exact := by
    split
    · exact simulates_div 1 v
    · exact simulates_pure v Quantity.exact
  exact hfactor.bind (fun w => simulates_pure (w, g.1 :: g.2) exactList) fun w => keepsLoss_pure _

theorem Terms.simulates_eval_of_gather {s : Terms}
    (h : Simulates (s.gather operations) (s.gather Formation.operations) exactList) :
    Simulates (s.eval operations) (s.eval Formation.operations) Quantity.exact :=
  h.bind simulates_sum keepsLoss_sum

theorem Factors.simulates_eval_of_gather {p : Factors}
    (h : Simulates (p.gather operations) (p.gather Formation.operations) exactList) :
    Simulates (p.eval operations) (p.eval Formation.operations) Quantity.exact :=
  h.bind simulates_product keepsLoss_product

theorem Row.simulates_eval_of_gather {r : Row}
    (h : Simulates (r.gather operations) (r.gather Formation.operations)
      (Parts.map Quantity.exact)) :
    Simulates (r.eval operations) (r.eval Formation.operations) Quantity.exact :=
  h.bind simulates_close keepsLoss_close

mutual

theorem Terms.simulates_gather : (s : Terms) →
    Simulates (s.gather operations) (s.gather Formation.operations) exactList
  | .one p => by
    have hp := Factors.simulates_eval_of_gather p.simulates_gather
    rw [Terms.gather_one, Terms.gather_one]
    exact hp.bind (fun v => simulates_pure (v, []) exactList) fun v => keepsLoss_pure _
  | .more s minus p => by
    have hs := s.simulates_gather
    have hp := Factors.simulates_eval_of_gather p.simulates_gather
    rw [Terms.gather_more, Terms.gather_more]
    refine hs.bind (fun g => ?_) fun g => hp.kept.bind fun w => keepsLoss_pure _
    refine hp.bind (fun w => ?_) fun w => keepsLoss_pure _
    have hsign : (if minus then operations.neg (.exact w) else .exact w)
        = Quantity.exact (if minus then -w else w) := by
      split <;> rfl
    rw [hsign]
    exact simulates_pure (if minus then -w else w, g.1 :: g.2) exactList

theorem Factors.simulates_gather : (p : Factors) →
    Simulates (p.gather operations) (p.gather Formation.operations) exactList
  | .one r => by
    have hr := Row.simulates_eval_of_gather r.simulates_gather
    rw [Factors.gather_one, Factors.gather_one]
    exact hr.bind (fun v => simulates_pure (v, []) exactList) fun v => keepsLoss_pure _
  | .more p divides r => by
    have hp := p.simulates_gather
    have hr := Row.simulates_eval_of_gather r.simulates_gather
    rw [Factors.gather_more, Factors.gather_more]
    exact hp.bind (fun g => hr.bind (fun v => simulates_factor divides v g)
      fun v => keepsLoss_factor divides v _) fun g => hr.kept.bind fun v =>
        keepsLoss_factor divides v g

theorem Row.simulates_gather : (r : Row) →
    Simulates (r.gather operations) (r.gather Formation.operations) (Parts.map Quantity.exact)
  | .one x => by
    have hx := x.simulates_eval
    rw [Row.gather, Row.gather]
    exact hx.bind (fun v => simulates_pure (Parts.whole v) (Parts.map Quantity.exact))
      fun v => keepsLoss_pure _
  | .more r x => by
    have hr := r.simulates_gather
    have hx := x.simulates_eval
    rw [Row.gather, Row.gather]
    exact hr.bind (fun parts => simulates_bar parts hx) fun parts =>
      (keepsLoss_bar parts).bind fun push => hx.kept.bind fun v => keepsLoss_pure _

theorem Operand.simulates_eval : (x : Operand) →
    Simulates (x.eval operations) (x.eval Formation.operations) Quantity.exact
  | .literal sign text => by
    rw [Operand.eval, Operand.eval]
    exact simulates_signed (simulates_literal text) sign
  | .group sign s => by
    have hs := Terms.simulates_eval_of_gather s.simulates_gather
    rw [Operand.eval_group, Operand.eval_group]
    exact simulates_signed hs sign
  | .square x => by
    have hx := x.simulates_eval
    rw [Operand.eval, Operand.eval]
    exact hx.bind simulates_square keepsLoss_square

end

/-! ## Results -/

/-- The evaluation of a tree over the rationals, with its result once more at the end. -/
def Terms.formation (s : Terms) : Formation Rat := s.eval Formation.operations >>= Formation.value

/-- The literals and the numbers that the evaluation of the tree meets, in order. -/
def Terms.formed (s : Terms) : List Formed := s.formation.formed

theorem Terms.result_formation (s : Terms) : s.formation.result = s.value? := by
  have heval := Terms.result_eval_of_gather s.result_gather
  rw [Terms.formation, Formation.result_bind, heval]
  cases s.value? <;> rfl

theorem Terms.simulates_value (s : Terms) (unit : AngleUnit) (table : ConstantTable) :
    Simulates (s.toLine.value unit table) s.formation Quantity.exact := by
  have heval := Terms.simulates_eval_of_gather s.simulates_gather
  rw [s.value_toLine]
  exact heval.bind simulates_settle keepsLoss_settle

theorem exact_of_bind_settle {m : Run Quantity} {t u : Trail} {q : Rat}
    (h : (m >>= settle).run t = .ok (.exact q, u)) : u.exact = true := by
  rw [StateT.run_bind] at h
  obtain ⟨⟨v, t'⟩, -, hsettle⟩ := Except.exists_of_bind h
  have hends := ends_settle t' v
  rw [Ends, hsettle] at hends
  exact hends.symm

/-- An exact result of a canonical line of arithmetic is its value, and all that was formed on the
way is exact. Conversely, if all of this is exact, then the line has its value, or fails at a
divisor that is zero. -/
theorem value_of_isArithmetic (unit : AngleUnit) (table : ConstantTable) {line : Line}
    (hline : line.IsCanonical) (hkeys : line.IsArithmetic) :
    (∃ s : Terms, s.toLine = line) ∧ ∀ s : Terms, s.toLine = line →
      (∀ q t, (line.value unit table).run {} = .ok (.exact q, t) →
        s.value? = some q ∧ ∀ x ∈ s.formed, x.isExact) ∧
      ((∀ x ∈ s.formed, x.isExact) →
        (line.value unit table).run {} = match s.value? with
          | some q => .ok (.exact q, {})
          | none => .error .divisionByZero) := by
  refine ⟨exists_toLine hline hkeys, ?_⟩
  rintro s rfl
  have hsim := s.simulates_value unit table
  have hexact (hformed : ∀ x ∈ s.formed, x.isExact) :
      (s.toLine.value unit table).run {} = match s.value? with
        | some q => .ok (.exact q, {})
        | none => .error .divisionByZero := by
    rw [hsim.exact {} rfl hformed, s.result_formation]
    cases s.value? <;> rfl
  refine ⟨fun q t hrun => ?_, hexact⟩
  by_cases hformed : ∀ x ∈ s.formed, x.isExact
  · rw [hexact hformed] at hrun
    cases hvalue : s.value? with
    | none =>
      rw [hvalue] at hrun
      cases hrun
    | some p =>
      rw [hvalue] at hrun
      cases hrun
      exact ⟨rfl, hformed⟩
  · have hinexact : ∃ x ∈ s.formed, x.isExact = false := by simpa using hformed
    have hlost := hsim.lost {} rfl hinexact
    rw [Ends, hrun] at hlost
    rw [s.value_toLine] at hrun
    have hkept := exact_of_bind_settle hrun
    simp [hkept] at hlost

/-- The tree of `2×-3²-1/1/2÷(4-1)`. -/
def mixedTree : Terms :=
  .more
    (.one (.more (.one (.one (.literal none "2"))) false
      (.one (.square (.literal (some true) "3")))))
    true
    (.more (.one (.more (.more (.one (.literal none "1")) (.literal none "1")) (.literal none "2")))
      true (.one (.group none
        (.more (.one (.one (.one (.literal none "4")))) true (.one (.one (.literal none "1")))))))

theorem value_of_isArithmetic_mixed :
    mixedTree.toLine.IsCanonical ∧ mixedTree.toLine.IsArithmetic ∧
      (∀ x ∈ mixedTree.formed, x.isExact) ∧
      (mixedTree.toLine.value .degree {}).run {} = .ok (.exact (35 / 2), {}) := by
  have hcanonical : mixedTree.toLine.IsCanonical := by
    have htokens : Canonical.ofTokens [] mixedTree.toLine.toTokens false none
        = .ok mixedTree.toLine := by decide +kernel
    rcases Canonical.ofTokens_shaped htokens with hnil | ⟨hshaped, hcommas⟩
    · exact absurd hnil (by decide)
    · exact hshaped.isCanonical hcommas
  have hkeys : mixedTree.toLine.IsArithmetic := by decide
  have hformed : ∀ x ∈ mixedTree.formed, x.isExact := by decide +kernel
  have hvalue : mixedTree.value? = some (35 / 2) := by decide +kernel
  have hrun := ((value_of_isArithmetic .degree {} hcanonical hkeys).2 mixedTree rfl).2 hformed
  rw [hvalue] at hrun
  exact ⟨hcanonical, hkeys, hformed, hrun⟩

end Arithmetic

end Keypad
