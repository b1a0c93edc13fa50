import Keypad.Evaluation.Operation

/-!
# How runs end

What a run from a given trail ends with, composed over the steps of the run, and a first use: the
arithmetic and the operations of the keypad fail only for reasons that lie in the values.
-/

namespace Keypad.Run

variable {α β : Type} {E : Failure → Prop} {t : Trail}

/-- The run from the trail `t` ends with a value and a trail related by `Q`, or with a failure that
satisfies `E`. -/
def Ends (E : Failure → Prop) (t : Trail) (m : Run α) (Q : α → Trail → Prop) : Prop :=
  match m.run t with
  | .ok (a, u) => Q a u
  | .error f => E f

@[simp] theorem ends_pure (a : α) (Q : α → Trail → Prop) :
    Ends E t (pure a : Run α) Q ↔ Q a t := Iff.rfl

@[simp] theorem ends_throw (f : Failure) (Q : α → Trail → Prop) :
    Ends E t (throw f : Run α) Q ↔ E f := Iff.rfl

@[simp] theorem ends_get (Q : Trail → Trail → Prop) : Ends E t (get : Run Trail) Q ↔ Q t t :=
  Iff.rfl

@[simp] theorem ends_degrade (Q : Unit → Trail → Prop) :
    Ends E t degrade Q ↔ Q () { t with exact := false } := Iff.rfl

@[simp] theorem ends_bind (m : Run α) (k : α → Run β) (Q : β → Trail → Prop) :
    Ends E t (m >>= k) Q ↔ Ends E t m fun a u => Ends E u (k a) Q := by
  simp only [Ends, StateT.run_bind]
  cases m.run t <;> rfl

@[simp] theorem ends_map (g : α → β) (m : Run α) (Q : β → Trail → Prop) :
    Ends E t (g <$> m) Q ↔ Ends E t m fun a u => Q (g a) u := by
  simp only [Ends, StateT.run_map]
  cases m.run t <;> rfl

theorem Ends.imp {E' : Failure → Prop} {m : Run α} {Q R : α → Trail → Prop} (h : Ends E t m Q)
    (he : ∀ f, E f → E' f) (hqr : ∀ a u, Q a u → R a u) : Ends E' t m R := by
  unfold Ends at h ⊢
  cases hm : m.run t with
  | error f => exact he _ (by simpa [hm] using h)
  | ok r => exact hqr _ _ (by simpa [hm] using h)

theorem Ends.mono {m : Run α} {Q R : α → Trail → Prop} (h : Ends E t m Q)
    (hqr : ∀ a u, Q a u → R a u) : Ends E t m R := h.imp (fun _ => id) hqr

/-! ## Failures that lie in the values -/

/-- From every trail the run ends with a value that satisfies `Q`, or fails because of values. -/
def Safe (m : Run α) (Q : α → Prop) : Prop := ∀ t, Ends (fun f => f.kind = .math) t m fun a _ => Q a

theorem safe_pure {a : α} {Q : α → Prop} (h : Q a) : Safe (pure a : Run α) Q := fun _ => h

theorem safe_throw {f : Failure} (h : f.kind = .math) {Q : α → Prop} : Safe (throw f : Run α) Q :=
  fun _ => h

theorem Safe.mono {m : Run α} {Q R : α → Prop} (h : Safe m Q) (hqr : ∀ a, Q a → R a) : Safe m R :=
  fun t => (h t).mono fun a _ => hqr a

theorem Safe.bind {m : Run α} {k : α → Run β} {Q : α → Prop} {R : β → Prop} (h : Safe m Q)
    (hk : ∀ a, Q a → Safe (k a) R) : Safe (m >>= k) R := by
  intro t
  rw [ends_bind]
  exact (h t).mono fun a u ha => hk a ha u

theorem Safe.then {m : Run α} {k : α → Run β} {Q : β → Prop} (h : Safe m fun _ => True)
    (hk : ∀ a, Safe (k a) Q) : Safe (m >>= k) Q := h.bind fun a _ => hk a

theorem safe_degrade : Safe degrade fun _ => True := fun _ => trivial

theorem safe_settle (v : Quantity) : Safe (settle v) fun _ => True := by
  intro t
  cases v with
  | exact q =>
    simp only [settle, ends_bind, ends_get]
    split <;> simp
  | approx d => simp [settle]

theorem safe_ofFunction (d : Decimal) : Safe (ofFunction d) fun _ => True := by
  intro t
  simp only [ofFunction, ends_bind, ends_get]
  split
  · split <;> simp
  · simp

theorem safe_ofExact (q : Rat) : Safe (ofExact q) fun _ => True := by
  intro t
  simp only [ofExact, ends_bind, ends_get]
  split
  · exact safe_settle _ t
  · simp

theorem safe_bounded (d : Decimal) : Safe (bounded d) fun _ => True := by
  rw [bounded]
  split
  · exact safe_throw rfl
  · exact safe_pure trivial

theorem safe_combine (onRat : Rat → Rat → Rat) (onDecimal : Decimal → Decimal → Option Decimal)
    (a b : Quantity) : Safe (combine onRat onDecimal a b) fun _ => True := by
  intro t
  simp only [combine, ends_bind, ends_get]
  split
  · exact safe_settle _ t
  · split
    · rfl
    · next d _ => exact ((safe_bounded d).then fun d => safe_settle _) t

theorem safe_add (a b : Quantity) : Safe (add a b) fun _ => True := safe_combine _ _ a b

theorem safe_mul (a b : Quantity) : Safe (mul a b) fun _ => True := safe_combine _ _ a b

theorem safe_div (a b : Quantity) : Safe (div a b) fun _ => True := by
  rw [div]
  split
  · exact safe_throw rfl
  · exact safe_combine _ _ a b

theorem safe_inv (v : Quantity) : Safe (inv v) fun _ => True := safe_div _ v

theorem safe_square (v : Quantity) : Safe (square v) fun _ => True := by
  intro t
  cases v with
  | exact q =>
    simp only [square, ends_bind, ends_get]
    split
    · exact safe_settle _ t
    · exact ((safe_bounded _).then fun d => safe_settle _) t
  | approx d => exact ((safe_bounded _).then fun d => safe_settle _) t

theorem safe_literal {text : String} (h : (Literal.parts? text.toList).isSome) :
    Safe (literal text) fun _ => True := by
  obtain ⟨⟨m, e⟩, hparts⟩ := Option.isSome_iff_exists.1 h
  simp only [literal, hparts]
  apply (safe_bounded _).then
  intro d
  split
  · exact safe_degrade.then fun _ => safe_pure trivial
  · intro t
    simp only [ends_bind, ends_get]
    split
    · split <;> simp
    · simp

/-! ## Operations -/

theorem safe_logarithmTo (base x : Quantity) : Safe (logarithmTo base x) fun _ => True := by
  rw [logarithmTo]
  split
  · exact safe_throw rfl
  · split
    · exact safe_throw rfl
    · split
      · exact safe_throw rfl
      · exact safe_ofFunction _

theorem kind_of_ofRadians {r : Ratio} {angle : Decimal} {f : Failure}
    (h : Trigonometry.ofRadians r angle = .error f) : f.kind = .math := by
  rw [Trigonometry.ofRadians] at h
  split at h
  · split at h <;> cases h
    rfl
  · cases h
    rfl

theorem kind_of_arc {r : Ratio} {d : Decimal} {f : Failure}
    (h : Trigonometry.arc r d = .error f) : f.kind = .math := by
  cases r <;> simp only [Trigonometry.arc] at h <;> (repeat' split at h) <;> cases h <;> rfl

theorem safe_lift {x : Except Failure α} (h : ∀ f, x = .error f → f.kind = .math) :
    Safe (liftM x : Run α) fun _ => True := by
  intro t
  cases x with
  | error f => exact h f rfl
  | ok a => trivial

theorem safe_ratio (unit : AngleUnit) (r : Ratio) (x : Quantity) :
    Safe (ratio unit r x) fun _ => True := by
  cases unit with
  | radian => exact (safe_lift fun _ => kind_of_ofRadians).then fun d => safe_ofFunction d
  | degree =>
    unfold ratio
    dsimp only
    split
    · next a v _ =>
      have hrecord : Safe (record (SpecialAngle.record r a v)) fun _ => True := fun _ => trivial
      apply hrecord.then
      intro _
      split
      · exact safe_ofExact _
      · exact safe_throw rfl
    · exact (safe_lift fun _ => kind_of_ofRadians).then fun d => safe_ofFunction d

theorem safe_arc (unit : AngleUnit) (r : Ratio) (x : Quantity) :
    Safe (arc unit r x) fun _ => True := by
  apply (safe_lift fun _ => kind_of_arc).then
  intro d
  cases unit <;> exact safe_ofFunction _

theorem safe_signed (negative : Bool) (magnitude : Option Decimal) :
    Safe (signed negative magnitude) fun _ => True := by
  simp only [signed]
  split
  · exact safe_throw rfl
  · exact (safe_bounded _).then fun m => safe_ofFunction _

theorem safe_power (a b : Quantity) : Safe (power a b) fun _ => True := by
  rw [power, powerOfZero]
  dsimp only
  split
  · split
    · exact safe_throw rfl
    · split <;> exact safe_ofFunction _
  · split
    · exact safe_signed _ _
    · split
      · exact safe_throw rfl
      · exact safe_signed _ _

theorem safe_root (index x : Quantity) : Safe (root index x) fun _ => True := by
  rw [root]
  split
  · exact safe_throw rfl
  · split
    · exact safe_throw rfl
    · split
      · split
        · exact safe_throw rfl
        · exact safe_ofFunction _
      · exact safe_signed _ _

theorem safe_timesPowerOfTen (a k : Quantity) : Safe (timesPowerOfTen a k) fun _ => True := by
  rw [timesPowerOfTen]
  split
  · exact safe_throw rfl
  · split
    · exact safe_signed _ _
    · split
      · exact safe_ofFunction _
      · exact safe_throw rfl

theorem safe_factorial (x : Quantity) : Safe (factorial x) fun _ => True := by
  rw [factorial]
  split
  · exact safe_throw rfl
  · split
    · exact safe_throw rfl
    · split
      · exact safe_throw rfl
      · exact safe_signed _ _

/-- An operation that works on the group behind it accepts any value of the group. -/
theorem safe_apply (unit : AngleUnit) {op : Operation} (h : op.isBackward = false) (x : Quantity) :
    Safe (op.apply unit x) fun _ => True := by
  cases op with
  | power => cases h
  | nthRoot => cases h
  | exponent => cases h
  | squareRoot =>
    simp only [Operation.apply, sqrt]
    split
    · exact safe_throw rfl
    · exact safe_ofFunction _
  | log =>
    simp only [Operation.apply, logarithm]
    split
    · exact safe_throw rfl
    · exact safe_ofFunction _
  | ln =>
    simp only [Operation.apply, logarithm]
    split
    · exact safe_throw rfl
    · exact safe_ofFunction _
  | ratio r => exact safe_ratio unit r x
  | arc r => exact safe_arc unit r x

/-- It accepts as many values as a group may hold behind it. -/
theorem safe_applyAll (unit : AngleUnit) {op : Operation} (h : op.isBackward = false)
    {values : List Quantity} (hv : values.length = 1 ∨ op = .log ∧ values.length = 2) :
    Safe (op.applyAll unit values) fun _ => True := by
  match values, hv with
  | [x], _ => exact safe_apply unit h x
  | [base, x], hv =>
    have hlog : op = .log := by simpa using hv
    simp only [Operation.applyAll, hlog, if_true]
    exact safe_logarithmTo base x

theorem safe_applyBackward {op : Operation} (h : op.isBackward) (left right : Quantity) :
    Safe (op.applyBackward left right) fun _ => True := by
  cases op with
  | power => exact safe_power left right
  | nthRoot => exact safe_root left right
  | exponent => exact safe_timesPowerOfTen left right
  | _ => cases h

end Keypad.Run
