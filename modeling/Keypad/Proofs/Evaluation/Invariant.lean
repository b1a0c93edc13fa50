import Keypad.Proofs.Decimal.Canonical
import Keypad.Proofs.Evaluation.Outcome

/-!
# What the operations keep

Two things hold along every run. Exactness that is lost is not found again. And an exact value is
within bounds, while a decimal has any property that the operations on decimals keep. The second
is a parameter: the laws that such a property must satisfy are gathered in one structure.
-/

namespace Keypad

namespace Run

variable {α β : Type} {P Q : α → Prop} {m : Run α} {t u : Trail}

/-- The run ends with a value in `P` or fails, and does not find exactness again. -/
def Keeps (P : α → Prop) (m : Run α) : Prop :=
  ∀ t, Ends (fun _ => True) t m fun a u => P a ∧ (t.exact = false → u.exact = false)

theorem keeps_pure {a : α} (h : P a) : Keeps P (pure a) := fun _ => ⟨h, id⟩

theorem keeps_throw (f : Failure) : Keeps P (throw f : Run α) := fun _ => trivial

theorem Keeps.mono {m : Run α} (h : Keeps P m) (hpq : ∀ a, P a → Q a) : Keeps Q m :=
  fun t => (h t).mono fun a _ ⟨ha, hu⟩ => ⟨hpq a ha, hu⟩

theorem Keeps.bind {m : Run α} {k : α → Run β} {R : β → Prop} (h : Keeps P m)
    (hk : ∀ a, P a → Keeps R (k a)) : Keeps R (m >>= k) := by
  intro t
  rw [ends_bind]
  refine (h t).mono fun a u ⟨ha, hu⟩ => ?_
  exact (hk a ha u).mono fun b w ⟨hb, hw⟩ => ⟨hb, fun ht => hw (hu ht)⟩

theorem Keeps.of_run (h : Keeps P m) {a : α} (hrun : m.run t = .ok (a, u)) : P a := by
  have hends := h t
  rw [Ends, hrun] at hends
  exact hends.1

/-- The run from the trail `t` is not exact when it ends. -/
def Lost (t : Trail) (m : Run α) : Prop := Ends (fun _ => True) t m fun _ u => u.exact = false

/-- A run that goes on from a trail that is not exact. -/
theorem Keeps.lost (h : Keeps P m) (ht : t.exact = false) : Lost t m :=
  (h t).mono fun _ _ ⟨_, hu⟩ => hu ht

theorem keeps_get_bind {k : Trail → Run α}
    (hk : ∀ t, Ends (fun _ => True) t (k t) fun a u => P a ∧ (t.exact = false → u.exact = false)) :
    Keeps P (get >>= k) := by
  intro t
  rw [ends_bind, ends_get]
  exact hk t

theorem keeps_degrade : Keeps (fun _ => True) degrade := fun _ => ⟨trivial, fun _ => rfl⟩

theorem keeps_record (line : String) : Keeps (fun _ => True) (record line) :=
  fun _ => ⟨trivial, id⟩

theorem keeps_lift {x : Except Failure α} (h : ∀ a, x = .ok a → P a) :
    Keeps P (liftM x : Run α) := by
  intro t
  cases x with
  | error f => trivial
  | ok a => exact ⟨h a rfl, id⟩

end Run

/-! ## The laws -/

/-- An exact quantity within bounds, or a decimal with the property `D`. -/
def Quantity.Within (D : Decimal → Prop) : Quantity → Prop
  | exact q => inBounds q
  | approx d => D d

/-- A property of decimals that evaluation keeps. Results of most operations are checked against
the largest answer. The constants, square roots, logarithms and circular functions are not, so each
has a law of its own. -/
structure Decimal.Invariant (table : ConstantTable) (D : Decimal → Prop) : Prop where
  zero : D .zero
  scaled (m e : Int) : Quantity.exceedsMaximum (.scaled m e) = false → D (.scaled m e)
  neg {d : Decimal} : D d → D (-d)
  pi : D .pi
  euler : D .euler
  constant {name : String} {d : Decimal} : table.value? name = some d → D d
  sqrt {x : Decimal} : D x → D x.sqrt
  ln {x : Decimal} : D x → D x.ln
  log10 {x : Decimal} : D x → D x.log10
  logarithmTo {base x d : Decimal} : D base → D x → x.ln.div? base.ln = some d → D d
  ratio {r : Ratio} {angle d : Decimal} : Trigonometry.ofRadians r angle = .ok d → D d
  arc {r : Ratio} {x d : Decimal} : Trigonometry.arc r x = .ok d → D d
  arcDegrees {r : Ratio} {x d : Decimal} :
    Trigonometry.arc r x = .ok d → D (d.mul .degreesPerRadian)

namespace Quantity

variable {D : Decimal → Prop} {v : Quantity} {x y q : Rat}

theorem Within.neg (hneg : ∀ d, D d → D (-d)) (h : v.Within D) : v.neg.Within D := by
  cases v with
  | exact q =>
    have hbounds : inBounds q := h
    have hq : inBounds (-q) := by simpa [inBounds] using hbounds
    exact hq
  | approx d => exact hneg d h

/-- A decimal that looks like a fraction stands for one within bounds. -/
theorem inBounds_of_rational? {d : Decimal} (h : rational? d = some q) : inBounds q := by
  simp only [rational?] at h
  repeat' split at h
  · cases h
    rfl
  · cases h
  · exact (Option.filter_eq_some_iff.1 h).2
  · cases h
  · cases h
  · have hboth := (Option.filter_eq_some_iff.1 h).2
    exact (Bool.and_eq_true _ _ ▸ hboth).1

theorem abs_mul_lt (hx : inBounds x) (hy : |y| < 10 ^ 10) : |x * y| < 10 ^ 20 := by
  rw [abs_mul]
  calc |x| * |y| ≤ 10 ^ 10 * |y| :=
        mul_le_mul_of_nonneg_right (abs_lt_of_inBounds hx).le (abs_nonneg y)
    _ < 10 ^ 10 * 10 ^ 10 := mul_lt_mul_of_pos_left hy (by norm_num)
    _ = 10 ^ 20 := by norm_num

theorem abs_add_lt (hx : inBounds x) (hy : inBounds y) : |x + y| < 10 ^ 20 := by
  refine (abs_add_le x y).trans_lt ?_
  have hxs := abs_lt_of_inBounds hx
  have hys := abs_lt_of_inBounds hy
  linarith

end Quantity

namespace SpecialAngle

variable {k : Nat} {q : Rat}

theorem inBounds_of_sine? (h : sine? k = some q) :
    Quantity.inBounds q ∧ Quantity.inBounds q.inv := by
  rw [sine?] at h
  split at h <;> cases h <;> decide +kernel

theorem inBounds_of_inverse {x : Rat} (h : Quantity.inBounds x.inv)
    (hq : inverse x = .rational q) : Quantity.inBounds q := by
  rw [inverse] at hq
  split at hq <;> cases hq
  exact h

/-- The rational values at special angles are within bounds. -/
theorem inBounds_of_value? {r : Ratio} {angle : Rat} (h : value? r angle = some (.rational q)) :
    Quantity.inBounds q := by
  obtain ⟨k, -, hk⟩ := Option.bind_eq_some_iff.1 h
  cases r with
  | sin =>
    obtain ⟨x, hx, hq⟩ := Option.map_eq_some_iff.1 hk
    cases hq
    exact (inBounds_of_sine? hx).1
  | cos =>
    obtain ⟨x, hx, hq⟩ := Option.map_eq_some_iff.1 hk
    cases hq
    exact (inBounds_of_sine? hx).1
  | sec =>
    obtain ⟨x, hx, hq⟩ := Option.map_eq_some_iff.1 hk
    exact inBounds_of_inverse (inBounds_of_sine? hx).2 hq
  | csc =>
    obtain ⟨x, hx, hq⟩ := Option.map_eq_some_iff.1 hk
    exact inBounds_of_inverse (inBounds_of_sine? hx).2 hq
  | tan =>
    rw [atStep?] at hk
    unfold tangent? at hk
    split at hk <;> cases hk <;> decide
  | cot =>
    rw [atStep?] at hk
    unfold cotangent? at hk
    split at hk <;> cases hk <;> decide

end SpecialAngle

open Quantity

namespace Decimal.Invariant

variable {table : ConstantTable} {D : Decimal → Prop} (hD : Invariant table D)
include hD

/-- A decimal in canonical form is the result of a rounding. -/
theorem of_isCanonical {d : Decimal} (hd : d.IsCanonical) (h : exceedsMaximum d = false) : D d := by
  have hscaled := hD.scaled d.mantissa d.exponent
  rw [hd.scaled_eq] at hscaled
  exact hscaled h

theorem one : D .one :=
  hD.of_isCanonical isCanonical_one (exceedsMaximum_eq_false_iff.2 (atMost_one.mono (by decide)))

theorem ofRat {q : Rat} (h : |q| < 10 ^ 20) : D (.ofRat q) :=
  hD.of_isCanonical (isCanonical_ofRat q)
    (exceedsMaximum_eq_false_iff.2 ((atMost_ofRat h).mono (by rw [maxExponent]; omega)))

theorem ofRat_of_inBounds {q : Rat} (h : inBounds q) : D (.ofRat q) :=
  hD.ofRat ((abs_lt_of_inBounds h).trans (by norm_num))

theorem toDecimal {v : Quantity} (h : v.Within D) : D v.toDecimal := by
  cases v with
  | exact q => exact hD.ofRat_of_inBounds h
  | approx d => exact h

theorem add {a b : Decimal} (ha : D a) (hb : D b) (h : exceedsMaximum (a.add b) = false) :
    D (a.add b) := by
  rcases add_eq_or_isCanonical a b with hsum | hsum | hsum
  · rwa [hsum]
  · rwa [hsum]
  · exact hD.of_isCanonical hsum h

end Decimal.Invariant

/-! ## Arithmetic -/

namespace Run

variable {table : ConstantTable} {D : Decimal → Prop} {unit : AngleUnit} {a b v : Quantity}

theorem keeps_settle (h : D v.toDecimal) : Keeps (Within D) (settle v) := by
  cases v with
  | exact q =>
    refine keeps_get_bind fun t => ?_
    split
    · next hboth => exact ⟨(Bool.and_eq_true _ _ ▸ hboth).2, id⟩
    · exact ⟨h, fun _ => rfl⟩
  | approx d => exact keeps_degrade.bind fun _ _ => keeps_pure h

/-- Settling makes the value agree with the trail. -/
theorem ends_settle (t : Trail) (v : Quantity) :
    Ends (fun _ => True) t (settle v) fun w u => w.isExact = u.exact := by
  cases v with
  | exact q =>
    simp only [settle, ends_bind, ends_get]
    split
    · next h => exact (Bool.and_eq_true_iff.1 h).1.symm
    · simp [isExact]
  | approx d => simp [settle, isExact]

theorem keeps_ofFunction {d : Decimal} (h : D d) : Keeps (Within D) (ofFunction d) := by
  refine keeps_get_bind fun t => ?_
  split
  · split
    · next q hq => exact ⟨inBounds_of_rational? hq, id⟩
    · exact ⟨h, fun _ => rfl⟩
  · exact ⟨h, id⟩

theorem keeps_ofExact {q : Rat} (h : D (.ofRat q)) : Keeps (Within D) (ofExact q) := by
  refine keeps_get_bind fun t => ?_
  split
  · exact keeps_settle h t
  · exact ⟨h, id⟩

theorem keeps_bounded {d : Decimal} (h : exceedsMaximum d = false → D d) : Keeps D (bounded d) := by
  rw [bounded]
  split
  · exact keeps_throw _
  · next hle => exact keeps_pure (h (by simpa using hle))

theorem keeps_combine {onRat : Rat → Rat → Rat} {onDecimal : Decimal → Decimal → Option Decimal}
    (hrat : ∀ x y, a = .exact x → b = .exact y → D (.ofRat (onRat x y)))
    (hdecimal : ∀ d, onDecimal a.toDecimal b.toDecimal = some d → exceedsMaximum d = false → D d) :
    Keeps (Within D) (combine onRat onDecimal a b) := by
  refine keeps_get_bind fun t => ?_
  split
  · exact keeps_settle (hrat _ _ rfl rfl) t
  · split
    · trivial
    · next d hd =>
      have hchecked : Keeps (Within D) (bounded d >>= fun d => settle (.approx d)) :=
        (keeps_bounded (hdecimal d hd)).bind fun d hd => keeps_settle hd
      exact hchecked t

theorem keeps_square (hrat : ∀ x, v = .exact x → D (.ofRat (x.mul x)))
    (hdecimal : ∀ d : Decimal, exceedsMaximum (d.mul d) = false → D (d.mul d)) :
    Keeps (Within D) (square v) := by
  have hchecked (d : Decimal) :
      Keeps (Within D) (bounded (d.mul d) >>= fun d => settle (.approx d)) :=
    (keeps_bounded (hdecimal d)).bind fun d hd => keeps_settle hd
  cases v with
  | exact x =>
    refine keeps_get_bind fun t => ?_
    split
    · exact keeps_settle (hrat x rfl) t
    · exact hchecked _ t
  | approx d => exact hchecked d

/-! ## Operands -/

theorem keeps_literal {text : String} (hzero : D .zero)
    (h : ∀ m e, exceedsMaximum (.scaled m e) = false → D (.scaled m e)) :
    Keeps (Within D) (literal text) := by
  rw [literal]
  split
  · exact keeps_throw _
  · next m e _ =>
    refine (keeps_bounded (h m e)).bind fun d hd => ?_
    split
    · exact keeps_degrade.bind fun _ _ => keeps_pure hzero
    · refine keeps_get_bind fun t => ?_
      split
      · split
        · next q hq => exact ⟨(literalRat?_eq_some hq).2.1, id⟩
        · exact ⟨hd, fun _ => rfl⟩
      · exact ⟨hd, id⟩

section Laws

variable (hD : Decimal.Invariant table D)
include hD

theorem keeps_add (ha : a.Within D) (hb : b.Within D) : Keeps (Within D) (add a b) := by
  refine keeps_combine (fun x y hx hy => ?_) fun d hd hle => ?_
  · subst hx hy
    exact hD.ofRat (abs_add_lt ha hb)
  · cases hd
    exact hD.add (hD.toDecimal ha) (hD.toDecimal hb) hle

theorem keeps_mul (ha : a.Within D) (hb : b.Within D) : Keeps (Within D) (mul a b) := by
  refine keeps_combine (fun x y hx hy => ?_) fun d hd hle => ?_
  · subst hx hy
    exact hD.ofRat (abs_mul_lt ha ((abs_lt_of_inBounds hb).trans_le (le_refl _)))
  · cases hd
    exact hD.scaled _ _ hle

theorem keeps_div (ha : a.Within D) (hb : b.Within D) : Keeps (Within D) (div a b) := by
  rw [div]
  split
  · exact keeps_throw _
  · refine keeps_combine (fun x y hx hy => ?_) fun d hd hle => ?_
    · subst hx hy
      exact hD.ofRat (abs_mul_lt ha (Decimal.abs_inv_lt_of_inBounds hb))
    · rw [Decimal.div?] at hd
      split at hd <;> cases hd
      exact hD.of_isCanonical (Decimal.isCanonical_quotient _ _ _) hle

theorem keeps_inv (hv : v.Within D) : Keeps (Within D) (inv v) :=
  keeps_div hD (by decide : inBounds (mkRat 1 1)) hv

theorem keeps_squared (hv : v.Within D) : Keeps (Within D) (square v) := by
  refine keeps_square (fun x hx => ?_) fun d hle => hD.scaled _ _ hle
  subst hx
  exact hD.ofRat (abs_mul_lt hv (abs_lt_of_inBounds hv))

/-! ## Operations -/

theorem keeps_sqrt (hv : v.Within D) : Keeps (Within D) (sqrt v) := by
  rw [sqrt]
  split
  · exact keeps_throw _
  · exact keeps_ofFunction (hD.sqrt (hD.toDecimal hv))

theorem keeps_logarithm (op : Operation) (hv : v.Within D) : Keeps (Within D) (logarithm op v) := by
  rw [logarithm]
  split
  · exact keeps_throw _
  · apply keeps_ofFunction
    split
    · exact hD.log10 (hD.toDecimal hv)
    · exact hD.ln (hD.toDecimal hv)

theorem keeps_logarithmTo (ha : a.Within D) (hb : b.Within D) :
    Keeps (Within D) (logarithmTo a b) := by
  rw [logarithmTo]
  split
  · exact keeps_throw _
  · split
    · exact keeps_throw _
    · split
      · exact keeps_throw _
      · next d hd =>
        exact keeps_ofFunction (hD.logarithmTo (hD.toDecimal ha) (hD.toDecimal hb) hd)

theorem keeps_ratio (unit : AngleUnit) (r : Ratio) (v : Quantity) :
    Keeps (Within D) (ratio unit r v) := by
  have hradians (angle : Decimal) :
      Keeps (Within D) (liftM (Trigonometry.ofRadians r angle) >>= ofFunction) :=
    (keeps_lift fun d hd => hD.ratio hd).bind fun d hd => keeps_ofFunction hd
  cases unit with
  | radian => exact hradians _
  | degree =>
    unfold ratio
    dsimp only
    split
    · next x w hvalue =>
      obtain ⟨y, -, hy⟩ := Option.bind_eq_some_iff.1 hvalue
      obtain ⟨w', hw, hpair⟩ := Option.map_eq_some_iff.1 hy
      cases hpair
      refine (keeps_record _).bind fun _ _ => ?_
      split
      · next q =>
        exact keeps_ofExact (hD.ofRat_of_inBounds (SpecialAngle.inBounds_of_value? hw))
      · exact keeps_throw _
    · exact hradians _

theorem keeps_arc (unit : AngleUnit) (r : Ratio) (v : Quantity) :
    Keeps (Within D) (arc unit r v) := by
  have harc : Keeps (fun d => Trigonometry.arc r v.toDecimal = .ok d)
      (liftM (Trigonometry.arc r v.toDecimal)) := keeps_lift fun d hd => hd
  refine harc.bind fun d hd => ?_
  cases unit with
  | radian => exact keeps_ofFunction (hD.arc hd)
  | degree => exact keeps_ofFunction (hD.arcDegrees hd)

theorem keeps_signed {negative : Bool} {magnitude : Option Decimal}
    (h : ∀ d, magnitude = some d → exceedsMaximum d = false → D d) :
    Keeps (Within D) (signed negative magnitude) := by
  simp only [signed]
  split
  · exact keeps_throw _
  · next m =>
    refine (keeps_bounded (h m rfl)).bind fun d hd => keeps_ofFunction ?_
    split
    · exact hD.neg hd
    · exact hd

theorem keeps_power (a b : Quantity) : Keeps (Within D) (power a b) := by
  rw [power, powerOfZero]
  dsimp only
  split
  · split
    · exact keeps_throw _
    · split
      · exact keeps_ofFunction hD.one
      · exact keeps_ofFunction hD.zero
  · split
    · refine keeps_signed hD fun d hd hle => ?_
      cases hd
      exact hD.of_isCanonical (Decimal.isCanonical_quotient _ _ _) hle
    · split
      · exact keeps_throw _
      · exact keeps_signed hD fun d hd hle =>
          hD.of_isCanonical (Decimal.isCanonical_of_exp? hd) hle

theorem keeps_root (index x : Quantity) : Keeps (Within D) (root index x) := by
  rw [root]
  split
  · exact keeps_throw _
  · split
    · exact keeps_throw _
    · split
      · split
        · exact keeps_throw _
        · exact keeps_ofFunction hD.zero
      · exact keeps_signed hD fun d hd hle =>
          hD.of_isCanonical (Decimal.isCanonical_of_realRoot? hd) hle

theorem keeps_timesPowerOfTen (a k : Quantity) : Keeps (Within D) (timesPowerOfTen a k) := by
  rw [timesPowerOfTen]
  split
  · exact keeps_throw _
  · split
    · refine keeps_signed hD fun d hd hle => ?_
      cases hd
      exact hD.scaled _ _ hle
    · split
      · exact keeps_ofFunction hD.zero
      · exact keeps_throw _

theorem keeps_factorial (v : Quantity) : Keeps (Within D) (factorial v) := by
  rw [factorial]
  split
  · exact keeps_throw _
  · split
    · exact keeps_throw _
    · split
      · exact keeps_throw _
      · refine keeps_signed hD fun d hd hle => ?_
        cases hd
        exact hD.scaled _ _ hle

theorem keeps_apply (unit : AngleUnit) (op : Operation) (hv : v.Within D) :
    Keeps (Within D) (op.apply unit v) := by
  cases op with
  | squareRoot => exact keeps_sqrt hD hv
  | log => exact keeps_logarithm hD .log hv
  | ln => exact keeps_logarithm hD .ln hv
  | ratio r => exact keeps_ratio hD unit r v
  | arc r => exact keeps_arc hD unit r v
  | power | nthRoot | exponent => exact keeps_throw _

theorem keeps_applyAll (unit : AngleUnit) (op : Operation) {values : List Quantity}
    (h : ∀ v ∈ values, v.Within D) : Keeps (Within D) (op.applyAll unit values) := by
  match values, h with
  | [], _ => exact keeps_throw _
  | [x], h => exact keeps_apply hD unit op (h x List.mem_cons_self)
  | [base, x], h =>
    simp only [Operation.applyAll]
    split
    · exact keeps_logarithmTo hD (h base List.mem_cons_self)
        (h x (List.mem_cons_of_mem _ List.mem_cons_self))
    · exact keeps_throw _
  | _ :: _ :: _ :: _, _ => exact keeps_throw _

theorem keeps_applyBackward (op : Operation) (left right : Quantity) :
    Keeps (Within D) (op.applyBackward left right) := by
  cases op with
  | power => exact keeps_power hD left right
  | nthRoot => exact keeps_root hD left right
  | exponent => exact keeps_timesPowerOfTen hD left right
  | _ => exact keeps_throw _

end Laws

end Run

end Keypad
