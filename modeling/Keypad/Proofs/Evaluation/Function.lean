import Keypad.Proofs.Decimal.Accuracy
import Keypad.Proofs.Evaluation.Literal

/-!
# The results of functions

A function answers a decimal, which an exact run takes for a fraction if it looks like one. What a
run goes on with is described by a decimal in both cases.
-/

namespace Keypad

namespace Quantity

/-- The number that a quantity stands for. -/
def rat : Quantity → Rat
  | exact q => q
  | approx d => d.value

/-- Does its decimal stand for the same number? -/
def Faithful (v : Quantity) : Prop := v.toDecimal.value = v.rat

end Quantity

namespace Run

variable {t : Trail}

/-- The decimal of a function's result, which an exact run may take for a fraction. -/
def taken (exact : Bool) (d : Decimal) : Decimal :=
  if exact then ((Quantity.rational? d).map .ofRat).getD d else d

theorem taken_zero (exact : Bool) : taken exact .zero = .zero := by
  rw [taken, Quantity.rational?_zero]
  split <;> rfl

variable {exact : Bool} {d : Decimal}

theorem ofRat_of_rational? {q : Rat} (h : Quantity.rational? d = some q) :
    q = (d.significant comparedDigits).value ∧ Decimal.ofRat q = d.significant comparedDigits := by
  obtain ⟨rfl, -⟩ := (Quantity.rational?_eq_some_iff_significant d q).1 h
  exact ⟨rfl, (Decimal.isCanonical_round _ _ (by decide)).ofRat_value⟩

/-- A decimal that is not zero is not taken for zero. -/
theorem taken_ne_zero (hd : d.IsCanonical) (hne : d ≠ .zero) : taken exact d ≠ .zero := by
  rw [taken]
  split
  · cases hq : Quantity.rational? d with
    | none => exact hne
    | some q =>
      intro hzero
      obtain ⟨hvalue, hround⟩ := ofRat_of_rational? hq
      have hq0 : q = 0 := by
        rw [hvalue, ← hround]
        exact (congrArg Decimal.value hzero).trans Decimal.value_zero
      exact Quantity.rational?_ne_zero hd hne (hq0 ▸ hq)
  · exact hne

/-- The decimal is kept, unless it is taken for another fraction. -/
theorem taken_eq_self_iff (hd : d.IsCanonical) :
    taken exact d = d ↔ (exact → ∀ q, Quantity.rational? d = some q → q = d.value) := by
  rw [taken]
  cases exact with
  | false => simp
  | true =>
    simp only [if_true, forall_const]
    cases hq : Quantity.rational? d with
    | none => simp
    | some q =>
      obtain ⟨hvalue, hround⟩ := ofRat_of_rational? hq
      simp only [Option.map_some, Option.getD_some, Option.some.injEq, forall_eq']
      constructor
      · intro h
        rw [hvalue, ← hround, h]
      · intro h
        rw [h, hd.ofRat_value]

theorem exists_run_ofFunction (d : Decimal) (t : Trail) :
    ∃ v u, (ofFunction d).run t = .ok (v, u) ∧ v.toDecimal = taken t.exact d := by
  rw [ofFunction, taken]
  simp only [StateT.run_bind, StateT.run_get, pure_bind]
  cases t.exact with
  | false => exact ⟨_, _, rfl, rfl⟩
  | true =>
    simp only [if_true]
    cases Quantity.rational? d with
    | none => exact ⟨_, _, rfl, rfl⟩
    | some q => exact ⟨_, _, rfl, rfl⟩

theorem map_run_ofFunction_settle (d : Decimal) (t : Trail) :
    ((ofFunction d >>= settle).run t).map (fun r => r.1.toDecimal) = .ok (taken t.exact d) := by
  obtain ⟨v, u, hfunction, hv⟩ := exists_run_ofFunction d t
  obtain ⟨w, u', hsettle, hw⟩ := exists_run_settle v u
  rw [StateT.run_bind, hfunction]
  show ((settle v).run u).map _ = _
  rw [hsettle]
  exact congrArg Except.ok (hw.trans hv)

/-! ## Numbers -/

theorem exists_run_settle_rat {v : Quantity} (hv : v.Faithful) (t : Trail) :
    ∃ w u, (settle v).run t = .ok (w, u) ∧ w.rat = v.rat ∧ w.Faithful := by
  cases v with
  | approx d => exact ⟨_, _, rfl, rfl, rfl⟩
  | exact q =>
    simp only [settle, StateT.run_bind, StateT.run_get, pure_bind]
    by_cases h : t.exact && Quantity.inBounds q
    · simp only [h, if_true]
      exact ⟨_, _, rfl, rfl, hv⟩
    · simp only [h]
      exact ⟨_, _, rfl, hv, rfl⟩

theorem rat_of_settle {m : Run Quantity} {v w : Quantity} {u : Trail} (hm : m.run t = .ok (v, u))
    (hv : v.Faithful) (h : ((m >>= settle).run t).map Prod.fst = .ok w) : w.rat = v.rat := by
  obtain ⟨w', u', hsettle, hsame, -⟩ := exists_run_settle_rat hv u
  rw [run_bind_of_ok hm, hsettle] at h
  obtain rfl := Except.ok.inj h
  exact hsame

theorem exists_run_ofExact_rat {q : Rat} (hq : (Quantity.exact q).Faithful) (t : Trail) :
    ∃ w u, (ofExact q).run t = .ok (w, u) ∧ w.rat = q ∧ w.Faithful := by
  simp only [ofExact, StateT.run_bind, StateT.run_get, pure_bind]
  cases ht : t.exact with
  | false => exact ⟨_, _, rfl, hq, rfl⟩
  | true => exact exists_run_settle_rat hq t

theorem exists_run_ofFunction_rat (d : Decimal) (t : Trail) :
    ∃ w u, (ofFunction d).run t = .ok (w, u) ∧ w.rat = (taken t.exact d).value ∧ w.Faithful := by
  rw [ofFunction, taken]
  simp only [StateT.run_bind, StateT.run_get, pure_bind]
  cases t.exact with
  | false => exact ⟨_, _, rfl, rfl, rfl⟩
  | true =>
    simp only [if_true]
    cases hrat : Quantity.rational? d with
    | none => exact ⟨_, _, rfl, rfl, rfl⟩
    | some q =>
      obtain ⟨hvalue, hround⟩ := ofRat_of_rational? hrat
      have hq : (Quantity.exact q).Faithful := by
        rw [Quantity.Faithful, Quantity.toDecimal, hround, ← hvalue]
        rfl
      exact ⟨_, _, rfl, hq.symm, hq⟩

/-- A decimal of at most one and the fraction that it is taken for differ behind the digits that
are compared. -/
theorem abs_taken_sub_le (hd : d.IsCanonical) (hle : |d.value| < 1 + 1 / (2 * 10 ^ 16)) :
    |(taken exact d).value - d.value| ≤ 1 / (2 * 10 ^ 16) := by
  have hself : |d.value - d.value| ≤ 1 / (2 * 10 ^ 16) := by
    rw [sub_self, abs_zero]
    positivity
  rw [taken]
  split
  · cases hq : Quantity.rational? d with
    | none => exact hself
    | some q =>
      obtain ⟨hvalue, hround⟩ := ofRat_of_rational? hq
      have hnear := Decimal.isNearest_of_rational? hd hq
      rw [Option.map_some, Option.getD_some, hround, ← hvalue]
      refine (hnear.abs_sub_le (by decide) (f := -16) (hle.trans_eq ?_)).trans_eq ?_
      · norm_num [comparedDigits]
      · norm_num
  · exact hself

end Run

end Keypad
