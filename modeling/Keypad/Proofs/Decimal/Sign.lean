import Keypad.Proofs.Evaluation.Relevance
import Keypad.Proofs.Rationality

/-!
# Signs

Rounding, division and the test for fractions keep the sign of a number, or lose the number and
leave zero. The exponential ends with squares, so real powers and roots have no sign. What a run
settles for has the sign of the decimal or fraction it is given.
-/

namespace Keypad

open Digits

/-- The integer is zero or has the sign. -/
def Sided (negative : Bool) (n : Int) : Prop := if negative then n ≤ 0 else 0 ≤ n

variable {negative : Bool} {m n : Int}

theorem sided_zero (negative : Bool) : Sided negative 0 := by cases negative <;> exact le_rfl

theorem sided_natCast (k : Nat) : Sided false k := Int.natCast_nonneg k

theorem sided_sign_iff : Sided negative n.sign ↔ Sided negative n := by
  cases negative with
  | false => exact Int.sign_nonneg_iff
  | true => exact Int.sign_nonpos_iff

theorem sided_neg_iff : Sided (!negative) (-n) ↔ Sided negative n := by
  cases negative with
  | false => exact neg_nonpos
  | true => exact neg_nonneg

theorem Sided.mul (h : Sided negative n) (k : Nat) : Sided negative (n * k) := by
  cases negative with
  | false => exact mul_nonneg h (Int.natCast_nonneg k)
  | true => exact mul_nonpos_of_nonpos_of_nonneg h (Int.natCast_nonneg k)

theorem Sided.tdiv (h : Sided negative n) (k : Nat) : Sided negative (n.tdiv k) := by
  cases negative with
  | false => exact Int.tdiv_nonneg h (Int.natCast_nonneg k)
  | true =>
    rw [← sided_neg_iff, ← Int.neg_tdiv]
    exact Int.tdiv_nonneg (neg_nonneg.2 h) (Int.natCast_nonneg k)

theorem Sided.roundDiv (h : Sided negative n) (k : Nat) : Sided negative (roundDiv n k) := by
  rw [Digits.roundDiv]
  cases negative with
  | false =>
    rw [if_neg (not_lt.2 h)]
    exact Int.natCast_nonneg _
  | true =>
    split
    · exact Int.neg_nonpos_of_nonneg (Int.natCast_nonneg _)
    · obtain rfl : n = 0 := le_antisymm h (by omega)
      simp [Sided]

namespace Decimal

variable {d : Decimal} {e : Int} {q : Rat}

theorem sided_normalize (h : Sided negative m) (e : Int) :
    Sided negative (normalize m e).mantissa := by
  rw [normalize]
  split
  · exact sided_zero negative
  · split
    · exact sided_zero negative
    · dsimp only
      cases negative with
      | false =>
        rw [if_neg (not_lt.2 h)]
        exact Int.natCast_nonneg _
      | true =>
        split
        · exact Int.neg_nonpos_of_nonneg (Int.natCast_nonneg _)
        · obtain rfl : m = 0 := le_antisymm h (by omega)
          simp_all [stripZeros]

theorem sided_round (h : Sided negative m) (e : Int) (digits : Nat) :
    Sided negative (round m e digits).mantissa := by
  rw [round_eq_normalize]
  exact sided_normalize (h.roundDiv _) _

theorem sided_scaled (h : Sided negative m) (e : Int) : Sided negative (scaled m e).mantissa :=
  sided_round h e _

theorem sided_ofRat (h : Sided negative q.num) : Sided negative (ofRat q).mantissa := by
  rw [ofRat, quotient]
  split
  · exact sided_zero negative
  · exact sided_scaled ((h.mul _).tdiv _) _

theorem sided_value (h : Sided negative d.mantissa) : Sided negative d.value.num := by
  rw [value, fraction_eq]
  have hpow : (0 : Rat) ≤ 10 ^ d.exponent := (zpow_pos (by norm_num) _).le
  cases negative with
  | false => exact Rat.num_nonneg.2 (mul_nonneg (by exact_mod_cast h) hpow)
  | true => exact Rat.num_nonpos.2 (mul_nonpos_of_nonpos_of_nonneg (by exact_mod_cast h) hpow)

theorem sided_of_rational? (hq : Quantity.rational? d = some q) (h : Sided negative d.mantissa) :
    Sided negative q.num := by
  obtain ⟨rfl, -⟩ := (Quantity.rational?_eq_some_iff_significant d q).1 hq
  exact sided_value (sided_round h _ _)

/-! ## Powers and roots -/

theorem sided_sqrt (x : Decimal) : Sided false x.sqrt.mantissa := by
  rw [sqrt]
  split
  · exact sided_zero false
  · exact sided_scaled (sided_natCast _) _

theorem sided_exp (r : Int) (w : Nat) : Sided false (Fixed.exp r w) := by
  rw [Fixed.exp]
  refine Sided.tdiv ?_ _
  rw [Nat.repeat]
  exact Int.tdiv_nonneg (mul_self_nonneg _) (Int.natCast_nonneg _)

theorem sided_of_exp? {x : Decimal} (h : x.exp? = some d) : Sided false d.mantissa := by
  rw [exp?] at h
  split at h
  · cases h
    exact sided_natCast 1
  · split at h
    · split at h
      · cases h
        exact sided_zero false
      · cases h
    · dsimp only at h
      split at h
      · cases h
      · split at h
        · cases h
          exact sided_zero false
        · cases h
          exact sided_scaled (sided_exp _ _) _

theorem sided_of_realPower? {x y : Decimal} (h : x.realPower? y = some d) :
    Sided false d.mantissa := sided_of_exp? h

end Decimal

/-! ## Quantities -/

namespace Quantity

variable {v : Quantity}

theorem sided_sign_exact {q : Rat} : Sided negative (exact q).sign ↔ Sided negative q.num :=
  sided_sign_iff

theorem sided_sign_approx {d : Decimal} :
    Sided negative (approx d).sign ↔ Sided negative d.mantissa := sided_sign_iff

theorem isNegative_of_sided (h : Sided negative v.sign) (hzero : v.isZero = false) :
    v.isNegative = negative := by
  rw [isZero, beq_eq_false_iff_ne] at hzero
  rw [isNegative]
  cases negative with
  | false => exact decide_eq_false (not_lt.2 h)
  | true => exact decide_eq_true (lt_of_le_of_ne h hzero)

theorem sided_toDecimal (h : Sided negative v.sign) : Sided negative v.toDecimal.mantissa := by
  cases v with
  | exact q => exact Decimal.sided_ofRat (sided_sign_exact.1 h)
  | approx d => exact sided_sign_approx.1 h

end Quantity

namespace Run

open Quantity

theorem gives_settle {v : Quantity} (h : Sided negative v.sign) :
    Gives (fun w => Sided negative w.sign) (settle v) := by
  intro t
  cases v with
  | approx d => exact h
  | exact q =>
    simp only [settle, ends_bind, ends_get]
    split
    · exact h
    · exact sided_sign_approx.2 (sided_toDecimal h)

theorem gives_ofFunction {d : Decimal} (h : Sided negative d.mantissa) :
    Gives (fun v => Sided negative v.sign) (ofFunction d) := by
  intro t
  have happrox := sided_sign_approx.2 h
  simp only [ofFunction, ends_bind, ends_get]
  split
  · cases hq : rational? d with
    | none => simpa using happrox
    | some q => exact sided_sign_exact.2 (Decimal.sided_of_rational? hq h)
  · exact happrox

theorem gives_bounded (d : Decimal) : Gives (fun m => m = d) (bounded d) := by
  rw [bounded]
  split
  · exact gives_throw _
  · exact gives_pure rfl

theorem gives_signed {magnitude : Option Decimal} (flip : Bool)
    (h : ∀ d, magnitude = some d → Sided negative d.mantissa) :
    Gives (fun v => Sided (flip ^^ negative) v.sign) (signed flip magnitude) := by
  cases magnitude with
  | none => exact gives_throw _
  | some d =>
    refine (gives_bounded d).bind fun m hm => gives_ofFunction ?_
    subst hm
    cases flip with
    | false =>
      rw [Bool.false_xor]
      exact h m rfl
    | true =>
      rw [Bool.true_xor]
      exact sided_neg_iff.2 (h m rfl)

end Run

end Keypad
