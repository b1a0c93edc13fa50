import Keypad.Proofs.Decimal.Sign
import Mathlib.Algebra.Order.Field.Power

/-!
# Powers and roots of negative numbers

The sign of a power of a negative base is settled by the integer that its exponent is compared as,
whether the power is computed exactly or through the logarithm. A root of a negative number is
refused only for such an integer that is even, or where there is none.
-/

namespace Keypad

open Quantity Run

variable {q r : Rat} {n : Int} {a b v : Quantity}

theorem isOdd_iff : isOdd n ↔ Odd n := by
  rw [isOdd, bne_iff_ne, Int.odd_iff]
  omega

/-- What the factors and the squares that were taken make up does not change. -/
theorem mulPower_eq (acc b : Rat) (e : Nat) : mulPower acc b e = acc * b ^ e := by
  induction e using Nat.strong_induction_on generalizing acc b with
  | _ e ih =>
    rw [mulPower]
    split
    · next he => rw [he, pow_zero, mul_one]
    · next he =>
      have hfactor : (if e % 2 = 1 then acc.mul b else acc) = acc * b ^ (e % 2) := by
        rcases Nat.mod_two_eq_zero_or_one e with heven | hodd
        · rw [heven, if_neg Nat.zero_ne_one, pow_zero, mul_one]
        · rw [hodd, if_pos rfl, pow_one]
          rfl
      have hsquares : acc * b ^ e = acc * b ^ (e % 2) * (b * b) ^ (e / 2) := by
        rw [← sq, ← pow_mul, mul_assoc, ← pow_add, Nat.mod_add_div]
      dsimp only
      rw [hfactor, hsquares]
      split
      · next hlast => rw [hlast, pow_zero, mul_one]
      · exact ih (e / 2) (by omega) _ _

theorem integerPower_eq (q : Rat) (n : Int) : integerPower q n = q ^ n := by
  rw [integerPower]
  split
  · next hn =>
    have hneg : n = -((-n).toNat : Int) := by omega
    rw [mulPower_eq, one_mul]
    conv_rhs => rw [hneg, zpow_neg, zpow_natCast]
    rfl
  · next hn =>
    rw [mulPower_eq, one_mul, ← zpow_natCast, Int.toNat_of_nonneg (not_lt.1 hn)]

theorem exactPower?_eq_some (h : exactPower? q n = some r) : r = q ^ n := by
  rw [exactPower?] at h
  split at h
  · cases h
  · rw [← integerPower_eq]
    exact (Option.some.inj h).symm

/-- The exact power is negative only for a negative base and an odd exponent. -/
theorem sided_exactPower? (hq : Sided true q.num) (h : exactPower? q n = some r) :
    Sided (isOdd n) r.num := by
  obtain rfl := exactPower?_eq_some h
  cases hn : isOdd n with
  | false =>
    have heven : Even n := Int.not_odd_iff_even.1 fun hodd => by simp [isOdd_iff.2 hodd] at hn
    exact Rat.num_nonneg.2 (heven.zpow_nonneg q)
  | true => exact Rat.num_nonpos.2 ((isOdd_iff.1 hn).zpow_nonpos (Rat.num_nonpos.1 hq))

/-- The quantity has the sign, and its decimal is zero only if it is. -/
def Quantity.HasSign (negative : Bool) (v : Quantity) : Prop :=
  Sided negative v.sign ∧ (v.toDecimal.isZero → v.isZero)

theorem any_isOdd_of_isZero (h : v.isZero) : v.toInt?.any isOdd = false := by
  cases v with
  | exact q =>
    obtain rfl : q = 0 := by simpa [isZero, sign] using h
    rfl
  | approx d =>
    have hmantissa : d.mantissa = 0 := by simpa [isZero, sign, Decimal.sign] using h
    have hround : d.significant comparedDigits = .zero := by
      rw [Decimal.significant, hmantissa, Decimal.round_eq_normalize]
      simp [Digits.roundDiv]
    rw [toInt?, comparedInt?, hround]
    rfl

/-- The parity of an exponent that is no proper fraction, if it has one. -/
theorem eq_of_oddExponent? (hb : ∀ q, b = .exact q → q.den = 1) {negative : Bool}
    (h : b.oddExponent? = some negative) : negative = b.toInt?.any isOdd := by
  unfold oddExponent? at h
  split at h
  · next n hint =>
    rw [hint]
    exact (Option.some.inj h).symm
  · next q hint =>
    rw [toInt?, if_pos (hb q rfl)] at hint
    cases hint
  · cases h

theorem exists_of_exactPower? (h : a.exactPower? b = some r) :
    ∃ q n, a = .exact q ∧ b.toInt? = some n ∧ Keypad.exactPower? q n = some r := by
  unfold Quantity.exactPower? at h
  split at h
  · next q n hn => exact ⟨q, n, rfl, hn, h⟩
  · cases h

theorem Run.gives_powerOfZero (b : Quantity) :
    Gives (fun v => Sided (b.toInt?.any isOdd) v.sign) (powerOfZero b) := by
  rw [powerOfZero]
  split
  · exact gives_throw _
  · split
    · next hzero =>
      rw [any_isOdd_of_isZero hzero]
      exact gives_ofFunction (sided_natCast 1)
    · exact gives_ofFunction (sided_zero _)

theorem Run.gives_power (ha : a.HasSign true) (hb : ∀ q, b = .exact q → q.den = 1) :
    Gives (fun v => Sided (b.toInt?.any isOdd) v.sign) (power a b) := by
  obtain ⟨hsided, hdecimal⟩ := ha
  rw [power]
  split
  · exact gives_powerOfZero b
  next hzero =>
  split
  · next r hpower =>
    obtain ⟨q, n, rfl, hn, hr⟩ := exists_of_exactPower? hpower
    rw [hn, Option.any_some, ← Bool.false_xor (isOdd n)]
    refine gives_signed false fun d hd => ?_
    obtain rfl := Option.some.inj hd
    exact Decimal.sided_ofRat (sided_exactPower? (sided_sign_exact.1 hsided) hr)
  · have hnegative : a.toDecimal.isNegative := by
      have hle : a.toDecimal.mantissa ≤ 0 := sided_toDecimal hsided
      refine decide_eq_true (lt_of_le_of_ne hle fun h => hzero (hdecimal ?_))
      rw [Decimal.isZero, h]
      rfl
    dsimp only
    rw [if_pos hnegative]
    cases hodd : b.oddExponent? with
    | none => exact gives_throw _
    | some negative =>
      obtain rfl := eq_of_oddExponent? hb hodd
      have hgives : Gives (fun v => Sided (b.toInt?.any isOdd ^^ false) v.sign)
          (signed (b.toInt?.any isOdd) (a.toDecimal.abs.realPower? b.exponentDecimal)) :=
        gives_signed _ fun d => Decimal.sided_of_realPower?
      rwa [Bool.xor_false] at hgives

/-! ## Failures -/

variable {E : Failure → Prop} {t : Trail}

theorem Run.ends_ofFunction (d : Decimal) : Ends E t (ofFunction d) fun _ _ => True := by
  simp only [ofFunction, ends_bind, ends_get]
  split
  · cases rational? d <;> simp
  · simp

theorem Run.ends_settle_true (v : Quantity) : Ends E t (settle v) fun _ _ => True := by
  cases v with
  | exact q =>
    simp only [settle, ends_bind, ends_get]
    split <;> simp
  | approx d => simp [settle]

theorem Run.ends_signed (hlarge : E .tooLarge) (negative : Bool) (magnitude : Option Decimal) :
    Ends E t (signed negative magnitude) fun _ _ => True := by
  cases magnitude with
  | none => exact hlarge
  | some d =>
    simp only [signed, bounded]
    split
    · exact hlarge
    · exact ends_ofFunction _

/-- A root whose index is an odd integer is not refused for its radicand. -/
theorem Run.ends_root {index : Quantity} (x : Quantity) (h : index.toInt?.any isOdd) :
    Ends (fun f => f ≠ .negativeRadicand) t (root index x) fun _ _ => True := by
  rw [root, h, Bool.not_true, Bool.and_false, if_neg Bool.false_ne_true]
  split
  · simp
  split
  · split
    · simp
    · exact ends_ofFunction _
  · exact ends_signed (by simp) _ _

end Keypad
