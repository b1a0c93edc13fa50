import Keypad.Proofs.Decimal.Accuracy
import Keypad.Proofs.Decimal.Order
import Keypad.Proofs.Decimal.Sign

/-!
# Between decimals and fixed-point numbers

A decimal loses the digits behind the last place of a fixed-point number and nothing else: the
number has the sign of the decimal or is zero, and its size is that of the decimal cut to an
integer number of units. A fixed-point number becomes a decimal with its sign.
-/

namespace Keypad

open Digits

namespace Sided

variable {negative : Bool} {m n : Int}

theorem eq_of_natAbs_eq (hm : Sided negative m) (hn : Sided negative n) (h : m.natAbs = n.natAbs) :
    m = n := by
  cases negative with
  | false =>
    have hm' : 0 ≤ m := hm
    have hn' : 0 ≤ n := hn
    omega
  | true =>
    have hm' : m ≤ 0 := hm
    have hn' : n ≤ 0 := hn
    omega

theorem sign_eq (hm : Sided negative m) (hn : Sided negative n) (hm0 : m ≠ 0) (hn0 : n ≠ 0) :
    m.sign = n.sign := by
  refine eq_of_natAbs_eq (sided_sign_iff.2 hm) (sided_sign_iff.2 hn) ?_
  rw [Int.natAbs_sign_of_ne_zero hm0, Int.natAbs_sign_of_ne_zero hn0]

end Sided

namespace Decimal

variable {negative : Bool} {d : Decimal} {w n : Nat}

theorem sided_mantissa (d : Decimal) : Sided d.isNegative d.mantissa := by
  cases h : d.isNegative with
  | false => exact not_lt.1 (of_decide_eq_false h)
  | true => exact (of_decide_eq_true h).le

theorem sided_toFixed (h : Sided negative d.mantissa) (w : Nat) : Sided negative (d.toFixed w) := by
  rw [toFixed]
  split
  · exact h.mul _
  · split
    · exact sided_zero negative
    · exact h.tdiv _

/-- A fixed-point number has the digits of the decimal up to its last place. -/
theorem le_natAbs_toFixed_iff (d : Decimal) (w n : Nat) :
    n ≤ (d.toFixed w).natAbs ↔ (n : Rat) ≤ |d.value| * 10 ^ w := by
  have hvalue : |d.value| * 10 ^ w = d.mantissa.natAbs * (10 : Rat) ^ (d.exponent + w) := by
    rw [abs_value, mul_assoc, ← zpow_natCast, ← zpow_add₀ (by norm_num)]
  rw [hvalue, toFixed]
  split
  · next hexponent =>
    obtain ⟨k, hk⟩ := Int.eq_ofNat_of_zero_le hexponent
    rw [hk, Int.toNat_natCast, natAbs_mul_pow10, zpow_natCast, ← pow10_cast]
    exact_mod_cast Iff.rfl
  · next hexponent =>
    obtain ⟨k, hk⟩ : ∃ k : Nat, d.exponent + w = -k := ⟨(d.exponent + w).natAbs, by omega⟩
    have hpos : (0 : Rat) < pow10 k := by exact_mod_cast pow10_pos k
    rw [hk, zpow_neg, zpow_natCast, ← pow10_cast, ← div_eq_mul_inv, le_div_iff₀ hpos,
      Int.natAbs_neg, Int.natAbs_natCast]
    have hdivided : (n : Rat) * pow10 k ≤ d.mantissa.natAbs ↔ n * pow10 k ≤ d.mantissa.natAbs := by
      exact_mod_cast Iff.rfl
    rw [hdivided]
    split
    · next hshort =>
      have hlt : d.mantissa.natAbs < pow10 k :=
        (lt_pow10_count _).trans_le (pow10_le_pow10 (by omega))
      rcases Nat.eq_zero_or_pos n with rfl | hn
      · simp
      · have hle : 1 * pow10 k ≤ n * pow10 k := Nat.mul_le_mul_right _ hn
        rw [Int.natAbs_zero]
        omega
    · rw [Int.natAbs_tdiv, Int.natAbs_natCast]
      exact Nat.le_div_iff_mul_le (pow10_pos k)

theorem sign_toFixed (d : Decimal) (w : Nat) :
    (d.toFixed w).sign = if 1 ≤ |d.value| * 10 ^ w then d.sign else 0 := by
  have hone := le_natAbs_toFixed_iff d w 1
  rw [Nat.cast_one] at hone
  split
  · next h =>
    have hne : d.toFixed w ≠ 0 := Int.natAbs_pos.1 (hone.2 h)
    refine (sided_toFixed (sided_mantissa d) w).sign_eq (sided_mantissa d) hne fun hzero => hne ?_
    simp [toFixed, hzero]
  · next h =>
    have hzero : d.toFixed w = 0 := by
      rw [← hone] at h
      omega
    rw [hzero, Int.sign_zero]

/-- The digits after the last place may be cut later. -/
theorem tdiv_toFixed (d : Decimal) (w k : Nat) :
    (d.toFixed (w + k)).tdiv (pow10 k) = d.toFixed w := by
  have hsided := sided_toFixed (sided_mantissa d)
  refine ((hsided _).tdiv _).eq_of_natAbs_eq (hsided w) (eq_of_forall_le_iff fun n => ?_)
  have hpos : (0 : Rat) < 10 ^ k := by positivity
  have hcut : ((d.toFixed (w + k)).tdiv (pow10 k)).natAbs = (d.toFixed (w + k)).natAbs / pow10 k :=
    Int.natAbs_tdiv _ _
  rw [hcut, Nat.le_div_iff_mul_le (pow10_pos k), le_natAbs_toFixed_iff, le_natAbs_toFixed_iff,
    Nat.cast_mul, pow10_cast, pow_add, ← mul_assoc, mul_le_mul_iff_left₀ hpos]

theorem abs_toFixed_sub_le (d : Decimal) (w : Nat) :
    |d.toFixed w - d.value * 10 ^ w| ≤ 1 := by
  have hlow := (le_natAbs_toFixed_iff d w (d.toFixed w).natAbs).1 le_rfl
  have hhigh : |d.value| * 10 ^ w < ((d.toFixed w).natAbs + 1 : Nat) := by
    rw [← not_le, ← le_natAbs_toFixed_iff]
    omega
  have hsided := sided_toFixed (sided_mantissa d) w
  have hvalue := sided_value (sided_mantissa d)
  rw [Nat.cast_succ] at hhigh
  rw [Nat.cast_natAbs, Int.cast_abs] at hlow hhigh
  cases hd : d.isNegative with
  | false =>
    rw [hd] at hsided hvalue
    rw [abs_of_nonneg (Int.cast_nonneg hsided), abs_of_nonneg (Rat.num_nonneg.1 hvalue)]
      at hlow hhigh
    rw [abs_le]
    constructor <;> linarith
  | true =>
    rw [hd] at hsided hvalue
    rw [abs_of_nonpos (Int.cast_nonpos.2 hsided), abs_of_nonpos (Rat.num_nonpos.1 hvalue)]
      at hlow hhigh
    rw [abs_le]
    constructor <;> linarith

theorem sign_ofFixed (n : Int) (hw : (w : Int) ≤ -exponentFloor) : (ofFixed n w).sign = n.sign :=
  sign_round (by decide) (by omega)

end Decimal

end Keypad
