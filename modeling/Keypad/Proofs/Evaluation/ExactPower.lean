import Keypad.Proofs.Decimal.Word
import Keypad.Proofs.Evaluation.Power

/-!
# Exact powers

A power of a fraction is computed exactly only if its exponent times the number of digits of the
fraction is small. The estimate is an upper bound: numerator and denominator of the power have no
more digits than it says. It also keeps the exponent far from the ends of what 64 bits hold, so that
its sign can be changed, though the product is one that saturates.
-/

namespace Keypad

open Digits Literal

variable {q r : Rat} {n : Int}

/-! ## Length -/

/-- A power of a fraction is a natural power of it or of its inverse. -/
theorem exists_zpow_eq (hq : q ≠ 0) (n : Int) :
    ∃ y : Rat, q ^ n = y ^ n.natAbs ∧
      (y.num.natAbs = q.num.natAbs ∧ y.den = q.den ∨
        y.num.natAbs = q.den ∧ y.den = q.num.natAbs) := by
  rcases le_or_gt 0 n with hn | hn
  · refine ⟨q, ?_, .inl ⟨rfl, rfl⟩⟩
    rw [← zpow_natCast, Int.natAbs_of_nonneg hn]
  · refine ⟨q⁻¹, ?_, .inr ⟨?_, Rat.den_inv_of_ne_zero hq⟩⟩
    · rw [← zpow_natCast, Int.ofNat_natAbs_of_nonpos hn.le, inv_zpow, zpow_neg, inv_inv]
    · rw [Rat.num_inv, Int.natAbs_mul, Int.natAbs_sign_of_ne_zero (Rat.num_ne_zero.2 hq), one_mul,
        Int.natAbs_natCast]

theorem count_pow_le (a : Nat) {k : Nat} (hk : 0 < k) : count (a ^ k) ≤ k * count a := by
  refine count_le (Nat.mul_pos hk (count_pos a)) ?_
  calc a ^ k < pow10 (count a) ^ k := Nat.pow_lt_pow_left (lt_pow10_count a) hk.ne'
    _ = pow10 (k * count a) := by
        rw [Nat.mul_comm]
        exact (Nat.pow_mul 10 (count a) k).symm

theorem size_le_of_exactPower? (h : exactPower? q n = some r) :
    n.natAbs * (count q.num.natAbs + count q.den) ≤ exactPowerDigits := by
  by_contra hlarge
  rw [exactPower?, if_pos (not_le.1 hlarge)] at h
  cases h

/-- The estimate bounds the length of the power. -/
theorem count_le_of_exactPower? (hq : q ≠ 0) (h : exactPower? q n = some r) :
    count r.num.natAbs + count r.den ≤ exactPowerDigits := by
  have hsize := size_le_of_exactPower? h
  obtain rfl := exactPower?_eq_some h
  rcases Nat.eq_zero_or_pos n.natAbs with hn | hn
  · have hone : count (1 : Rat).num.natAbs + count (1 : Rat).den = 2 :=
      congrArg₂ (· + ·) count_one count_one
    rw [Int.natAbs_eq_zero.1 hn, zpow_zero, hone]
    decide
  · obtain ⟨y, hy, hparts⟩ := exists_zpow_eq hq n
    have hnum := count_pow_le y.num.natAbs hn
    have hden := count_pow_le y.den hn
    have hsum : count y.num.natAbs + count y.den = count q.num.natAbs + count q.den := by
      rcases hparts with ⟨hn, hd⟩ | ⟨hn, hd⟩
      · rw [hn, hd]
      · rw [hn, hd, Nat.add_comm]
    rw [← hsum, Nat.mul_add] at hsize
    rw [hy, Rat.num_pow, Rat.den_pow, Int.natAbs_pow]
    omega

/-! ## Exponents of 64 bits -/

namespace Word

/-- The power `q ^ n`. The sign of a negative exponent is changed, which the least one has no room
for. -/
def integerPower (q : Rat) (n : Int) : Except Halt Rat :=
  if n < 0 then do return (mulPower 1 q (← checked (-n)).toNat).inv
  else .ok (mulPower 1 q n.toNat)

/-- The product of two natural numbers, which stops at the largest one of 64 bits. -/
def saturatingMul (a b : Nat) : Nat := min (a * b) 18446744073709551615

/-- The power, if its exponent fits in 64 bits and its length is estimated within bounds. -/
def exactPower? (q : Rat) (n : Int) : Except Halt (Option Rat) :=
  if ¬InWord n then .ok none
  else if exactPowerDigits < saturatingMul n.natAbs (count q.num.natAbs + count q.den) then .ok none
  else do return some (← integerPower q n)

theorem integerPower_eq (q : Rat) (hn : InWord (-n)) :
    integerPower q n = .ok (Keypad.integerPower q n) := by
  rw [integerPower, Keypad.integerPower, checked_eq hn]
  split <;> rfl

/-- The bound is far below the number at which the product saturates. -/
theorem lt_saturatingMul_iff (a b : Nat) :
    exactPowerDigits < saturatingMul a b ↔ exactPowerDigits < a * b := by
  rw [saturatingMul, exactPowerDigits]
  omega

/-- An exponent for which the power is computed is small, since a fraction has two digits. -/
theorem natAbs_le_of_size_le
    (h : n.natAbs * (count q.num.natAbs + count q.den) ≤ exactPowerDigits) :
    n.natAbs ≤ exactPowerDigits := by
  have hnum := count_pos q.num.natAbs
  exact (Nat.le_mul_of_pos_right _ (by omega)).trans h

/-- No exponent is met whose sign cannot be changed. -/
theorem exactPower?_eq (q : Rat) (n : Int) :
    exactPower? q n = .ok (Keypad.exactPower? q n) := by
  rw [exactPower?, Keypad.exactPower?]
  simp only [lt_saturatingMul_iff]
  by_cases hsize : exactPowerDigits < n.natAbs * (count q.num.natAbs + count q.den)
  · rw [if_pos hsize, if_pos hsize, ite_self]
  · have hsmall := natAbs_le_of_size_le (not_lt.1 hsize)
    rw [exactPowerDigits] at hsmall
    have hn : InWord n := ⟨by omega, by omega⟩
    have hneg : InWord (-n) := ⟨by omega, by omega⟩
    rw [if_neg (not_not.2 hn), if_neg hsize, if_neg hsize, integerPower_eq q hneg]
    rfl

end Word

/-- An exact power is the power, and its parts have at most twenty thousand digits together. The
computation with exponents of 64 bits never overflows and gives the same answer. -/
theorem exactPower?_eq_zpow_and_short (hq : q ≠ 0) (n : Int) :
    Word.exactPower? q n = .ok (exactPower? q n) ∧
      ∀ r, exactPower? q n = some r →
        r = q ^ n ∧ count r.num.natAbs + count r.den ≤ 20000 :=
  ⟨Word.exactPower?_eq q n, fun _ h => ⟨exactPower?_eq_some h, count_le_of_exactPower? hq h⟩⟩

/-- A negative exponent, and the one of 64 bits whose sign cannot be changed. -/
theorem exactPower?_eq_zpow_and_short_negative :
    ((-2 / 3 : Rat) ≠ 0 ∧ exactPower? (-2 / 3) (-5) = some (-243 / 32) ∧
      (-243 / 32 : Rat) = (-2 / 3) ^ (-5 : Int)) ∧
    ((10 : Rat) ≠ 0 ∧ Word.exactPower? 10 (-9223372036854775808) = .ok none ∧
      Word.integerPower 10 (-9223372036854775808) = .error .overflow) := by
  have hthird : (-2 / 3 : Rat) ≠ 0 := by norm_num
  have hpower : exactPower? (-2 / 3) (-5) = some (-243 / 32) := by decide +kernel
  have hnone : exactPower? 10 (-9223372036854775808) = none := by decide +kernel
  refine ⟨⟨hthird, hpower, ((exactPower?_eq_zpow_and_short hthird (-5)).2 _ hpower).1⟩,
    by decide, ?_, rfl⟩
  rw [← hnone]
  exact (exactPower?_eq_zpow_and_short (by decide) _).1

end Keypad
