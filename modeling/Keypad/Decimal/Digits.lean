/-!
# Decimal digits of integers

Powers of ten, the number of digits of an integer, division rounded to the nearest integer and
the removal of final zeros. A digit count is searched upwards from an estimate by the binary
length, which never exceeds it, so the count is exact: a positive integer lies between the powers
of ten on its two sides.
-/

namespace Keypad

/-- Ten to the power `n`. -/
def pow10 (n : Nat) : Nat := Nat.pow 10 n

theorem pow10_pos (n : Nat) : 0 < pow10 n := Nat.pow_pos (by decide)

@[simp] theorem pow10_zero : pow10 0 = 1 := rfl

theorem pow10_succ (n : Nat) : pow10 (n + 1) = 10 * pow10 n := by
  simp [pow10, Nat.pow_succ, Nat.mul_comm]

theorem pow10_add (m n : Nat) : pow10 (m + n) = pow10 m * pow10 n := Nat.pow_add 10 m n

theorem lt_pow10 (n : Nat) : n < pow10 n := Nat.lt_pow_self (by decide)

namespace Digits

/-! ## Counting -/

/-- The least `k` from `start` on with `n < 10 ^ k`. -/
def searchFrom (n start : Nat) : Nat :=
  if pow10 start ≤ n then searchFrom n (start + 1) else start
termination_by n - start
decreasing_by
  have := lt_pow10 start
  omega

/-- Number of decimal digits of `n`; zero has one. -/
def count (n : Nat) : Nat := max 1 (searchFrom n (n.log2 * 3 / 10))

theorem lt_pow10_searchFrom (n start : Nat) : n < pow10 (searchFrom n start) := by
  fun_induction searchFrom n start with
  | case1 start h ih => exact ih
  | case2 start h => exact Nat.lt_of_not_le h

theorem pow10_pred_searchFrom_le {n start : Nat} (h : pow10 start ≤ n) :
    start < searchFrom n start ∧ pow10 (searchFrom n start - 1) ≤ n := by
  fun_induction searchFrom n start with
  | case1 start _ ih =>
    by_cases hs : pow10 (start + 1) ≤ n
    · have := ih hs
      exact ⟨by omega, this.2⟩
    · rw [searchFrom, if_neg hs]
      exact ⟨by omega, h⟩
  | case2 start hn => exact absurd h hn

/-- Three digits take less than ten bits, so the estimate is not too large. -/
theorem pow10_estimate_le {n : Nat} (h : n ≠ 0) : pow10 (n.log2 * 3 / 10) ≤ n := by
  have hlog : 2 ^ n.log2 ≤ n := Nat.log2_self_le h
  refine Nat.le_trans (Nat.le_of_not_lt fun hlt => ?_) hlog
  have hpow : (2 ^ n.log2) ^ 10 < (10 ^ (n.log2 * 3 / 10)) ^ 10 :=
    Nat.pow_lt_pow_left hlt (by decide)
  have hten : 10 ^ (n.log2 * 3 / 10 * 10) ≤ 10 ^ (3 * n.log2) :=
    Nat.pow_le_pow_right (by decide) (by omega)
  have htwo : (10 ^ 3) ^ n.log2 ≤ (2 ^ 10) ^ n.log2 := Nat.pow_le_pow_left (by decide) _
  rw [← Nat.pow_mul, ← Nat.pow_mul] at hpow htwo
  rw [Nat.mul_comm 10] at htwo
  exact Nat.lt_irrefl _ (Nat.lt_of_lt_of_le hpow (Nat.le_trans hten htwo))

theorem count_pos (n : Nat) : 0 < count n := by
  unfold count
  omega

theorem lt_pow10_count (n : Nat) : n < pow10 (count n) := by
  refine Nat.lt_of_lt_of_le (lt_pow10_searchFrom n (n.log2 * 3 / 10)) ?_
  exact Nat.pow_le_pow_right (by decide) (Nat.le_max_right _ _)

theorem pow10_pred_count_le {n : Nat} (h : n ≠ 0) : pow10 (count n - 1) ≤ n := by
  have := pow10_pred_searchFrom_le (pow10_estimate_le h)
  rw [count, Nat.max_eq_right (by omega)]
  exact this.2

@[simp] theorem count_zero : count 0 = 1 := by
  simp [count, searchFrom]

/-! ## Rounded division -/

/-- The quotient `n / d` rounded to the nearest integer, a half up. -/
def roundDivNat (n d : Nat) : Nat := (2 * n + d) / (2 * d)

/-- The quotient `n / d` rounded to the nearest integer, a half away from zero. -/
def roundDiv (n : Int) (d : Nat) : Int :=
  if n < 0 then -(roundDivNat n.natAbs d : Int) else roundDivNat n.natAbs d

/-- The rounded quotient exceeds the exact one by at most a half. -/
theorem roundDivNat_mul_le (n d : Nat) : 2 * d * roundDivNat n d ≤ 2 * n + d :=
  Nat.mul_div_le (2 * n + d) (2 * d)

/-- The exact quotient exceeds the rounded one by less than a half. -/
theorem lt_roundDivNat_mul (n : Nat) {d : Nat} (h : 0 < d) :
    2 * n + d < 2 * d * (roundDivNat n d + 1) :=
  Nat.lt_mul_div_succ (2 * n + d) (by omega)

@[simp] theorem roundDivNat_zero (d : Nat) : roundDivNat 0 d = 0 := by
  by_cases h : d = 0
  · simp [roundDivNat, h]
  · exact Nat.div_eq_of_lt (by omega)

@[simp] theorem roundDiv_neg (n : Int) (d : Nat) : roundDiv (-n) d = -roundDiv n d := by
  rcases Int.lt_trichotomy n 0 with h | rfl | h
  · rw [roundDiv, roundDiv, if_neg (by omega), if_pos h, Int.natAbs_neg, Int.neg_neg]
  · simp [roundDiv]
  · rw [roundDiv, roundDiv, if_pos (by omega), if_neg (by omega), Int.natAbs_neg]

/-! ## Final zeros -/

/-- Moves the final zeros of `m` into the exponent `e`. -/
def stripZeros (m : Nat) (e : Int) : Nat × Int :=
  if m ≠ 0 ∧ m % 10 = 0 then stripZeros (m / 10) (e + 1) else (m, e)
termination_by m
decreasing_by omega

/-- The zeros that leave `m` are counted by the exponent. -/
theorem exists_stripZeros (m : Nat) (e : Int) :
    ∃ k : Nat, m = (stripZeros m e).1 * pow10 k ∧ (stripZeros m e).2 = e + k := by
  fun_induction stripZeros m e with
  | case1 m e h ih =>
    obtain ⟨k, hm, he⟩ := ih
    refine ⟨k + 1, ?_, by omega⟩
    rw [pow10_succ, Nat.mul_left_comm, ← hm]
    omega
  | case2 m e h => exact ⟨0, by simp, by simp⟩

theorem stripZeros_mod_ne_zero {m : Nat} (h : m ≠ 0) (e : Int) : (stripZeros m e).1 % 10 ≠ 0 := by
  fun_induction stripZeros m e with
  | case1 m e hm ih => exact ih (by omega)
  | case2 m e hm => simpa [h] using hm

end Digits

end Keypad
