import Keypad.Proofs.Fixed.Constant

/-!
# The loop of the odd series

The loop carries a power of `q`, which each round multiplies by the square of `q`. Its term is the
scale divided by the product of the power and the odd number of the round, cut to an integer, and it
ends with the first term that is cut to zero. The function that sums the series computes each power
anew, so the two are related by what the power is in each round.
-/

namespace Keypad.Fixed

variable {alternating : Bool} {q scale k K : ℕ}

/-- The sum with the term of index `k`, which counts as negative in every other round of an
alternating series. -/
def withTerm (alternating : Bool) (k : ℕ) (sum : ℤ) (term : ℕ) : ℤ :=
  if alternating && k % 2 == 1 then sum - term else sum + term

theorem withTerm_eq (alternating : Bool) (k : ℕ) (sum : ℤ) (term : ℕ) :
    withTerm alternating k sum term
      = sum + if alternating && k % 2 == 1 then -(term : ℤ) else term := by
  rw [withTerm]
  split
  · exact sub_eq_add_neg sum term
  · rfl

/-- From the index `k`, the power `power` and the sum `sum` on, the loop ends at the index `K` with
the sum `total`. -/
inductive OddSums (alternating : Bool) (q scale : ℕ) : ℕ → ℕ → ℤ → ℕ → ℤ → Prop
  | stop {k power : ℕ} {sum : ℤ} (h : scale / (power * (2 * k + 1)) = 0) :
      OddSums alternating q scale k power sum k sum
  | more {k power K : ℕ} {sum total : ℤ} (h : scale / (power * (2 * k + 1)) ≠ 0)
      (rest : OddSums alternating q scale (k + 1) (power * (q * q))
        (withTerm alternating k sum (scale / (power * (2 * k + 1)))) K total) :
      OddSums alternating q scale k power sum K total

/-- In the round of index `k` the power is that of the term of index `k`. The loop ends at the first
term that is zero. -/
theorem exists_oddSums (alternating : Bool) (q scale k : ℕ) (sum : ℤ) :
    ∃ K, OddSums alternating q scale k (q ^ (2 * k + 1)) sum K
        (sum + inverseSeries alternating q scale k) ∧
      inverseTerm q scale K = 0 ∧ ∀ j, k ≤ j → j < K → inverseTerm q scale j ≠ 0 := by
  fun_induction inverseSeries alternating q scale k generalizing sum with
  | case1 k term hzero =>
    refine ⟨k, ?_, hzero, fun j hlow hhigh => absurd hlow (not_le.2 hhigh)⟩
    rw [add_zero]
    exact .stop hzero
  | case2 k term hne ih =>
    obtain ⟨K, hrest, hend, hlive⟩ := ih (withTerm alternating k sum term)
    refine ⟨K, .more hne ?_, hend, fun j hlow hhigh => ?_⟩
    · have hpower : q ^ (2 * (k + 1) + 1) = q ^ (2 * k + 1) * (q * q) := by ring
      rwa [hpower, withTerm_eq, add_assoc, ← withTerm_eq] at hrest
    · rcases hlow.eq_or_lt with rfl | hlt
      · exact hne
      · exact hlive j hlt hhigh

theorem inverseTerm_eq_zero_iff (hq : 0 < q) :
    inverseTerm q scale k = 0 ↔ scale < (2 * k + 1) * q ^ (2 * k + 1) := by
  have hpos : 0 < q ^ (2 * k + 1) * (2 * k + 1) := Nat.mul_pos (Nat.pow_pos hq) (Nat.succ_pos _)
  rw [mul_comm]
  exact Nat.div_eq_zero_iff_lt hpos

/-- The loop of the odd series ends at the first term below one unit, and its sum differs from the
exact sum of the terms before that one by at most one unit for each of them. -/
theorem oddSums_and_near_partial_sum (hq : 0 < q) (alternating : Bool) (scale : ℕ) :
    ∃ K, IsLeast {k | scale < (2 * k + 1) * q ^ (2 * k + 1)} K ∧
      OddSums alternating q scale 0 q 0 K (inverseSeries alternating q scale 0) ∧
      |inverseSeries alternating q scale 0
        - scale * ∑ k ∈ Finset.range K, oddTerm alternating q k| ≤ K := by
  obtain ⟨K, hsums, hend, hlive⟩ := exists_oddSums alternating q scale 0 0
  rw [mul_zero, zero_add, pow_one, zero_add] at hsums
  have hlive' (j : ℕ) (hj : j < K) : inverseTerm q scale j ≠ 0 := hlive j j.zero_le hj
  refine ⟨K, ⟨(inverseTerm_eq_zero_iff hq).1 hend, fun j hj => ?_⟩, hsums, ?_⟩
  · by_contra hlt
    exact hlive' j (not_le.1 hlt) ((inverseTerm_eq_zero_iff hq).2 hj)
  · have hnear : |inverseSeries alternating q scale 0
        - scale * ∑ k ∈ Finset.Ico 0 K, oddTerm alternating q k| ≤ K - (0 : ℕ) :=
      abs_inverseSeries_sub_le hq K.zero_le hlive' hend
    rwa [← Finset.range_eq_Ico, Nat.cast_zero, sub_zero] at hnear

/-- At a scale of a thousand, the inverse tangent of 1/5 has two terms, of which the second one is
cut. -/
theorem oddSums_and_near_partial_sum_fifth :
    0 < 5 ∧ IsLeast {k | 1000 < (2 * k + 1) * 5 ^ (2 * k + 1)} 2 ∧ OddSums true 5 1000 0 5 0 2 198 ∧
      |(198 : ℤ) - 1000 * ∑ k ∈ Finset.range 2, oddTerm true 5 k| ≤ 2 := by
  obtain ⟨K, hleast, hsums, hnear⟩ := oddSums_and_near_partial_sum (q := 5) (by decide) true 1000
  have hsum : inverseSeries true 5 1000 0 = 198 := by decide +kernel
  have htwo : IsLeast {k | 1000 < (2 * k + 1) * 5 ^ (2 * k + 1)} 2 := by
    refine ⟨by decide, fun k hk => ?_⟩
    by_contra hlt
    have hsmall : k = 0 ∨ k = 1 := by omega
    rcases hsmall with rfl | rfl
    · exact absurd hk (by decide)
    · exact absurd hk (by decide)
  obtain rfl := hleast.unique htwo
  rw [hsum] at hsums hnear
  exact ⟨by decide, htwo, hsums, by exact_mod_cast hnear⟩

end Keypad.Fixed
