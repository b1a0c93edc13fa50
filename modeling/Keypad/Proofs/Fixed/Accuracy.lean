import Keypad.Proofs.Fixed.Series
import Mathlib.Analysis.SpecialFunctions.Trigonometric.Series
import Mathlib.Analysis.SpecificLimits.Basic

/-!
# How near a factorial series is to its sum

A series whose terms change by given ratios is summed in real numbers and compared with the sum of
the cut terms. One step cuts the next term by at most two units and a part of the term before it.
The error of a step is carried along by the sum of the terms that follow, which is at most two once
the ratios do not exceed a half; from there on the number of terms is at most the binary length of
the first of them. The sine and the cosine of an angle within four radians follow.
-/

namespace Keypad.Fixed

open Digits

/-! ## Sums by ratios -/

section Ratios

variable {a : ℕ → ℝ} {N n : ℕ}

/-- The sum of a series that starts with one, whose terms change by `a n`, `a (n + 1)`, …. -/
noncomputable def sumFrom (a : ℕ → ℝ) (n : ℕ) : ℝ :=
  tsum fun m => ∏ i ∈ Finset.range m, a (n + i)

theorem prod_ratio_succ (a : ℕ → ℝ) (n m : ℕ) :
    ∏ i ∈ Finset.range (m + 1), a (n + i) = a n * ∏ i ∈ Finset.range m, a (n + 1 + i) := by
  rw [Finset.prod_range_succ', mul_comm, Nat.add_zero]
  exact congrArg (a n * ·) (Finset.prod_congr rfl fun i _ => congrArg a (by omega))

variable (ha : ∀ i, N ≤ i → |a i| ≤ 1 / 2)
include ha

theorem abs_prod_ratio_le (hn : N ≤ n) (m : ℕ) :
    |∏ i ∈ Finset.range m, a (n + i)| ≤ (1 / 2) ^ m := by
  rw [Finset.abs_prod]
  calc ∏ i ∈ Finset.range m, |a (n + i)| ≤ ∏ _i ∈ Finset.range m, (1 / 2 : ℝ) :=
        Finset.prod_le_prod (fun i _ => abs_nonneg _) fun i _ => ha _ (by omega)
    _ = (1 / 2) ^ m := by rw [Finset.prod_const, Finset.card_range]

theorem summable_ratio (n : ℕ) : Summable fun m => ∏ i ∈ Finset.range m, a (n + i) := by
  obtain ⟨d, hd⟩ : ∃ d, N - n = d := ⟨_, rfl⟩
  induction d generalizing n with
  | zero => exact summable_geometric_two.of_norm_bounded (abs_prod_ratio_le ha (by omega))
  | succ d ih =>
    rw [← summable_nat_add_iff 1]
    simp only [prod_ratio_succ]
    exact (ih (n + 1) (by omega)).mul_left (a n)

theorem sumFrom_eq (n : ℕ) : sumFrom a n = 1 + a n * sumFrom a (n + 1) := by
  rw [sumFrom, (summable_ratio ha n).tsum_eq_zero_add]
  simp only [prod_ratio_succ, Finset.prod_range_zero, tsum_mul_left]
  rfl

theorem abs_sumFrom_le (hn : N ≤ n) : |sumFrom a n| ≤ 2 := by
  rw [sumFrom, ← Real.norm_eq_abs]
  exact tsum_of_norm_bounded hasSum_geometric_two (abs_prod_ratio_le ha hn)

/-- Before the ratios are small, the sum is bounded by the largest of them. -/
theorem abs_sumFrom_le_pow {A : ℝ} (hA : 0 ≤ A) (hle : ∀ i, 1 ≤ i → |a i| ≤ A) (d : ℕ) (hn : 1 ≤ n)
    (hd : N ≤ n + d) : |sumFrom a n| ≤ 2 * (1 + A) ^ d := by
  induction d generalizing n with
  | zero => simpa using abs_sumFrom_le ha hd
  | succ d ih =>
    have hrest := ih (n := n + 1) (by omega) (by omega)
    have hone : (1 : ℝ) ≤ (1 + A) ^ d := one_le_pow₀ (by linarith)
    rw [sumFrom_eq ha, pow_succ]
    calc |1 + a n * sumFrom a (n + 1)| ≤ |1| + |a n| * |sumFrom a (n + 1)| := by
          rw [← abs_mul]
          exact abs_add_le _ _
      _ ≤ 1 + A * (2 * (1 + A) ^ d) := by
          rw [abs_one]
          exact add_le_add_right (mul_le_mul (hle n hn) hrest (abs_nonneg _) hA) 1
      _ ≤ 2 * ((1 + A) ^ d * (1 + A)) := by linarith

omit ha in
theorem eq_mul_sumFrom_of_hasSum {f : ℕ → ℝ} {S : ℝ} (h : HasSum f S)
    (hf : ∀ m, f (m + 1) = f m * a (m + 1)) : S = f 0 * sumFrom a 1 := by
  have hterm (m : ℕ) : f m = f 0 * ∏ i ∈ Finset.range m, a (1 + i) := by
    induction m with
    | zero => simp
    | succ m ih => rw [hf, ih, Finset.prod_range_succ, Nat.add_comm m 1, mul_assoc]
  rw [← h.tsum_eq, tsum_congr hterm, tsum_mul_left, sumFrom]

end Ratios

/-! ## Cut terms -/

theorem cast_pow10 (n : ℕ) : (pow10 n : ℝ) = 10 ^ n := by simp [pow10]

theorem abs_tdiv_sub_le (x : ℤ) {d : ℕ} (hd : 0 < d) : |((x.tdiv d : ℤ) : ℝ) - x / d| ≤ 1 := by
  have hpos : (0 : ℝ) < d := by exact_mod_cast hd
  have hrest : |((x.tmod d : ℤ) : ℝ)| ≤ d := by
    have hlt : (x.tmod d).natAbs < d := by
      rw [Int.natAbs_tmod, Int.natAbs_natCast]
      exact Nat.mod_lt _ hd
    rw [← Int.cast_abs, Int.abs_eq_natAbs]
    exact_mod_cast hlt.le
  have hdivision : (x : ℝ) = d * (x.tdiv d : ℤ) + (x.tmod d : ℤ) := by
    exact_mod_cast (Int.mul_tdiv_add_tmod x d).symm
  have hdifference : ((x.tdiv d : ℤ) : ℝ) - x / d = -(x.tmod d : ℤ) / d := by
    rw [hdivision]
    field_simp
    ring
  rw [hdifference, abs_div, abs_neg, abs_of_pos hpos]
  exact (div_le_one hpos).2 hrest

theorem abs_tdiv_le (x : ℤ) (d : ℕ) : |((x.tdiv d : ℤ) : ℝ)| ≤ |(x : ℝ)| / d := by
  rw [← Int.cast_abs, ← Nat.cast_natAbs, Int.natAbs_tdiv, Int.natAbs_natCast, ← Int.cast_abs,
    ← Nat.cast_natAbs x]
  exact Nat.cast_div_le

/-- The integer `y` is `z` at the scale `s`, cut towards zero. -/
structure IsCutOf (y : ℤ) (s : ℕ) (z : ℝ) : Prop where
  near : |y - z * s| ≤ 1
  le : |(y : ℝ)| ≤ |z| * s

/-- Every truncated division cuts. -/
theorem isCutOf_tdiv {x : ℤ} {d s : ℕ} {z : ℝ} (hd : 0 < d) (h : z * s = x / d) :
    IsCutOf (x.tdiv d) s z := by
  constructor
  · rw [h]
    exact abs_tdiv_sub_le x hd
  · have hsize : |z| * s = |(x : ℝ)| / d := by
      rw [← Nat.abs_cast s, ← abs_mul, h, abs_div, Nat.abs_cast]
    rw [hsize]
    exact abs_tdiv_le x d

theorem isCutOf_sq (r : ℤ) {s : ℕ} (hs : 0 < s) : IsCutOf ((r * r).tdiv s) s ((r / s : ℝ) ^ 2) := by
  have hs' : (0 : ℝ) < s := by exact_mod_cast hs
  refine isCutOf_tdiv hs ?_
  push_cast
  field_simp

namespace IsCutOf

variable {y : ℤ} {s : ℕ} {z : ℝ}

theorem neg (h : IsCutOf y s z) : IsCutOf (-y) s (-z) := by
  constructor
  · rw [Int.cast_neg, neg_mul, neg_sub_neg, abs_sub_comm]
    exact h.near
  · rw [Int.cast_neg, abs_neg, abs_neg]
    exact h.le

/-- A product that is cut in its turn. -/
theorem abs_mul_tdiv_sub_le (h : IsCutOf y s z) (hs : 0 < s) (t : ℤ) :
    |(((t * y).tdiv s : ℤ) : ℝ) - t * z| ≤ 1 + |(t : ℝ)| / s := by
  have hs' : (0 : ℝ) < s := by exact_mod_cast hs
  have hcut := abs_tdiv_sub_le (t * y) hs
  have hratio : |((t * y : ℤ) : ℝ) / s - t * z| ≤ |(t : ℝ)| / s := by
    have hfactor : ((t * y : ℤ) : ℝ) / s - t * z = t / s * (y - z * s) := by
      push_cast
      field_simp
    rw [hfactor, abs_mul, abs_div, abs_of_pos hs']
    exact mul_le_of_le_one_right (by positivity) h.near
  linarith [abs_sub_le (((t * y).tdiv s : ℤ) : ℝ) (((t * y : ℤ) : ℝ) / s) (t * z)]

theorem abs_mul_tdiv_le (h : IsCutOf y s z) (hs : 0 < s) (t : ℤ) :
    |(((t * y).tdiv s : ℤ) : ℝ)| ≤ |(t : ℝ)| * |z| := by
  have hs' : (0 : ℝ) < s := by exact_mod_cast hs
  refine (abs_tdiv_le _ _).trans ?_
  rw [div_le_iff₀ hs', Int.cast_mul, abs_mul, mul_assoc]
  exact mul_le_mul_of_nonneg_left h.le (abs_nonneg _)

end IsCutOf

/-- The ratio of the terms of a factorial series at the index `n`. -/
noncomputable def ratio (z : ℝ) (cofactor : ℕ → ℕ) (n : ℕ) : ℝ := z / (n * cofactor n : ℕ)

section Series

variable {y t : ℤ} {s n N K : ℕ} {cofactor : ℕ → ℕ} {z A M : ℝ}

theorem factorialSeries_zero (y : ℤ) (s : ℕ) (cofactor : ℕ → ℕ) (n : ℕ) :
    factorialSeries y s cofactor n 0 = 0 := by
  rw [factorialSeries]
  simp [factorialStep]

/-- A term that is cut to zero is followed by none. -/
theorem factorialSeries_eq (y : ℤ) (s : ℕ) (cofactor : ℕ → ℕ) (n : ℕ) (t : ℤ) :
    factorialSeries y s cofactor n t = factorialStep y s cofactor n t
      + factorialSeries y s cofactor (n + 1) (factorialStep y s cofactor n t) := by
  rw [factorialSeries]
  split
  · next hzero => rw [hzero, factorialSeries_zero, Int.add_zero]
  · rfl

variable (hs : 0 < s) (hy : IsCutOf y s z) (hcofactor : ∀ i, 1 ≤ i → 0 < cofactor i) (hn : 1 ≤ n)

include hs hy hcofactor hn

theorem abs_factorialStep_sub_le (t : ℤ) :
    |(factorialStep y s cofactor n t : ℝ) - t * ratio z cofactor n| ≤ 2 + |(t : ℝ)| / s := by
  have hd : 0 < n * cofactor n := Nat.mul_pos hn (hcofactor n hn)
  have hd' : (1 : ℝ) ≤ (n * cofactor n : ℕ) := by exact_mod_cast hd
  have houter := abs_tdiv_sub_le ((t * y).tdiv s) hd
  have hinner := hy.abs_mul_tdiv_sub_le hs t
  rw [factorialStep, ratio]
  generalize (t * y).tdiv s = u at houter hinner ⊢
  generalize n * cofactor n = d at hd' houter ⊢
  have hdivided : |(u : ℝ) / d - t * (z / d)| ≤ 1 + |(t : ℝ)| / s := by
    have hfactor : (u : ℝ) / d - t * (z / d) = (u - t * z) / d := by ring
    rw [hfactor, abs_div, abs_of_nonneg (zero_le_one.trans hd')]
    exact (div_le_self (abs_nonneg _) hd').trans hinner
  linarith [abs_sub_le ((u.tdiv d : ℤ) : ℝ) (u / d) (t * (z / d))]

theorem abs_factorialStep_le (t : ℤ) :
    |(factorialStep y s cofactor n t : ℝ)| ≤ |(t : ℝ)| * |ratio z cofactor n| := by
  have hd : 0 < n * cofactor n := Nat.mul_pos hn (hcofactor n hn)
  rw [factorialStep, ratio, abs_div, Nat.abs_cast]
  refine (abs_tdiv_le _ _).trans ?_
  rw [← mul_div_assoc]
  exact div_le_div_of_nonneg_right (hy.abs_mul_tdiv_le hs t) (Nat.cast_nonneg _)

variable (hA : 1 ≤ A) (hle : ∀ i, 1 ≤ i → |ratio z cofactor i| ≤ A)
  (hhalf : ∀ i, N ≤ i → |ratio z cofactor i| ≤ 1 / 2)

include hA hle hhalf

/-- The terms grow by at most `A` before the index `N` and are halved from there on. So after one
more term there is one less to come before they are cut to zero, and none outgrows the scale. -/
theorem factorialStep_within (hterms : |(t : ℝ)| * (2 * A) ^ (N - n) < 2 ^ (K + 1))
    (hsize : |(t : ℝ)| * A ^ (N - n) ≤ M * s) :
    |(factorialStep y s cofactor n t : ℝ)| * (2 * A) ^ (N - (n + 1)) < 2 ^ K ∧
      |(factorialStep y s cofactor n t : ℝ)| * A ^ (N - (n + 1)) ≤ M * s := by
  have hnext := abs_factorialStep_le hs hy hcofactor hn t
  generalize factorialStep y s cofactor n t = next at hnext ⊢
  rw [pow_succ] at hterms
  by_cases hearly : n < N
  · have hgrows : |(next : ℝ)| ≤ |(t : ℝ)| * A :=
      hnext.trans (mul_le_mul_of_nonneg_left (hle n hn) (abs_nonneg _))
    have hcount : N - n = N - (n + 1) + 1 := by omega
    rw [hcount, pow_succ] at hterms hsize
    constructor
    · have := mul_le_mul_of_nonneg_right hgrows
        (pow_nonneg (by linarith) (N - (n + 1)) : 0 ≤ (2 * A) ^ (N - (n + 1)))
      linarith
    · have := mul_le_mul_of_nonneg_right hgrows
        (pow_nonneg (by linarith) (N - (n + 1)) : 0 ≤ A ^ (N - (n + 1)))
      linarith
  · have hshrinks : |(next : ℝ)| ≤ |(t : ℝ)| * (1 / 2) :=
      hnext.trans (mul_le_mul_of_nonneg_left (hhalf n (by omega)) (abs_nonneg _))
    have hcount : N - n = 0 ∧ N - (n + 1) = 0 := by omega
    rw [hcount.1, pow_zero, mul_one] at hterms hsize
    rw [hcount.2, pow_zero, pow_zero, mul_one]
    exact ⟨by linarith, by linarith [abs_nonneg (t : ℝ)]⟩

/-- The error of one term, carried along by the exact terms that follow it. -/
theorem abs_factorialStep_sub_mul_sumFrom_le (hsize : |(t : ℝ)| * A ^ (N - n) ≤ M * s) :
    |(factorialStep y s cofactor n t - t * ratio z cofactor n)
        * sumFrom (ratio z cofactor) (n + 1)| ≤ (2 + M) * (2 * (1 + A) ^ N) := by
  have hs' : (0 : ℝ) < s := by exact_mod_cast hs
  have hsum : |sumFrom (ratio z cofactor) (n + 1)| ≤ 2 * (1 + A) ^ N :=
    abs_sumFrom_le_pow hhalf (by linarith) hle N (by omega) (by omega)
  have hM : |(t : ℝ)| / s ≤ M := by
    have hpow : (1 : ℝ) ≤ A ^ (N - n) := one_le_pow₀ hA
    rw [div_le_iff₀ hs']
    exact (le_mul_of_one_le_right (abs_nonneg _) hpow).trans hsize
  have hcut := (abs_factorialStep_sub_le hs hy hcofactor hn t).trans (add_le_add_right hM 2)
  rw [abs_mul]
  exact mul_le_mul hcut hsum (abs_nonneg _) ((abs_nonneg _).trans hcut)

/-- Within these bounds `K` terms lead to zero, each with its own error. -/
theorem abs_factorialSeries_sub_le (hterms : |(t : ℝ)| * (2 * A) ^ (N - n) < 2 ^ K)
    (hsize : |(t : ℝ)| * A ^ (N - n) ≤ M * s) :
    |(t + factorialSeries y s cofactor n t : ℤ) - t * sumFrom (ratio z cofactor) n|
      ≤ K * ((2 + M) * (2 * (1 + A) ^ N)) := by
  induction K generalizing n t with
  | zero =>
    have hpow : (1 : ℝ) ≤ (2 * A) ^ (N - n) := one_le_pow₀ (by linarith)
    have hlt : |(t : ℝ)| < 1 := by
      rw [pow_zero] at hterms
      exact (le_mul_of_one_le_right (abs_nonneg _) hpow).trans_lt hterms
    have ht : t = 0 := by
      rw [← Int.abs_lt_one_iff]
      exact_mod_cast hlt
    simp [ht, factorialSeries_zero]
  | succ K ih =>
    have hcarried := abs_factorialStep_sub_mul_sumFrom_le hs hy hcofactor hn hA hle hhalf hsize
    obtain ⟨hterms, hsize⟩ :=
      factorialStep_within hs hy hcofactor hn hA hle hhalf hterms hsize
    have hrest := ih (by omega) hterms hsize
    rw [factorialSeries_eq, sumFrom_eq hhalf]
    generalize factorialStep y s cofactor n t = next at hcarried hrest ⊢
    have hsplit : ((t + (next + factorialSeries y s cofactor (n + 1) next) : ℤ) : ℝ)
          - t * (1 + ratio z cofactor n * sumFrom (ratio z cofactor) (n + 1))
        = ((next + factorialSeries y s cofactor (n + 1) next : ℤ)
            - next * sumFrom (ratio z cofactor) (n + 1))
          + (next - t * ratio z cofactor n) * sumFrom (ratio z cofactor) (n + 1) := by
      push_cast
      ring
    rw [hsplit]
    push_cast
    push_cast at hrest
    exact (abs_add_le _ _).trans (by linarith)

end Series

/-! ## Sine and cosine -/

theorem sin_eq_mul_sumFrom (x : ℝ) :
    Real.sin x = x * sumFrom (ratio (-x ^ 2) fun n => 2 * (2 * n + 1)) 1 := by
  have hsum := eq_mul_sumFrom_of_hasSum (a := ratio (-x ^ 2) fun n => 2 * (2 * n + 1))
    (Real.hasSum_sin x) fun m => by
      rw [ratio, Nat.mul_succ, Nat.factorial_succ, Nat.factorial_succ]
      push_cast
      field_simp
      ring
  simpa using hsum

theorem cos_eq_sumFrom (x : ℝ) :
    Real.cos x = sumFrom (ratio (-x ^ 2) fun n => 2 * (2 * n - 1)) 1 := by
  have hsum := eq_mul_sumFrom_of_hasSum (a := ratio (-x ^ 2) fun n => 2 * (2 * n - 1))
    (Real.hasSum_cos x) fun m => by
      have hlast : 2 * (m + 1) - 1 = 2 * m + 1 := by omega
      rw [ratio, hlast, Nat.mul_succ, Nat.factorial_succ, Nat.factorial_succ]
      push_cast
      field_simp
      ring
  simpa using hsum

section Angle

variable {r t : ℤ} {w : ℕ}

/-- The error of a series in units of its last place. -/
noncomputable def seriesError (w : ℕ) : ℝ := 10 ^ 9 * (w + 4)

variable (hr : r.natAbs ≤ 4 * pow10 w)
include hr

theorem abs_ratio_le_of_angle {cofactor : ℕ → ℕ} {i : ℕ} (hi : 1 ≤ i)
    (hcofactor : 2 * (2 * i - 1) ≤ cofactor i) :
    |ratio (-(r / pow10 w : ℝ) ^ 2) cofactor i| ≤ 16 / (i * (2 * (2 * i - 1))) := by
  have hpos : (0 : ℝ) < pow10 w := by exact_mod_cast pow10_pos w
  have hsq : |(-(r / pow10 w : ℝ) ^ 2)| ≤ 16 := by
    have hquotient : |(r / pow10 w : ℝ)| ≤ 4 := by
      rw [abs_div, abs_of_pos hpos, div_le_iff₀ hpos, ← Int.cast_abs, ← Nat.cast_natAbs]
      exact_mod_cast hr
    rw [abs_neg, abs_pow]
    exact (pow_le_pow_left₀ (abs_nonneg _) hquotient 2).trans (by norm_num)
  have hdivisor : (i * (2 * (2 * i - 1)) : ℝ) ≤ (i * cofactor i : ℕ) := by
    have hnat : i * (2 * (2 * i - 1)) ≤ i * cofactor i := Nat.mul_le_mul_left i hcofactor
    have hcast : ((2 * i - 1 : ℕ) : ℝ) = 2 * i - 1 := by
      rw [Nat.cast_sub (by omega)]
      push_cast
      ring
    rw [← hcast]
    exact_mod_cast hnat
  have hi' : (1 : ℝ) ≤ i := by exact_mod_cast hi
  rw [ratio, abs_div, Nat.abs_cast]
  exact div_le_div₀ (by norm_num) hsq (by nlinarith) hdivisor

/-- The terms that follow `t` sum to what the exact ratios give. -/
theorem abs_series_of_angle_sub_le (cofactor : ℕ → ℕ)
    (hcofactor : ∀ i, 1 ≤ i → 2 * (2 * i - 1) ≤ cofactor i) (ht : t.natAbs ≤ 4 * pow10 w) :
    |(t + factorialSeries (-(r * r).tdiv (pow10 w)) (pow10 w) cofactor 1 t : ℤ)
      - t * sumFrom (ratio (-(r / pow10 w : ℝ) ^ 2) cofactor) 1| ≤ seriesError w := by
  have ht' : |(t : ℝ)| ≤ 4 * pow10 w := by
    rw [← Int.cast_abs, ← Nat.cast_natAbs]
    exact_mod_cast ht
  have hle (i : ℕ) (hi : 1 ≤ i) : |ratio (-(r / pow10 w : ℝ) ^ 2) cofactor i| ≤ 8 := by
    refine (abs_ratio_le_of_angle hr hi (hcofactor i hi)).trans ?_
    have hi' : (1 : ℝ) ≤ i := by exact_mod_cast hi
    rw [div_le_iff₀ (by nlinarith)]
    nlinarith
  have hhalf (i : ℕ) (hi : 4 ≤ i) : |ratio (-(r / pow10 w : ℝ) ^ 2) cofactor i| ≤ 1 / 2 := by
    refine (abs_ratio_le_of_angle hr (by omega) (hcofactor i (by omega))).trans ?_
    have hi' : (4 : ℝ) ≤ i := by exact_mod_cast hi
    rw [div_le_iff₀ (by nlinarith)]
    nlinarith
  have hbinary : (4 * pow10 w : ℝ) * 16 ^ 3 < 2 ^ (4 * w + 15) := by
    have hpow : (pow10 w : ℝ) ≤ 2 ^ (4 * w) := by
      rw [pow_mul, cast_pow10]
      exact pow_le_pow_left₀ (by norm_num) (by norm_num) w
    rw [pow_add]
    have : (0 : ℝ) < 2 ^ (4 * w) := by positivity
    linarith
  refine (abs_factorialSeries_sub_le (pow10_pos w) (isCutOf_sq r (pow10_pos w)).neg
    (fun i hi => (by omega : 0 < 2 * (2 * i - 1)).trans_le (hcofactor i hi)) le_rfl
    (by norm_num : (1 : ℝ) ≤ 8) hle hhalf (K := 4 * w + 15) (M := 4 * 8 ^ 3) ?_ ?_).trans ?_
  · refine lt_of_le_of_lt (mul_le_mul_of_nonneg_right ht' (by positivity)) ?_
    norm_num at hbinary ⊢
    exact hbinary
  · refine (mul_le_mul_of_nonneg_right ht' (by positivity)).trans (le_of_eq ?_)
    norm_num
    ring
  · rw [seriesError]
    have : (0 : ℝ) ≤ w := w.cast_nonneg
    push_cast
    nlinarith

theorem abs_sin_sub_le :
    |sin r (pow10 w) - pow10 w * Real.sin (r / pow10 w)| ≤ seriesError w := by
  have hpos : (pow10 w : ℝ) ≠ 0 := by exact_mod_cast (pow10_pos w).ne'
  have hseries := abs_series_of_angle_sub_le hr (fun n => 2 * (2 * n + 1))
    (fun i _ => by omega) hr
  rwa [sin_eq_mul_sumFrom, ← mul_assoc, mul_div_cancel₀ _ hpos]

theorem abs_cos_sub_le :
    |cos r (pow10 w) - pow10 w * Real.cos (r / pow10 w)| ≤ seriesError w := by
  have hseries := abs_series_of_angle_sub_le hr (fun n => 2 * (2 * n - 1))
    (fun i _ => le_rfl) (t := pow10 w) (by rw [Int.natAbs_natCast]; omega)
  rwa [cos_eq_sumFrom]

end Angle

end Keypad.Fixed
