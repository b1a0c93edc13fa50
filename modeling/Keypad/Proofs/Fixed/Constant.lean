import Keypad.Proofs.Fixed.Accuracy
import Mathlib.Analysis.SpecialFunctions.Trigonometric.Arctan
import Mathlib.Analysis.SpecialFunctions.Complex.Arctan
import Mathlib.Analysis.SpecialFunctions.Log.Deriv

/-!
# How near the fixed-point constants are

The odd series in `1/q` cuts each of its terms by less than one unit and ends with the first term
below one unit, so it differs from its partial sum by no more than it has terms. What the partial
sum leaves out is bounded by a geometric series. The two inverse tangents of Machin's formula give
the number π to two units of the last place, and the inverse hyperbolic tangents of 1/3 and 1/9 the
logarithms of 2 and 10.
-/

namespace Keypad.Fixed

open Digits

variable {alternating : Bool} {q scale k K : ℕ}

/-- The exact term of index `k` of the odd series in `1/q`, with its sign. -/
noncomputable def oddTerm (alternating : Bool) (q k : ℕ) : ℝ :=
  (if alternating && k % 2 == 1 then -1 else 1) / (q ^ (2 * k + 1) * (2 * k + 1) : ℕ)

theorem abs_oddTerm (alternating : Bool) (q k : ℕ) :
    |oddTerm alternating q k| = 1 / (q ^ (2 * k + 1) * (2 * k + 1) : ℕ) := by
  rw [oddTerm, abs_div, Nat.abs_cast]
  split <;> simp

/-- The series differs from its partial sum by at most one unit for each term. -/
theorem abs_inverseSeries_sub_le (hq : 0 < q) (hk : k ≤ K)
    (hlive : ∀ j < K, inverseTerm q scale j ≠ 0) (hend : inverseTerm q scale K = 0) :
    |inverseSeries alternating q scale k - scale * ∑ j ∈ Finset.Ico k K, oddTerm alternating q j|
      ≤ K - k := by
  fun_induction inverseSeries alternating q scale k with
  | case1 k term hzero =>
    have hlast : k = K := le_antisymm hk (Nat.le_of_not_lt fun hlt => hlive k hlt hzero)
    simp [hlast]
  | case2 k term hne ih =>
    have hlt : k < K := hk.lt_of_ne fun heq => hne (by rw [← hend, ← heq])
    have hrest := ih hlt
    have hcut : |(term : ℝ) - scale / (q ^ (2 * k + 1) * (2 * k + 1) : ℕ)| ≤ 1 :=
      abs_tdiv_sub_le scale (Nat.mul_pos (Nat.pow_pos hq) (Nat.succ_pos _))
    have hterm : |((if alternating && k % 2 == 1 then -(term : ℤ) else term : ℤ) : ℝ)
        - scale * oddTerm alternating q k| ≤ 1 := by
      rw [oddTerm]
      split
      · have hsign : ((-(term : ℤ) : ℤ) : ℝ) - scale * (-1 / (q ^ (2 * k + 1) * (2 * k + 1) : ℕ))
            = -(term - scale / (q ^ (2 * k + 1) * (2 * k + 1) : ℕ)) := by
          push_cast
          ring
        rwa [hsign, abs_neg]
      · rwa [mul_one_div]
    rw [Finset.sum_eq_sum_Ico_succ_bot hlt, mul_add, Int.cast_add, add_sub_add_comm]
    refine (abs_add_le _ _).trans ?_
    push_cast at hrest
    linarith

/-- What a partial sum of the odd series leaves out. -/
theorem abs_sum_oddTerm_sub_le (hq : 2 ≤ q) {S : ℝ} (h : HasSum (oddTerm alternating q) S) (K : ℕ) :
    |∑ j ∈ Finset.range K, oddTerm alternating q j - S| ≤ 2 / q ^ (2 * K) := by
  have hq' : (2 : ℝ) ≤ q := by exact_mod_cast hq
  have hbound (j : ℕ) : ‖oddTerm alternating q j‖ ≤ 1 * (1 / q ^ 2 : ℝ) ^ j := by
    have hpos : 1 ≤ q * (2 * j + 1) := Nat.mul_pos (by omega) (Nat.succ_pos _)
    have hle : q ^ (2 * j) ≤ q ^ (2 * j + 1) * (2 * j + 1) := by
      rw [pow_succ, mul_assoc]
      exact Nat.le_mul_of_pos_right _ hpos
    rw [Real.norm_eq_abs, abs_oddTerm, one_mul, div_pow, one_pow, ← pow_mul]
    exact one_div_le_one_div_of_le (by positivity) (by exact_mod_cast hle)
  have hratio : 1 / (q : ℝ) ^ 2 ≤ 1 / 2 :=
    one_div_le_one_div_of_le (by norm_num) (by nlinarith)
  have htail := norm_sub_le_of_geometric_bound_of_hasSum (hratio.trans_lt (by norm_num)) hbound h K
  rw [Real.norm_eq_abs, one_mul, div_pow, one_pow, ← pow_mul] at htail
  refine htail.trans ?_
  rw [div_le_iff₀ (by linarith)]
  have hpos : (0 : ℝ) < 1 / q ^ (2 * K) := by positivity
  rw [← mul_one_div 2]
  linarith [mul_le_mul_of_nonneg_left hratio hpos.le]

theorem hasSum_oddTerm_arctan (hq : 2 ≤ q) : HasSum (oddTerm true q) (Real.arctan (q : ℝ)⁻¹) := by
  have hq' : (2 : ℝ) ≤ q := by exact_mod_cast hq
  have hlt : ‖(q : ℝ)⁻¹‖ < 1 := by
    rw [norm_inv, Real.norm_eq_abs, Nat.abs_cast]
    exact inv_lt_one_of_one_lt₀ (by linarith)
  convert Real.hasSum_arctan hlt using 2 with k
  rw [oddTerm]
  rcases Nat.even_or_odd k with heven | hodd
  · have hmod : k % 2 = 0 := Nat.even_iff.1 heven
    simp [hmod, heven.neg_one_pow, div_eq_mul_inv, mul_comm]
  · have hmod : k % 2 = 1 := Nat.odd_iff.1 hodd
    simp [hmod, hodd.neg_one_pow, div_eq_mul_inv, mul_comm]

/-- The inverse hyperbolic tangent of `1/q`, as half the logarithm of a fraction. -/
theorem hasSum_oddTerm_artanh (hq : 2 ≤ q) :
    HasSum (oddTerm false q) ((Real.log (1 + (q : ℝ)⁻¹) - Real.log (1 - (q : ℝ)⁻¹)) / 2) := by
  have hq' : (2 : ℝ) ≤ q := by exact_mod_cast hq
  have hlt : |(q : ℝ)⁻¹| < 1 := by
    rw [abs_inv, Nat.abs_cast]
    exact inv_lt_one_of_one_lt₀ (by linarith)
  refine ((Real.hasSum_log_sub_log_of_abs_lt_one hlt).div_const 2).congr_fun fun k => ?_
  rw [oddTerm, Bool.false_and, if_neg Bool.false_ne_true, inv_pow]
  push_cast
  field_simp

/-- The series with `p` places, whatever its sum. -/
theorem abs_inverseSeries_pow10_sub_le (hq : 2 ≤ q) {S : ℝ} (hS : HasSum (oddTerm alternating q) S)
    (p : ℕ) :
    |inverseSeries alternating q (pow10 p) 0 - pow10 p * S| ≤ 4 * p + 2 * q * (8 * p + 1) := by
  have hends : inverseTerm q (pow10 p) (4 * p) = 0 := by
    refine Nat.div_eq_of_lt ?_
    calc pow10 p ≤ (q ^ 8) ^ p := Nat.pow_le_pow_left
          ((by norm_num : 10 ≤ 2 ^ 8).trans (Nat.pow_le_pow_left hq 8)) p
      _ = q ^ (2 * (4 * p)) := by
        rw [← pow_mul]
        exact congrArg (q ^ ·) (by omega)
      _ < q ^ (2 * (4 * p) + 1) := Nat.pow_lt_pow_right (by omega) (Nat.lt_succ_self _)
      _ ≤ q ^ (2 * (4 * p) + 1) * (2 * (4 * p) + 1) := Nat.le_mul_of_pos_right _ (Nat.succ_pos _)
  have hfirst : ∃ K ≤ 4 * p, (∀ j < K, inverseTerm q (pow10 p) j ≠ 0)
      ∧ inverseTerm q (pow10 p) K = 0 := by
    have hex : ∃ K, inverseTerm q (pow10 p) K = 0 := ⟨4 * p, hends⟩
    exact ⟨Nat.find hex, Nat.find_min' hex hends, fun _ hj => Nat.find_min hex hj,
      Nat.find_spec hex⟩
  obtain ⟨K, hK, hlive, hend⟩ := hfirst
  have hK' : (K : ℝ) ≤ 4 * p := by exact_mod_cast hK
  have hpos : (0 : ℝ) < pow10 p := by exact_mod_cast pow10_pos p
  have hseries :
      |inverseSeries alternating q (pow10 p) 0
        - pow10 p * ∑ j ∈ Finset.Ico 0 K, oddTerm alternating q j| ≤ K - (0 : ℕ) :=
    abs_inverseSeries_sub_le (by omega) K.zero_le hlive hend
  rw [← Finset.range_eq_Ico, Nat.cast_zero, sub_zero] at hseries
  have htail : |pow10 p * ∑ j ∈ Finset.range K, oddTerm alternating q j - pow10 p * S|
      ≤ 2 * q * (2 * K + 1) := by
    have hscale : (pow10 p : ℝ) ≤ q ^ (2 * K + 1) * (2 * K + 1) := by
      have hlt : pow10 p < q ^ (2 * K + 1) * (2 * K + 1) :=
        (Nat.div_eq_zero_iff_lt (Nat.mul_pos (Nat.pow_pos (by omega)) (Nat.succ_pos _))).1 hend
      exact_mod_cast hlt.le
    have hq' : (0 : ℝ) < q := by exact_mod_cast (by omega : 0 < q)
    rw [← mul_sub, abs_mul, abs_of_pos hpos]
    calc pow10 p * |∑ j ∈ Finset.range K, oddTerm alternating q j - S|
        ≤ q ^ (2 * K + 1) * (2 * K + 1) * (2 / q ^ (2 * K)) :=
          mul_le_mul hscale (abs_sum_oddTerm_sub_le hq hS K) (abs_nonneg _) (by positivity)
      _ = 2 * q * (2 * K + 1) := by
        rw [pow_succ]
        field_simp
  have hmono : (2 * q * (2 * K + 1) : ℝ) ≤ 2 * q * (8 * p + 1) :=
    mul_le_mul_of_nonneg_left (by linarith) (by positivity)
  linarith [abs_sub_le (inverseSeries alternating q (pow10 p) 0 : ℝ)
    (pow10 p * ∑ j ∈ Finset.range K, oddTerm alternating q j) (pow10 p * S)]

/-- A combination of two series loses its spare places with at most two units. -/
theorem abs_tdiv_spare_sub_le {p : ℕ} {a : ℤ} {S : ℝ}
    (h : |(a : ℝ) - pow10 (p + spare) * S| ≤ pow10 spare) :
    |((a.tdiv (pow10 spare) : ℤ) : ℝ) - pow10 p * S| ≤ 2 := by
  have hpos : (0 : ℝ) < pow10 spare := by exact_mod_cast pow10_pos spare
  have hcut := abs_tdiv_sub_le a (pow10_pos spare)
  have hdivided : |(a : ℝ) / pow10 spare - pow10 p * S| ≤ 1 := by
    have hfactor : (a : ℝ) / pow10 spare - pow10 p * S
        = (a - pow10 (p + spare) * S) / pow10 spare := by
      rw [pow10_add]
      push_cast
      field_simp
    rw [hfactor, abs_div, abs_of_pos hpos, div_le_one hpos]
    exact h
  linarith [abs_sub_le ((a.tdiv (pow10 spare) : ℤ) : ℝ) (a / pow10 spare) (pow10 p * S)]

/-- Of a number with spare places, `q` multiples of a constant are taken out. The constant is known
to `c` units; the spare places outweigh what that comes to. -/
theorem abs_tdiv_sub_multiples_le {X q constant : ℤ} {E : ℕ} {S T c x : ℝ} (hE : 0 < E)
    (hX : |X - x * (S * E)| ≤ 1) (hconstant : |constant - S * E * T| ≤ c)
    (hq : 1 + c * |(q : ℝ)| ≤ E) :
    |(((X - q * constant).tdiv E : ℤ) : ℝ) - S * (x - q * T)| ≤ 2 := by
  have hE' : (0 : ℝ) < E := by exact_mod_cast hE
  have hcut := abs_tdiv_sub_le (X - q * constant) hE
  have hquotient : |((X - q * constant : ℤ) : ℝ) / E - S * (x - q * T)| ≤ 1 := by
    have hsplit : ((X - q * constant : ℤ) : ℝ) / E - S * (x - q * T)
        = ((X - x * (S * E)) - q * (constant - S * E * T)) / E := by
      push_cast
      field_simp
      ring
    rw [hsplit, abs_div, Nat.abs_cast, div_le_one hE']
    refine (abs_sub _ _).trans ?_
    rw [abs_mul]
    linarith [mul_le_mul_of_nonneg_left hconstant (abs_nonneg (q : ℝ))]
  linarith [abs_sub_le (((X - q * constant).tdiv E : ℤ) : ℝ)
    (((X - q * constant : ℤ) : ℝ) / E) (S * (x - q * T))]

section Constants

variable {p : ℕ} (hp : p ≤ 10 ^ 5)
include hp

/-- The fixed-point π is right to two units, unless it has very many places. -/
theorem abs_pi_sub_le : |pi p - pow10 p * Real.pi| ≤ 2 := by
  have hp' : (p : ℝ) ≤ 10 ^ 5 := by exact_mod_cast hp
  have h5 := abs_inverseSeries_pow10_sub_le (by decide) (hasSum_oddTerm_arctan (q := 5) (by decide))
    (p + spare)
  have h239 := abs_inverseSeries_pow10_sub_le (by decide)
    (hasSum_oddTerm_arctan (q := 239) (by decide)) (p + spare)
  have hmachin := Real.four_mul_arctan_inv_5_sub_arctan_inv_239
  have hspare : (pow10 spare : ℝ) = 10 ^ 10 := by norm_num [spare, pow10]
  refine abs_tdiv_spare_sub_le ?_
  rw [hspare]
  rw [abs_le] at h5 h239 ⊢
  simp only [arctanInverse]
  push_cast [spare] at *
  generalize Real.arctan 5⁻¹ = a at *
  generalize Real.arctan 239⁻¹ = b at *
  have hpi : Real.pi = 16 * a - 4 * b := by linarith
  rw [hpi]
  constructor <;> linarith

/-- The inverse hyperbolic tangent of 1/3 is half the logarithm of 2. -/
theorem abs_artanhInverse_three_sub_le :
    |artanhInverse 3 (pow10 (p + spare)) - pow10 (p + spare) * (Real.log 2 / 2)| ≤ 10 ^ 7 := by
  have hp' : (p : ℝ) ≤ 10 ^ 5 := by exact_mod_cast hp
  have hsum := hasSum_oddTerm_artanh (q := 3) (by decide)
  have hlog : Real.log (1 + ((3 : ℕ) : ℝ)⁻¹) - Real.log (1 - ((3 : ℕ) : ℝ)⁻¹) = Real.log 2 := by
    rw [← Real.log_div (by norm_num) (by norm_num)]
    norm_num
  rw [hlog] at hsum
  refine (abs_inverseSeries_pow10_sub_le (by decide) hsum (p + spare)).trans ?_
  push_cast [spare]
  linarith

/-- The inverse hyperbolic tangent of 1/9 is half the logarithm of 5/4. -/
theorem abs_artanhInverse_nine_sub_le :
    |artanhInverse 9 (pow10 (p + spare))
      - pow10 (p + spare) * ((Real.log 10 - 3 * Real.log 2) / 2)| ≤ 2 * 10 ^ 7 := by
  have hp' : (p : ℝ) ≤ 10 ^ 5 := by exact_mod_cast hp
  have hsum := hasSum_oddTerm_artanh (q := 9) (by decide)
  have hlog : Real.log (1 + ((9 : ℕ) : ℝ)⁻¹) - Real.log (1 - ((9 : ℕ) : ℝ)⁻¹)
      = Real.log 10 - 3 * Real.log 2 := by
    have hpow : 3 * Real.log 2 = Real.log (2 ^ 3) := by
      rw [Real.log_pow]
      norm_num
    rw [hpow, ← Real.log_div (by norm_num) (by norm_num),
      ← Real.log_div (by norm_num) (by norm_num)]
    norm_num
  rw [hlog] at hsum
  refine (abs_inverseSeries_pow10_sub_le (by decide) hsum (p + spare)).trans ?_
  push_cast [spare]
  linarith

theorem abs_ln2_sub_le : |ln2 p - pow10 p * Real.log 2| ≤ 2 := by
  have h3 := abs_artanhInverse_three_sub_le hp
  have hspare : (pow10 spare : ℝ) = 10 ^ 10 := by norm_num [spare, pow10]
  refine abs_tdiv_spare_sub_le ?_
  rw [hspare]
  rw [abs_le] at h3 ⊢
  push_cast
  constructor <;> linarith

theorem abs_ln10_sub_le : |ln10 p - pow10 p * Real.log 10| ≤ 2 := by
  have h3 := abs_artanhInverse_three_sub_le hp
  have h9 := abs_artanhInverse_nine_sub_le hp
  have hspare : (pow10 spare : ℝ) = 10 ^ 10 := by norm_num [spare, pow10]
  refine abs_tdiv_spare_sub_le ?_
  rw [hspare]
  rw [abs_le] at h3 h9 ⊢
  push_cast
  constructor <;> linarith

end Constants

end Keypad.Fixed
