import Keypad.Proofs.Fixed.Logarithm
import Mathlib.Analysis.Complex.ExponentialBounds
import Mathlib.Analysis.SpecialFunctions.Exponential

/-!
# How near the fixed-point exponential is

The error of a fixed-point number is measured in its logarithm, where a square doubles it. The sum
of the exponential series of a small argument is right to a few thousand units; each of the ten
squares doubles this error and cuts its result, and the spare places are dropped at the end.
-/

namespace Keypad.Fixed

open Digits

variable {u : ℤ} {s : ℕ} {g g' δ ε : ℝ}

/-! ## Numbers known by their logarithms -/

/-- The fixed-point number `u` is positive, and its logarithm is near to `g`. -/
structure HasLog (u : ℤ) (s : ℕ) (g ε : ℝ) : Prop where
  pos : 0 < u
  near : |Real.log (u / s) - g| ≤ ε

theorem exp_natCast_le (n : ℕ) : Real.exp n ≤ 3 ^ n :=
  calc Real.exp n = Real.exp 1 ^ n := by rw [← Real.exp_nat_mul, mul_one]
    _ ≤ 3 ^ n := pow_le_pow_left₀ (Real.exp_pos 1).le Real.exp_one_lt_three.le n

theorem le_exp_of_neg_three_le (hg : -3 ≤ g) : 1 / 30 ≤ Real.exp g := by
  have hcube : Real.exp 3 ≤ 3 ^ 3 := by exact_mod_cast exp_natCast_le 3
  refine le_trans ?_ (Real.exp_le_exp.2 hg)
  rw [Real.exp_neg, one_div]
  exact inv_anti₀ (Real.exp_pos 3) (hcube.trans (by norm_num))

/-- A number that is near to a power of `e` which is not too small. -/
theorem hasLog_of_near (hs : 0 < s) (hg : -3 ≤ g) (hδ : δ ≤ 1 / 60)
    (h : |(u / s : ℝ) - Real.exp g| ≤ δ) : HasLog u s g (60 * δ) := by
  have hs' : (0 : ℝ) < s := by exact_mod_cast hs
  have hexp := le_exp_of_neg_three_le hg
  have hlow : (1 / 60 : ℝ) ≤ u / s := by
    rw [abs_le] at h
    linarith
  constructor
  · have hpos : (0 : ℝ) < u := by
      rw [le_div_iff₀ hs'] at hlow
      linarith
    exact_mod_cast hpos
  · have hlog := abs_log_sub_log_le (by norm_num) hlow (hexp.trans' (by norm_num))
    rw [Real.log_exp] at hlog
    refine hlog.trans ?_
    rw [div_div_eq_mul_div, div_one, mul_comm]
    exact mul_le_mul_of_nonneg_left h (by norm_num)

namespace HasLog

theorem mono (h : HasLog u s g δ) (hle : δ ≤ ε) : HasLog u s g ε := ⟨h.pos, h.near.trans hle⟩

theorem moved (h : HasLog u s g δ) (hg : |g - g'| ≤ ε) : HasLog u s g' (δ + ε) :=
  ⟨h.pos, (abs_sub_le _ g _).trans (add_le_add h.near hg)⟩

theorem exp_log (h : HasLog u s g ε) (hs : 0 < s) : Real.exp (Real.log (u / s)) = u / s := by
  have hs' : (0 : ℝ) < s := by exact_mod_cast hs
  have hu : (0 : ℝ) < u := by exact_mod_cast h.pos
  exact Real.exp_log (div_pos hu hs')

/-- A square doubles the error of the logarithm and adds that of its own cut. -/
theorem square (h : HasLog u s g ε) (hs : 60 ≤ s) (hg : -3 ≤ 2 * (g - ε)) :
    HasLog ((u * u).tdiv s) s (2 * g) (60 / s + 2 * ε) := by
  have hpos : 0 < s := by omega
  have hs' : (60 : ℝ) ≤ s := by exact_mod_cast hs
  have hnear := abs_le.1 h.near
  have hsquare : Real.exp (2 * Real.log (u / s)) = (u * u : ℤ) / s / s := by
    rw [two_mul, Real.exp_add, h.exp_log hpos]
    push_cast
    field_simp
  have hcut : |(((u * u).tdiv s : ℤ) / s : ℝ) - Real.exp (2 * Real.log (u / s))| ≤ 1 / s := by
    rw [hsquare, ← sub_div, abs_div, Nat.abs_cast]
    exact div_le_div_of_nonneg_right (abs_tdiv_sub_le (u * u) hpos) (by linarith)
  have hlog := hasLog_of_near hpos (by linarith)
    (one_div_le_one_div_of_le (by norm_num) hs') hcut
  rw [mul_one_div] at hlog
  refine hlog.moved ?_
  rw [← mul_sub, abs_mul, abs_two]
  exact mul_le_mul_of_nonneg_left h.near zero_le_two

/-- Repeated squares: each triples the error at most, its own cut included. -/
theorem repeat_square (h : HasLog u s g ε) (hs : 60 ≤ s) (hε : 60 / s ≤ ε) (n : ℕ)
    (hg : |2 ^ n * g| ≤ 2) (hsmall : 3 ^ n * ε ≤ 1 / 2) :
    HasLog (Nat.repeat (fun x : ℤ => (x * x).tdiv s) n u) s (2 ^ n * g) (3 ^ n * ε) := by
  have hε' : 0 ≤ ε := (abs_nonneg _).trans h.near
  induction n with
  | zero => simpa [Nat.repeat] using h
  | succ n ih =>
    have hpow : (1 : ℝ) ≤ 3 ^ n := one_le_pow₀ (by norm_num)
    have hgrowth : ε ≤ 3 ^ n * ε := le_mul_of_one_le_left hε' hpow
    rw [pow_succ', mul_assoc, abs_mul, abs_two] at hg
    rw [pow_succ', mul_assoc] at hsmall
    have hrest := ih (by linarith [abs_nonneg (2 ^ n * g)]) (by linarith)
    have hlow := (abs_le.1 (show |2 ^ n * g| ≤ 1 by linarith)).1
    rw [pow_succ', pow_succ', mul_assoc, mul_assoc, Nat.repeat]
    exact (hrest.square hs (by linarith)).mono (by linarith)

/-- Fewer places. -/
theorem tdiv_pow10 {w k : ℕ} (h : HasLog u (pow10 (w + k)) g ε) (hw : 60 ≤ pow10 w)
    (hg : -3 ≤ g - ε) : HasLog (u.tdiv (pow10 k)) (pow10 w) g (60 / pow10 w + ε) := by
  have hw' : (60 : ℝ) ≤ pow10 w := by exact_mod_cast hw
  have hk : (0 : ℝ) < pow10 k := by exact_mod_cast pow10_pos k
  have hnear := abs_le.1 h.near
  have hcut : |((u.tdiv (pow10 k) : ℤ) / pow10 w : ℝ)
      - Real.exp (Real.log (u / pow10 (w + k)))| ≤ 1 / pow10 w := by
    have hquotient : (u / pow10 (w + k) : ℝ) = u / pow10 k / pow10 w := by
      rw [pow10_add]
      push_cast
      field_simp
    rw [h.exp_log (pow10_pos _), hquotient, ← sub_div, abs_div, Nat.abs_cast]
    exact div_le_div_of_nonneg_right (abs_tdiv_sub_le u (pow10_pos k)) (by linarith)
  have hlog := hasLog_of_near (pow10_pos w) (by linarith)
    (one_div_le_one_div_of_le (by norm_num) hw') hcut
  rw [mul_one_div] at hlog
  exact hlog.moved h.near

end HasLog

/-! ## The exponential -/

theorem cast_pow10_workDigits : (pow10 workDigits : ℝ) = 10 ^ 64 := cast_pow10 _

theorem exp_eq_sumFrom (x : ℝ) : Real.exp x = sumFrom (ratio x fun _ => 1) 1 := by
  have hexp : HasSum (fun m : ℕ => x ^ m / (m.factorial : ℝ)) (Real.exp x) := by
    rw [Real.exp_eq_exp_ℝ]
    exact NormedSpace.expSeries_div_hasSum_exp x
  have hsum := eq_mul_sumFrom_of_hasSum (a := ratio x fun _ => 1) hexp fun m => by
    rw [ratio, Nat.factorial_succ]
    push_cast
    field_simp
    ring
  simpa using hsum

/-- The exponential series of an argument up to a half. -/
theorem abs_expSeries_sub_le {y : ℤ} {K : ℕ} (hs : 0 < s) (hK : s < 2 ^ K)
    (hy : |(y / s : ℝ)| ≤ 1 / 2) :
    |((s + factorialSeries y s (fun _ => 1) 1 s : ℤ) / s : ℝ) - Real.exp (y / s)|
      ≤ 12 * K / s := by
  have hs' : (0 : ℝ) < s := by exact_mod_cast hs
  have hcut : IsCutOf y s (y / s) := by
    constructor
    · rw [div_mul_cancel₀ _ hs'.ne']
      simp
    · rw [abs_div, Nat.abs_cast, div_mul_cancel₀ _ hs'.ne']
  have hhalf (i : ℕ) (hi : 1 ≤ i) : |ratio (y / s) (fun _ => 1) i| ≤ 1 / 2 := by
    have hi' : (1 : ℝ) ≤ (i * 1 : ℕ) := by exact_mod_cast hi.trans_eq (mul_one i).symm
    rw [ratio, abs_div, Nat.abs_cast]
    exact (div_le_self (abs_nonneg _) hi').trans hy
  have hseries := abs_factorialSeries_sub_le (t := (s : ℤ)) (K := K) (M := 1) hs hcut
    (fun _ _ => Nat.one_pos) le_rfl (le_refl (1 : ℝ))
    (fun i hi => (hhalf i hi).trans (by norm_num)) hhalf
    (by simpa using (by exact_mod_cast hK : (s : ℝ) < 2 ^ K)) (by simp)
  rw [exp_eq_sumFrom]
  have hfactor : ((s + factorialSeries y s (fun _ => 1) 1 s : ℤ) / s : ℝ)
        - sumFrom (ratio (y / s) fun _ => 1) 1
      = ((s + factorialSeries y s (fun _ => 1) 1 s : ℤ)
        - s * sumFrom (ratio (y / s) fun _ => 1) 1) / s := by
    field_simp
  rw [hfactor, abs_div, Nat.abs_cast]
  refine div_le_div_of_nonneg_right (hseries.trans (le_of_eq ?_)) hs'.le
  norm_num
  ring

/-- The argument of the series is cut to 1024 units of the argument given. -/
theorem abs_expArgument_sub_le (r : ℤ) (w : ℕ) :
    |2 ^ 10 * ((Int.fdiv (r * pow10 8) 1024 : ℤ) / pow10 (w + 8) : ℝ) - (r / pow10 w : ℝ)|
      ≤ (1024 / pow10 (w + 8) : ℝ) := by
  obtain ⟨y, hy⟩ : ∃ y, Int.fdiv (r * pow10 8) 1024 = y := ⟨_, rfl⟩
  have hint : |1024 * y - r * pow10 8| ≤ 1024 := by
    rw [Int.fdiv_eq_ediv_of_nonneg _ (by decide)] at hy
    rw [abs_le]
    omega
  have hreal : |(1024 * y - r * pow10 8 : ℝ)| ≤ 1024 := by exact_mod_cast hint
  have hw : (0 : ℝ) < pow10 w := by exact_mod_cast pow10_pos w
  have hfactor : 2 ^ 10 * (y / pow10 (w + 8) : ℝ) - (r / pow10 w : ℝ)
      = (1024 * y - r * pow10 8) / pow10 (w + 8) := by
    have hspare : (pow10 8 : ℝ) ≠ 0 := by exact_mod_cast (pow10_pos 8).ne'
    rw [pow10_add]
    push_cast
    field_simp
    ring
  rw [hy, hfactor, abs_div, Nat.abs_cast]
  exact div_le_div_of_nonneg_right hreal (Nat.cast_nonneg _)

/-- The exponential of an argument of at most three halves. -/
theorem hasLog_exp {r : ℤ} (hr : |(r / pow10 workDigits : ℝ)| ≤ 3 / 2) :
    HasLog (exp r workDigits) (pow10 workDigits) (r / pow10 workDigits) (1 / 10 ^ 60) := by
  have hwide : (pow10 (workDigits + 8) : ℝ) = 10 ^ 72 := cast_pow10 _
  have hpos := pow10_pos (workDigits + 8)
  have hargument := abs_expArgument_sub_le r workDigits
  rw [exp]
  generalize Int.fdiv (r * pow10 8) 1024 = y at hargument ⊢
  generalize (r / pow10 workDigits : ℝ) = g at hr hargument ⊢
  have hsize : |2 ^ 10 * (y / pow10 (workDigits + 8) : ℝ)| ≤ 2 := by
    have habs := abs_sub_abs_le_abs_sub (2 ^ 10 * (y / pow10 (workDigits + 8) : ℝ)) g
    have hunit : (1024 / pow10 (workDigits + 8) : ℝ) ≤ 1 / 2 := by
      rw [hwide]
      norm_num
    linarith
  have hsmall : |(y / pow10 (workDigits + 8) : ℝ)| ≤ 1 / 2 := by
    rw [abs_mul, abs_of_pos (by norm_num : (0 : ℝ) < 2 ^ 10)] at hsize
    linarith
  have hseries := abs_expSeries_sub_le (K := 240) hpos (by decide) hsmall
  have hsum := hasLog_of_near hpos (by linarith [(abs_le.1 hsmall).1])
    (by rw [hwide]; norm_num) hseries
  have hsquares := hsum.repeat_square (by decide) (by rw [hwide]; norm_num) 10 hsize
    (by rw [hwide]; norm_num)
  have hlow : -3 ≤ 2 ^ 10 * (y / pow10 (workDigits + 8) : ℝ)
      - 3 ^ 10 * (60 * (12 * (240 : ℕ) / pow10 (workDigits + 8))) := by
    refine le_trans ?_ (sub_le_sub_right (abs_le.1 hsize).1 _)
    rw [hwide]
    norm_num
  refine ((hsquares.tdiv_pow10 (by decide) hlow).moved hargument).mono ?_
  rw [hwide, cast_pow10_workDigits]
  norm_num

end Keypad.Fixed
