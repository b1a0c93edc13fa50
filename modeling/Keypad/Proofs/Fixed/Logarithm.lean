import Keypad.Proofs.Fixed.Constant

/-!
# How near the fixed-point logarithm is

A power series whose ratio is at most a half loses three units with each of its terms, and has no
more terms than its first power has binary digits. It gives the inverse hyperbolic tangent, which is
half a difference of two logarithms, and so the logarithm of a number between a half and two. A
larger number is halved until it is there; what the halves lose is less than one unit in all.
-/

namespace Keypad.Fixed

open Digits

/-- Logarithms differ by at most the part that the numbers differ by. -/
theorem abs_log_sub_log_le {a b c : ℝ} (hc : 0 < c) (ha : c ≤ a) (hb : c ≤ b) :
    |Real.log a - Real.log b| ≤ |a - b| / c := by
  have hside {a b : ℝ} (ha : c ≤ a) (hb : c ≤ b) : Real.log a - Real.log b ≤ |a - b| / c := by
    have ha' : 0 < a := hc.trans_le ha
    have hb' : 0 < b := hc.trans_le hb
    rw [← Real.log_div ha'.ne' hb'.ne']
    calc Real.log (a / b) ≤ a / b - 1 := Real.log_le_sub_one_of_pos (div_pos ha' hb')
      _ = (a - b) / b := by rw [sub_div, div_self hb'.ne']
      _ ≤ |a - b| / b := div_le_div_of_nonneg_right (le_abs_self _) hb'.le
      _ ≤ |a - b| / c := div_le_div_of_nonneg_left (abs_nonneg _) hc hb
  refine abs_sub_le_iff.2 ⟨hside ha hb, ?_⟩
  rw [abs_sub_comm]
  exact hside hb ha

/-- From a half on, what differs by a unit has logarithms that differ by two units at most. -/
theorem abs_mul_log_sub_mul_log_le {a b s : ℝ} (hs : 0 < s) (ha : 1 / 2 ≤ a) (hb : 1 / 2 ≤ b)
    (h : |a - b| ≤ 1 / s) : |s * Real.log a - s * Real.log b| ≤ 2 := by
  have hlog := (abs_log_sub_log_le one_half_pos ha hb).trans
    (div_le_div_of_nonneg_right h one_half_pos.le)
  rw [← mul_sub, abs_mul, abs_of_pos hs]
  calc s * |Real.log a - Real.log b| ≤ s * (1 / s / (1 / 2)) :=
        mul_le_mul_of_nonneg_left hlog hs.le
    _ = 2 := by field_simp

/-! ## Power series -/

section PowerSeries

variable {y p : ℤ} {s k K : ℕ} {v : ℝ}

/-- The ratio of the terms `vⁿ / (2 n + 1)` at the index `n`. -/
noncomputable def oddRatio (v : ℝ) (n : ℕ) : ℝ := v * ((2 * n - 1) / (2 * n + 1))

theorem abs_oddRatio_le (v : ℝ) {n : ℕ} (hn : 1 ≤ n) : |oddRatio v n| ≤ |v| := by
  have hn' : (1 : ℝ) ≤ n := by exact_mod_cast hn
  have hpart : |((2 * n - 1) / (2 * n + 1) : ℝ)| ≤ 1 := by
    rw [abs_of_nonneg (div_nonneg (by linarith) (by linarith)), div_le_one (by linarith)]
    linarith
  rw [oddRatio, abs_mul]
  exact mul_le_of_le_one_right (abs_nonneg v) hpart

theorem powerSeries_eq_zero (hy : y.natAbs ≤ s) (hp : p.natAbs ≤ 2 * k) :
    powerSeries y s hy k p = 0 := by
  have hterm : (powerStep y s p).tdiv ((2 * k + 1 : ℕ) : ℤ) = 0 := by
    rw [← Int.natAbs_eq_zero, Int.natAbs_tdiv, Int.natAbs_natCast]
    exact Nat.div_eq_of_lt (Nat.lt_succ_of_le ((natAbs_powerStep_le hy p).trans hp))
  rw [powerSeries]
  exact if_pos hterm

/-- A term that is cut to zero is followed by none: the powers do not grow, and the divisors do. -/
theorem powerSeries_eq (hy : y.natAbs ≤ s) (k : ℕ) (p : ℤ) :
    powerSeries y s hy k p = (powerStep y s p).tdiv ((2 * k + 1 : ℕ) : ℤ)
      + powerSeries y s hy (k + 1) (powerStep y s p) := by
  rw [powerSeries]
  split
  · next hzero =>
    have hsmall : (powerStep y s p).natAbs < 2 * k + 1 := by
      rw [← Int.natAbs_eq_zero, Int.natAbs_tdiv, Int.natAbs_natCast] at hzero
      exact (Nat.div_eq_zero_iff_lt (Nat.succ_pos _)).1 hzero
    rw [hzero, powerSeries_eq_zero hy (by omega), Int.add_zero]
  · rfl

theorem abs_oddRatio_le_half (hv : |v| ≤ 1 / 2) (n : ℕ) (hn : 1 ≤ n) : |oddRatio v n| ≤ 1 / 2 :=
  (abs_oddRatio_le v hn).trans hv

/-- A term and the terms behind it, whose errors are those of the power, of the division and of the
rest of the series. -/
theorem abs_oddTerm_add_sub_le (hv : |v| ≤ 1 / 2) (hk : 1 ≤ k) {q : ℤ} {rest bound : ℝ}
    (hpower : |(q : ℝ) - p * v| ≤ 2)
    (hrest : |rest - q * (v / (2 * (k + 1 : ℕ) + 1) * sumFrom (oddRatio v) (k + 1 + 1))| ≤ bound) :
    |(q.tdiv ((2 * k + 1 : ℕ) : ℤ) : ℝ) + rest
        - p * (v / (2 * k + 1) * sumFrom (oddRatio v) (k + 1))| ≤ bound + 3 := by
  have hk' : (1 : ℝ) ≤ k := by exact_mod_cast hk
  have hcut := abs_tdiv_sub_le q (Nat.succ_pos (2 * k))
  -- The error of the power, carried along by the terms that follow.
  have hcarried : |(q - p * v) * (sumFrom (oddRatio v) (k + 1) / (2 * k + 1))| ≤ 2 := by
    have hsum := abs_sumFrom_le (abs_oddRatio_le_half hv) (n := k + 1) (by omega)
    have hpart : |sumFrom (oddRatio v) (k + 1) / (2 * k + 1)| ≤ 1 := by
      rw [abs_div, abs_of_pos (by positivity : (0 : ℝ) < 2 * k + 1), div_le_one (by positivity)]
      exact hsum.trans (by linarith)
    rw [abs_mul]
    exact (mul_le_of_le_one_right (abs_nonneg _) hpart).trans hpower
  have hsplit : (q.tdiv ((2 * k + 1 : ℕ) : ℤ) : ℝ) + rest
        - p * (v / (2 * k + 1) * sumFrom (oddRatio v) (k + 1))
      = (q.tdiv ((2 * k + 1 : ℕ) : ℤ) - q / (2 * k + 1 : ℕ))
        + (rest - q * (v / (2 * (k + 1 : ℕ) + 1) * sumFrom (oddRatio v) (k + 1 + 1)))
        + (q - p * v) * (sumFrom (oddRatio v) (k + 1) / (2 * k + 1)) := by
    rw [sumFrom_eq (abs_oddRatio_le_half hv) (k + 1), oddRatio]
    push_cast
    field_simp
    ring
  rw [hsplit]
  refine (abs_add_three _ _ _).trans ?_
  push_cast at hcut hrest ⊢
  linarith

variable (hs : 0 < s) (hy : IsCutOf y s v) (hv : |v| ≤ 1 / 2)
include hs hy hv

/-- A power is at least halved and misses the value of its factors by two units. -/
theorem abs_powerStep_le (hp : |(p : ℝ)| ≤ s) :
    |(powerStep y s p : ℝ)| ≤ |(p : ℝ)| * (1 / 2) ∧ |(powerStep y s p : ℝ) - p * v| ≤ 2 := by
  have hs' : (0 : ℝ) < s := by exact_mod_cast hs
  have hpart : |(p : ℝ)| / s ≤ 1 := (div_le_one hs').2 hp
  exact ⟨(hy.abs_mul_tdiv_le hs p).trans (mul_le_mul_of_nonneg_left hv (abs_nonneg _)),
    (hy.abs_mul_tdiv_sub_le hs p).trans (by linarith)⟩

/-- The powers are at least halved, so that `K` terms lead to zero. -/
theorem abs_powerSeries_sub_le (hshrinks : y.natAbs ≤ s) (hk : 1 ≤ k) (hp : |(p : ℝ)| ≤ s)
    (hterms : |(p : ℝ)| < 2 ^ K) :
    |powerSeries y s hshrinks k p - p * (v / (2 * k + 1) * sumFrom (oddRatio v) (k + 1))|
      ≤ 3 * K := by
  induction K generalizing k p with
  | zero =>
    have hzero : p = 0 := by
      rw [← Int.abs_lt_one_iff]
      rw [pow_zero] at hterms
      exact_mod_cast hterms
    rw [hzero, powerSeries_eq_zero hshrinks (by simp)]
    simp
  | succ K ih =>
    obtain ⟨hsize, hpower⟩ := abs_powerStep_le hs hy hv hp
    have hrest := ih (k := k + 1) (p := powerStep y s p) (by omega)
      (hsize.trans (by linarith [abs_nonneg (p : ℝ)])) (by rw [pow_succ] at hterms; linarith)
    rw [powerSeries_eq hshrinks, Int.cast_add]
    refine (abs_oddTerm_add_sub_le hv hk hpower hrest).trans_eq ?_
    rw [Nat.cast_add_one]
    ring

end PowerSeries

/-! ## The inverse hyperbolic tangent -/

/-- The difference of logarithms of which the inverse hyperbolic tangent is half. -/
noncomputable def logRatio (x : ℝ) : ℝ := Real.log (1 + x) - Real.log (1 - x)

theorem logRatio_eq_mul_sumFrom {x : ℝ} (hx : |x| < 1) :
    logRatio x = 2 * x * sumFrom (oddRatio (x ^ 2)) 1 := by
  have hsum := eq_mul_sumFrom_of_hasSum (a := oddRatio (x ^ 2))
    (Real.hasSum_log_sub_log_of_abs_lt_one hx) fun m => by
      rw [oddRatio]
      push_cast
      field_simp
      ring
  rw [logRatio, hsum]
  simp

theorem abs_logRatio_sub_le {a b : ℝ} (ha : |a| ≤ 1 / 2) (hb : |b| ≤ 1 / 2) :
    |logRatio a - logRatio b| ≤ 4 * |a - b| := by
  rw [abs_le] at ha hb
  have hplus := abs_log_sub_log_le (a := 1 + a) (b := 1 + b) one_half_pos (by linarith)
    (by linarith)
  have hminus := abs_log_sub_log_le (a := 1 - a) (b := 1 - b) one_half_pos (by linarith)
    (by linarith)
  rw [add_sub_add_left_eq_sub] at hplus
  rw [sub_sub_sub_cancel_left, abs_sub_comm b a] at hminus
  rw [logRatio, logRatio, sub_sub_sub_comm]
  refine (abs_sub _ _).trans ?_
  linarith

theorem abs_artanh_sub_le {z : ℤ} {s K : ℕ} (hs : 0 < s) (hK : s < 2 ^ K) (hle : z.natAbs ≤ s)
    (hz : |(z / s : ℝ)| ≤ 1 / 2) : |2 * artanh z s hle - s * logRatio (z / s)| ≤ 6 * K := by
  have hs' : (0 : ℝ) < s := by exact_mod_cast hs
  have hsize : |(z : ℝ)| ≤ s := by
    rw [abs_div, Nat.abs_cast, div_le_iff₀ hs'] at hz
    linarith
  have hsquare : |((z / s : ℝ) ^ 2)| ≤ 1 / 2 := by
    rw [abs_pow]
    exact (pow_le_pow_left₀ (abs_nonneg _) hz 2).trans (by norm_num)
  have hhalf (i : ℕ) (hi : 1 ≤ i) : |oddRatio ((z / s : ℝ) ^ 2) i| ≤ 1 / 2 :=
    (abs_oddRatio_le _ hi).trans hsquare
  have hseries := abs_powerSeries_sub_le hs (isCutOf_sq z hs) hsquare (natAbs_square_tdiv_le hle)
    le_rfl hsize (hsize.trans_lt (by exact_mod_cast hK))
  have hfactor : (2 * artanh z s hle : ℝ) - s * logRatio (z / s)
      = 2 * (powerSeries ((z * z).tdiv s) s (natAbs_square_tdiv_le hle) 1 z
        - z * ((z / s) ^ 2 / (2 * (1 : ℕ) + 1) * sumFrom (oddRatio ((z / s) ^ 2)) (1 + 1))) := by
    rw [artanh, logRatio_eq_mul_sumFrom (hz.trans_lt (by norm_num)), sumFrom_eq hhalf, oddRatio]
    push_cast
    field_simp
    ring
  rw [hfactor, abs_mul, abs_two]
  linarith

/-! ## The logarithm -/

/-- The logarithm of a number between a half and two. -/
theorem abs_lnNearOne_sub_le {t s K : ℕ} (hs : 0 < s) (hK : s < 2 ^ K) (hlow : s ≤ 2 * t)
    (hhigh : t ≤ 2 * s) : |lnNearOne t s - s * Real.log (t / s)| ≤ 6 * K + 4 := by
  have hs' : (0 : ℝ) < s := by exact_mod_cast hs
  have hlow' : (s : ℝ) ≤ 2 * t := by exact_mod_cast hlow
  have hhigh' : (t : ℝ) ≤ 2 * s := by exact_mod_cast hhigh
  have hsum : (0 : ℝ) < t + s := by linarith
  have hu : |((t - s) / (t + s) : ℝ)| ≤ 1 / 2 := by
    rw [abs_div, abs_of_pos hsum, div_le_iff₀ hsum, abs_le]
    constructor <;> linarith
  have hlog : logRatio ((t - s) / (t + s)) = Real.log (t / s) := by
    have hplus : (1 + (t - s) / (t + s) : ℝ) = 2 * t / (t + s) := by
      field_simp
      ring
    have hminus : (1 - (t - s) / (t + s) : ℝ) = 2 * s / (t + s) := by
      field_simp
      ring
    rw [logRatio, hplus, hminus, ← Real.log_div (div_pos (by linarith) hsum).ne'
      (div_pos (by linarith) hsum).ne']
    congr 1
    field_simp
  have hcut : IsCutOf (artanhArgument t s) s ((t - s) / (t + s)) := by
    rw [artanhArgument, ← Nat.cast_add]
    refine isCutOf_tdiv (by omega) ?_
    push_cast
    field_simp
  rw [lnNearOne, ← hlog]
  generalize natAbs_artanhArgument_le t s = hle
  generalize artanhArgument t s = z at hcut hle
  generalize ((t - s) / (t + s) : ℝ) = u at hu hcut
  have hz : |(z / s : ℝ)| ≤ 1 / 2 := by
    rw [abs_div, Nat.abs_cast, div_le_iff₀ hs']
    exact hcut.le.trans (mul_le_mul_of_nonneg_right hu hs'.le)
  have hargument : |(z / s : ℝ) - u| ≤ 1 / s := by
    have hfactor : (z / s : ℝ) - u = (z - u * s) / s := by field_simp
    rw [hfactor, abs_div, Nat.abs_cast]
    exact div_le_div_of_nonneg_right hcut.near hs'.le
  have hmoved : |s * logRatio (z / s) - s * logRatio u| ≤ 4 := by
    rw [← mul_sub, abs_mul, Nat.abs_cast]
    calc s * |logRatio (z / s) - logRatio u| ≤ s * (4 * (1 / s)) := by
          refine mul_le_mul_of_nonneg_left ((abs_logRatio_sub_le hz hu).trans ?_) hs'.le
          exact mul_le_mul_of_nonneg_left hargument (by norm_num)
      _ = 4 := by field_simp
  have hartanh := abs_artanh_sub_le hs hK hle hz
  push_cast
  linarith [abs_sub_le (2 * artanh z s hle : ℝ) (s * logRatio (z / s)) (s * logRatio u)]

/-- The halves of a number, and how many were taken. -/
theorem exists_halve {bound : ℕ} (hbound : 0 < bound) (t count : ℕ) :
    ∃ j, halve bound t count = (t / 2 ^ j, count + j) ∧ t / 2 ^ j < bound
      ∧ (j = 0 ∨ bound ≤ 2 * (t / 2 ^ j) + 1) := by
  fun_induction halve bound t count with
  | case1 t count h ih =>
    obtain ⟨j, hhalve, hlt, hlow⟩ := ih
    have hpow : t / 2 ^ (j + 1) = t / 2 / 2 ^ j := by rw [Nat.pow_succ', Nat.div_div_eq_div_mul]
    refine ⟨j + 1, ?_, ?_, .inr ?_⟩
    · rw [hhalve, hpow, Nat.add_right_comm, Nat.add_assoc]
    · rwa [hpow]
    · rw [hpow]
      rcases hlow with rfl | hlow
      · rw [Nat.pow_zero, Nat.div_one]
        omega
      · exact hlow
  | case2 t count h =>
    refine ⟨0, ?_, ?_, .inl rfl⟩
    · simp
    · rw [Nat.pow_zero, Nat.div_one]
      omega

/-- The logarithm of a number from one on. The halves stand for the number divided by a power of two
and lose less than a unit. -/
theorem abs_lnNearOne_halve_sub_le {m s K t j : ℕ} (hs : 2 ≤ s) (hK : s < 2 ^ K) (hm : s ≤ m)
    (h : halve (s * 3 / 2) m 0 = (t, j)) :
    |lnNearOne t s + s * (j * Real.log 2) - s * Real.log (m / s)| ≤ 6 * K + 6
      ∧ s * 2 ^ j ≤ 2 * m := by
  have hbound : 0 < s * 3 / 2 := by omega
  obtain ⟨i, hhalve, hlt, hlow⟩ := exists_halve hbound m 0
  rw [h, Nat.zero_add, Prod.mk.injEq] at hhalve
  obtain ⟨rfl, rfl⟩ := hhalve
  have hmul := Nat.div_mul_le_self m (2 ^ j)
  have hrest := Nat.lt_mul_div_succ m (Nat.two_pow_pos j)
  have ht : s ≤ 2 * (m / 2 ^ j) := by
    rcases hlow with rfl | hlow
    · rw [Nat.pow_zero, Nat.div_one]
      omega
    · omega
  have hnear := abs_lnNearOne_sub_le (by omega) hK ht (by omega)
  generalize m / 2 ^ j = t at *
  constructor
  · have hs' : (0 : ℝ) < s := by exact_mod_cast (by omega : 0 < s)
    have ht' : (s : ℝ) ≤ 2 * t := by exact_mod_cast ht
    have hpow : (0 : ℝ) < 2 ^ j := by positivity
    have hmul' : (t : ℝ) ≤ m / 2 ^ j := by
      rw [le_div_iff₀ hpow]
      exact_mod_cast hmul
    have hrest' : (m / 2 ^ j : ℝ) ≤ t + 1 := by
      rw [div_le_iff₀ hpow, mul_comm]
      exact_mod_cast hrest.le
    have hm' : (0 : ℝ) < m := by exact_mod_cast (by omega : 0 < m)
    have hdistance : |(t / s : ℝ) - m / 2 ^ j / s| ≤ 1 / s := by
      rw [← sub_div, abs_div, Nat.abs_cast]
      refine div_le_div_of_nonneg_right ?_ hs'.le
      rw [abs_le]
      constructor <;> linarith
    have hlost := abs_mul_log_sub_mul_log_le (a := t / s) (b := m / 2 ^ j / s) hs'
      (by rw [le_div_iff₀ hs']; linarith) (by rw [le_div_iff₀ hs']; linarith) hdistance
    have htwo : Real.log (m / s) = j * Real.log 2 + Real.log (m / 2 ^ j / s) := by
      rw [← Real.log_pow, ← Real.log_mul hpow.ne' (by positivity)]
      congr 1
      field_simp
    rw [htwo]
    rw [abs_le] at hnear hlost ⊢
    constructor <;> linarith
  · calc s * 2 ^ j ≤ 2 * t * 2 ^ j := Nat.mul_le_mul_right _ ht
      _ = 2 * (t * 2 ^ j) := Nat.mul_assoc _ _ _
      _ ≤ 2 * m := Nat.mul_le_mul_left 2 hmul

end Keypad.Fixed
