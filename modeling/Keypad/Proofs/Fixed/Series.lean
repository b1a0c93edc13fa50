import Keypad.Decimal.Circular
import Keypad.Proofs.Decimal.Rounding
import Mathlib.Tactic.Linarith

/-!
# The size of fixed-point series

An alternating series lies between zero and its first term, which brings π between three and four.
The other two series are bounded by what their ending rests on: a power series has no more terms
than its first power is large, and the terms of a factorial series grow only while the index does
not exceed the ratio. From these bounds follow those of the functions that sum the series.
-/

namespace Keypad.Fixed

open Digits

theorem pow10_mul (a n : Nat) : pow10 (a * n) = pow10 a ^ n := Nat.pow_mul 10 a n

/-! ## Alternating series -/

variable {q scale k : Nat}

theorem inverseTerm_zero (q scale : Nat) : inverseTerm q scale 0 = scale / q := by
  simp [inverseTerm]

theorem inverseTerm_succ_le (hq : 0 < q) (scale k : Nat) :
    inverseTerm q scale (k + 1) ≤ inverseTerm q scale k := by
  refine Nat.div_le_div_left (Nat.mul_le_mul ?_ (by omega)) ?_
  · exact Nat.pow_le_pow_right hq (by omega)
  · exact Nat.mul_pos (Nat.pow_pos hq) (by omega)

/-- The rest of an alternating series has the sign of its first term and is not larger. -/
theorem exists_inverseSeries (hq : 0 < q) (scale k : Nat) :
    ∃ r : Nat, r ≤ inverseTerm q scale k ∧
      inverseSeries true q scale k = if k % 2 = 1 then -(r : Int) else r := by
  fun_induction inverseSeries true q scale k with
  | case1 k term hzero => exact ⟨0, Nat.zero_le _, by simp⟩
  | case2 k term hne ih =>
    obtain ⟨r, hr, hrest⟩ := ih
    have hterm : inverseTerm q scale (k + 1) ≤ term := inverseTerm_succ_le hq scale k
    refine ⟨term - r, Nat.sub_le _ _, ?_⟩
    rw [hrest]
    have hle : r ≤ term := hr.trans hterm
    rcases Nat.mod_two_eq_zero_or_one k with heven | hodd
    · have hnext : (k + 1) % 2 = 1 := by omega
      simp [heven, hnext]
      omega
    · have hnext : (k + 1) % 2 = 0 := by omega
      simp [hodd, hnext]
      omega

theorem arctanInverse_le (hq : 0 < q) (scale : Nat) :
    0 ≤ arctanInverse q scale ∧ arctanInverse q scale ≤ (scale / q : Nat) := by
  obtain ⟨r, hr, hseries⟩ := exists_inverseSeries hq scale 0
  rw [inverseTerm_zero] at hr
  rw [arctanInverse, hseries, if_neg (by decide)]
  omega

/-- The series does not fall short of its first two terms. -/
theorem le_arctanInverse (hq : 0 < q) (scale : Nat) :
    ((scale / q : Nat) : Int) - (inverseTerm q scale 1 : Nat) ≤ arctanInverse q scale := by
  obtain ⟨r, hr, hrest⟩ := exists_inverseSeries hq scale 1
  rw [if_pos (by decide)] at hrest
  rw [arctanInverse, inverseSeries]
  simp only [inverseTerm_zero]
  split
  · omega
  · rw [hrest]
    simp
    omega

/-- The number π lies between three and four. -/
theorem pi_bounds (places : Nat) :
    3 * (pow10 places : Int) ≤ pi places ∧ pi places ≤ 4 * pow10 places := by
  have hscale : pow10 (places + spare) = 10000000000 * pow10 places := by
    rw [pow10_add, Nat.mul_comm]
    rfl
  have hpos := pow10_pos places
  have hspare : (pow10 spare : Int) = 10000000000 := rfl
  rw [pi]
  simp only [hscale, hspare]
  generalize pow10 places = u at hpos ⊢
  obtain ⟨hlow5, hhigh5⟩ := arctanInverse_le (q := 5) (by decide) (10000000000 * u)
  obtain ⟨hlow239, hhigh239⟩ := arctanInverse_le (q := 239) (by decide) (10000000000 * u)
  have htwo := le_arctanInverse (q := 5) (by decide) (10000000000 * u)
  have hsecond : inverseTerm 5 (10000000000 * u) 1 = 10000000000 * u / 375 := rfl
  rw [hsecond] at htwo
  generalize arctanInverse 5 (10000000000 * u) = a at hlow5 hhigh5 htwo ⊢
  generalize arctanInverse 239 (10000000000 * u) = b at hlow239 hhigh239 ⊢
  have hnonneg : 0 ≤ 16 * a - 4 * b := by omega
  rw [Int.tdiv_eq_ediv_of_nonneg hnonneg]
  omega

/-! ## Power series -/

/-- The terms are at most as large as the first power, and not more than it exceeds the index. -/
theorem natAbs_powerSeries_le_sub {y : Int} {s : Nat} (hy : y.natAbs ≤ s) (k : Nat) (p : Int) :
    (powerSeries y s hy k p).natAbs ≤ (p.natAbs - k) * p.natAbs := by
  fun_induction powerSeries y s hy k p with
  | case1 k p power term hend => exact Nat.zero_le _
  | case2 k p power term hterm ih =>
    have hpower : power.natAbs ≤ p.natAbs := natAbs_powerStep_le hy p
    have hsize : term.natAbs = power.natAbs / (2 * k + 1) := by
      rw [Int.natAbs_tdiv, Int.natAbs_natCast]
      rfl
    have hle : term.natAbs ≤ p.natAbs := by
      rw [hsize]
      exact (Nat.div_le_self _ _).trans hpower
    have hlarge : k + 1 ≤ p.natAbs := by
      by_contra hsmall
      refine hterm (Int.natAbs_eq_zero.1 ?_)
      rw [hsize]
      exact Nat.div_eq_of_lt (by omega)
    obtain ⟨j, hj⟩ := Nat.exists_eq_add_of_le hlarge
    calc (term + powerSeries y s hy (k + 1) power).natAbs
        ≤ term.natAbs + (powerSeries y s hy (k + 1) power).natAbs := Int.natAbs_add_le _ _
      _ ≤ p.natAbs + (power.natAbs - (k + 1)) * power.natAbs := Nat.add_le_add hle ih
      _ ≤ p.natAbs + j * p.natAbs :=
        Nat.add_le_add_left (Nat.mul_le_mul (by omega) hpower) _
      _ = (p.natAbs - k) * p.natAbs := by
        have hcount : p.natAbs - k = j + 1 := by omega
        rw [hcount]
        ring

theorem natAbs_powerSeries_le {y : Int} {s : Nat} (hy : y.natAbs ≤ s) (k : Nat) (p : Int) :
    (powerSeries y s hy k p).natAbs ≤ p.natAbs * p.natAbs :=
  (natAbs_powerSeries_le_sub hy k p).trans (Nat.mul_le_mul_right _ (Nat.sub_le _ _))

/-! ## Factorial series -/

variable {y t : Int} {s b n : Nat} {cofactor : Nat → Nat}

theorem natAbs_factorialStep_le (hb : y.natAbs / s ≤ b) (cofactor : Nat → Nat) (n : Nat) (t : Int) :
    (factorialStep y s cofactor n t).natAbs ≤ t.natAbs * (b + 1) := by
  rw [natAbs_factorialStep]
  refine (Nat.div_le_self _ _).trans ?_
  by_cases hs : s = 0
  · simp [hs]
  · refine Nat.div_le_of_le_mul ?_
    have hy : y.natAbs ≤ s * (b + 1) :=
      (Nat.lt_mul_div_succ y.natAbs (Nat.pos_of_ne_zero hs)).le.trans
        (Nat.mul_le_mul_left s (Nat.succ_le_succ hb))
    calc t.natAbs * y.natAbs ≤ t.natAbs * (s * (b + 1)) := Nat.mul_le_mul_left _ hy
      _ = s * (t.natAbs * (b + 1)) := by ring

/-- No term that follows `t` is larger than this. -/
def peak (b n t : Nat) : Nat := t * (b + 1) ^ (b + 1 - n)

/-- The terms grow for at most `b + 1 - n` steps, and shrink to zero from there on. -/
theorem natAbs_factorialSeries_le (hb : y.natAbs / s ≤ b) (cofactor : Nat → Nat) (n : Nat)
    (t : Int) :
    (factorialSeries y s cofactor n t).natAbs ≤
      (b + 1 - n) * peak b n t.natAbs + peak b n t.natAbs ^ 2 := by
  fun_induction factorialSeries y s cofactor n t with
  | case1 n t next hend => exact Nat.zero_le _
  | case2 n t next hgoes ih =>
    have hstep : next.natAbs ≤ t.natAbs * (b + 1) := natAbs_factorialStep_le hb cofactor n t
    refine (Int.natAbs_add_le _ _).trans ((Nat.add_le_add_left ih _).trans ?_)
    by_cases hn : b < n
    · have hshrink : next.natAbs < t.natAbs := natAbs_factorialStep_lt hgoes (by omega)
      have hdone : b + 1 - (n + 1) = 0 ∧ b + 1 - n = 0 := by omega
      simp only [peak, hdone.1, hdone.2, Nat.pow_zero, Nat.mul_one, Nat.zero_mul, Nat.zero_add]
      have hsquare : (next.natAbs + 1) ^ 2 ≤ t.natAbs ^ 2 := Nat.pow_le_pow_left hshrink 2
      generalize next.natAbs = l at hsquare ⊢
      linarith
    · have hleft : b + 1 - n = b + 1 - (n + 1) + 1 := by omega
      have hpeak : peak b (n + 1) next.natAbs ≤ peak b n t.natAbs := by
        rw [peak, peak, hleft, Nat.pow_succ']
        rw [← Nat.mul_assoc]
        exact Nat.mul_le_mul_right _ hstep
      have hnext : next.natAbs ≤ peak b n t.natAbs :=
        (Nat.le_mul_of_pos_right _ (Nat.pow_pos (Nat.succ_pos b))).trans hpeak
      rw [hleft]
      generalize peak b n t.natAbs = m at hpeak hnext ⊢
      generalize peak b (n + 1) next.natAbs = l at hpeak ⊢
      have hsum := Nat.mul_le_mul_left (b + 1 - (n + 1)) hpeak
      have hsquare := Nat.pow_le_pow_left hpeak 2
      linarith

/-- The sum of a factorial series from its start, in powers of ten. -/
theorem natAbs_factorialSeries_lt {a c : Nat} (hb : y.natAbs / s ≤ b) (hc : b + 1 ≤ pow10 c)
    (ht : t.natAbs ≤ pow10 a) (cofactor : Nat → Nat) :
    (factorialSeries y s cofactor 1 t).natAbs < pow10 (2 * (a + c * (b + 1)) + 1) := by
  have hpeak : peak b 1 t.natAbs ≤ pow10 (a + c * b) := by
    rw [peak, pow10_add, Nat.add_sub_cancel]
    rw [pow10_mul]
    exact Nat.mul_le_mul ht (Nat.pow_le_pow_left hc b)
  have hexponent : c + (a + c * b) = a + c * (b + 1) := by ring
  have hlinear : b * peak b 1 t.natAbs ≤ pow10 (2 * (a + c * (b + 1))) := by
    refine (Nat.mul_le_mul ((Nat.le_succ b).trans hc) hpeak).trans ?_
    rw [← pow10_add, hexponent]
    exact pow10_le_pow10 (by omega)
  have hsquare : peak b 1 t.natAbs ^ 2 ≤ pow10 (2 * (a + c * (b + 1))) := by
    rw [sq]
    refine (Nat.mul_le_mul hpeak hpeak).trans ?_
    rw [← pow10_add]
    exact pow10_le_pow10 (by omega)
  have hseries := natAbs_factorialSeries_le hb cofactor 1 t
  rw [Nat.add_sub_cancel] at hseries
  have hpos := pow10_pos (2 * (a + c * (b + 1)))
  rw [pow10_succ]
  omega

/-! ## Functions -/

theorem halve_le (bound t count : Nat) :
    (halve bound t count).1 ≤ t ∧ (halve bound t count).2 ≤ count + t := by
  fun_induction halve bound t count with
  | case1 t count h ih => omega
  | case2 t count h => omega

/-- The inverse hyperbolic tangent sums powers that are not larger than its argument. -/
theorem natAbs_artanh_le {z : Int} {s : Nat} (hz : z.natAbs ≤ s) :
    (artanh z s hz).natAbs ≤ z.natAbs + z.natAbs * z.natAbs :=
  (Int.natAbs_add_le _ _).trans (Nat.add_le_add_left (natAbs_powerSeries_le _ _ _) _)

theorem natAbs_lnNearOne_le (t s : Nat) : (lnNearOne t s).natAbs ≤ 2 * (s + s * s) := by
  have hz := natAbs_artanhArgument_le t s
  rw [lnNearOne, Int.natAbs_mul]
  refine Nat.mul_le_mul_left 2 ((natAbs_artanh_le _).trans ?_)
  exact Nat.add_le_add hz (Nat.mul_le_mul hz hz)

/-- The tangent of half an angle is at most half of its tangent. -/
theorem two_mul_natAbs_halfTangent_le (s : Nat) (t : Int) :
    2 * (halfTangent s t).natAbs ≤ t.natAbs := by
  have hleg : ((s : Int) + (t * t).tdiv s) * s = ((s + t.natAbs * t.natAbs / s) * s : Nat) := by
    have hsquare : (t * t).tdiv s = (t.natAbs * t.natAbs / s : Nat) := by
      rw [← Int.natAbs_mul_self' t]
      rfl
    rw [hsquare]
    norm_cast
  have hroot : s ≤ Nat.sqrt ((s + t.natAbs * t.natAbs / s) * s) :=
    Nat.le_sqrt.2 (Nat.mul_le_mul_right s (Nat.le_add_right _ _))
  rw [halfTangent, hleg, Int.natAbs_natCast, Int.natAbs_tdiv, Int.natAbs_mul, Int.natAbs_natCast]
  generalize Nat.sqrt ((s + t.natAbs * t.natAbs / s) * s) = root at *
  have hsum : ((s : Int) + root).natAbs = s + root := Int.natAbs_natCast (s + root)
  rw [hsum]
  refine (Nat.mul_div_le_mul_div_assoc 2 _ _).trans (Nat.div_le_of_le_mul ?_)
  calc 2 * (t.natAbs * s) = 2 * s * t.natAbs := by ring
    _ ≤ (s + root) * t.natAbs := Nat.mul_le_mul_right _ (by omega)

theorem natAbs_arctan_le (t : Int) (s : Nat) : (arctan t s).natAbs ≤ 8 * (s + s * s) := by
  have hu := natAbs_eighth_le s t
  rw [arctan, Int.natAbs_mul]
  refine Nat.mul_le_mul_left 8 ((Int.natAbs_add_le _ _).trans ?_)
  exact Nat.add_le_add hu ((natAbs_powerSeries_le _ _ _).trans (Nat.mul_le_mul hu hu))

/-- Repeated squares at the scale `s` are at most those of integers. -/
theorem natAbs_repeat_square_le (s k : Nat) (x : Int) :
    (Nat.repeat (fun x : Int => (x * x).tdiv s) k x).natAbs ≤ x.natAbs ^ 2 ^ k := by
  induction k with
  | zero => simp [Nat.repeat]
  | succ k ih =>
    rw [Nat.repeat, Int.natAbs_tdiv, Int.natAbs_mul, Nat.pow_succ, Nat.pow_mul, sq]
    exact (Nat.div_le_self _ _).trans (Nat.mul_le_mul ih ih)

/-- The exponential of an argument up to one. The bound is that of the ten squares. -/
theorem natAbs_exp_le {r : Int} {w : Nat} (hr : r.natAbs ≤ pow10 w) :
    (exp r w).natAbs ≤ pow10 ((2 * w + 22) * 2 ^ 10) := by
  have hy : (Int.fdiv (r * pow10 8) 1024).natAbs ≤ pow10 (w + 8) := by
    have hsize : (r * pow10 8).natAbs ≤ pow10 (w + 8) := by
      rw [Decimal.natAbs_mul_pow10, pow10_add]
      exact Nat.mul_le_mul_right _ hr
    rw [Int.fdiv_eq_ediv_of_nonneg _ (by decide)]
    omega
  have hratio : (Int.fdiv (r * pow10 8) 1024).natAbs / pow10 (w + 8) ≤ 1 :=
    Nat.div_le_of_le_mul (by omega)
  have hseries := natAbs_factorialSeries_lt (t := (pow10 (w + 8) : Int)) (a := w + 8) (c := 1)
    hratio (by decide) (Int.natAbs_natCast _).le fun _ => 1
  have hsum : ((pow10 (w + 8) : Int) + factorialSeries (Int.fdiv (r * pow10 8) 1024) (pow10 (w + 8))
      (fun _ => 1) 1 (pow10 (w + 8))).natAbs ≤ pow10 (2 * w + 22) := by
    have hscale : pow10 (w + 8) ≤ pow10 (2 * (w + 8 + 1 * (1 + 1)) + 1) :=
      pow10_le_pow10 (by omega)
    have hlast : pow10 (2 * w + 22) = 10 * pow10 (2 * (w + 8 + 1 * (1 + 1)) + 1) :=
      (congrArg pow10 (by omega)).trans (pow10_succ _)
    omega
  rw [exp, Int.natAbs_tdiv]
  refine (Nat.div_le_self _ _).trans ((natAbs_repeat_square_le _ _ _).trans ?_)
  rw [pow10_mul]
  exact Nat.pow_le_pow_left hsum _

section Angle

variable {r : Int} {w : Nat} (hr : r.natAbs ≤ 8 * pow10 w)
include hr

theorem ratio_le_of_angle : (-(r * r).tdiv (pow10 w)).natAbs / pow10 w ≤ 64 := by
  rw [Int.natAbs_neg, Int.natAbs_tdiv, Int.natAbs_mul, Int.natAbs_natCast]
  refine Nat.div_le_of_le_mul (Nat.div_le_of_le_mul ?_)
  calc r.natAbs * r.natAbs ≤ 8 * pow10 w * (8 * pow10 w) := Nat.mul_le_mul hr hr
    _ = pow10 w * (pow10 w * 64) := by ring

theorem natAbs_series_of_angle {t : Int} (ht : t.natAbs ≤ 8 * pow10 w) (cofactor : Nat → Nat) :
    (t + factorialSeries (-(r * r).tdiv (pow10 w)) (pow10 w) cofactor 1 t).natAbs
      < pow10 (2 * w + 264) := by
  have hfirst : t.natAbs ≤ pow10 (w + 1) := by
    rw [pow10_succ]
    omega
  have hseries := natAbs_factorialSeries_lt (c := 2) (ratio_le_of_angle hr) (by decide) hfirst
    cofactor
  have hexponent : 2 * (w + 1 + 2 * (64 + 1)) + 1 = 2 * w + 263 := by omega
  rw [hexponent] at hseries
  have hle : pow10 (w + 1) ≤ pow10 (2 * w + 263) := pow10_le_pow10 (by omega)
  rw [pow10_succ (2 * w + 263)]
  omega

theorem natAbs_sin_lt : (sin r (pow10 w)).natAbs < pow10 (2 * w + 264) :=
  natAbs_series_of_angle hr hr _

theorem natAbs_cos_lt : (cos r (pow10 w)).natAbs < pow10 (2 * w + 264) :=
  natAbs_series_of_angle hr (by rw [Int.natAbs_natCast]; omega) _

end Angle

end Keypad.Fixed
