import Keypad.Proofs.Fixed.Series
import Keypad.Fixed.Index

/-!
# The loops behind the series

The functions that sum a series recurse on a measure. The relations below know none: they describe
the loops by their tests and their bodies alone, and a state is related to an end only if the loop
gets there. Each function answers what its loop ends with. So the measure is one of the loop.

With an index of 64 bits a loop ends alike if it ends in time: at an index whose divisor is held. So
it is told how late it can end. Terms that grow at first are halved, at least, from the index on at
which the divisor is twice as large as the ratio.
-/

namespace Keypad.Fixed

open Digits

variable {next part : Nat → Int → Int} {n N K L G : Nat} {t sum total : Int}

/-- From the index `n`, the term `t` and the sum `sum` on, the loop that replaces the term by the
next one and adds its part ends at the index `K` with `total`. It ends at the first part that is
zero. -/
inductive Sums (next part : Nat → Int → Int) : Nat → Int → Int → Nat → Int → Prop
  | stop {n : Nat} {t sum : Int} (h : part n (next n t) = 0) : Sums next part n t sum n sum
  | more {n K : Nat} {t sum total : Int} (h : part n (next n t) ≠ 0)
      (rest : Sums next part (n + 1) (next n t) (sum + part n (next n t)) K total) :
      Sums next part n t sum K total

theorem Sums.le (h : Sums next part n t sum K total) : n ≤ K := by
  induction h with
  | stop => exact le_rfl
  | more _ _ ih => omega

/-- With an index of 64 bits the loop ends alike, if its last index and divisor are held. -/
theorem Sums.word_eq {divisor : Nat → Nat} (h : Sums next part n t sum K total)
    (hdivisor : Monotone divisor) :
    Word.sumFrom next part divisor n t sum
      = if K < Word.indexLimit ∧ divisor K < Word.indexLimit then .ok total
        else .error .overflow := by
  induction h with
  | stop hend =>
    rw [Word.sumFrom]
    simp only [hend, if_true]
  | @more n K t sum total hgoes rest ih =>
    rw [Word.sumFrom]
    simp only [if_neg hgoes, ih]
    split
    · rfl
    · next hfull =>
      have hlater := rest.le
      have hgrows := hdivisor (show n ≤ K by omega)
      rw [if_neg]
      omega

/-! ## When a loop ends -/

/-- Terms that are halved lead to zero within as many steps as the first one has bits. -/
theorem Sums.le_of_halved (h : Sums next part n t sum K total) (hpart : ∀ i, part i 0 = 0)
    (hhalf : ∀ i t, N ≤ i → 2 * (next i t).natAbs ≤ t.natAbs) (hn : N ≤ n)
    (ht : t.natAbs < 2 ^ L) : K ≤ n + L := by
  induction h generalizing L with
  | stop => exact Nat.le_add_right _ _
  | @more n K t sum total hgoes rest ih =>
    have hnext : (next n t).natAbs ≠ 0 := by
      intro hzero
      rw [Int.natAbs_eq_zero.1 hzero, hpart] at hgoes
      exact hgoes rfl
    have hle := hhalf n t hn
    cases L with
    | zero =>
      rw [pow_zero] at ht
      omega
    | succ L =>
      have hrest := ih (L := L) (by omega) (by rw [pow_succ] at ht; omega)
      omega

/-- Before that they may grow by a factor. -/
theorem Sums.le_of_grown (h : Sums next part n t sum K total) (hpart : ∀ i, part i 0 = 0)
    (hgrow : ∀ i t, (next i t).natAbs ≤ t.natAbs * G)
    (hhalf : ∀ i t, N ≤ i → 2 * (next i t).natAbs ≤ t.natAbs) (hn : n ≤ N)
    (ht : t.natAbs * G ^ (N - n) < 2 ^ L) : K ≤ N + L := by
  induction h with
  | stop => omega
  | @more n K t sum total hgoes rest ih =>
    rcases hn.eq_or_lt with rfl | hlt
    · rw [Nat.sub_self, pow_zero, mul_one] at ht
      exact (Sums.more hgoes rest).le_of_halved hpart hhalf le_rfl ht
    · refine ih hlt (lt_of_le_of_lt ?_ ht)
      have hpow : G ^ (N - n) = G * G ^ (N - (n + 1)) := by
        rw [← pow_succ']
        congr 1
        omega
      rw [hpow, ← mul_assoc]
      exact Nat.mul_le_mul_right _ (hgrow n t)

/-- A loop does not end before the index `L`, if something that holds along it up to there keeps its
parts from being zero. -/
theorem Sums.le_last {P : Nat → Int → Prop} (h : Sums next part n t sum K total)
    (hstep : ∀ i t, i < L → P i t → part i (next i t) ≠ 0 ∧ P (i + 1) (next i t)) (hP : P n t) :
    L ≤ K := by
  induction h with
  | @stop n t sum hend =>
    by_contra hlt
    exact (hstep n t (not_le.1 hlt) hP).1 hend
  | @more n K t sum total hgoes rest ih =>
    rcases Nat.lt_or_ge n L with hn | hn
    · exact ih (hstep n t hn hP).2
    · exact hn.trans ((Nat.le_succ n).trans rest.le)

/-- A term whose ratio is at most `G`, divided by `d`. -/
theorem mul_div_div_le {t y s d : Nat} (hy : y ≤ G * s) : t * y / s / d ≤ t * G := by
  refine (Nat.div_le_self _ _).trans (Nat.div_le_of_le_mul ?_)
  calc t * y ≤ t * (G * s) := Nat.mul_le_mul_left t hy
    _ = s * (t * G) := by ring

theorem two_mul_mul_div_div_le {t y s d : Nat} (hy : y ≤ G * s) (hd : 2 * G ≤ d) :
    2 * (t * y / s / d) ≤ t := by
  rcases Nat.eq_zero_or_pos G with rfl | hG
  · obtain rfl : y = 0 := by omega
    simp
  have hle : t * y / s ≤ t * G := by simpa using mul_div_div_le (d := 1) hy
  have hcut := Nat.div_mul_le_self (t * y / s) d
  generalize t * y / s / d = u at *
  refine Nat.le_of_mul_le_mul_right ?_ hG
  calc 2 * u * G = u * (2 * G) := by ring
    _ ≤ u * d := Nat.mul_le_mul_left u hd
    _ ≤ t * G := hcut.trans hle

theorem le_mul_div_div {t y s d : Nat} (hs : 0 < s) (hd : 0 < d) (hy : s * d ≤ y) :
    t ≤ t * y / s / d := by
  rw [Nat.div_div_eq_div_mul, Nat.le_div_iff_mul_le (Nat.mul_pos hs hd)]
  exact Nat.mul_le_mul_left t hy

/-! ## Factorial series -/

/-- No bound on the ratio is asked for. The terms may grow at first. -/
theorem exists_sums_factorialSeries (y : Int) (s : Nat) (cofactor : Nat → Nat) (n : Nat)
    (t sum : Int) : ∃ K, Sums (factorialStep y s cofactor) wholePart n t sum K
      (sum + factorialSeries y s cofactor n t) := by
  fun_induction factorialSeries y s cofactor n t generalizing sum with
  | case1 n t next hend =>
    rw [Int.add_zero]
    exact ⟨n, .stop hend⟩
  | case2 n t next hgoes ih =>
    obtain ⟨K, hrest⟩ := ih (sum + next)
    rw [← Int.add_assoc]
    exact ⟨K, .more hgoes hrest⟩

theorem sinDivisor_eq (n : Nat) : sinDivisor n = n * (2 * (2 * n + 1)) := by
  rw [sinDivisor]
  ring

theorem cosDivisor_eq (n : Nat) : cosDivisor n = n * (2 * (2 * n - 1)) := by
  rw [cosDivisor]
  ring

theorem sinStep_eq (r : Int) (s : Nat) :
    sinStep r s = factorialStep (-(r * r).tdiv s) s fun n => 2 * (2 * n + 1) := by
  funext n t
  rw [sinStep, factorialStep, sinDivisor_eq]
  simp only [Int.mul_neg, Int.neg_tdiv]

theorem cosStep_eq (r : Int) (s : Nat) :
    cosStep r s = factorialStep (-(r * r).tdiv s) s fun n => 2 * (2 * n - 1) := by
  funext n t
  rw [cosStep, factorialStep, cosDivisor_eq]
  simp only [Int.mul_neg, Int.neg_tdiv]

theorem expStep_eq (r : Int) (s : Nat) :
    expStep r s = factorialStep (expArgument r) s fun _ => 1 := by
  funext n t
  rw [expStep, factorialStep, Nat.mul_one]

theorem exists_sums_sin (r : Int) (s : Nat) :
    ∃ K, Sums (sinStep r s) wholePart 1 r r K (sin r s) := by
  rw [sinStep_eq]
  exact exists_sums_factorialSeries _ _ _ _ _ _

theorem exists_sums_cos (r : Int) (s : Nat) :
    ∃ K, Sums (cosStep r s) wholePart 1 s s K (cos r s) := by
  rw [cosStep_eq]
  exact exists_sums_factorialSeries _ _ _ _ _ _

/-- The sum of the exponential before it is squared. -/
theorem exists_sums_exp (r : Int) (s : Nat) :
    ∃ K sum, Sums (expStep r s) wholePart 1 s s K sum ∧
      sum = s + factorialSeries (expArgument r) s (fun _ => 1) 1 s := by
  rw [expStep_eq]
  obtain ⟨K, hsums⟩ := exists_sums_factorialSeries (expArgument r) s (fun _ => 1) 1 s s
  exact ⟨K, _, hsums, rfl⟩

/-! ## Power series -/

theorem exists_sums_powerSeries {y : Int} {s : Nat} (hy : y.natAbs ≤ s) (k : Nat) (p sum : Int) :
    ∃ K, Sums (fun _ => powerStep y s) oddPart k p sum K (sum + powerSeries y s hy k p) := by
  fun_induction powerSeries y s hy k p generalizing sum with
  | case1 k p power term hend =>
    rw [Int.add_zero]
    exact ⟨k, .stop hend⟩
  | case2 k p power term hgoes ih =>
    obtain ⟨K, hrest⟩ := ih (sum + term)
    rw [← Int.add_assoc]
    exact ⟨K, .more hgoes hrest⟩

theorem exists_sums_artanh {z : Int} {s : Nat} (hz : z.natAbs ≤ s) :
    ∃ K, Sums (artanhStep z s) oddPart 1 z z K (artanh z s hz) :=
  exists_sums_powerSeries (natAbs_square_tdiv_le hz) 1 z z

theorem arctanStep_eq (u : Int) (s : Nat) :
    arctanStep u s = fun _ => powerStep (-(u * u).tdiv s) s := by
  funext _ p
  rw [arctanStep, powerStep, Int.mul_neg, Int.neg_tdiv]

/-- Whatever is halved, the argument of the last loop is at most one. -/
theorem exists_sums_arctan (t : Int) (s : Nat) :
    ∃ K sum, Sums (arctanStep (eighth s t) s) oddPart 1 (eighth s t) (eighth s t) K sum ∧
      arctan t s = 8 * sum := by
  rw [arctanStep_eq]
  obtain ⟨K, hsums⟩ := exists_sums_powerSeries (natAbs_arctanRatio_le (natAbs_eighth_le s t)) 1
    (eighth s t) (eighth s t)
  exact ⟨K, _, hsums, rfl⟩

/-! ## Ranges -/

section Ranges

variable {r y z : Int} {s a l : Nat} {cofactor : Nat → Nat}

/-- A factorial series ends early, if from the index `N` on its divisors are twice its ratio. -/
theorem Sums.le_of_factorial (h : Sums (factorialStep y s cofactor) wholePart n t sum K total)
    (hy : y.natAbs ≤ 2 ^ a * s) (hdivisor : ∀ i, N ≤ i → 2 * 2 ^ a ≤ i * cofactor i) (hn : n ≤ N)
    (ht : t.natAbs < 2 ^ l) : K ≤ N + (l + a * (N - n)) := by
  refine h.le_of_grown (fun _ => rfl) (G := 2 ^ a) (fun i t => ?_) (fun i t hi => ?_) hn ?_
  · rw [natAbs_factorialStep]
    exact mul_div_div_le hy
  · rw [natAbs_factorialStep]
    exact two_mul_mul_div_div_le hy (hdivisor i hi)
  · rw [← pow_mul, pow_add]
    exact Nat.mul_lt_mul_of_pos_right ht (Nat.two_pow_pos _)

theorem natAbs_circularRatio_le (hr : r.natAbs ≤ 2 ^ a * s) :
    (-(r * r).tdiv s).natAbs ≤ 2 ^ (2 * a) * s := by
  rw [Int.natAbs_neg, Int.natAbs_tdiv, Int.natAbs_mul, Int.natAbs_natCast]
  refine Nat.div_le_of_le_mul ?_
  calc r.natAbs * r.natAbs ≤ 2 ^ a * s * (2 ^ a * s) := Nat.mul_le_mul hr hr
    _ = s * (2 ^ (2 * a) * s) := by ring

theorem Sums.le_of_circular (h : Sums (factorialStep (-(r * r).tdiv s) s cofactor) wholePart 1 t
      sum K total) (hr : r.natAbs ≤ 2 ^ a * s)
    (hcofactor : ∀ i, 2 * i ≤ cofactor i + 2) (ht : t.natAbs < 2 ^ l) :
    K ≤ 2 ^ a + 2 + (l + 2 * a * (2 ^ a + 1)) := by
  refine h.le_of_factorial (natAbs_circularRatio_le hr) (fun i hi => ?_) (Nat.le_add_left _ _) ht
  calc 2 * 2 ^ (2 * a) = 2 ^ a * (2 * 2 ^ a) := by ring
    _ ≤ i * cofactor i := Nat.mul_le_mul (by omega) (by have := hcofactor i; omega)

theorem Sums.le_of_odd {next : Nat → Int → Int} (h : Sums next oddPart n t sum K total)
    (hnext : ∀ i p, (next i p).natAbs ≤ p.natAbs) : K ≤ max n ((t.natAbs + 1) / 2) := by
  induction h with
  | stop => exact Nat.le_max_left _ _
  | @more n K t sum total hgoes rest ih =>
    have hlarge : 2 * n + 1 ≤ (next n t).natAbs := by
      by_contra hsmall
      refine hgoes (Int.natAbs_eq_zero.1 ?_)
      rw [oddPart, Int.natAbs_tdiv, Int.natAbs_natCast]
      exact Nat.div_eq_of_lt (not_le.1 hsmall)
    have hle := hnext n t
    omega

theorem Sums.le_of_half_ratio (h : Sums (fun _ => powerStep y s) oddPart n t sum K total)
    (hy : 2 * y.natAbs ≤ s) (ht : t.natAbs < 2 ^ l) : K ≤ n + l := by
  refine h.le_of_halved (N := 0) (fun i => ?_) (fun i p _ => ?_) n.zero_le ht
  · rw [oddPart, Int.zero_tdiv]
  · rw [powerStep, Int.natAbs_tdiv, Int.natAbs_mul, Int.natAbs_natCast]
    refine (Nat.mul_div_le_mul_div_assoc 2 _ s).trans (Nat.div_le_of_le_mul ?_)
    calc 2 * (p.natAbs * y.natAbs) = p.natAbs * (2 * y.natAbs) := by ring
      _ ≤ p.natAbs * s := Nat.mul_le_mul_left _ hy
      _ = s * p.natAbs := Nat.mul_comm _ _

/-- As long as the ratio is as large as the divisors, the terms do not shrink. -/
theorem Sums.le_last_of_factorial
    (h : Sums (factorialStep y s cofactor) wholePart 1 t sum K total) (hs : 0 < s)
    (hcofactor : ∀ i, 0 < i → 0 < cofactor i) (hy : ∀ i < L, s * (i * cofactor i) ≤ y.natAbs)
    (ht : t ≠ 0) : L ≤ K := by
  refine h.le_last (P := fun i t => 0 < i ∧ t ≠ 0) (fun i t hi hheld => ?_) ⟨Nat.one_pos, ht⟩
  obtain ⟨hpos, ht⟩ := hheld
  have hle := le_mul_div_div (t := t.natAbs) hs (Nat.mul_pos hpos (hcofactor i hpos)) (hy i hi)
  rw [← natAbs_factorialStep] at hle
  have hne : factorialStep y s cofactor i t ≠ 0 := by omega
  exact ⟨hne, i.succ_pos, hne⟩

end Ranges

/-! ## Halving -/

/-- From `t` and the counter `j` on, the loop that halves what is not below the bound ends with `u`
and the counter `k`. -/
inductive Halves (bound : Int) : Int → Nat → Int → Nat → Prop
  | stop {t : Int} {j : Nat} (h : t < bound) : Halves bound t j t j
  | more {t u : Int} {j k : Nat} (h : bound ≤ t) (rest : Halves bound (t.tdiv 2) (j + 1) u k) :
      Halves bound t j u k

/-- What is halved is not halved below half of the bound. -/
theorem halves_halve {bound low : Nat} (hbound : 2 * low ≤ bound) (hlow : 0 < low) {t : Nat}
    (ht : low ≤ t) (count : Nat) :
    Halves bound t count (halve bound t count).1 (halve bound t count).2 ∧
      low ≤ (halve bound t count).1 := by
  fun_induction halve bound t count with
  | case1 t count h ih =>
    obtain ⟨hrest, hle⟩ := ih (by omega)
    refine ⟨.more (Int.ofNat_le.2 h.2) ?_, hle⟩
    exact hrest
  | case2 t count h =>
    refine ⟨.stop ?_, ht⟩
    exact Int.ofNat_lt.2 (Nat.lt_of_not_le fun hle => h ⟨by omega, hle⟩)

theorem halve_lt {bound : Nat} (hbound : 0 < bound) (t count : Nat) :
    (halve bound t count).1 < bound := by
  fun_induction halve bound t count with
  | case1 t count h ih => exact ih
  | case2 t count h => omega

/-- There are no more halves than the number has bits. -/
theorem halve_le_add {bound t count : Nat} (ht : t < 2 ^ L) :
    (halve bound t count).2 ≤ count + L := by
  fun_induction halve bound t count generalizing L with
  | case1 t count h ih =>
    cases L with
    | zero => omega
    | succ L =>
      have hrest := ih (L := L) (by rw [pow_succ] at ht; omega)
      omega
  | case2 t count h => exact Nat.le_add_right _ _

end Keypad.Fixed
