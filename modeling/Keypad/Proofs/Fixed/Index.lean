import Keypad.Proofs.Fixed.Loop
import Keypad.Proofs.Decimal.Word

/-!
# When an index of 64 bits is enough

The loops of the series end with the same sums when their index is held in 64 bits, as long as they
end before the divisor that is made of the index outgrows 64 bits. That leaves `2 ^ 31` terms for
the sine and the cosine, whose divisors are products of two numbers as large as the index, `2 ^ 64`
for the exponential and `2 ^ 63` for the odd series.

For arguments that are not large, as all are that the functions on decimals call them with, that is
more than enough. For very large ones no term is smaller than the one before it as long as the
divisor is held, so the loops never end with a sum.
-/

namespace Keypad.Word

open Digits Fixed

variable {r z t : Int} {s w K : Nat}

/-! ## Divisors -/

theorem monotone_sinDivisor : Monotone sinDivisor := fun _ _ h =>
  Nat.mul_le_mul (by omega) (by omega)

theorem monotone_cosDivisor : Monotone cosDivisor := fun _ _ h =>
  Nat.mul_le_mul (by omega) (by omega)

theorem monotone_oddDivisor : Monotone oddDivisor := fun _ _ h => by
  rw [oddDivisor, oddDivisor]
  omega

theorem indexLimit_eq : indexLimit = 2 ^ 64 := rfl

theorem fits_sinDivisor_iff : K < indexLimit ∧ sinDivisor K < indexLimit ↔ K < 2 ^ 31 := by
  constructor
  · rintro ⟨-, h⟩
    by_contra hlarge
    exact absurd h (not_lt.2 ((show indexLimit ≤ sinDivisor (2 ^ 31) by decide).trans
      (monotone_sinDivisor (not_lt.1 hlarge))))
  · intro h
    refine ⟨h.trans (by decide), ?_⟩
    exact (monotone_sinDivisor (show K ≤ 2 ^ 31 - 1 by omega)).trans_lt (by decide)

theorem fits_cosDivisor_iff : K < indexLimit ∧ cosDivisor K < indexLimit ↔ K ≤ 2 ^ 31 := by
  constructor
  · rintro ⟨-, h⟩
    by_contra hlarge
    exact absurd h (not_lt.2 ((show indexLimit ≤ cosDivisor (2 ^ 31 + 1) by decide).trans
      (monotone_cosDivisor (by omega))))
  · intro h
    exact ⟨h.trans_lt (by decide), (monotone_cosDivisor h).trans_lt (by decide)⟩

theorem fits_oddDivisor_iff : K < indexLimit ∧ oddDivisor K < indexLimit ↔ K < 2 ^ 63 := by
  rw [oddDivisor, indexLimit_eq]
  omega

/-! ## Loops that end in time -/

theorem exists_sin_eq (r : Int) (s : Nat) :
    ∃ K, Sums (sinStep r s) wholePart 1 r r K (Fixed.sin r s) ∧
      sin r s = if K < 2 ^ 31 then .ok (Fixed.sin r s) else .error .overflow := by
  obtain ⟨K, hsums⟩ := exists_sums_sin r s
  refine ⟨K, hsums, ?_⟩
  rw [sin, hsums.word_eq monotone_sinDivisor]
  simp only [fits_sinDivisor_iff]

theorem exists_cos_eq (r : Int) (s : Nat) :
    ∃ K, Sums (cosStep r s) wholePart 1 s s K (Fixed.cos r s) ∧
      cos r s = if K ≤ 2 ^ 31 then .ok (Fixed.cos r s) else .error .overflow := by
  obtain ⟨K, hsums⟩ := exists_sums_cos r s
  refine ⟨K, hsums, ?_⟩
  rw [cos, hsums.word_eq monotone_cosDivisor]
  simp only [fits_cosDivisor_iff]

theorem exists_exp_eq (r : Int) (hw : w + 8 < indexLimit) :
    ∃ K sum, Sums (expStep r (pow10 (w + 8))) wholePart 1 (pow10 (w + 8)) (pow10 (w + 8)) K sum ∧
      sum = pow10 (w + 8)
        + factorialSeries (expArgument r) (pow10 (w + 8)) (fun _ => 1) 1 (pow10 (w + 8)) ∧
      exp r w = if K < 2 ^ 64 then .ok (squared (pow10 (w + 8)) sum) else .error .overflow := by
  obtain ⟨K, sum, hsums, hsum⟩ := exists_sums_exp r (pow10 (w + 8))
  refine ⟨K, sum, hsums, hsum, ?_⟩
  rw [exp, if_pos hw]
  simp only [hsums.word_eq monotone_id, id, and_self]
  rw [indexLimit_eq]
  by_cases hK : K < 2 ^ 64
  · rw [if_pos hK, if_pos hK]
    rfl
  · rw [if_neg hK, if_neg hK]
    rfl

theorem exists_artanh_eq (hz : z.natAbs ≤ s) :
    ∃ K, Sums (artanhStep z s) oddPart 1 z z K (Fixed.artanh z s hz) ∧
      artanh z s = if K < 2 ^ 63 then .ok (Fixed.artanh z s hz) else .error .overflow := by
  obtain ⟨K, hsums⟩ := exists_sums_artanh hz
  refine ⟨K, hsums, ?_⟩
  rw [artanh, hsums.word_eq monotone_oddDivisor]
  simp only [fits_oddDivisor_iff]

/-! ## Arguments that are not large -/

theorem natAbs_lt_two_pow {a : Nat} (h : t.natAbs ≤ 2 ^ a * s) :
    t.natAbs < 2 ^ (a + (s.log2 + 1)) := by
  rw [pow_add]
  exact h.trans_lt (Nat.mul_lt_mul_of_pos_left Nat.lt_log2_self (Nat.two_pow_pos a))

theorem sin_eq (hr : r.natAbs ≤ 2 ^ 24 * s) (hs : s.log2 < 2 ^ 30) :
    sin r s = .ok (Fixed.sin r s) := by
  obtain ⟨K, hsums, hsin⟩ := exists_sin_eq r s
  rw [sinStep_eq] at hsums
  have hK := hsums.le_of_circular hr (fun i => by omega) (natAbs_lt_two_pow hr)
  rw [hsin, if_pos (by omega)]

theorem cos_eq (hr : r.natAbs ≤ 2 ^ 24 * s) (hs : s.log2 < 2 ^ 30) :
    cos r s = .ok (Fixed.cos r s) := by
  obtain ⟨K, hsums, hcos⟩ := exists_cos_eq r s
  rw [cosStep_eq] at hsums
  have hfirst : (s : Int).natAbs ≤ 2 ^ 24 * s := by
    rw [Int.natAbs_natCast]
    omega
  have hK := hsums.le_of_circular hr (fun i => by omega) (natAbs_lt_two_pow hfirst)
  rw [hcos, if_pos (hK.trans (by omega))]

theorem pow10_lt_two_pow {n : Nat} (hn : n ≠ 0) : Keypad.pow10 n < 2 ^ (4 * n) := by
  rw [pow_mul]
  exact Nat.pow_lt_pow_left (by decide) hn

theorem log2_pow10_lt {n : Nat} (hn : n ≠ 0) : (Keypad.pow10 n).log2 < 4 * n :=
  (Nat.log2_lt (Keypad.pow10_pos n).ne').2 (pow10_lt_two_pow hn)

theorem natAbs_expArgument_le (hr : r.natAbs ≤ 2 ^ 64 * Keypad.pow10 w) :
    (expArgument r).natAbs ≤ 2 ^ 55 * Keypad.pow10 (w + 8) := by
  have hpos := Keypad.pow10_pos (w + 8)
  have hproduct : (r * Keypad.pow10 8).natAbs ≤ 2 ^ 64 * Keypad.pow10 (w + 8) := by
    rw [Decimal.natAbs_mul_pow10, Keypad.pow10_add, ← mul_assoc]
    exact Nat.mul_le_mul_right _ hr
  rw [expArgument, Int.fdiv_eq_ediv_of_nonneg _ (by decide)]
  omega

theorem exp_eq (hr : r.natAbs ≤ 2 ^ 64 * Keypad.pow10 w) (hw : w + 8 < powerLimit) :
    exp r w = .ok (Fixed.exp r w) := by
  obtain ⟨K, sum, hsums, hsum, hexp⟩ := exists_exp_eq r (hw.trans (by decide))
  rw [pow10_eq hw] at *
  have hargument := natAbs_expArgument_le hr
  have hfirst := pow10_lt_two_pow (Nat.succ_ne_zero (w + 7))
  rw [expStep_eq] at hsums
  have hK := hsums.le_of_factorial (N := 2 ^ 56) hargument (fun i hi => by omega) (by decide) hfirst
  rw [powerLimit] at hw
  rw [hexp, if_pos (by omega), hsum]
  rfl

theorem two_mul_natAbs_square_tdiv_le (hz : 2 * z.natAbs ≤ s) :
    2 * ((z * z).tdiv s).natAbs ≤ s := by
  rw [Int.natAbs_tdiv, Int.natAbs_mul, Int.natAbs_natCast]
  refine (Nat.mul_div_le_mul_div_assoc 2 _ s).trans (Nat.div_le_of_le_mul ?_)
  calc 2 * (z.natAbs * z.natAbs) = 2 * z.natAbs * z.natAbs := (mul_assoc _ _ _).symm
    _ ≤ s * s := Nat.mul_le_mul hz (by omega)

theorem artanh_eq (hz : 2 * z.natAbs ≤ s) (hs : s.log2 < 2 ^ 62) :
    artanh z s = .ok (Fixed.artanh z s (by omega)) := by
  obtain ⟨K, hsums, hartanh⟩ := exists_artanh_eq (show z.natAbs ≤ s by omega)
  have hratio := two_mul_natAbs_square_tdiv_le hz
  have hfirst : z.natAbs ≤ 2 ^ 0 * s := by omega
  have hK := hsums.le_of_half_ratio hratio (natAbs_lt_two_pow hfirst)
  rw [hartanh, if_pos (by omega)]

theorem artanh_eq_of_scale (hz : z.natAbs ≤ s) (hs : s ≤ 2 ^ 63) :
    artanh z s = .ok (Fixed.artanh z s hz) := by
  obtain ⟨K, hsums, hartanh⟩ := exists_artanh_eq hz
  have hK := hsums.le_of_odd fun _ => natAbs_powerStep_le (natAbs_square_tdiv_le hz)
  rw [hartanh, if_pos (by omega)]

/-- The argument of the last loop is small, whatever was halved. -/
theorem four_mul_natAbs_eighth_le (s : Nat) (t : Int) : 4 * (eighth s t).natAbs ≤ s := by
  have hfirst := natAbs_halfTangent_le s t
  have hsecond := two_mul_natAbs_halfTangent_le s (halfTangent s t)
  have hthird := two_mul_natAbs_halfTangent_le s (halfTangent s (halfTangent s t))
  have heighth : eighth s t = halfTangent s (halfTangent s (halfTangent s t)) := rfl
  omega

theorem exists_arctan_eq (t : Int) (hs : s.log2 < 2 ^ 62) :
    ∃ K sum, Sums (arctanStep (eighth s t) s) oddPart 1 (eighth s t) (eighth s t) K sum ∧
      K < 2 ^ 63 ∧ Fixed.arctan t s = 8 * sum ∧ arctan t s = .ok (8 * sum) := by
  obtain ⟨K, sum, hsums, hsum⟩ := exists_sums_arctan t s
  have hsmall := four_mul_natAbs_eighth_le s t
  have hratio : 2 * (-(eighth s t * eighth s t).tdiv s).natAbs ≤ s := by
    rw [Int.natAbs_neg]
    exact two_mul_natAbs_square_tdiv_le (by omega)
  have hfirst : (eighth s t).natAbs ≤ 2 ^ 0 * s := by omega
  have hpower := hsums
  rw [arctanStep_eq] at hpower
  have hK : K < 2 ^ 63 := by
    have hle := hpower.le_of_half_ratio hratio (natAbs_lt_two_pow hfirst)
    omega
  refine ⟨K, sum, hsums, hK, hsum, ?_⟩
  rw [arctan]
  simp only [hsums.word_eq monotone_oddDivisor, if_pos (fits_oddDivisor_iff.2 hK)]
  rfl

/-! ## Very large arguments -/

theorem le_natAbs_circularRatio (hs : 0 < s) (hr : 2 ^ 32 * s ≤ r.natAbs) :
    s * indexLimit ≤ (-(r * r).tdiv s).natAbs := by
  rw [Int.natAbs_neg, Int.natAbs_tdiv, Int.natAbs_mul, Int.natAbs_natCast]
  refine (Nat.le_div_iff_mul_le hs).2 ?_
  calc s * indexLimit * s = 2 ^ 32 * s * (2 ^ 32 * s) := by
        rw [indexLimit_eq]
        ring
    _ ≤ r.natAbs * r.natAbs := Nat.mul_le_mul hr hr

theorem sin_eq_overflow (hs : 0 < s) (hr : 2 ^ 32 * s ≤ r.natAbs) :
    sin r s = .error .overflow := by
  obtain ⟨K, hsums, hsin⟩ := exists_sin_eq r s
  have hratio := le_natAbs_circularRatio hs hr
  rw [sinStep_eq] at hsums
  have hlast : 2 ^ 31 ≤ K := by
    refine hsums.le_last_of_factorial hs (fun i _ => by omega) (fun i hi => ?_) (by omega)
    rw [← sinDivisor_eq]
    exact (Nat.mul_le_mul_left s (fits_sinDivisor_iff.2 hi).2.le).trans hratio
  rw [hsin, if_neg (not_lt.2 hlast)]

theorem cos_eq_overflow (hs : 0 < s) (hr : 2 ^ 32 * s ≤ r.natAbs) :
    cos r s = .error .overflow := by
  obtain ⟨K, hsums, hcos⟩ := exists_cos_eq r s
  have hratio := le_natAbs_circularRatio hs hr
  rw [cosStep_eq] at hsums
  have hlast : 2 ^ 31 + 1 ≤ K := by
    refine hsums.le_last_of_factorial hs (fun i hi => by omega) (fun i hi => ?_) (by omega)
    rw [← cosDivisor_eq]
    exact (Nat.mul_le_mul_left s (fits_cosDivisor_iff.2 (Nat.le_of_lt_succ hi)).2.le).trans hratio
  rw [hcos, if_neg (not_le.2 hlast)]

theorem exp_eq_overflow (hr : pow10 (w + 8) * indexLimit ≤ (expArgument r).natAbs) :
    exp r w = .error .overflow := by
  by_cases hw : w + 8 < indexLimit
  · obtain ⟨K, sum, hsums, -, hexp⟩ := exists_exp_eq r hw
    have hs := pow10_pos (w + 8)
    rw [expStep_eq] at hsums
    have hlast : 2 ^ 64 ≤ K := by
      refine hsums.le_last_of_factorial hs (fun _ _ => Nat.one_pos) (fun i hi => ?_) (by omega)
      rw [Nat.mul_one]
      exact (Nat.mul_le_mul_left _ hi.le).trans hr
    rw [hexp, if_neg (not_lt.2 hlast)]
  · rw [exp, if_neg hw]

/-- The square of the argument next to one is two units below one, so a power loses at most two
units. -/
theorem artanhStep_pred {p : Int} (hs : 2 ≤ s) (hp : 0 ≤ p) (hle : p ≤ s) (i : Nat) :
    p - 2 ≤ artanhStep (s - 1) s i p ∧ artanhStep (s - 1) s i p ≤ p := by
  have hpos : (0 : Int) < s := by omega
  have hsquare : (((s : Int) - 1) * (s - 1)).tdiv s = s - 2 := by
    rw [Int.tdiv_eq_ediv_of_nonneg (Int.mul_nonneg (by omega) (by omega))]
    have hsplit : ((s : Int) - 1) * (s - 1) = 1 + s * (s - 2) := by ring
    rw [hsplit, Int.add_mul_ediv_left _ _ hpos.ne', Int.ediv_eq_zero_of_lt (by decide) (by omega)]
    omega
  rw [artanhStep, hsquare, Int.tdiv_eq_ediv_of_nonneg (Int.mul_nonneg hp (by omega))]
  constructor
  · rw [Int.le_ediv_iff_mul_le hpos]
    linarith
  · refine Int.ediv_le_of_le_mul hpos ?_
    exact Int.mul_le_mul_of_nonneg_left (by omega) hp

theorem artanh_pred_eq_overflow (hs : 2 ^ 66 ≤ s) : artanh (s - 1) s = .error .overflow := by
  obtain ⟨K, hsums, hartanh⟩ := exists_artanh_eq (show ((s : Int) - 1).natAbs ≤ s by omega)
  have hlast : 2 ^ 63 ≤ K := by
    refine hsums.le_last (P := fun i p => (s : Int) ≤ p + 2 * i ∧ p ≤ s) (fun i p hi hp => ?_)
      ⟨by omega, by omega⟩
    obtain ⟨hlow, hhigh⟩ := artanhStep_pred (p := p) (by omega) (by omega) hp.2 i
    refine ⟨?_, by omega, hhigh.trans hp.2⟩
    have hpart : 0 < (oddPart i (artanhStep (s - 1) s i p)).natAbs := by
      rw [oddPart, Int.natAbs_tdiv, Int.natAbs_natCast]
      exact Nat.div_pos (by omega) (Nat.succ_pos _)
    omega
  rw [hartanh, if_neg (not_lt.2 hlast)]

end Keypad.Word
