import Keypad.Decimal.Basic
import Mathlib.Algebra.Field.Rat
import Mathlib.Tactic.FieldSimp
import Mathlib.Tactic.Ring

/-!
# Rounding depends on the value

Digits counted and rounded, and what follows for decimals: a mantissa and an exponent of the same
value give the same decimal, and a value of at most `precision` digits is kept as it is.
-/

namespace Keypad

namespace Digits

/-! ## Counting -/

theorem pow10_le_pow10 {a b : Nat} (h : a ≤ b) : pow10 a ≤ pow10 b :=
  Nat.pow_le_pow_right (by decide) h

theorem lt_of_pow10_lt {a b : Nat} (h : pow10 a < pow10 b) : a < b := by
  by_contra hle
  have hpow := pow10_le_pow10 (Nat.le_of_not_lt hle)
  omega

theorem count_le {n c : Nat} (hc : 0 < c) (h : n < pow10 c) : count n ≤ c := by
  by_cases hn : n = 0
  · rw [hn, count_zero]
    exact hc
  · have hlow := pow10_pred_count_le hn
    have hlt := lt_of_pow10_lt (hlow.trans_lt h)
    omega

theorem count_eq {n c : Nat} (hlow : pow10 c ≤ n) (hhigh : n < pow10 (c + 1)) :
    count n = c + 1 := by
  have hle := count_le (Nat.succ_pos c) hhigh
  have hlt := lt_of_pow10_lt (hlow.trans_lt (lt_pow10_count n))
  omega

theorem count_one : count 1 = 1 := count_eq (c := 0) (by decide) (by decide)

theorem count_mul_pow10 {n : Nat} (h : n ≠ 0) (j : Nat) : count (n * pow10 j) = count n + j := by
  have hpos := count_pos n
  have hlow : pow10 (count n - 1 + j) ≤ n * pow10 j := by
    rw [pow10_add]
    exact Nat.mul_le_mul_right _ (pow10_pred_count_le h)
  have hhigh : n * pow10 j < pow10 (count n - 1 + j + 1) := by
    have hexponent : count n - 1 + j + 1 = count n + j := by omega
    rw [hexponent, pow10_add]
    exact Nat.mul_lt_mul_of_pos_right (lt_pow10_count n) (pow10_pos j)
  have hcount := count_eq hlow hhigh
  omega

theorem count_mono {a b : Nat} (h : a ≤ b) : count a ≤ count b :=
  count_le (count_pos b) (h.trans_lt (lt_pow10_count b))

/-! ## Rounded division -/

theorem roundDivNat_mul_right (n d : Nat) {k : Nat} (h : 0 < k) :
    roundDivNat (n * k) (d * k) = roundDivNat n d := by
  simp only [roundDivNat]
  have hnum : 2 * (n * k) + d * k = (2 * n + d) * k := by ring
  have hden : 2 * (d * k) = 2 * d * k := by ring
  rw [hnum, hden, Nat.mul_div_mul_right _ _ h]

theorem roundDivNat_mul_self (n : Nat) {d : Nat} (h : 0 < d) : roundDivNat (n * d) d = n := by
  rw [roundDivNat]
  have hnum : 2 * (n * d) + d = d + 2 * d * n := by ring
  rw [hnum, Nat.add_mul_div_left _ _ (by omega), Nat.div_eq_of_lt (by omega), Nat.zero_add]

theorem natAbs_roundDiv (n : Int) (d : Nat) : (roundDiv n d).natAbs = roundDivNat n.natAbs d := by
  rw [roundDiv]
  split <;> simp

/-! ## Final zeros -/

theorem stripZeros_mul_pow10 {m : Nat} (h : m ≠ 0) (e : Int) (j : Nat) :
    stripZeros (m * pow10 j) (e - j) = stripZeros m e := by
  induction j generalizing e with
  | zero => simp
  | succ j ih =>
    have hmod : m * pow10 (j + 1) % 10 = 0 := by
      rw [pow10_succ, Nat.mul_left_comm]
      exact Nat.mul_mod_right _ _
    have hdiv : m * pow10 (j + 1) / 10 = m * pow10 j := by
      rw [pow10_succ, Nat.mul_left_comm]
      exact Nat.mul_div_cancel_left _ (by decide)
    have hne : m * pow10 (j + 1) ≠ 0 := Nat.mul_ne_zero h (pow10_pos _).ne'
    rw [stripZeros, if_pos ⟨hne, hmod⟩, hdiv]
    have hexponent : e - ((j + 1 : Nat) : Int) + 1 = e - j := by push_cast; ring
    rw [hexponent, ih]

end Digits

namespace Decimal

open Digits

theorem natAbs_mul_pow10 (m : Int) (j : Nat) : (m * pow10 j).natAbs = m.natAbs * pow10 j := by
  rw [Int.natAbs_mul, Int.natAbs_natCast]

/-! ## Equal values -/

theorem mul_pow10_neg {m : Int} (j : Nat) : m * pow10 j < 0 ↔ m < 0 := by
  have hpos : 0 < (pow10 j : Int) := by exact_mod_cast pow10_pos j
  constructor
  · intro h
    by_contra hn
    exact absurd h (not_lt.2 (mul_nonneg (not_lt.1 hn) hpos.le))
  · intro h
    exact mul_neg_of_neg_of_pos h hpos

theorem normalize_mul_pow10 (m e : Int) (j : Nat) :
    normalize (m * pow10 j) (e - j) = normalize m e := by
  by_cases hm : m = 0
  · simp [hm]
  · simp only [normalize, natAbs_mul_pow10, stripZeros_mul_pow10 (Int.natAbs_ne_zero.2 hm),
      mul_pow10_neg]

theorem roundDiv_mul_pow10 (m : Int) (d j : Nat) :
    roundDiv (m * pow10 j) (d * pow10 j) = roundDiv m d := by
  simp only [roundDiv, natAbs_mul_pow10, mul_pow10_neg, roundDivNat_mul_right _ _ (pow10_pos j)]

theorem roundDiv_pow10 (m : Int) (j : Nat) : roundDiv (m * pow10 j) (pow10 j) = m := by
  simp only [roundDiv, natAbs_mul_pow10, mul_pow10_neg, roundDivNat_mul_self _ (pow10_pos j)]
  split <;> omega

/-- Zeros behind the mantissa, which the exponent makes up for, change nothing. -/
theorem round_mul_pow10 (m e : Int) (j digits : Nat) :
    round (m * pow10 j) (e - j) digits = round m e digits := by
  by_cases hm : m = 0
  · simp [hm, round, roundDiv]
  have hcount : count (m * pow10 j).natAbs = count m.natAbs + j := by
    rw [natAbs_mul_pow10, count_mul_pow10 (Int.natAbs_ne_zero.2 hm)]
  simp only [round, hcount]
  by_cases hdigits : digits < count m.natAbs
  · have hexcess : count m.natAbs + j - digits = count m.natAbs - digits + j := by omega
    have hexponent : e - j + ((count m.natAbs - digits + j : Nat) : Int)
        = e + ((count m.natAbs - digits : Nat) : Int) := by push_cast; ring
    rw [if_neg (by omega), if_neg (by omega), hexcess, pow10_add, roundDiv_mul_pow10, hexponent]
  · rw [if_pos (by omega : count m.natAbs - digits = 0)]
    split
    · exact normalize_mul_pow10 m e j
    · obtain ⟨i, hi⟩ : ∃ i, j = i + (count m.natAbs + j - digits) :=
        ⟨j - (count m.natAbs + j - digits), by omega⟩
      generalize count m.natAbs + j - digits = x at hi
      have hmantissa : m * (pow10 j : Int) = m * pow10 i * pow10 x := by
        rw [hi, pow10_add]
        push_cast
        ring
      have hexponent : e - j + (x : Int) = e - i := by omega
      rw [hmantissa, roundDiv_pow10, hexponent, normalize_mul_pow10]

theorem pow10_cast (n : Nat) : ((pow10 n : Nat) : Rat) = 10 ^ n := by simp [pow10]

/-- The fraction as a product with a power of ten. -/
theorem fraction_eq (m e : Int) : fraction m e = m * (10 : Rat) ^ e := by
  unfold fraction pow10
  split
  · next h =>
    obtain ⟨n, rfl⟩ := Int.eq_ofNat_of_zero_le h
    simp [Rat.mkRat_eq_div]
  · next h =>
    obtain ⟨n, hn⟩ := Int.eq_ofNat_of_zero_le (by omega : 0 ≤ -e)
    obtain rfl : e = -n := by omega
    simp [Rat.mkRat_eq_div, div_eq_mul_inv]

theorem fraction_neg (m e : Int) : fraction (-m) e = -fraction m e := by
  rw [fraction_eq, fraction_eq, Int.cast_neg, neg_mul]

theorem value_zero : zero.value = 0 := by
  simp [value, zero, fraction_eq]

theorem value_one : one.value = 1 := by
  simp [value, one, fraction_eq]

theorem fraction_mul_pow10 (m e : Int) (j : Nat) :
    fraction (m * pow10 j) (e - j) = fraction m e := by
  have hten : (10 : Rat) ≠ 0 := by norm_num
  rw [fraction_eq, fraction_eq, zpow_sub₀ hten, zpow_natCast]
  push_cast
  rw [pow10_cast]
  field_simp

/-- Of two mantissas of one value, that of the smaller exponent has zeros added. -/
theorem mantissa_eq_of_fraction_eq {m e n f : Int} (h : fraction m e = fraction n f) (hle : e ≤ f) :
    m = n * pow10 (f - e).toNat := by
  have he : e = f - (f - e).toNat := by omega
  have hten : (10 : Rat) ^ e ≠ 0 := zpow_ne_zero _ (by norm_num)
  rw [← fraction_mul_pow10 n f (f - e).toNat, ← he, fraction_eq, fraction_eq] at h
  exact_mod_cast mul_right_cancel₀ hten h

theorem scaled_congr_of_le {m e n f : Int} (h : fraction m e = fraction n f) (hle : e ≤ f) :
    scaled m e = scaled n f := by
  have he : e = f - (f - e).toNat := by omega
  rw [mantissa_eq_of_fraction_eq h hle]
  nth_rewrite 2 [he]
  exact round_mul_pow10 n f (f - e).toNat precision

/-- A decimal depends on the value that is rounded only. -/
theorem scaled_congr {m e n f : Int} (h : fraction m e = fraction n f) :
    scaled m e = scaled n f := by
  rcases le_total e f with hle | hle
  · exact scaled_congr_of_le h hle
  · exact (scaled_congr_of_le h.symm hle).symm

/-! ## Quotients -/

theorem quotient_neg (n d e : Int) : quotient (-n) d e = -quotient n d e := by
  by_cases hn : n = 0
  · simp [hn, quotient]
  · have hneg : -n ≠ 0 := by omega
    simp only [quotient, if_neg hn, if_neg hneg, Int.natAbs_neg]
    rw [neg_mul, Int.neg_tdiv]
    exact round_neg _ _ _

theorem quotient_neg_right (n d e : Int) : quotient n (-d) e = -quotient n d e := by
  by_cases hn : n = 0
  · simp [hn, quotient]
  · simp only [quotient, if_neg hn, Int.natAbs_neg]
    rw [Int.tdiv_neg]
    exact round_neg _ _ _

/-! ## Final zeros and limits -/

/-- There is no final zero, and zero has the exponent zero. -/
def IsReduced (d : Decimal) : Prop := d = zero ∨ d.mantissa % 10 ≠ 0

/-- The exponent is one that a result may have. -/
def WithinLimits (d : Decimal) : Prop := exponentFloor ≤ d.exponent ∧ d.exponent ≤ exponentCeiling

/-- The decimal brought within the limits. A smaller exponent leaves zero, a greater one becomes the
greatest with the mantissa as it is. -/
def limited (d : Decimal) : Decimal :=
  if d.exponent < exponentFloor then zero else ⟨d.mantissa, min d.exponent exponentCeiling⟩

theorem WithinLimits.limited_eq {d : Decimal} (h : d.WithinLimits) : d.limited = d := by
  rw [limited, if_neg (not_lt.2 h.1), min_eq_left h.2]

@[simp] theorem limited_zero : zero.limited = zero := rfl

theorem IsReduced.eq_zero {d : Decimal} (h : d.IsReduced) (hd : d.value = 0) : d = zero := by
  rcases h with rfl | hmod
  · rfl
  · rw [value, fraction_eq, mul_eq_zero, Int.cast_eq_zero] at hd
    have hm := hd.resolve_right (zpow_ne_zero _ (by norm_num))
    rw [hm] at hmod
    exact absurd rfl hmod

/-- Without a final zero, the exponent is the greatest of those that write the value. -/
theorem IsReduced.le_exponent {d : Decimal} {m e : Int} (h : d.IsReduced) (hd : d ≠ zero)
    (hvalue : fraction m e = d.value) : e ≤ d.exponent := by
  have hmod := h.resolve_left hd
  by_contra hlt
  obtain ⟨j, hj⟩ : ∃ j, (e - d.exponent).toNat = j + 1 :=
    ⟨(e - d.exponent).toNat - 1, by omega⟩
  have hmantissa := mantissa_eq_of_fraction_eq hvalue.symm (by omega)
  rw [hj, pow10_succ, Nat.cast_mul, Int.mul_left_comm] at hmantissa
  rw [hmantissa] at hmod
  exact hmod (Int.mul_emod_right _ _)

theorem IsReduced.eq_of_value_eq {d d' : Decimal} (h : d.IsReduced) (h' : d'.IsReduced)
    (hvalue : d.value = d'.value) : d = d' := by
  by_cases hd : d = zero
  · have hzero : d'.value = 0 := by
      rw [← hvalue, hd, value_zero]
    rw [hd, h'.eq_zero hzero]
  have hd' : d' ≠ zero := by
    rintro rfl
    exact hd (h.eq_zero (hvalue.trans value_zero))
  have hexponent := le_antisymm (h'.le_exponent hd' hvalue) (h.le_exponent hd hvalue.symm)
  have hmantissa := mantissa_eq_of_fraction_eq hvalue hexponent.le
  cases d
  cases d'
  simp_all

/-- Normalizing takes the final zeros away, then brings the rest within the limits. -/
theorem normalize_eq_limited (m e : Int) :
    ∃ (y : Decimal) (j : Nat), y.IsReduced ∧ m = y.mantissa * pow10 j ∧
      (y = zero ∨ y.exponent = e + j) ∧ normalize m e = y.limited := by
  by_cases hm : m = 0
  · exact ⟨zero, 0, .inl rfl, by simp [hm, zero], .inl rfl, by simp [hm]⟩
  have hne : m.natAbs ≠ 0 := Int.natAbs_ne_zero.2 hm
  obtain ⟨j, hj, hexponent⟩ := exists_stripZeros m.natAbs e
  have hmod := stripZeros_mod_ne_zero hne e
  have hnormalize (k : Nat) (f : Int) (h : stripZeros m.natAbs e = (k, f)) (hk : k ≠ 0) :
      normalize m e = limited ⟨if m < 0 then -(k : Int) else k, f⟩ := by
    rw [normalize]
    rw [h]
    cases k with
    | zero => exact absurd rfl hk
    | succ k => rfl
  generalize hstrip : stripZeros m.natAbs e = r at hj hexponent hmod
  obtain ⟨k, f⟩ := r
  dsimp only at hj hexponent hmod
  have hcast : (m.natAbs : Int) = k * pow10 j := by exact_mod_cast hj
  refine ⟨_, j, .inr ?_, ?_, .inr hexponent, hnormalize k f hstrip (by omega)⟩
  · dsimp only
    split <;> omega
  · dsimp only
    split
    · rw [neg_mul, ← hcast]
      omega
    · rw [← hcast]
      omega

/-- What is normalized keeps its value until the limits are applied. -/
theorem exists_isReduced_normalize (m e : Int) :
    ∃ y : Decimal, y.IsReduced ∧ y.value = fraction m e ∧ normalize m e = y.limited := by
  obtain ⟨y, j, hreduced, rfl, hy, hnormalize⟩ := normalize_eq_limited m e
  refine ⟨y, hreduced, ?_, hnormalize⟩
  rcases hy with rfl | hexponent
  · simp [value, zero, fraction_eq]
  · have he : e = y.exponent - j := by omega
    rw [value, he, fraction_mul_pow10]

/-- Without final zeros, only the limits matter. -/
theorem IsReduced.normalize_eq {d : Decimal} (h : d.IsReduced) :
    normalize d.mantissa d.exponent = d.limited := by
  obtain ⟨y, hreduced, hvalue, hnormalize⟩ := exists_isReduced_normalize d.mantissa d.exponent
  rw [hnormalize, hreduced.eq_of_value_eq h hvalue]

/-! ## Values that are kept -/

theorem exists_normalize {m e : Int} (hm : m ≠ 0) (hlow : exponentFloor ≤ e)
    (hhigh : e + count m.natAbs ≤ exponentCeiling) :
    ∃ (k : Int) (j : Nat), normalize m e = ⟨k, e + j⟩ ∧ m = k * pow10 j ∧ k ≠ 0 := by
  obtain ⟨y, j, -, hmantissa, hy, hnormalize⟩ := normalize_eq_limited m e
  have hk : y.mantissa ≠ 0 := by
    intro hzero
    rw [hzero, Int.zero_mul] at hmantissa
    exact hm hmantissa
  have hexponent : y.exponent = e + j := hy.resolve_left fun hzero => hk (by rw [hzero]; rfl)
  have hcount : count m.natAbs = count y.mantissa.natAbs + j := by
    rw [hmantissa, natAbs_mul_pow10, count_mul_pow10 (Int.natAbs_ne_zero.2 hk)]
  have hlimits : y.WithinLimits := ⟨by omega, by omega⟩
  refine ⟨y.mantissa, j, ?_, hmantissa, hk⟩
  rw [hnormalize, hlimits.limited_eq, ← hexponent]

theorem leading_normalize {m e : Int} (hm : m ≠ 0) (hlow : exponentFloor ≤ e)
    (hhigh : e + count m.natAbs ≤ exponentCeiling) :
    (normalize m e).leading = e + count m.natAbs - 1 := by
  obtain ⟨k, j, hnormalize, hmantissa, hk⟩ := exists_normalize hm hlow hhigh
  have hcount : count m.natAbs = count k.natAbs + j := by
    rw [hmantissa, natAbs_mul_pow10, count_mul_pow10 (Int.natAbs_ne_zero.2 hk)]
  have hzero : isZero ⟨k, e + j⟩ = false := by simp [isZero, hk]
  simp only [hnormalize, leading, hzero, hcount, Bool.false_eq_true, if_false]
  push_cast
  ring

theorem value_normalize {m e : Int} (hlow : exponentFloor ≤ e)
    (hhigh : e + count m.natAbs ≤ exponentCeiling) : (normalize m e).value = fraction m e := by
  by_cases hm : m = 0
  · simp [hm, value_zero, fraction_eq]
  · obtain ⟨k, j, hnormalize, hmantissa, -⟩ := exists_normalize hm hlow hhigh
    have hexponent : e + j - j = e := by ring
    rw [hnormalize, value, ← fraction_mul_pow10 k (e + j) j, hexponent, ← hmantissa]

theorem scaled_eq_normalize {m : Int} (e : Int) (h : count m.natAbs ≤ precision) :
    scaled m e = normalize m e := by
  rw [scaled, round]
  exact if_pos (by omega)

/-- The leading exponent of a decimal lies near that of the value that is rounded. -/
theorem leading_scaled {m e : Int} (hm : m ≠ 0) (hlow : exponentFloor ≤ e)
    (hhigh : e + 2 * count m.natAbs ≤ exponentCeiling) :
    e ≤ (scaled m e).leading ∧ (scaled m e).leading ≤ e + 2 * count m.natAbs := by
  have hne : m.natAbs ≠ 0 := Int.natAbs_ne_zero.2 hm
  by_cases hdigits : count m.natAbs ≤ precision
  · have hpos := count_pos m.natAbs
    rw [scaled_eq_normalize e hdigits, leading_normalize hm hlow (by omega)]
    omega
  · generalize hx : count m.natAbs - precision = x
    have hpow : pow10 x ≤ m.natAbs :=
      (pow10_le_pow10 (by rw [precision] at hx; omega)).trans (pow10_pred_count_le hne)
    have hround : scaled m e = normalize (roundDiv m (pow10 x)) (e + x) := by
      rw [scaled, round]
      rw [hx]
      exact if_neg (by omega)
    have hle := roundDivNat_mul_le m.natAbs (pow10 x)
    have hlt := lt_roundDivNat_mul m.natAbs (pow10_pos x)
    rw [← natAbs_roundDiv] at hle hlt
    generalize roundDiv m (pow10 x) = r at hround hle hlt
    have hr : r ≠ 0 := by
      rintro rfl
      simp at hlt
      omega
    have hcount : count r.natAbs ≤ count m.natAbs := by
      apply count_mono
      have hten : pow10 1 ≤ pow10 x := pow10_le_pow10 (by omega)
      have hmul : pow10 1 * r.natAbs ≤ pow10 x * r.natAbs := Nat.mul_le_mul_right _ hten
      rw [Nat.mul_assoc] at hle
      have hone : pow10 1 = 10 := rfl
      rw [hone] at hmul
      omega
    have hpos := count_pos r.natAbs
    rw [hround, leading_normalize hr (by omega) (by omega)]
    omega

end Decimal

end Keypad
