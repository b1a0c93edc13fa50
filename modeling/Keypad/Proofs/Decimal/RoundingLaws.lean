import Keypad.Proofs.Decimal.Word

/-!
# Laws of rounding

Rounding treats both signs alike, changes nothing when it is done again, keeps what has no more
digits than are asked for, and is monotone. The last law follows from what it means to be nearest:
no midpoint of two rationals of so many digits separates a value from the one it is rounded to. It
needs no comparison of places on the two sides of a power of ten.

An exponent that is brought within the limits changes the value, so rounding is nearest and monotone
only where no limit is met. Nor is it where the power of ten is too small that is divided by: a
mantissa with `2 ^ 32` digits too many, or more, is not rounded to its nearest value, ever.
-/

namespace Keypad

open Digits Decimal

variable {digits : Nat} {x x' y y' z : Rat}

/-! ## Order -/

theorem IsNearest.midpoint_le (h : IsNearest digits x y) (hz : HasDigits digits z) (hlt : z < y) :
    (z + y) / 2 ≤ x := by
  by_contra hnot
  have hle := h.le z hz
  have hy : |y - x| = y - x := abs_of_pos (by linarith)
  have hnearer : |z - x| < y - x := abs_lt.2 ⟨by linarith, by linarith⟩
  linarith

theorem IsNearest.le_midpoint (h : IsNearest digits x y) (hz : HasDigits digits z) (hlt : y < z) :
    x ≤ (y + z) / 2 := by
  have hneg := h.neg.midpoint_le hz.neg (neg_lt_neg hlt)
  linarith

/-- Greater rationals have greater nearest ones. -/
theorem IsNearest.mono (hy : IsNearest digits x y) (hy' : IsNearest digits x' y') (hle : x ≤ x') :
    y ≤ y' := by
  by_contra hnot
  have hlt := not_le.1 hnot
  have habove := hy.midpoint_le hy'.hasDigits hlt
  have hbelow := hy'.le_midpoint hy.hasDigits hlt
  obtain rfl : x = x' := by linarith
  exact hlt.ne (hy'.unique hy)

namespace Decimal

variable {d : Decimal} {m n e f : Int}

/-! ## Normal form -/

/-- The form of every decimal that is rounded, to any number of digits. -/
structure IsNormal (d : Decimal) : Prop where
  isReduced : d.IsReduced
  withinLimits : d.WithinLimits

theorem IsCanonical.isNormal (h : d.IsCanonical) : d.IsNormal := ⟨h.isReduced, h.withinLimits⟩

theorem IsNormal.neg (h : d.IsNormal) : (-d).IsNormal := ⟨h.isReduced.neg, h.withinLimits⟩

theorem IsNormal.limited_eq (h : d.IsNormal) : d.limited = d := h.withinLimits.limited_eq

theorem IsReduced.isNormal_limited (h : d.IsReduced) : d.limited.IsNormal := by
  rw [limited]
  split
  · exact isCanonical_zero.isNormal
  · next hfloor =>
    refine ⟨?_, le_min (not_lt.1 hfloor) (by decide), min_le_right _ _⟩
    rcases h with rfl | hmod
    · exact .inl rfl
    · exact .inr hmod

theorem isNormal_normalize (m e : Int) : (normalize m e).IsNormal := by
  obtain ⟨y, -, hreduced, -, -, hy⟩ := normalize_eq_limited m e
  rw [hy]
  exact hreduced.isNormal_limited

theorem isNormal_round (m e : Int) (digits : Nat) : (round m e digits).IsNormal := by
  rw [round_eq_normalize]
  exact isNormal_normalize _ _

theorem natAbs_mantissa_round_lt (hdigits : 0 < digits) (m e : Int) :
    (round m e digits).mantissa.natAbs < pow10 digits := by
  obtain ⟨y, hreduced, hnearest, hy⟩ := roundsTo_round hdigits m e
  rw [hy, limited]
  split
  · exact pow10_pos digits
  · exact hreduced.natAbs_mantissa_lt hnearest.hasDigits

/-- What has no more digits than are asked for is kept. -/
theorem IsNormal.significant_eq (h : d.IsNormal) (hdigits : 0 < digits)
    (hlt : d.mantissa.natAbs < pow10 digits) : d.significant digits = d := by
  have hcount := count_le hdigits hlt
  rw [significant, round, if_pos (by omega), h.isReduced.normalize_eq, h.limited_eq]

theorem significant_round (hdigits : 0 < digits) (m e : Int) :
    (round m e digits).significant digits = round m e digits :=
  (isNormal_round m e digits).significant_eq hdigits (natAbs_mantissa_round_lt hdigits m e)

/-! ## Limits -/

/-- The exponent of a value without final zeros is the one that their removal leaves. -/
theorem IsReduced.exponent_eq (h : d.IsReduced) (hm : m ≠ 0) (hvalue : d.value = fraction m e) :
    d.exponent = (stripZeros m.natAbs e).2 := by
  obtain ⟨k, hk, hexponent⟩ := exists_stripZeros m.natAbs e
  have hmod := stripZeros_mod_ne_zero (Int.natAbs_ne_zero.2 hm) e
  generalize stripZeros m.natAbs e = r at *
  obtain ⟨n, f⟩ := r
  dsimp only at *
  have hmantissa : m = m.sign * n * pow10 k := by
    have hcast : (m.natAbs : Int) = n * pow10 k := by exact_mod_cast hk
    rw [mul_assoc, ← hcast, Int.sign_mul_natAbs]
  have hstripped : (⟨m.sign * n, f⟩ : Decimal).value = fraction m e := by
    have he : e = f - k := by omega
    nth_rewrite 2 [hmantissa]
    rw [he, fraction_mul_pow10]
    rfl
  have hreduced : (⟨m.sign * n, f⟩ : Decimal).IsReduced := by
    refine .inr ?_
    dsimp only
    rcases lt_or_gt_of_ne hm with hneg | hpos
    · rw [Int.sign_eq_neg_one_of_neg hneg]
      omega
    · rw [Int.sign_eq_one_of_pos hpos]
      omega
  rw [h.eq_of_value_eq hreduced (hvalue.trans hstripped.symm)]

/-- A divisor that is not larger leaves more than half of the quotient. -/
theorem lt_two_mul_roundDiv {p : Nat} (hp : 0 < p) (hle : p ≤ m.natAbs) :
    m.natAbs < 2 * (p * (roundDiv m p).natAbs) := by
  have hlt := lt_roundDivNat_mul m.natAbs hp
  rw [Nat.mul_add, Nat.mul_one, Nat.mul_assoc] at hlt
  rw [natAbs_roundDiv]
  omega

theorem pow10_count_sub_le (hdigits : 0 < digits) (hm : m ≠ 0) :
    pow10 (count m.natAbs - digits) ≤ m.natAbs := by
  have hpos := count_pos m.natAbs
  exact (pow10_le_pow10 (by omega)).trans (pow10_pred_count_le (Int.natAbs_ne_zero.2 hm))

theorem roundDiv_ne_zero {p : Nat} (hp : 0 < p) (hle : p ≤ m.natAbs) : roundDiv m p ≠ 0 := by
  have hlt := lt_two_mul_roundDiv hp hle
  intro hzero
  rw [hzero] at hlt
  simp at hlt

end Decimal

/-! ## Rounding in machine words -/

namespace Word

open Literal

variable {m n e : Int}

/-- The exponent to which a mantissa is rounded, before it is brought within the limits. -/
def roundedExponent (m e : Int) (digits : Nat) : Int :=
  let excess := count m.natAbs - digits
  (Digits.stripZeros (roundDiv m (pow10 excess)).natAbs (e + excess)).2

/-- The exponent is not changed by the limits. Zero has none. -/
def MeetsNoLimit (m e : Int) (digits : Nat) : Prop :=
  m = 0 ∨ exponentFloor ≤ roundedExponent m e digits ∧ roundedExponent m e digits ≤ exponentCeiling

instance (m e : Int) (digits : Nat) : Decidable (MeetsNoLimit m e digits) :=
  inferInstanceAs (Decidable (_ ∨ _))

theorem round_neg (m : Int) (he : InWord e) (digits : Nat) :
    round (-m) e digits = -round m e digits := by
  rw [round_eq_normalize _ he, round_eq_normalize _ he, Int.natAbs_neg, roundDiv_neg, normalize_neg]

theorem pow10_count_sub_le (hdigits : 0 < digits) (hm : m ≠ 0) :
    pow10 (count m.natAbs - digits) ≤ m.natAbs :=
  (pow10_le_pow10 (Nat.mod_le _ _)).trans (Decimal.pow10_count_sub_le hdigits hm)

/-- Where no limit is met, the value is the rounded quotient. -/
theorem MeetsNoLimit.value_round (h : MeetsNoLimit m e digits) (hdigits : 0 < digits)
    (he : InWord e) :
    (round m e digits).value = fraction (roundDiv m (pow10 (count m.natAbs - digits)))
      (e + ((count m.natAbs - digits : Nat) : Int)) := by
  rw [round_eq_normalize m he]
  by_cases hm : m = 0
  · simp [hm, roundDiv, fraction_eq, value_zero]
  obtain ⟨y, hreduced, hvalue, hnormalize⟩ := exists_isReduced_normalize
    (roundDiv m (pow10 (count m.natAbs - digits))) (e + ((count m.natAbs - digits : Nat) : Int))
  have hne := roundDiv_ne_zero (pow10_pos _) (pow10_count_sub_le hdigits hm)
  have hexponent := hreduced.exponent_eq hne hvalue
  have hwithin : y.WithinLimits := by
    rw [WithinLimits, hexponent]
    exact h.resolve_left hm
  rw [hnormalize, hwithin.limited_eq, hvalue]

theorem abs_fraction (m e : Int) : |fraction m e| = m.natAbs * (10 : Rat) ^ e := by
  have hunit : (0 : Rat) < 10 ^ e := zpow_pos (by norm_num) e
  rw [fraction_eq, abs_mul, abs_of_pos hunit, Nat.cast_natAbs, Int.cast_abs]

/-- A power of ten that is too small by a factor leaves a value too large by it. -/
theorem five_mul_abs_fraction_lt (hdigits : 0 < digits) (e : Int)
    (h : digits + powerLimit ≤ count m.natAbs) :
    5 * |fraction m e| < |fraction (roundDiv m (pow10 (count m.natAbs - digits)))
      (e + ((count m.natAbs - digits : Nat) : Int))| := by
  have hm : m ≠ 0 := by
    rintro rfl
    rw [Int.natAbs_zero, count_zero, powerLimit] at h
    omega
  have hhalf := lt_two_mul_roundDiv (pow10_pos _) (pow10_count_sub_le hdigits hm)
  obtain ⟨j, hj, hpow⟩ := exists_pow10_mul (Nat.le_sub_of_add_le' h)
  generalize count m.natAbs - digits = k at *
  generalize roundDiv m (pow10 k) = r at *
  have hunit : (0 : Rat) < 10 ^ e := zpow_pos (by norm_num) e
  have hfactor : Keypad.pow10 1 ≤ Keypad.pow10 j :=
    pow10_le_pow10 (Nat.one_le_of_lt ((show 0 < powerLimit by decide).trans_le hj))
  have hlarge : 5 * m.natAbs < Keypad.pow10 k * r.natAbs :=
    calc 5 * m.natAbs < 10 * (pow10 k * r.natAbs) := by omega
      _ ≤ Keypad.pow10 j * (pow10 k * r.natAbs) := Nat.mul_le_mul_right _ hfactor
      _ = Keypad.pow10 k * r.natAbs := by
          rw [hpow]
          ring
  have hvalue : (r.natAbs : Rat) * 10 ^ (e + k) = (Keypad.pow10 k * r.natAbs : Nat) * 10 ^ e := by
    rw [zpow_add₀ (by norm_num), zpow_natCast]
    push_cast
    rw [pow10_cast]
    ring
  rw [abs_fraction, abs_fraction, hvalue, ← mul_assoc]
  exact mul_lt_mul_of_pos_right (by exact_mod_cast hlarge) hunit

/-- Where no limit is met, the nearest value is found exactly for mantissas that are not too
long. -/
theorem MeetsNoLimit.isNearest_iff (h : MeetsNoLimit m e digits) (hdigits : 0 < digits)
    (he : InWord e) : IsNearest digits (fraction m e) (round m e digits).value ↔
      count m.natAbs < digits + powerLimit := by
  rw [h.value_round hdigits he]
  constructor
  · intro hnearest
    by_contra hlong
    have hlarge := five_mul_abs_fraction_lt hdigits e (not_lt.1 hlong)
    linarith [hnearest.abs_le_two_mul, abs_nonneg (fraction m e)]
  · intro hcount
    rw [pow10_eq (by rw [powerLimit] at *; omega)]
    exact isNearest_roundDiv hdigits m e

theorem significant_round (hdigits : 0 < digits) (he : InWord e)
    (hcount : count m.natAbs < digits + powerLimit) :
    significant (round m e digits) digits = round m e digits := by
  rw [round_eq he hcount]
  have hshort := count_le hdigits (natAbs_mantissa_round_lt hdigits m e)
  refine (round_eq (isNormal_round m e digits).withinLimits.inWord ?_).trans
    (Decimal.significant_round hdigits m e)
  exact hshort.trans_lt (Nat.lt_add_of_pos_right (by decide))

/-- Rounding commutes with the change of sign. Where no exponent limit is met, it answers the
nearest decimal of so many digits, ties being settled away from zero, exactly if the mantissa has
fewer than `powerLimit` digits more. For such mantissas it is idempotent, keeps the value of one
that has no more digits, and is monotone. -/
theorem round_neg_idempotent_nearest_monotone (hdigits : 0 < digits) (m : Int) (e : Int64) :
    round (-m) e.toInt digits = -round m e.toInt digits ∧
    (MeetsNoLimit m e.toInt digits →
      (IsNearest digits (fraction m e.toInt) (round m e.toInt digits).value ↔
        count m.natAbs < digits + powerLimit)) ∧
    (count m.natAbs < digits + powerLimit →
      significant (round m e.toInt digits) digits = round m e.toInt digits ∧
      (MeetsNoLimit m e.toInt digits →
        (count m.natAbs ≤ digits → (round m e.toInt digits).value = fraction m e.toInt) ∧
        ∀ (n : Int) (f : Int64), count n.natAbs < digits + powerLimit →
          MeetsNoLimit n f.toInt digits → fraction m e.toInt ≤ fraction n f.toInt →
            (round m e.toInt digits).value ≤ (round n f.toInt digits).value)) := by
  have he := inWord_toInt e
  refine ⟨round_neg m he digits, fun h => h.isNearest_iff hdigits he, fun hcount =>
    ⟨significant_round hdigits he hcount, fun h => ?_⟩⟩
  have hnearest := (h.isNearest_iff hdigits he).2 hcount
  refine ⟨fun hshort => ?_, fun n f hn h' hle => ?_⟩
  · have hself : HasDigits digits (fraction m e.toInt) :=
      ⟨m, _, (lt_pow10_count m.natAbs).trans_le (pow10_le_pow10 hshort), rfl⟩
    exact hnearest.unique (IsNearest.self hself)
  · exact hnearest.mono ((h'.isNearest_iff hdigits (inWord_toInt f)).2 hn) hle

/-- A mantissa that ends in a digit and has just `powerLimit` digits too many is kept as it is. -/
theorem round_long (hm : m % 10 ≠ 0) (he : InWord e) (h : count m.natAbs = digits + powerLimit) :
    roundedExponent m e digits = e + powerLimit ∧
      round m e digits = limited ⟨m, e + powerLimit⟩ := by
  have hexcess : count m.natAbs - digits = powerLimit := by omega
  have hone : pow10 powerLimit = 1 := by rw [pow10, Nat.mod_self, Keypad.pow10_zero]
  have hself := roundDiv_pow10 m 0
  rw [Keypad.pow10_zero, Nat.cast_one, mul_one] at hself
  constructor
  · rw [roundedExponent]
    simp only [hexcess, hone, hself]
    rw [Digits.stripZeros, if_neg (by omega)]
  · rw [round_eq_normalize _ he, hexcess, hone, hself]
    have hreduced : IsReduced ⟨m, e + powerLimit⟩ := .inr hm
    exact hreduced.normalize_eq

/-- The least integer with `powerLimit` digits more than these that does not end in a zero. -/
def outlier (digits : Nat) : Int := Keypad.pow10 (digits + powerLimit - 1) + 1

theorem count_outlier (hdigits : 0 < digits) :
    count (outlier digits).natAbs = digits + powerLimit ∧ outlier digits % 10 ≠ 0 := by
  have hlimit : 0 < powerLimit := by decide
  obtain ⟨k, hk⟩ : ∃ k, digits + powerLimit - 1 = k + 1 := ⟨digits + powerLimit - 2, by omega⟩
  have houtlier : outlier digits = ((Keypad.pow10 (k + 1) + 1 : Nat) : Int) := by
    rw [outlier, hk]
    rfl
  have hpos := Keypad.pow10_pos k
  have hnext := Keypad.pow10_succ k
  have hcount : count (Keypad.pow10 (k + 1) + 1) = k + 1 + 1 := by
    refine count_eq (Nat.le_succ _) ?_
    rw [Keypad.pow10_succ (k + 1)]
    omega
  rw [houtlier, Int.natAbs_natCast, hcount]
  omega

/-- A half is rounded away from zero and the carry gives a digit more, so `-999.5` is rounded to
`-1000`, below `-999.4`, which is rounded to `-999`. Where all digits but one are `powerLimit` many,
none is rounded away. -/
theorem round_half_carry :
    (round (-9995) (-1) 3 = ⟨-1, 3⟩ ∧ IsNearest 3 (-(1999 / 2)) (-1000) ∧
      (round (-9995) (-1) 3).value ≤ (round (-9994) (-1) 3).value) ∧
    (round (outlier 1) 0 1 = ⟨outlier 1, powerLimit⟩ ∧
      ¬ IsNearest 1 (fraction (outlier 1) 0) (round (outlier 1) 0 1).value) := by
  constructor
  · have hm : MeetsNoLimit (-9995) (-1) 3 := by decide +kernel
    have hn : MeetsNoLimit (-9994) (-1) 3 := by decide +kernel
    have hle : fraction (-9995) (-1) ≤ fraction (-9994) (-1) := by norm_num [fraction_eq]
    have hround : round (-9995) (-1) 3 = ⟨-1, 3⟩ := by decide +kernel
    obtain ⟨-, hnearest, hshort⟩ :=
      round_neg_idempotent_nearest_monotone (by decide : 0 < 3) (-9995) (-1)
    have hcount {k : Nat} (hk : k < 10 ^ 4) : count k < 3 + powerLimit :=
      (count_le (c := 4) (by decide) hk).trans_lt (by decide)
    obtain ⟨-, hlimits⟩ := hshort (hcount (by decide))
    have hself := (hnearest hm).2 (hcount (by decide))
    refine ⟨hround, ?_, (hlimits hm).2 (-9994) (-1) (hcount (by decide)) hn hle⟩
    rw [show (-1 : Int64).toInt = -1 from rfl, hround] at hself
    norm_num [Decimal.value, fraction_eq] at hself
    exact hself
  · obtain ⟨hcount, hmod⟩ := count_outlier Nat.one_pos
    obtain ⟨hexponent, hround⟩ := round_long hmod (e := 0) (by decide) hcount
    have hlimits : MeetsNoLimit (outlier 1) 0 1 := by
      refine .inr ?_
      rw [hexponent]
      decide
    obtain ⟨-, hnearest, -⟩ := round_neg_idempotent_nearest_monotone Nat.one_pos (outlier 1) 0
    refine ⟨hround, fun h => ?_⟩
    have hshort := (hnearest hlimits).1 h
    omega

end Word

end Keypad
