import Keypad.Decimal.Exponential
import Keypad.Proofs.Quantity
import Mathlib.Algebra.Order.Field.Basic

/-!
# The size of decimals

How far to the left the first digit of a result may lie, given the first digits of the operands.
The bounds are a few digits wider than need be; they are meant for comparison with the largest
exponent of an answer, which is far away.
-/

namespace Keypad

namespace Digits

theorem count_mul_le (a b : Nat) : count (a * b) ≤ count a + count b := by
  refine count_le (by have := count_pos a; omega) ?_
  rw [pow10_add]
  exact Nat.mul_lt_mul'' (lt_pow10_count a) (lt_pow10_count b)

theorem count_add_le {a b c : Nat} (ha : count a ≤ c) (hb : count b ≤ c) :
    count (a + b) ≤ c + 1 := by
  have hla := (lt_pow10_count a).trans_le (pow10_le_pow10 ha)
  have hlb := (lt_pow10_count b).trans_le (pow10_le_pow10 hb)
  refine count_le (Nat.succ_pos c) ?_
  rw [pow10_succ]
  omega

/-- A quotient has as many digits as its parts leave it. -/
theorem count_div_le {n d c : Nat} (hd : d ≠ 0) (h : count n + 1 ≤ count d + c) (hc : 0 < c) :
    count (n / d) ≤ c := by
  refine count_le hc ?_
  rw [Nat.div_lt_iff_lt_mul (Nat.pos_of_ne_zero hd)]
  calc n < pow10 (count n) := lt_pow10_count n
    _ ≤ pow10 (c + (count d - 1)) := pow10_le_pow10 (by omega)
    _ = pow10 c * pow10 (count d - 1) := pow10_add _ _
    _ ≤ pow10 c * d := Nat.mul_le_mul_left _ (pow10_pred_count_le hd)

theorem count_sqrt_le (n : Nat) : count n.sqrt ≤ (count n + 1) / 2 := by
  have hpos := count_pos n
  refine count_le (by omega) ?_
  rw [Nat.sqrt_lt, ← pow10_add]
  exact (lt_pow10_count n).trans_le (pow10_le_pow10 (by omega))

/-- Rounding the last `x` digits away leaves at most one digit more than the others. -/
theorem count_roundDivNat_le {n x c : Nat} (h : count n ≤ c + x) :
    count (roundDivNat n (pow10 x)) ≤ c + 1 := by
  have hlt : n < pow10 c * pow10 x := by
    rw [← pow10_add]
    exact (lt_pow10_count n).trans_le (pow10_le_pow10 h)
  have hle := roundDivNat_mul_le n (pow10 x)
  refine count_le (Nat.succ_pos c) ?_
  by_contra hnot
  have hbig : pow10 x * pow10 (c + 1) ≤ pow10 x * roundDivNat n (pow10 x) :=
    Nat.mul_le_mul_left _ (Nat.le_of_not_lt hnot)
  have hpos := pow10_pos c
  have hx := pow10_pos x
  rw [pow10_succ] at hbig
  have hcx : pow10 x ≤ pow10 c * pow10 x := Nat.le_mul_of_pos_left _ hpos
  have hten : pow10 x * (10 * pow10 c) = 10 * (pow10 c * pow10 x) := by ring
  rw [Nat.mul_assoc] at hle
  omega

end Digits

namespace Decimal

open Digits

/-- The decimal is zero, or its first digit has at most the exponent `n`. -/
def AtMost (n : Int) (d : Decimal) : Prop := d.isZero = false → d.leading ≤ n

variable {a b d : Decimal} {m e n k : Int}

theorem atMost_zero (n : Int) : zero.AtMost n := fun h => by cases h

theorem AtMost.mono (h : d.AtMost n) (hle : n ≤ k) : d.AtMost k := fun hd => (h hd).trans hle

theorem leading_neg (d : Decimal) : (-d).leading = d.leading := by
  simp [leading, isZero]

theorem isZero_neg (d : Decimal) : (-d).isZero = d.isZero := by
  simp [isZero]

theorem AtMost.neg (h : d.AtMost n) : (-d).AtMost n := by
  intro hd
  rw [leading_neg]
  exact h (by rwa [isZero_neg] at hd)

/-- The limit of an answer in these terms. -/
theorem exceedsMaximum_eq_false_iff : Quantity.exceedsMaximum d = false ↔ d.AtMost maxExponent := by
  simp [Quantity.exceedsMaximum, AtMost]

theorem leading_of_ne_zero (h : d.isZero = false) :
    d.leading = d.exponent + count d.mantissa.natAbs - 1 := by
  simp [leading, h]

theorem atMost_one : one.AtMost 0 := by
  intro h
  rw [leading_of_ne_zero h]
  simp [one, count_one]

theorem abs_eq (d : Decimal) : d.abs = if d.isNegative then -d else d := by
  rw [isNegative]
  split
  · next h => exact congrArg (Decimal.mk · _) (by simp at h; omega)
  · next h => exact congrArg (Decimal.mk · _) (by simp at h; omega)

/-! ## Rounding -/

theorem atMost_normalize (m e : Int) : (normalize m e).AtMost (e + count m.natAbs - 1) := by
  obtain ⟨y, j, -, rfl, hy, hnormalize⟩ := normalize_eq_limited m e
  rw [hnormalize]
  rcases hy with rfl | hexponent
  · exact atMost_zero _
  rw [limited]
  split
  · exact atMost_zero _
  · intro hd
    have hne : y.mantissa.natAbs ≠ 0 := by simpa [isZero] using hd
    rw [leading_of_ne_zero hd, natAbs_mul_pow10, count_mul_pow10 hne]
    dsimp only
    omega

theorem atMost_round (m e : Int) (digits : Nat) :
    (round m e digits).AtMost (e + count m.natAbs) := by
  simp only [round]
  split
  · exact (atMost_normalize m e).mono (by omega)
  · refine (atMost_normalize _ _).mono ?_
    rw [natAbs_roundDiv]
    have hcount := count_roundDivNat_le (n := m.natAbs) (x := count m.natAbs - digits) (c := digits)
      (by omega)
    omega

theorem atMost_scaled (m e : Int) : (scaled m e).AtMost (e + count m.natAbs) := atMost_round m e _

theorem atMost_ofFixed {s : Int} {w c : Nat} (h : count s.natAbs ≤ w + c) :
    (ofFixed s w).AtMost c := (atMost_scaled s (-w)).mono (by omega)

theorem scaled_zero (e : Int) : scaled 0 e = zero := by
  simp [scaled, round, roundDiv]

/-- A fixed-point number that is not zero is not below its last place. -/
theorem le_leading_ofFixed {s : Int} {w : Nat} (hs : (ofFixed s w).isZero = false)
    (hw : w ≤ 10 ^ 15) (hsmall : count s.natAbs ≤ 10 ^ 15) :
    -(w : Int) ≤ (ofFixed s w).leading := by
  have hne : s ≠ 0 := by
    rintro rfl
    rw [ofFixed, scaled_zero] at hs
    cases hs
  refine (leading_scaled hne ?_ ?_).1
  · rw [exponentFloor]
    omega
  · rw [exponentCeiling]
    omega

/-! ## Arithmetic -/

theorem count_natAbs_eq (h : d.isZero = false) :
    (count d.mantissa.natAbs : Int) = d.leading - d.exponent + 1 := by
  rw [leading_of_ne_zero h]
  ring

theorem AtMost.mul (ha : a.AtMost n) (hb : b.AtMost k) : (a.mul b).AtMost (n + k + 2) := by
  rw [Decimal.mul]
  by_cases hza : a.isZero
  · have hm : a.mantissa = 0 := by simpa [isZero] using hza
    rw [hm, Int.zero_mul, scaled_zero]
    exact atMost_zero _
  by_cases hzb : b.isZero
  · have hm : b.mantissa = 0 := by simpa [isZero] using hzb
    rw [hm, Int.mul_zero, scaled_zero]
    exact atMost_zero _
  have hca := count_natAbs_eq (by simpa using hza)
  have hcb := count_natAbs_eq (by simpa using hzb)
  have hla := ha (by simpa using hza)
  have hlb := hb (by simpa using hzb)
  have hcount := count_mul_le a.mantissa.natAbs b.mantissa.natAbs
  refine (atMost_scaled _ _).mono ?_
  rw [Int.natAbs_mul]
  omega

/-- The digits of a quotient with `k` digits added to the dividend. -/
theorem count_tdiv_le {n d : Int} {k : Nat} (hn : n ≠ 0) (hd : d ≠ 0)
    (h : count d.natAbs ≤ count n.natAbs + k) :
    count ((n * pow10 k).tdiv d).natAbs ≤ count n.natAbs + k + 1 - count d.natAbs := by
  rw [Int.natAbs_tdiv, natAbs_mul_pow10]
  have hcount := count_mul_pow10 (Int.natAbs_ne_zero.2 hn) k
  exact count_div_le (Int.natAbs_ne_zero.2 hd) (by omega) (by omega)

theorem atMost_quotient (n d e : Int) :
    (quotient n d e).AtMost (e + count n.natAbs - count d.natAbs + 1) := by
  rw [quotient]
  split
  · exact atMost_zero _
  · next hn =>
    dsimp only
    by_cases hd : d = 0
    · rw [hd, Int.tdiv_zero, scaled_zero]
      exact atMost_zero _
    generalize hk : precision + 3 + count d.natAbs - count n.natAbs = k
    rw [precision] at hk
    have hcount := count_tdiv_le (k := k) hn hd (by omega)
    exact (atMost_scaled _ _).mono (by omega)

theorem AtMost.div (ha : a.AtMost n) (hb : k ≤ b.leading) (h : a.div? b = some d) :
    d.AtMost (n - k + 1) := by
  rw [div?] at h
  split at h
  · cases h
  · next hzb =>
    cases h
    have hcb := count_natAbs_eq (d := b) (by simpa using hzb)
    by_cases hza : a.isZero
    · have hm : a.mantissa = 0 := by simpa [isZero] using hza
      rw [hm, quotient, if_pos rfl]
      exact atMost_zero _
    · have hca := count_natAbs_eq (by simpa using hza)
      have hla := ha (by simpa using hza)
      exact (atMost_quotient _ _ _).mono (by omega)

theorem count_mantissaAt (ha : a.isZero = false) (he : e ≤ a.exponent) :
    (count (a.mantissaAt e).natAbs : Int) = a.leading - e + 1 := by
  have hne : a.mantissa.natAbs ≠ 0 := by simpa [isZero] using ha
  have hcount := count_natAbs_eq ha
  rw [mantissaAt, natAbs_mul_pow10, count_mul_pow10 hne]
  omega

theorem AtMost.add (ha : a.AtMost n) (hb : b.AtMost n) : (a.add b).AtMost (n + 2) := by
  rw [Decimal.add]
  split
  · exact hb.mono (by omega)
  · next hza =>
    split
    · exact ha.mono (by omega)
    · next hzb =>
      have hza' : a.isZero = false := by simpa using hza
      have hzb' : b.isZero = false := by simpa using hzb
      dsimp only
      split
      · exact ha.mono (by omega)
      · split
        · exact hb.mono (by omega)
        · have hca := count_mantissaAt hza' (min_le_left a.exponent b.exponent)
          have hcb := count_mantissaAt hzb' (min_le_right a.exponent b.exponent)
          have hla := ha hza'
          have hlb := hb hzb'
          generalize min a.exponent b.exponent = e at hca hcb ⊢
          refine (atMost_scaled _ _).mono ?_
          have hsum := count_mono (Int.natAbs_add_le (a.mantissaAt e) (b.mantissaAt e))
          have hadd := count_add_le (c := (n - e + 1).toNat) (a := (a.mantissaAt e).natAbs)
            (b := (b.mantissaAt e).natAbs) (by omega) (by omega)
          have hpos := count_pos (a.mantissaAt e).natAbs
          omega

theorem AtMost.sub (ha : a.AtMost n) (hb : b.AtMost n) : (a.sub b).AtMost (n + 2) :=
  ha.add hb.neg

theorem two_mul_tdiv_le (e : Int) : 2 * e.tdiv 2 ≤ e + 1 := by
  rw [Int.tdiv_eq_ediv]
  split
  · omega
  · have hsign : Int.sign 2 = 1 := rfl
    omega

theorem AtMost.sqrt (h : d.AtMost n) (hn : 3 ≤ n) : d.sqrt.AtMost n := by
  rw [Decimal.sqrt]
  split
  · exact atMost_zero _
  · next hsign =>
    have hne : d.mantissa ≠ 0 := by
      intro hzero
      rw [sign, hzero] at hsign
      exact hsign (le_refl _)
    have hcount := count_natAbs_eq (d := d) (by simpa [isZero] using hne)
    have hl := h (by simpa [isZero] using hne)
    dsimp only
    generalize 2 * (precision + 4) - count d.mantissa.natAbs = j
    generalize (if (d.exponent - (j : Int)) % 2 = 1 then j + 1 else j) = k
    have hdigits := count_mul_pow10 (Int.natAbs_ne_zero.2 hne) k
    have hroot := count_sqrt_le (d.mantissa.natAbs * pow10 k)
    have hhalf := two_mul_tdiv_le (d.exponent - k)
    refine (atMost_scaled _ _).mono ?_
    rw [Int.natAbs_natCast]
    omega

/-! ## Fractions -/

theorem atMost_ofRat {q : Rat} {k : Nat} (h : |q| < 10 ^ k) : (ofRat q).AtMost (k + 1) := by
  have hcount : count q.num.natAbs ≤ k + count q.den := by
    refine count_le (by have := count_pos q.den; omega) ((Quantity.natAbs_num_lt h).trans ?_)
    rw [pow10_add]
    exact Nat.mul_lt_mul_of_pos_left (lt_pow10_count q.den) (pow10_pos k)
  refine (atMost_quotient q.num q.den 0).mono ?_
  rw [Int.natAbs_natCast]
  omega

/-- The decimal of an exact value does not lie far below one. -/
theorem le_leading_ofRat {q : Rat} (h : Quantity.inBounds q) : -100 ≤ (ofRat q).leading := by
  rw [ofRat, quotient]
  split
  · decide
  · next hq =>
    have hne : q.num.natAbs ≠ 0 := Int.natAbs_ne_zero.2 hq
    have hbound : pow10 10 = 10000000000 := by decide
    have hnum : count q.num.natAbs ≤ 10 := by
      have hle := Quantity.natAbs_num_le h
      rw [fractionBound] at hle
      exact count_le (by decide) (by omega)
    have hden : count q.den ≤ 10 := by
      have hle := Quantity.den_le h
      rw [fractionBound] at hle
      exact count_le (by decide) (by omega)
    rw [Int.natAbs_natCast]
    generalize hk : precision + 3 + count q.den - count q.num.natAbs = k
    rw [precision] at hk
    have hcount := count_mul_pow10 hne k
    have hpos : q.den ≤ q.num.natAbs * pow10 k := by
      calc q.den ≤ pow10 (count q.den) := (lt_pow10_count _).le
        _ ≤ pow10 (count (q.num.natAbs * pow10 k) - 1) := pow10_le_pow10 (by omega)
        _ ≤ q.num.natAbs * pow10 k :=
          pow10_pred_count_le (Nat.mul_ne_zero hne (pow10_pos k).ne')
    have hsize : ((q.num * pow10 k : Int).tdiv q.den).natAbs = q.num.natAbs * pow10 k / q.den := by
      rw [Int.natAbs_tdiv, natAbs_mul_pow10]
      rfl
    have hdigits : count (q.num.natAbs * pow10 k / q.den) ≤ count (q.num.natAbs * pow10 k) :=
      count_mono (Nat.div_le_self _ _)
    have hnonzero : (q.num * pow10 k : Int).tdiv q.den ≠ 0 := by
      rw [← Int.natAbs_ne_zero, hsize]
      exact (Nat.div_pos hpos q.den_pos).ne'
    have hleading := (leading_scaled (m := (q.num * pow10 k : Int).tdiv q.den) (e := 0 - k)
      hnonzero (by rw [exponentFloor]; omega) (by rw [exponentCeiling, hsize]; omega)).1
    dsimp only
    omega

theorem abs_inv_lt_of_inBounds {q : Rat} (h : Quantity.inBounds q) : |q⁻¹| < 10 ^ 10 := by
  by_cases hq : q = 0
  · simp [hq]
  · have hnum : (1 : Rat) ≤ q.num.natAbs := by
      exact_mod_cast Nat.pos_of_ne_zero (Int.natAbs_ne_zero.2 (Rat.num_ne_zero.2 hq))
    have hden : (q.den : Rat) ≤ fractionBound := by exact_mod_cast Quantity.den_le h
    have hmul := Quantity.abs_mul_den q
    have hpos : 0 < |q| := abs_pos.2 hq
    have hone : 1 ≤ |q| * q.den := hnum.trans hmul.symm.le
    rw [abs_inv]
    calc |q|⁻¹ ≤ q.den := by
          rw [inv_le_iff_one_le_mul₀ hpos, mul_comm]
          exact hone
      _ ≤ fractionBound := hden
      _ < 10 ^ 10 := by rw [fractionBound]; norm_num

end Decimal

end Keypad
