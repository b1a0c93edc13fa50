import Keypad.Proofs.Decimal.Addition
import Keypad.Proofs.Decimal.RoundingLaws
import Mathlib.Order.Compare

/-!
# The order of decimals

Two decimals are compared by the sign of their difference, which is rounded. The difference keeps
its sign: rounding leaves a digit of what is not zero, no exponent of a sum is below those of the
operands, and an operand that is left out is smaller than the one that is kept. So decimals in
normal form, of any number of digits, are ordered as their values are.

In machine words a mantissa is not given the zeros it needs beside one that is `2 ^ 32` digits
longer. What is left of it does not count: the longer one outweighs it.
-/

namespace Keypad

open Digits

namespace Decimal

variable {a b d : Decimal} {m e : Int} {digits : Nat}

/-! ## Signs -/

theorem num_sign_of_pos {x : Rat} (h : 0 < x) : x.num.sign = 1 :=
  Int.sign_eq_one_of_pos (Rat.num_pos.2 h)

theorem num_sign_of_neg {x : Rat} (h : x < 0) : x.num.sign = -1 :=
  Int.sign_eq_neg_one_of_neg (Rat.num_neg.2 h)

theorem num_sign_fraction (m e : Int) : (fraction m e).num.sign = m.sign := by
  have hunit : (0 : Rat) < 10 ^ e := zpow_pos (by norm_num) _
  rw [fraction_eq]
  rcases lt_trichotomy m 0 with hm | rfl | hm
  · have hm' : (m : Rat) < 0 := by exact_mod_cast hm
    rw [num_sign_of_neg (mul_neg_of_neg_of_pos hm' hunit), Int.sign_eq_neg_one_of_neg hm]
  · rw [Int.cast_zero, zero_mul, Rat.num_zero]
  · have hm' : (0 : Rat) < m := by exact_mod_cast hm
    rw [num_sign_of_pos (mul_pos hm' hunit), Int.sign_eq_one_of_pos hm]

theorem num_sign_value (d : Decimal) : d.value.num.sign = d.sign :=
  num_sign_fraction d.mantissa d.exponent

theorem sign_eq_zero_iff (d : Decimal) : d.sign = 0 ↔ d.isZero := by
  rw [sign, Int.sign_eq_zero_iff_zero]
  simp [isZero]

theorem sign_normalize (hfloor : exponentFloor ≤ e) : (normalize m e).sign = m.sign := by
  obtain ⟨y, j, -, rfl, hy, hnormalize⟩ := normalize_eq_limited m e
  have hkept : ¬ y.exponent < exponentFloor := by
    rcases hy with rfl | hexponent
    · decide
    · omega
  have hpow : Int.sign (pow10 j) = 1 := Int.sign_eq_one_of_pos (by exact_mod_cast pow10_pos j)
  rw [hnormalize, limited, if_neg hkept, Int.sign_mul, hpow, mul_one]
  rfl

/-- A divisor that is not larger leaves a digit of what is not zero. -/
theorem sign_roundDiv {p : Nat} (hp : 0 < p) (hle : m ≠ 0 → p ≤ m.natAbs) :
    (roundDiv m p).sign = m.sign := by
  have hpos (hm : m ≠ 0) : 0 < roundDivNat m.natAbs p := by
    have hlt := lt_two_mul_roundDiv hp (hle hm)
    rw [natAbs_roundDiv] at hlt
    by_contra hnot
    rw [Nat.eq_zero_of_not_pos hnot] at hlt
    omega
  rw [roundDiv]
  rcases lt_trichotomy m 0 with hm | rfl | hm
  · have hquotient := hpos hm.ne
    rw [if_pos hm, Int.sign_eq_neg_one_of_neg hm, Int.sign_eq_neg_one_of_neg (by omega)]
  · simp
  · have hquotient := hpos hm.ne'
    rw [if_neg hm.not_gt, Int.sign_eq_one_of_pos hm, Int.sign_eq_one_of_pos (by omega)]

/-- What is not zero keeps a digit. -/
theorem sign_round (hdigits : 0 < digits) (hfloor : exponentFloor ≤ e) :
    (round m e digits).sign = m.sign := by
  rw [round_eq_normalize, sign_normalize (by omega),
    sign_roundDiv (pow10_pos _) (pow10_count_sub_le hdigits)]

/-! ## The sign of a sum -/

theorem sign_plainSum (ha : a.IsNormal) (hb : b.IsNormal) :
    (a.plainSum b).sign = (a.value + b.value).num.sign := by
  rw [← fraction_plainSum, num_sign_fraction, plainSum]
  exact sign_round (by decide) (le_min ha.withinLimits.1 hb.withinLimits.1)

theorem abs_value_lt_abs_value (ha : a.isZero = false) (hb : b.isZero = false)
    (h : b.leading < a.leading) : |b.value| < |a.value| :=
  calc |b.value| < (10 : Rat) ^ (b.leading + 1) := abs_value_lt hb
    _ ≤ 10 ^ a.leading := zpow_le_zpow_right₀ (by norm_num) h
    _ ≤ |a.value| := le_abs_value ha

theorem num_sign_add_of_abs_lt {x y : Rat} (h : |y| < |x|) : (x + y).num.sign = x.num.sign := by
  obtain ⟨hlow, hhigh⟩ := abs_lt.1 h
  rcases lt_trichotomy x 0 with hx | rfl | hx
  · rw [abs_of_neg hx] at hhigh
    rw [num_sign_of_neg hx, num_sign_of_neg (by linarith)]
  · rw [abs_zero] at h
    exact absurd h (abs_nonneg y).not_gt
  · rw [abs_of_pos hx] at hlow
    rw [num_sign_of_pos hx, num_sign_of_pos (by linarith)]

/-- The sum has the sign of the exact sum, also where an operand is left out. -/
theorem sign_add (ha : a.IsNormal) (hb : b.IsNormal) :
    (a.add b).sign = (a.value + b.value).num.sign := by
  rw [Decimal.add]
  split
  · next hza => rw [Quantity.value_of_isZero hza, Rat.zero_add, num_sign_value]
  · next hza =>
    split
    · next hzb => rw [Quantity.value_of_isZero hzb, Rat.add_zero, num_sign_value]
    · next hzb =>
      rw [Bool.not_eq_true] at hza hzb
      dsimp only
      split
      · next hgap =>
        have hlt := abs_value_lt_abs_value hza hzb (by omega)
        rw [num_sign_add_of_abs_lt hlt, num_sign_value]
      · split
        · next hgap =>
          have hlt := abs_value_lt_abs_value hzb hza (by omega)
          rw [add_comm a.value, num_sign_add_of_abs_lt hlt, num_sign_value]
        · exact sign_plainSum ha hb

/-! ## Comparison -/

/-- The sign of a rational as an order. -/
theorem ite_num_sign_eq_cmp (x : Rat) :
    (if x.num.sign < 0 then Ordering.lt else if x.num.sign = 0 then .eq else .gt) = cmp x 0 := by
  rcases lt_trichotomy x 0 with hlt | rfl | hgt
  · rw [num_sign_of_neg hlt, (cmp_eq_lt_iff _ _).2 hlt]
    rfl
  · rw [Rat.num_zero, cmp_self_eq_eq]
    rfl
  · rw [num_sign_of_pos hgt, (cmp_eq_gt_iff _ _).2 hgt]
    rfl

theorem compare_eq_cmp (ha : a.IsNormal) (hb : b.IsNormal) :
    a.compare b = cmp a.value b.value := by
  have hsign := sign_add ha hb.neg
  rw [value_neg, ← sub_eq_add_neg] at hsign
  rw [compare, sub, hsign, ← cmp_sub_zero]
  exact ite_num_sign_eq_cmp _

theorem cmp_value_eq_eq_iff (ha : a.IsNormal) (hb : b.IsNormal) :
    cmp a.value b.value = .eq ↔ a = b := by
  rw [cmp_eq_eq_iff]
  refine ⟨ha.isReduced.eq_of_value_eq hb.isReduced, ?_⟩
  rintro rfl
  rfl

end Decimal

/-! ## Comparison in machine words -/

namespace Word

open Decimal
open Literal (InWord)

variable {a b : Decimal} {m e : Int}

theorem sign_scaled (hfloor : exponentFloor ≤ e) (he : InWord e) : (scaled m e).sign = m.sign := by
  rw [scaled, round_eq_normalize m he, sign_normalize (by omega),
    sign_roundDiv (pow10_pos _) (pow10_count_sub_le (by decide))]

/-- Of two values close to each other, the mantissa of `a` has so many digits more that the one of
`b` is given too few zeros at its exponent. -/
structure Outweighs (a b : Decimal) : Prop where
  left : a.isZero = false
  right : b.isZero = false
  near : (a.leading - b.leading).natAbs ≤ precision + 2
  shift : a.exponent + powerLimit ≤ b.exponent

theorem Outweighs.neg_right (h : Outweighs a b) : Outweighs a (-b) where
  left := h.left
  right := by rw [isZero_neg, h.right]
  near := by rw [leading_neg]; exact h.near
  shift := h.shift

theorem Outweighs.neg_left (h : Outweighs a b) : Outweighs (-a) b where
  left := by rw [isZero_neg, h.left]
  right := h.right
  near := by rw [leading_neg]; exact h.near
  shift := h.shift

theorem Outweighs.value_ne_zero (h : Outweighs a b) (ha : a.IsNormal) : a.value ≠ 0 := by
  intro hzero
  have hleft := h.left
  rw [ha.isReduced.eq_zero hzero] at hleft
  cases hleft

theorem Outweighs.ne (h : Outweighs a b) : a ≠ b := by
  rintro rfl
  have hshift := h.shift
  rw [powerLimit] at hshift
  omega

theorem plainSum_comm (a b : Decimal) : plainSum a b = plainSum b a := by
  rw [plainSum, plainSum, min_comm, Int.add_comm]

/-- Where both mantissas get the zeros they need, the sum has the sign of the exact sum. -/
theorem sign_plainSum (ha : a.IsNormal) (hb : b.IsNormal)
    (h : (a.exponent - b.exponent).natAbs < powerLimit) :
    (plainSum a b).sign = (a.value + b.value).num.sign := by
  have hfloor := le_min ha.withinLimits.1 hb.withinLimits.1
  have hceiling := (min_le_left a.exponent b.exponent).trans ha.withinLimits.2
  have hmin : Decimal.WithinLimits ⟨0, min a.exponent b.exponent⟩ := ⟨hfloor, hceiling⟩
  rw [← fraction_plainSum, num_sign_fraction, plainSum, mantissaAt_eq (by omega),
    mantissaAt_eq (by omega)]
  exact sign_scaled hfloor hmin.inWord

theorem sign_add_of_natAbs_lt {x y : Int} (h : y.natAbs < x.natAbs) : (x + y).sign = x.sign := by
  rcases lt_trichotomy x 0 with hx | rfl | hx
  · rw [Int.sign_eq_neg_one_of_neg hx, Int.sign_eq_neg_one_of_neg (by omega)]
  · exact absurd h (Nat.not_lt_zero _)
  · rw [Int.sign_eq_one_of_pos hx, Int.sign_eq_one_of_pos (by omega)]

/-- Where one gets too few, it does not count. -/
theorem Outweighs.sign_plainSum (h : Outweighs a b) (ha : a.IsNormal) :
    (plainSum a b).sign = a.sign := by
  have hmin : min a.exponent b.exponent = a.exponent :=
    min_eq_left (by have := h.shift; omega)
  have hlong : mantissaAt a a.exponent = a.mantissa := by simp [mantissaAt]
  have hshort : (mantissaAt b a.exponent).natAbs < a.mantissa.natAbs := by
    have hca := count_natAbs_eq h.left
    have hcb := count_natAbs_eq h.right
    have hne : a.mantissa.natAbs ≠ 0 := by simpa [isZero] using h.left
    obtain ⟨-, -, hnear, hshift⟩ := h
    generalize hk : (b.exponent - a.exponent).toNat = k
    have hfew : k % powerLimit + powerLimit ≤ k := by
      rw [powerLimit] at *
      omega
    rw [mantissaAt, hk, pow10, natAbs_mul_pow10]
    calc b.mantissa.natAbs * Keypad.pow10 (k % powerLimit)
        < Keypad.pow10 (count b.mantissa.natAbs) * Keypad.pow10 (k % powerLimit) :=
          Nat.mul_lt_mul_of_pos_right (lt_pow10_count _) (Keypad.pow10_pos _)
      _ = Keypad.pow10 (count b.mantissa.natAbs + k % powerLimit) := (Keypad.pow10_add _ _).symm
      _ ≤ Keypad.pow10 (count a.mantissa.natAbs - 1) := by
          refine pow10_le_pow10 ?_
          rw [precision] at hnear
          rw [powerLimit] at *
          omega
      _ ≤ a.mantissa.natAbs := pow10_pred_count_le hne
  rw [plainSum, hmin, hlong]
  refine (sign_scaled ha.withinLimits.1 ha.withinLimits.inWord).trans ?_
  exact sign_add_of_natAbs_lt hshort

/-- The sign of a sum of normal decimals. -/
theorem sign_add (ha : a.IsNormal) (hb : b.IsNormal) (hca : count a.mantissa.natAbs ≤ 2 ^ 61)
    (hcb : count b.mantissa.natAbs ≤ 2 ^ 61) :
    ∃ s, add a b = .ok s ∧ (Outweighs a b → s.sign = a.sign) ∧ (Outweighs b a → s.sign = b.sign) ∧
      (¬ Outweighs a b → ¬ Outweighs b a → s.sign = (a.value + b.value).num.sign) := by
  refine ⟨_, add_eq_ite ha.withinLimits hb.withinLimits hca hcb, ?_⟩
  split
  · next hza =>
    refine ⟨fun h => absurd hza (by simp [h.left]), fun h => absurd hza (by simp [h.right]),
      fun _ _ => ?_⟩
    rw [Quantity.value_of_isZero hza, Rat.zero_add, num_sign_value]
  next hza =>
  split
  · next hzb =>
    refine ⟨fun h => absurd hzb (by simp [h.right]), fun h => absurd hzb (by simp [h.left]),
      fun _ _ => ?_⟩
    rw [Quantity.value_of_isZero hzb, Rat.add_zero, num_sign_value]
  next hzb =>
  rw [Bool.not_eq_true] at hza hzb
  split
  · next hgap =>
    refine ⟨fun h => absurd h.near (by omega), fun h => absurd h.near (by omega), fun _ _ => ?_⟩
    rw [num_sign_add_of_abs_lt (abs_value_lt_abs_value hza hzb (by omega)), num_sign_value]
  next hgap =>
  split
  · next hback =>
    refine ⟨fun h => absurd h.near (by omega), fun h => absurd h.near (by omega), fun _ _ => ?_⟩
    rw [add_comm a.value, num_sign_add_of_abs_lt (abs_value_lt_abs_value hzb hza (by omega)),
      num_sign_value]
  next hback =>
  refine ⟨fun h => h.sign_plainSum ha, fun h => ?_, fun hab hba => ?_⟩
  · rw [plainSum_comm]
    exact h.sign_plainSum hb
  · apply sign_plainSum ha hb
    by_contra hshift
    rcases le_total a.exponent b.exponent with hle | hle
    · exact hab ⟨hza, hzb, by omega, by omega⟩
    · exact hba ⟨hzb, hza, by omega, by omega⟩

theorem ite_sign_eq_cmp (d : Decimal) :
    (if d.sign < 0 then Ordering.lt else if d.sign = 0 then .eq else .gt) = cmp d.value 0 := by
  rw [← num_sign_value]
  exact ite_num_sign_eq_cmp _

/-- The comparison of normal decimals: of their values, unless a mantissa outweighs the other. -/
theorem compare_eq (ha : a.IsNormal) (hb : b.IsNormal) (hca : count a.mantissa.natAbs ≤ 2 ^ 61)
    (hcb : count b.mantissa.natAbs ≤ 2 ^ 61) :
    (Outweighs a b → compare a b = .ok (cmp a.value 0)) ∧
    (Outweighs b a → compare a b = .ok (cmp 0 b.value)) ∧
    (¬ Outweighs a b → ¬ Outweighs b a → compare a b = .ok (cmp a.value b.value)) := by
  have hcb' : count (-b).mantissa.natAbs ≤ 2 ^ 61 := by rwa [mantissa_neg, Int.natAbs_neg]
  obtain ⟨s, hs, hleft, hright, hneither⟩ := sign_add ha hb.neg hca hcb'
  rw [compare, sub, hs]
  refine ⟨fun h => congrArg Except.ok ?_, fun h => congrArg Except.ok ?_,
    fun hab hba => congrArg Except.ok ?_⟩
  · rw [hleft h.neg_right]
    exact ite_sign_eq_cmp a
  · rw [hright h.neg_left, ite_sign_eq_cmp, value_neg, ← zero_sub, cmp_sub_zero]
  · have hexact := hneither (fun h => hab (by simpa using h.neg_right))
      (fun h => hba (by simpa using h.neg_left))
    rw [hexact, value_neg, ← sub_eq_add_neg, ite_num_sign_eq_cmp, cmp_sub_zero]

theorem compare_eq_eq_iff (ha : a.IsNormal) (hb : b.IsNormal)
    (hca : count a.mantissa.natAbs ≤ 2 ^ 61) (hcb : count b.mantissa.natAbs ≤ 2 ^ 61) :
    compare a b = .ok .eq ↔ a = b := by
  obtain ⟨hleft, hright, hneither⟩ := compare_eq ha hb hca hcb
  by_cases hab : Outweighs a b
  · rw [hleft hab, Except.ok.injEq, cmp_eq_eq_iff]
    exact iff_of_false (hab.value_ne_zero ha) hab.ne
  by_cases hba : Outweighs b a
  · rw [hright hba, Except.ok.injEq, cmp_eq_eq_iff]
    exact iff_of_false (hba.value_ne_zero hb).symm hba.ne.symm
  rw [hneither hab hba, Except.ok.injEq, cmp_value_eq_eq_iff ha hb]

/-- The decimals in normal form of which no mantissa outweighs another. -/
abbrev ShortDecimal : Type :=
  {d : Decimal // d.IsNormal ∧ count d.mantissa.natAbs + precision + 2 < powerLimit}

theorem compare_short (a b : ShortDecimal) : compare a.1 b.1 = .ok (cmp a.1.value b.1.value) := by
  obtain ⟨a, ha, hca⟩ := a
  obtain ⟨b, hb, hcb⟩ := b
  have hnot {a b : Decimal} (hca : count a.mantissa.natAbs + precision + 2 < powerLimit) :
      ¬ Outweighs a b := by
    rintro ⟨hza, hzb, hnear, hshift⟩
    have hla := count_natAbs_eq hza
    have hlb := count_natAbs_eq hzb
    have hpos := count_pos b.mantissa.natAbs
    omega
  rw [powerLimit] at hca hcb
  exact (compare_eq ha hb (by omega) (by omega)).2.2 (hnot hca) (hnot hcb)

theorem isLE_cmp_iff {x y : Rat} : (cmp x y).isLE ↔ x ≤ y := by
  rw [Ordering.isLE_iff_ne_gt, cmp_eq_gt_iff, not_lt]

/-- Decimals in normal form compare as their values do, unless they are close to each other and one
mantissa has so many digits more than the other that it outweighs it: then only the sign of the
longer one counts. They compare equally only if they are the same. So the comparison of all that
have fewer than `2 ^ 32 - 50` digits is a total order that is compatible with equality. -/
theorem compare_total_order_of_values (a b : Decimal) :
    (a.IsNormal → b.IsNormal → count a.mantissa.natAbs ≤ 2 ^ 61 → count b.mantissa.natAbs ≤ 2 ^ 61 →
      (compare a b = .ok .eq ↔ a = b) ∧
      (Outweighs a b → compare a b = .ok (cmp a.value 0)) ∧
      (Outweighs b a → compare a b = .ok (cmp 0 b.value)) ∧
      (¬ Outweighs a b → ¬ Outweighs b a → compare a b = .ok (cmp a.value b.value))) ∧
    ∃ f : ShortDecimal → ShortDecimal → Ordering,
      (∀ x y, compare x.1 y.1 = .ok (f x y)) ∧ Std.TransCmp f ∧ Std.LawfulEqCmp f := by
  refine ⟨fun ha hb hca hcb => ⟨compare_eq_eq_iff ha hb hca hcb, compare_eq ha hb hca hcb⟩,
    fun x y => cmp x.1.value y.1.value, compare_short, ?_, ?_⟩
  · exact {
      eq_swap := fun {a b} => (cmp_swap b.1.value a.1.value).symm
      isLE_trans := fun {a b c} hab hbc =>
        isLE_cmp_iff.2 ((isLE_cmp_iff.1 hab).trans (isLE_cmp_iff.1 hbc)) }
  · exact {
      compare_self := fun {a} => cmp_self_eq_eq a.1.value
      eq_of_compare := fun {a b} h => Subtype.ext ((cmp_value_eq_eq_iff a.2.1 b.2.1).1 h) }

/-- The integer that is written with `k` nines. -/
def nines (k : Nat) : Int := Keypad.pow10 k - 1

theorem value_nines_lt (k : Nat) : value ⟨nines k, 0⟩ < value ⟨1, k⟩ := by
  rw [value, value, fraction_eq, fraction_eq, zpow_zero, mul_one, Int.cast_one, one_mul,
    zpow_natCast, nines]
  push_cast
  rw [pow10_cast]
  linarith

theorem nines_pos (k : Nat) : 0 < nines (k + 1) := by
  have hpos := Keypad.pow10_pos k
  have hnext := Keypad.pow10_succ k
  rw [nines]
  omega

theorem count_nines (k : Nat) : count (nines (k + 1)).natAbs = k + 1 ∧ nines (k + 1) % 10 ≠ 0 := by
  have hpos := Keypad.pow10_pos k
  have hnext := Keypad.pow10_succ k
  rw [nines]
  refine ⟨count_eq ?_ ?_, ?_⟩ <;> omega

/-- The nines make up for the exponent of the power of ten, but that gets too few zeros. -/
theorem outweighs_nines : Outweighs ⟨nines (powerLimit + 1), 0⟩ ⟨1, (powerLimit + 1 : Nat)⟩ := by
  have hne : (⟨nines (powerLimit + 1), 0⟩ : Decimal).isZero = false :=
    beq_eq_false_iff_ne.2 (nines_pos powerLimit).ne'
  have hone : count (1 : Int).natAbs = 1 := count_one
  refine ⟨hne, rfl, ?_, ?_⟩
  · rw [leading_of_ne_zero hne, leading_of_ne_zero rfl, (count_nines powerLimit).1, hone, precision]
    dsimp only
    omega
  · dsimp only
    omega

/-- A difference in the last of sixty-one digits is seen, and so is one that the sum leaves out. But
`powerLimit` nines and one more outweigh the next power of ten. -/
theorem compare_long_mantissas :
    (compare ⟨10 ^ 60 + 1, 0⟩ ⟨1, 60⟩ = .ok .gt ∧ compare ⟨-1, -60⟩ ⟨10 ^ 60 + 1, 0⟩ = .ok .lt) ∧
    (compare ⟨nines (powerLimit + 1), 0⟩ ⟨1, (powerLimit + 1 : Nat)⟩ = .ok .gt ∧
      value ⟨nines (powerLimit + 1), 0⟩ < value ⟨1, (powerLimit + 1 : Nat)⟩) := by
  constructor
  · have hlong : IsNormal ⟨10 ^ 60 + 1, 0⟩ := ⟨.inr (by decide), by decide, by decide⟩
    have hlarge : IsNormal ⟨1, 60⟩ := ⟨.inr (by decide), by decide, by decide⟩
    have hsmall : IsNormal ⟨-1, -60⟩ := ⟨.inr (by decide), by decide, by decide⟩
    have hcount {k : Nat} (hk : k < 10 ^ 61) : count k ≤ 2 ^ 61 :=
      (count_le (c := 61) (by decide) hk).trans (by decide)
    have hnear {a b : Decimal} (h : a.exponent.natAbs ≤ 60) (h' : b.exponent.natAbs ≤ 60) :
        ¬ Outweighs a b := by
      intro houtweighs
      have hshift := houtweighs.shift
      rw [powerLimit] at hshift
      omega
    have hfirst := ((compare_total_order_of_values _ _).1 hlong hlarge (hcount (by decide))
      (hcount (by decide))).2.2.2 (hnear (by decide) (by decide)) (hnear (by decide) (by decide))
    have hsecond := ((compare_total_order_of_values _ _).1 hsmall hlong (hcount (by decide))
      (hcount (by decide))).2.2.2 (hnear (by decide) (by decide)) (hnear (by decide) (by decide))
    rw [hfirst, hsecond, Except.ok.injEq, Except.ok.injEq, cmp_eq_gt_iff, cmp_eq_lt_iff]
    norm_num [value, fraction_eq]
  · obtain ⟨hcount, hmod⟩ := count_nines powerLimit
    have hnines : IsNormal ⟨nines (powerLimit + 1), 0⟩ := ⟨.inr hmod, by decide, by decide⟩
    have hpower : IsNormal ⟨1, (powerLimit + 1 : Nat)⟩ := ⟨.inr (by decide), by decide, by decide⟩
    have hone : count (1 : Int).natAbs ≤ 2 ^ 61 := count_one.trans_le (by decide)
    have hanswer := ((compare_total_order_of_values _ _).1 hnines hpower
      (hcount.trans_le (by decide)) hone).2.1 outweighs_nines
    refine ⟨hanswer.trans (congrArg Except.ok ?_), value_nines_lt _⟩
    rw [← ite_sign_eq_cmp, sign, Int.sign_eq_one_of_pos (nines_pos powerLimit)]
    rfl

end Word

end Keypad
