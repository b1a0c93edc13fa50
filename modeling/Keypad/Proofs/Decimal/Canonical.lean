import Keypad.Decimal.Circular
import Keypad.Decimal.Factorial
import Keypad.Proofs.Decimal.Magnitude

/-!
# Decimals in canonical form

The form that rounding leaves: at most `precision` digits, no final zero, an exponent within the
limits. Every operation on decimals answers in this form if its operands have it, and most of them
whatever their operands are. A decimal in this form is not changed by another rounding.
-/

namespace Keypad.Decimal

open Digits

def IsCanonical (d : Decimal) : Prop :=
  d = zero ∨ d.mantissa % 10 ≠ 0 ∧ count d.mantissa.natAbs ≤ precision ∧
    exponentFloor ≤ d.exponent ∧ d.exponent ≤ exponentCeiling

instance (d : Decimal) : Decidable d.IsCanonical := inferInstanceAs (Decidable (_ ∨ _))

variable {a b d : Decimal}

theorem isCanonical_zero : zero.IsCanonical := .inl rfl

theorem IsCanonical.neg (h : d.IsCanonical) : (-d).IsCanonical := by
  rcases h with rfl | ⟨hmod, hcount, hexponent⟩
  · exact isCanonical_zero
  · refine .inr ⟨?_, ?_, hexponent⟩
    · rw [mantissa_neg]
      omega
    · rwa [mantissa_neg, Int.natAbs_neg]

theorem IsCanonical.abs (h : d.IsCanonical) : d.abs.IsCanonical := by
  rw [abs_eq]
  split
  · exact h.neg
  · exact h

theorem IsCanonical.isReduced (h : d.IsCanonical) : d.IsReduced := h.imp_right And.left

theorem IsCanonical.withinLimits (h : d.IsCanonical) : d.WithinLimits := by
  rcases h with rfl | ⟨-, -, hlimits⟩
  · exact ⟨by decide, by decide⟩
  · exact hlimits

theorem IsCanonical.count_le_precision (h : d.IsCanonical) :
    count d.mantissa.natAbs ≤ precision := by
  rcases h with rfl | ⟨-, hcount, -⟩
  · exact count_zero.le.trans (by decide)
  · exact hcount

theorem isCanonical_digit {m e : Int} (hm : m % 10 ≠ 0) (hdigit : m.natAbs < 10)
    (hlow : exponentFloor ≤ e) (hhigh : e ≤ exponentCeiling) : IsCanonical ⟨m, e⟩ :=
  .inr ⟨hm, (count_le Nat.one_pos hdigit).trans (by decide), hlow, hhigh⟩

/-! ## Rounding -/

/-- Of the mantissas up to the first one with a digit more, that one has final zeros. -/
theorem isCanonical_normalize {m : Int} (e : Int) (h : m.natAbs ≤ pow10 precision) :
    (normalize m e).IsCanonical := by
  obtain ⟨y, j, hreduced, rfl, -, hnormalize⟩ := normalize_eq_limited m e
  rw [hnormalize, limited]
  split
  · exact isCanonical_zero
  · next hfloor =>
    rcases hreduced with rfl | hmod
    · exact isCanonical_zero
    · rw [natAbs_mul_pow10] at h
      have hle := (Nat.le_mul_of_pos_right y.mantissa.natAbs (pow10_pos j)).trans h
      have hne : y.mantissa.natAbs ≠ pow10 precision := by
        intro heq
        have hten : pow10 precision % 10 = 0 := by decide
        omega
      have hcount : count y.mantissa.natAbs ≤ precision :=
        count_le (by decide) (lt_of_le_of_ne hle hne)
      exact .inr ⟨hmod, hcount, le_min (not_lt.1 hfloor) (by decide), min_le_right _ _⟩

theorem isCanonical_round (m e : Int) {digits : Nat} (h : digits ≤ precision) :
    (round m e digits).IsCanonical := by
  simp only [round]
  split
  · apply isCanonical_normalize
    exact ((lt_pow10_count m.natAbs).trans_le (pow10_le_pow10 (by omega))).le
  · apply isCanonical_normalize
    rw [natAbs_roundDiv]
    have hcount : count m.natAbs = digits + (count m.natAbs - digits) := by omega
    have hlt : m.natAbs < pow10 digits * pow10 (count m.natAbs - digits) := by
      rw [← pow10_add, ← hcount]
      exact lt_pow10_count m.natAbs
    have hle := roundDivNat_mul_le m.natAbs (pow10 (count m.natAbs - digits))
    have hpos := pow10_pos (count m.natAbs - digits)
    generalize pow10 (count m.natAbs - digits) = x at hlt hle hpos
    have hround : 2 * x * roundDivNat m.natAbs x < 2 * x * (pow10 digits + 1) := by
      calc 2 * x * roundDivNat m.natAbs x ≤ 2 * m.natAbs + x := hle
        _ < 2 * (pow10 digits * x) + 2 * x := by omega
        _ = 2 * x * (pow10 digits + 1) := by ring
    have hlast := Nat.lt_of_mul_lt_mul_left hround
    exact (Nat.le_of_lt_succ hlast).trans (pow10_le_pow10 h)

theorem isCanonical_scaled (m e : Int) : (scaled m e).IsCanonical :=
  isCanonical_round m e (Nat.le_refl _)

/-- What lies below the smallest exponent is flushed to zero. -/
theorem scaled_eq_zero {m e : Int} (h : e + count m.natAbs < exponentFloor) :
    scaled m e = zero := by
  rcases isCanonical_scaled m e with hzero | ⟨hmod, -, hfloor, -⟩
  · exact hzero
  · have hd : (scaled m e).isZero = false := by
      rw [isZero, beq_eq_false_iff_ne]
      intro hzero
      rw [hzero] at hmod
      exact hmod rfl
    have hmost := atMost_scaled m e hd
    rw [leading_of_ne_zero hd] at hmost
    have hpos := count_pos (scaled m e).mantissa.natAbs
    omega

theorem isCanonical_ofFixed (s : Int) (w : Nat) : (ofFixed s w).IsCanonical :=
  isCanonical_scaled _ _

theorem isCanonical_quotient (n d e : Int) : (quotient n d e).IsCanonical := by
  rw [quotient]
  split
  · exact isCanonical_zero
  · exact isCanonical_scaled _ _

theorem isCanonical_ofRat (q : Rat) : (ofRat q).IsCanonical := isCanonical_quotient _ _ _

/-- Rounding again changes nothing. -/
theorem IsCanonical.scaled_eq (h : d.IsCanonical) : scaled d.mantissa d.exponent = d := by
  rw [scaled_eq_normalize _ h.count_le_precision, h.isReduced.normalize_eq,
    h.withinLimits.limited_eq]

/-- Equal values have one canonical form. -/
theorem IsCanonical.eq_iff (ha : a.IsCanonical) (hb : b.IsCanonical) :
    a = b ↔ a.value = b.value := by
  constructor
  · rintro rfl
    rfl
  · intro h
    calc a = scaled a.mantissa a.exponent := ha.scaled_eq.symm
      _ = scaled b.mantissa b.exponent := scaled_congr h
      _ = b := hb.scaled_eq

/-- Without a final zero, the exponent tells the decimal places. -/
theorem IsReduced.exists_mul_eq_iff (h : d.IsReduced) (k : Nat) :
    (∃ n : Int, 10 ^ k * d.value = n) ↔ -(k : Int) ≤ d.exponent := by
  have hten : (10 : Rat) ≠ 0 := by norm_num
  constructor
  · rintro ⟨n, hn⟩
    by_cases hd : d = zero
    · rw [hd]
      exact Int.neg_nonpos_of_nonneg (Int.natCast_nonneg k)
    apply h.le_exponent hd (m := n)
    rw [fraction_eq, ← hn, zpow_neg, zpow_natCast]
    field_simp
  · intro hle
    refine ⟨d.mantissa * pow10 (d.exponent + k).toNat, ?_⟩
    have hexponent : d.exponent = ((d.exponent + k).toNat : Int) - k := by omega
    rw [value, fraction_eq]
    nth_rewrite 1 [hexponent]
    rw [zpow_sub₀ hten, zpow_natCast, zpow_natCast]
    push_cast
    rw [pow10_cast]
    field_simp

/-- Below the point there is a digit that is not zero. -/
theorem IsCanonical.isInteger_iff (h : d.IsCanonical) : d.isInteger ↔ ∃ n : Int, d.value = n := by
  rw [isInteger, decide_eq_true_iff]
  simpa using (h.isReduced.exists_mul_eq_iff 0).symm

theorem IsCanonical.natAbs_exponent_le (h : d.IsCanonical) : d.exponent.natAbs ≤ 2 ^ 52 := by
  rcases h with rfl | ⟨-, -, hfloor, hceiling⟩
  · decide
  · rw [exponentFloor] at hfloor
    rw [exponentCeiling] at hceiling
    omega

/-- The leading exponent of a canonical decimal is within the limits as well. -/
theorem IsCanonical.natAbs_leading_le (h : d.IsCanonical) : d.leading.natAbs ≤ 10 ^ 16 := by
  rcases h with rfl | ⟨-, hcount, hfloor, hceiling⟩
  · decide
  · rw [exponentFloor] at hfloor
    rw [exponentCeiling] at hceiling
    rw [precision] at hcount
    have hpos := count_pos d.mantissa.natAbs
    rw [leading]
    split <;> omega

/-! ## Arithmetic -/

/-- A sum is one of its operands, or it is rounded. -/
theorem add_eq_or_isCanonical (a b : Decimal) :
    a.add b = b ∨ a.add b = a ∨ (a.add b).IsCanonical := by
  rw [Decimal.add]
  split
  · exact .inl rfl
  · split
    · exact .inr (.inl rfl)
    · dsimp only
      split
      · exact .inr (.inl rfl)
      · split
        · exact .inl rfl
        · exact .inr (.inr (isCanonical_scaled _ _))

theorem IsCanonical.add (ha : a.IsCanonical) (hb : b.IsCanonical) : (a.add b).IsCanonical := by
  rcases add_eq_or_isCanonical a b with h | h | h
  · rwa [h]
  · rwa [h]
  · exact h

theorem IsCanonical.sub (ha : a.IsCanonical) (hb : b.IsCanonical) : (a.sub b).IsCanonical :=
  ha.add hb.neg

theorem isCanonical_mul (a b : Decimal) : (a.mul b).IsCanonical := isCanonical_scaled _ _

theorem isCanonical_of_div? (h : a.div? b = some d) : d.IsCanonical := by
  rw [div?] at h
  split at h <;> cases h
  exact isCanonical_quotient _ _ _

theorem isCanonical_div?_getD (a b : Decimal) : ((a.div? b).getD zero).IsCanonical := by
  cases h : a.div? b with
  | none => exact isCanonical_zero
  | some d => exact isCanonical_of_div? h

/-! ## Functions -/

theorem isCanonical_sqrt (x : Decimal) : x.sqrt.IsCanonical := by
  rw [sqrt]
  split
  · exact isCanonical_zero
  · exact isCanonical_scaled _ _

theorem isCanonical_ln (x : Decimal) : x.ln.IsCanonical := by
  rw [ln]
  split
  · exact isCanonical_zero
  · exact isCanonical_ofFixed _ _

theorem isCanonical_one : one.IsCanonical :=
  isCanonical_digit (by decide) (by decide) (by decide) (by decide)

theorem isCanonical_of_exp? {x : Decimal} (h : x.exp? = some d) : d.IsCanonical := by
  simp only [exp?] at h
  split at h
  · cases h
    exact isCanonical_one
  · repeat' split at h
    · cases h
      exact isCanonical_zero
    · cases h
    · cases h
    · cases h
      exact isCanonical_zero
    · cases h
      exact isCanonical_scaled _ _

theorem isCanonical_of_realRoot? {x n : Decimal} (h : x.realRoot? n = some d) : d.IsCanonical := by
  obtain ⟨y, -, hy⟩ := Option.bind_eq_some_iff.1 h
  exact isCanonical_of_exp? hy

theorem isCanonical_euler : euler.IsCanonical := by
  rw [euler]
  cases h : one.exp? with
  | none => exact isCanonical_zero
  | some d => exact isCanonical_of_exp? h

theorem isCanonical_log10 (x : Decimal) : x.log10.IsCanonical := isCanonical_div?_getD _ _

theorem isCanonical_of_sin? {x : Decimal} (h : x.sin? = some d) : d.IsCanonical := by
  obtain ⟨r, -, rfl⟩ := Option.map_eq_some_iff.1 h
  exact isCanonical_ofFixed _ _

theorem isCanonical_of_cos? {x : Decimal} (h : x.cos? = some d) : d.IsCanonical := by
  obtain ⟨r, -, rfl⟩ := Option.map_eq_some_iff.1 h
  exact isCanonical_ofFixed _ _

theorem isCanonical_atan (x : Decimal) : x.atan.IsCanonical := by
  rw [atan]
  split
  · exact isCanonical_zero
  · exact isCanonical_ofFixed _ _

theorem isCanonical_halfPi : halfPi.IsCanonical := isCanonical_div?_getD _ _

theorem isCanonical_asin (x : Decimal) : x.asin.IsCanonical := by
  rw [asin]
  split
  · split
    · exact isCanonical_halfPi.neg
    · exact isCanonical_halfPi
  · split
    · exact isCanonical_atan _
    · exact isCanonical_zero

theorem isCanonical_acos (x : Decimal) : x.acos.IsCanonical :=
  isCanonical_halfPi.sub (isCanonical_asin x)

end Keypad.Decimal
