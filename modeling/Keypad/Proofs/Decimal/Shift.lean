import Keypad.Proofs.Decimal.RoundingLaws

/-!
# Rounding and powers of ten

The digits of a rounded decimal do not depend on its power of ten, which only moves its exponent.
So a decimal may be rounded before or after it is multiplied by a power of ten, until the exponent
meets a limit. The same digits give the integer as which an exponent or an index is compared.
-/

namespace Keypad

open Digits

namespace Decimal

variable {digits : Nat} {m e k : Int}

/-- The digits of a number that is rounded, wherever its point is. -/
theorem exists_round (hdigits : 0 < digits) (hm : m ≠ 0) :
    ∃ (n : Int) (f : Nat), n % 10 ≠ 0 ∧ count n.natAbs ≤ digits ∧ ∀ e,
      round m e digits = limited ⟨n, e + f⟩ ∧
        IsNearest digits (fraction m e) (fraction n (e + f)) := by
  have hq := roundDiv_ne_zero (pow10_pos _) (pow10_count_sub_le hdigits hm)
  have hround (e : Int) := round_eq_normalize m e digits
  have hnearest := isNearest_roundDiv hdigits m
  generalize count m.natAbs - digits = x at *
  generalize roundDiv m (pow10 x) = q at *
  obtain ⟨y, j, hreduced, rfl, -, -⟩ := normalize_eq_limited q 0
  have hmod : y.mantissa % 10 ≠ 0 := by
    rcases hreduced with rfl | hmod
    · exact absurd (Int.zero_mul _) hq
    · exact hmod
  have hlimited (e : Int) : round m e digits = limited ⟨y.mantissa, e + (x + j : Nat)⟩ := by
    have hexponent : e + x = (e + (x + j : Nat)) - j := by omega
    rw [hround, hexponent, normalize_mul_pow10]
    exact IsReduced.normalize_eq (d := ⟨y.mantissa, e + (x + j : Nat)⟩) (.inr hmod)
  refine ⟨y.mantissa, x + j, hmod, ?_, fun e => ⟨hlimited e, ?_⟩⟩
  · have hlt := natAbs_mantissa_round_lt hdigits m 0
    have hfloor : ¬(0 + (x + j : Nat) : Int) < exponentFloor := by
      rw [exponentFloor]
      omega
    rw [hlimited, limited, if_neg hfloor] at hlt
    exact count_le hdigits hlt
  · have hexponent : e + x = (e + (x + j : Nat)) - j := by omega
    have hvalue := hnearest e
    rwa [hexponent, fraction_mul_pow10] at hvalue

/-- A decimal that meets no limit is moved by a power of ten like the number that it rounds. -/
theorem scaled_shift (hzero : scaled m e ≠ zero)
    (hceiling : (scaled m e).exponent < exponentCeiling) (k : Int) :
    scaled (scaled m e).mantissa ((scaled m e).exponent + k) = scaled m (e + k) := by
  have hm : m ≠ 0 := by
    rintro rfl
    exact hzero (scaled_zero e)
  obtain ⟨n, f, hmod, hcount, hround⟩ := exists_round (show 0 < precision by decide) hm
  rw [scaled, (hround e).1, limited] at hzero hceiling
  rw [scaled, scaled, scaled, (hround e).1, (hround (e + k)).1, limited]
  split at hzero
  · exact absurd rfl hzero
  · next hfloor =>
    rw [if_neg hfloor] at hceiling ⊢
    dsimp only at hceiling ⊢
    have hexponent : min (e + f) exponentCeiling + k = e + k + f := by omega
    rw [hexponent]
    have hreduced : IsReduced ⟨n, e + k + f⟩ := .inr hmod
    exact (scaled_eq_normalize _ hcount).trans hreduced.normalize_eq

/-! ## Integers -/

theorem toInt?_normalize {m e : Int} (he : 0 ≤ e) (hhigh : e + count m.natAbs ≤ 1000) :
    (normalize m e).toInt? = some (m * pow10 e.toNat) := by
  by_cases hm : m = 0
  · subst hm
    simp [toInt?, zero]
  obtain ⟨n, j, hnormalize, rfl, hn⟩ :=
    exists_normalize (e := e) hm (by rw [exponentFloor]; omega) (by rw [exponentCeiling]; omega)
  have hcount : j ≤ count (n * pow10 j).natAbs := by
    rw [natAbs_mul_pow10, count_mul_pow10 (Int.natAbs_ne_zero.2 hn)]
    exact Nat.le_add_left _ _
  have hexponent : (e + j).toNat = e.toNat + j := by omega
  rw [hnormalize, toInt?, if_pos (by dsimp only; omega)]
  dsimp only
  rw [hexponent, pow10_add]
  push_cast
  ring_nf

theorem value_of_toInt? {d : Decimal} {n : Int} (h : d.toInt? = some n) :
    d.exponent ≤ 1000 ∧ d.value = n := by
  rw [toInt?] at h
  split at h
  · next hexponent =>
    refine ⟨hexponent.2, ?_⟩
    obtain rfl := Option.some.inj h
    have hcast : (d.exponent.toNat : Int) = d.exponent := Int.toNat_of_nonneg hexponent.1
    rw [value, fraction_eq, ← hcast, zpow_natCast, Int.cast_mul, Int.cast_natCast, pow10_cast,
      hcast]
  · cases h

/-- The limits leave what does not come to the largest exponent. -/
theorem limited_eq_of_exponent_lt {d : Decimal} (hfloor : exponentFloor ≤ d.exponent)
    (h : d.limited.exponent < exponentCeiling) : d.limited = d := by
  rw [limited, if_neg (not_lt.2 hfloor)] at h ⊢
  dsimp only at h
  rw [min_eq_left (by omega)]

end Decimal

namespace Quantity

variable {n k : Int}

/-- An integer as it is compared: rounded to `comparedDigits` digits. -/
def comparedInt (n : Int) : Int :=
  let excess := count n.natAbs - comparedDigits
  roundDiv n (pow10 excess) * pow10 excess

theorem significant_ofInt (hn : count n.natAbs ≤ precision) (digits : Nat) :
    (Decimal.ofInt n).significant digits = Decimal.round n 0 digits := by
  by_cases hzero : n = 0
  · subst hzero
    rw [Decimal.ofInt, Decimal.scaled_zero]
    rfl
  rw [precision] at hn
  obtain ⟨m, j, hnormalize, rfl, -⟩ := Decimal.exists_normalize hzero (e := 0) (by decide)
    (by rw [exponentCeiling]; omega)
  have hround := Decimal.round_mul_pow10 m j j digits
  rw [sub_self] at hround
  rw [Decimal.ofInt, Decimal.scaled_eq_normalize _ hn, hnormalize, Int.zero_add]
  exact hround.symm

theorem comparedInt?_ofInt (hn : count n.natAbs ≤ precision) :
    comparedInt? (.ofInt n) = some (comparedInt n) := by
  have hcount : count (roundDiv n (pow10 (count n.natAbs - comparedDigits))).natAbs ≤ 17 := by
    rw [natAbs_roundDiv]
    exact count_roundDivNat_le (by rw [comparedDigits]; omega)
  have hsignificant := significant_ofInt hn comparedDigits
  rw [precision] at hn
  rw [comparedInt?, hsignificant, Decimal.round_eq_normalize,
    Decimal.toInt?_normalize (by omega) (by omega)]
  simp [comparedInt]

theorem comparedInt_eq_self (hn : count n.natAbs ≤ comparedDigits) : comparedInt n = n := by
  have hexcess : count n.natAbs - comparedDigits = 0 := by omega
  have hone := Decimal.roundDiv_pow10 n 0
  rw [pow10_zero, Nat.cast_one, mul_one] at hone
  simp [comparedInt, hexcess, hone]

theorem comparedInt?_neg (d : Decimal) : comparedInt? (-d) = (comparedInt? d).map (- ·) := by
  have hsignificant : (-d).significant comparedDigits = -d.significant comparedDigits :=
    Decimal.round_neg _ _ _
  rw [comparedInt?, comparedInt?, hsignificant, Decimal.toInt?, Decimal.toInt?]
  split <;> simp_all

/-- The integer is rounded to its kept digits first, and then to those that are compared. -/
theorem exists_isNearest_of_comparedInt? (hk : k ≠ 0) (h : comparedInt? (.ofInt k) = some n) :
    ∃ q, IsNearest precision k q ∧ IsNearest comparedDigits q n := by
  obtain ⟨m, f, hmod, -, hround⟩ := Decimal.exists_round (show 0 < precision by decide) hk
  obtain ⟨m', f', -, -, hround'⟩ :=
    Decimal.exists_round (show 0 < comparedDigits by decide) (show m ≠ 0 by omega)
  obtain ⟨hkept, hnearest⟩ := hround 0
  obtain ⟨e, he⟩ : ∃ e, e = min (0 + f : Int) exponentCeiling := ⟨_, rfl⟩
  have hofInt : Decimal.ofInt k = ⟨m, e⟩ := by
    rw [Decimal.ofInt, Decimal.scaled, hkept, Decimal.limited,
      if_neg (by rw [exponentFloor]; dsimp only; omega), he]
  rw [comparedInt?, hofInt, Decimal.significant, (hround' e).1] at h
  obtain ⟨hexponent, hvalue⟩ := Decimal.value_of_toInt? h
  rw [exponentCeiling] at he
  -- An exponent that is small enough for an integer has met no limit on the way.
  have hlimited : Decimal.limited ⟨m', e + f'⟩ = ⟨m', e + f'⟩ :=
    Decimal.limited_eq_of_exponent_lt (by rw [exponentFloor]; dsimp only; omega)
      (hexponent.trans_lt (by decide))
  rw [hlimited] at hexponent hvalue
  dsimp only at hexponent
  obtain rfl : e = 0 + f := by omega
  refine ⟨Decimal.fraction m (0 + f), ?_, ?_⟩
  · simpa [Decimal.fraction_eq] using hnearest
  · rw [← hvalue]
    exact (hround' _).2

/-- Comparing integers does not bring a larger one below an integer of few digits. -/
theorem le_of_comparedInt? {z : Nat} (h : comparedInt? (.ofInt k) = some n)
    (hz : z ≤ pow10 comparedDigits) (hle : (z : Int) ≤ k) : (z : Int) ≤ n := by
  by_cases hk : k = 0
  · subst hk
    rw [comparedInt?_ofInt (by rw [Int.natAbs_zero, count_zero]; decide)] at h
    obtain rfl := Option.some.inj h
    rwa [comparedInt_eq_self (by rw [Int.natAbs_zero, count_zero]; decide)]
  have hdigits (digits : Nat) (hle : comparedDigits ≤ digits) : HasDigits digits (z : Rat) := by
    have hfraction : Decimal.fraction z 0 = z := by simp [Decimal.fraction_eq]
    rw [← hfraction]
    exact hasDigits_fraction (by rw [comparedDigits] at hle; omega)
      (hz.trans (pow10_le_pow10 hle)) 0
  obtain ⟨q, hkept, hcompared⟩ := exists_isNearest_of_comparedInt? hk h
  have hmiddle : (z : Rat) ≤ q :=
    (IsNearest.self (hdigits precision (by decide))).mono hkept (by exact_mod_cast hle)
  have hlast : (z : Rat) ≤ n :=
    (IsNearest.self (hdigits comparedDigits le_rfl)).mono hcompared hmiddle
  exact_mod_cast hlast

end Quantity

end Keypad
