import Keypad.Decimal.Word
import Keypad.Proofs.Decimal.Addition
import Keypad.Proofs.Literal

/-!
# Decimals in machine words

With words of a fixed size the operations answer what they answer without, as long as no number of
digits comes near `2 ^ 32`. On decimals in canonical form no check of an exponent fails: both ends
of what 64 bits hold lie beyond the limits at which a decimal is flushed to zero or keeps the
largest exponent.

Only a number that is given from outside can be too long: an integer of more than `2 ^ 32` digits is
rounded by too small a power of ten, and the quotient by one that is so much longer than the
dividend is cut to zero.
-/

namespace Keypad

open Digits Literal

theorem Decimal.WithinLimits.inWord {d : Decimal} (h : d.WithinLimits) : InWord d.exponent := by
  obtain ⟨hfloor, hceiling⟩ := h
  rw [exponentFloor] at hfloor
  rw [exponentCeiling] at hceiling
  exact ⟨by omega, by omega⟩

theorem Decimal.IsCanonical.inWord {d : Decimal} (h : d.IsCanonical) : InWord d.exponent :=
  h.withinLimits.inWord

theorem Literal.inWord_toInt (e : Int64) : InWord e.toInt :=
  ⟨e.le_toInt, Int.le_of_lt_add_one e.toInt_lt⟩

namespace Word

variable {m n d e : Int} {a b x : Decimal} {digits k : Nat}

/-! ## Powers of ten -/

theorem pow10_eq (h : k < powerLimit) : pow10 k = Keypad.pow10 k := by
  rw [pow10, Nat.mod_eq_of_lt h]

theorem pow10_pos (k : Nat) : 0 < pow10 k := Keypad.pow10_pos _

@[simp] theorem pow10_zero : pow10 0 = 1 := rfl

/-- What is cut off an exponent is missing in the power. -/
theorem pow10_mul_pow10 (k : Nat) :
    pow10 k * Keypad.pow10 (powerLimit * (k / powerLimit)) = Keypad.pow10 k := by
  rw [pow10, ← Keypad.pow10_add, Nat.mod_add_div]

theorem exists_pow10_mul (h : powerLimit ≤ k) :
    ∃ j, powerLimit ≤ j ∧ Keypad.pow10 k = pow10 k * Keypad.pow10 j :=
  ⟨powerLimit * (k / powerLimit), Nat.le_mul_of_pos_right _ (Nat.div_pos h (by decide)),
    (pow10_mul_pow10 k).symm⟩

/-! ## Rounding -/

theorem checked_eq (h : InWord e) : checked e = .ok e := if_pos h

/-- An exponent that is raised from inside does not notice that it saturates. -/
theorem clampExponent_clampExponent_add (h : -9223372036854775808 ≤ e) (k : Nat) :
    clampExponent (clampExponent e + k) = clampExponent (e + k) := by
  simp only [clampExponent]
  omega

theorem stripZeros_clampExponent (m : Nat) (h : -9223372036854775808 ≤ e) :
    stripZeros m (clampExponent e)
      = (Digits.stripZeros m e).map id clampExponent := by
  fun_induction Digits.stripZeros m e with
  | case1 m e hm ih =>
    have hsum : clampExponent (clampExponent e + 1) = clampExponent (e + 1) :=
      clampExponent_clampExponent_add h 1
    rw [stripZeros, if_pos hm, hsum, ih (by omega)]
  | case2 m e hm => rw [stripZeros, if_neg hm]; rfl

theorem normalize_clampExponent (m : Int) (h : -9223372036854775808 ≤ e) :
    normalize m (clampExponent e) = Decimal.normalize m e := by
  rw [normalize, stripZeros_clampExponent m.natAbs h, Decimal.normalize]
  generalize Digits.stripZeros m.natAbs e = r
  obtain ⟨k, f⟩ := r
  have hfloor : clampExponent f < exponentFloor ↔ f < exponentFloor := by
    simp only [clampExponent, exponentFloor]
    omega
  cases k with
  | zero => rfl
  | succ k =>
    simp only [Prod.map, id, hfloor]
    split
    · rfl
    · next hf =>
      have hceiling : min (clampExponent f) exponentCeiling = min f exponentCeiling := by
        simp only [clampExponent, exponentFloor, exponentCeiling] at hf ⊢
        omega
      rw [hceiling]

/-- An integer of any length is divided by the power of ten that there is. -/
theorem round_clampExponent (m : Int) (h : -9223372036854775808 ≤ e) (digits : Nat) :
    round m (clampExponent e) digits
      = Decimal.normalize (roundDiv m (pow10 (count m.natAbs - digits)))
          (e + ((count m.natAbs - digits : Nat) : Int)) := by
  simp only [round]
  split
  · next hshort =>
    have hself := Decimal.roundDiv_pow10 m 0
    rw [Keypad.pow10_zero, Nat.cast_one, mul_one] at hself
    rw [hshort, pow10_zero, hself, Nat.cast_zero, add_zero, normalize_clampExponent m h]
  · rw [clampExponent_clampExponent_add h, normalize_clampExponent _ (by omega)]

theorem round_clampExponent_eq (m : Int) (h : -9223372036854775808 ≤ e)
    (hcount : count m.natAbs < digits + powerLimit) :
    round m (clampExponent e) digits = Decimal.round m e digits := by
  have hexcess : count m.natAbs - digits < powerLimit := by
    rw [powerLimit] at *
    omega
  rw [round_clampExponent m h, pow10_eq hexcess, Decimal.round_eq_normalize]

theorem round_eq_normalize (m : Int) (h : InWord e) (digits : Nat) :
    round m e digits = Decimal.normalize (roundDiv m (pow10 (count m.natAbs - digits)))
      (e + ((count m.natAbs - digits : Nat) : Int)) := by
  have hround := round_clampExponent m h.1 digits
  rwa [clampExponent_eq h] at hround

theorem round_eq (h : InWord e) (hcount : count m.natAbs < digits + powerLimit) :
    round m e digits = Decimal.round m e digits := by
  have hround := round_clampExponent_eq m h.1 hcount
  rwa [clampExponent_eq h] at hround

theorem scaled_eq (h : InWord e) (hcount : count m.natAbs < precision + powerLimit) :
    scaled m e = Decimal.scaled m e := round_eq h hcount

/-! ## Quotients -/

/-- The lengths for which a quotient is found: the divisor is not too much longer than the dividend,
and the integer part of the quotient is not too long itself. -/
structure HasQuotient (n d : Int) : Prop where
  count_divisor : precision + 3 + count d.natAbs < count n.natAbs + powerLimit
  count_tdiv : count (n.tdiv d).natAbs < precision + powerLimit

instance (n d : Int) : Decidable (HasQuotient n d) :=
  decidable_of_iff (precision + 3 + count d.natAbs < count n.natAbs + powerLimit ∧
    count (n.tdiv d).natAbs < precision + powerLimit) ⟨fun h => ⟨h.1, h.2⟩, fun h => ⟨h.1, h.2⟩⟩

theorem hasQuotient_of_count_le (hn : count n.natAbs ≤ precision)
    (hd : count d.natAbs ≤ precision) :
    HasQuotient n d := by
  have hcut : count (n.tdiv d).natAbs ≤ count n.natAbs := by
    rw [Int.natAbs_tdiv]
    exact count_mono (Nat.div_le_self _ _)
  rw [precision] at *
  refine ⟨?_, ?_⟩
  · rw [precision, powerLimit]
    omega
  · rw [precision, powerLimit]
    omega

/-- Unless the integer part of a quotient has all the digits, so many zeros are appended that a few
digits more than are kept come out. -/
theorem count_cut_lt (hn : n ≠ 0) (hd : d ≠ 0)
    (h : count (n.tdiv d).natAbs < precision + powerLimit) :
    count ((n * Keypad.pow10 (precision + 3 + count d.natAbs - count n.natAbs)).tdiv d).natAbs
      < precision + powerLimit := by
  generalize hk : precision + 3 + count d.natAbs - count n.natAbs = k
  cases k with
  | zero => simpa using h
  | succ k =>
    have hcount := Decimal.count_tdiv_le (k := k + 1) hn hd (by omega)
    rw [precision] at hk ⊢
    rw [powerLimit]
    omega

/-- Where the exponent of a quotient saturates, the quotient is flushed to zero. -/
theorem quotient_eq (hd : d ≠ 0) (he : InWord e) (h : HasQuotient n d) :
    quotient n d e = Decimal.quotient n d e := by
  rw [quotient, Decimal.quotient]
  split
  · rfl
  · next hn =>
    have hcut := count_cut_lt hn hd h.count_tdiv
    have hshift : precision + 3 + count d.natAbs - count n.natAbs < powerLimit := by
      have hlength := h.count_divisor
      rw [powerLimit] at *
      omega
    dsimp only
    rw [pow10_eq hshift]
    generalize hk : precision + 3 + count d.natAbs - count n.natAbs = k at *
    by_cases hlow : -9223372036854775808 ≤ e - k
    · exact round_clampExponent_eq _ hlow hcut
    · -- The dividend got at least as many digits as the exponent lost, so the quotient is short.
      rw [InWord] at he
      have hend : clampExponent (e - k) = -9223372036854775808 := by
        rw [clampExponent]
        omega
      rw [precision] at hk
      have hcount := Decimal.count_tdiv_le (k := k) hn hd (by omega)
      rw [hend, scaled_eq (by decide) hcut, Decimal.scaled_eq_zero, Decimal.scaled_eq_zero]
      · rw [exponentFloor]
        omega
      · rw [exponentFloor]
        omega

@[simp] theorem scaled_zero (e : Int) : scaled 0 e = .zero := by
  have hstrip (f : Int) : stripZeros 0 f = (0, f) := by simp [stripZeros]
  simp [scaled, round, normalize, roundDiv, hstrip]

/-- A dividend that gets too few zeros is less than the divisor. -/
theorem quotient_eq_zero (hd : d ≠ 0)
    (h : count n.natAbs + powerLimit ≤ precision + 3 + count d.natAbs) (e : Int) :
    quotient n d e = .zero := by
  rw [quotient]
  split
  · rfl
  · next hn =>
    dsimp only
    generalize hk : precision + 3 + count d.natAbs - count n.natAbs = k
    have hmod := Nat.mod_lt k (show 0 < powerLimit by decide)
    have hlt : (n * pow10 k).natAbs < d.natAbs := by
      have hdivisor : d.natAbs ≠ 0 := Int.natAbs_ne_zero.2 hd
      have hfew : k % powerLimit + powerLimit ≤ k := by
        rw [powerLimit] at *
        omega
      rw [pow10, Decimal.natAbs_mul_pow10]
      calc n.natAbs * Keypad.pow10 (k % powerLimit)
          < Keypad.pow10 (count n.natAbs) * Keypad.pow10 (k % powerLimit) :=
            Nat.mul_lt_mul_of_pos_right (lt_pow10_count _) (Keypad.pow10_pos _)
        _ = Keypad.pow10 (count n.natAbs + k % powerLimit) := (Keypad.pow10_add _ _).symm
        _ ≤ Keypad.pow10 (count d.natAbs - 1) := by
            refine pow10_le_pow10 ?_
            rw [precision] at *
            rw [powerLimit] at *
            omega
        _ ≤ d.natAbs := pow10_pred_count_le hdivisor
    have hcut : (n * pow10 k).tdiv d = 0 := by
      rw [← Int.natAbs_eq_zero, Int.natAbs_tdiv]
      exact Nat.div_eq_of_lt hlt
    rw [hcut, scaled_zero]

/-! ## Exponents of operands -/

/-- No leading exponent overflows that a mantissa in memory can give. -/
theorem leading_eq (h : x.WithinLimits) (hcount : count x.mantissa.natAbs ≤ 2 ^ 61) :
    leading x = .ok x.leading ∧ x.leading.natAbs ≤ 2 ^ 61 + 2 ^ 52 := by
  obtain ⟨hfloor, hceiling⟩ := h
  rw [exponentFloor] at hfloor
  rw [exponentCeiling] at hceiling
  rw [leading, Decimal.leading]
  split
  · exact ⟨rfl, by decide⟩
  · refine ⟨?_, by omega⟩
    rw [checked_eq ⟨by omega, by omega⟩]
    exact checked_eq ⟨by omega, by omega⟩

/-- The mantissa of a summand, read at the exponent `e`. -/
def mantissaAt (d : Decimal) (e : Int) : Int := d.mantissa * pow10 (d.exponent - e).toNat

/-- The sum of which nothing is left out. -/
def plainSum (a b : Decimal) : Decimal :=
  let e := min a.exponent b.exponent
  scaled (mantissaAt a e + mantissaAt b e) e

/-- The exponents that a sum compares and subtracts stay small. -/
theorem add_eq_ite (ha : a.WithinLimits) (hb : b.WithinLimits)
    (hca : count a.mantissa.natAbs ≤ 2 ^ 61) (hcb : count b.mantissa.natAbs ≤ 2 ^ 61) :
    add a b = .ok (if a.isZero then b else if b.isZero then a
      else if (precision : Int) + 2 < a.leading - b.leading then a
      else if (precision : Int) + 2 < -(a.leading - b.leading) then b
      else plainSum a b) := by
  obtain ⟨hla, hsmall⟩ := leading_eq ha hca
  obtain ⟨hlb, hsmall'⟩ := leading_eq hb hcb
  obtain ⟨hfloor, hceiling⟩ := ha
  obtain ⟨hfloor', hceiling'⟩ := hb
  rw [exponentFloor] at hfloor hfloor'
  rw [exponentCeiling] at hceiling hceiling'
  have hgap : checked (a.leading - b.leading) = .ok (a.leading - b.leading) :=
    checked_eq ⟨by omega, by omega⟩
  have hback : checked (-(a.leading - b.leading)) = .ok (-(a.leading - b.leading)) :=
    checked_eq ⟨by omega, by omega⟩
  have hi : checked (a.exponent - min a.exponent b.exponent)
      = .ok (a.exponent - min a.exponent b.exponent) := checked_eq ⟨by omega, by omega⟩
  have hj : checked (b.exponent - min a.exponent b.exponent)
      = .ok (b.exponent - min a.exponent b.exponent) := checked_eq ⟨by omega, by omega⟩
  rw [add, hla, hlb]
  simp only [bind, Except.bind, hgap, hback, hi, hj]
  split_ifs <;> rfl

/-! ## Operands in canonical form -/

theorem significant_eq (h : x.IsCanonical) (digits : Nat) :
    significant x digits = x.significant digits := by
  have hcount := h.count_le_precision
  rw [precision] at hcount
  refine round_eq h.inWord ?_
  rw [powerLimit]
  omega

theorem mantissaAt_eq (h : (x.exponent - e).toNat < powerLimit) :
    mantissaAt x e = x.mantissaAt e := by
  rw [mantissaAt, pow10_eq h, Decimal.mantissaAt]

/-- Of two summands close to each other neither has many digits at the lesser exponent. -/
theorem count_mantissaAt_min_le (hza : a.isZero = false) (hzb : b.isZero = false)
    (hcb : count b.mantissa.natAbs ≤ precision) (hca : count a.mantissa.natAbs ≤ precision)
    (hnear : (a.leading - b.leading).natAbs ≤ precision + 2) :
    (a.exponent - min a.exponent b.exponent).toNat < powerLimit ∧
      count (a.mantissaAt (min a.exponent b.exponent)).natAbs ≤ 2 * precision + 2 := by
  have hsum := Decimal.count_mantissaAt hza (min_le_left a.exponent b.exponent)
  have hlength := Decimal.count_natAbs_eq hza
  have hlength' := Decimal.count_natAbs_eq hzb
  rw [precision] at *
  rw [powerLimit]
  omega

/-- Summands that are both kept overlap or lie close to each other. -/
theorem plainSum_eq (ha : a.IsCanonical) (hb : b.IsCanonical) (hza : a.isZero = false)
    (hzb : b.isZero = false) (hnear : (a.leading - b.leading).natAbs ≤ precision + 2) :
    plainSum a b = a.plainSum b := by
  have hca := ha.count_le_precision
  have hcb := hb.count_le_precision
  obtain ⟨hshift, hcount⟩ := count_mantissaAt_min_le hza hzb hcb hca hnear
  obtain ⟨hshift', hcount'⟩ := count_mantissaAt_min_le hzb hza hca hcb (by omega)
  rw [min_comm] at hshift' hcount'
  have hmin : InWord (min a.exponent b.exponent) := by
    rcases min_choice a.exponent b.exponent with h | h
    · rw [h]
      exact ha.inWord
    · rw [h]
      exact hb.inWord
  rw [plainSum, Decimal.plainSum, mantissaAt_eq hshift, mantissaAt_eq hshift']
  refine scaled_eq hmin ?_
  have hsum := (count_mono (Int.natAbs_add_le _ _)).trans (count_add_le hcount hcount')
  rw [precision] at *
  rw [powerLimit]
  omega

theorem add_eq (ha : a.IsCanonical) (hb : b.IsCanonical) : add a b = .ok (a.add b) := by
  have hca := ha.count_le_precision
  have hcb := hb.count_le_precision
  rw [precision] at hca hcb
  rw [add_eq_ite ha.withinLimits hb.withinLimits (by omega) (by omega), Decimal.add]
  refine congrArg Except.ok ?_
  dsimp only
  split
  · rfl
  · split
    · rfl
    · split
      · rfl
      · split
        · rfl
        · next hza hzb hgap hback =>
          exact plainSum_eq ha hb (by simpa using hza) (by simpa using hzb) (by omega)

theorem sub_eq (ha : a.IsCanonical) (hb : b.IsCanonical) : sub a b = .ok (a.sub b) :=
  add_eq ha hb.neg

theorem mul_eq (ha : a.IsCanonical) (hb : b.IsCanonical) : mul a b = a.mul b := by
  have hea := ha.natAbs_exponent_le
  have heb := hb.natAbs_exponent_le
  have hca := ha.count_le_precision
  have hcb := hb.count_le_precision
  have hcount := count_mul_le a.mantissa.natAbs b.mantissa.natAbs
  rw [← Int.natAbs_mul] at hcount
  refine round_clampExponent_eq _ (by omega) ?_
  rw [precision] at *
  rw [powerLimit]
  omega

theorem div_eq (ha : a.IsCanonical) (hb : b.IsCanonical) : div a b = settle (a.div? b) := by
  have hea := ha.natAbs_exponent_le
  have heb := hb.natAbs_exponent_le
  have hword : InWord (a.exponent - b.exponent) := ⟨by omega, by omega⟩
  rw [div, Decimal.div?, clampExponent_eq hword]
  split
  · rfl
  · next hzero =>
    have hne : b.mantissa ≠ 0 := by simpa [Decimal.isZero] using hzero
    rw [quotient_eq hne hword (hasQuotient_of_count_le ha.count_le_precision hb.count_le_precision)]
    rfl

/-! ## Conversions -/

/-- A number of places that is an exponent too is read as one. -/
theorem bmod_eq {w : Nat} (hw : w < 2 ^ 63) : Int.bmod w wordCount = w := by
  rw [Int.bmod_def, wordCount]
  omega

theorem ofFixed_eq (s : Int) {w : Nat} (hw : w < 2 ^ 63)
    (hcount : count s.natAbs < precision + powerLimit) : ofFixed s w = .ok (.ofFixed s w) := by
  have hword : InWord (-w : Int) := ⟨by omega, by omega⟩
  rw [ofFixed, bmod_eq hw, checked_eq hword]
  simp only [bind, Except.bind, scaled_eq hword hcount]
  rfl

theorem ofRat_eq {q : Rat} (h : HasQuotient q.num q.den) : ofRat q = .ofRat q :=
  quotient_eq (by exact_mod_cast q.den_ne_zero) (by decide) h

/-! ## Texts -/

theorem inWord_of_unsignedParts? {cs : List Char} {r : Nat × Int}
    (h : Decimal.unsignedParts? cs = some r) : InWord r.2 := by
  simp only [Decimal.unsignedParts?] at h
  split at h
  · exact inWord_of_parts? h
  · split at h
    · cases h
    · exact inWord_of_parts? h

/-- A literal that is no longer than a power of ten can be large is worth what it writes. -/
theorem scaled_eq_of_parts? {text : String} {r : Nat × Int} (h : parts? text.toList = some r)
    (hlength : text.length < precision + powerLimit) : scaled r.1 r.2 = Decimal.scaled r.1 r.2 := by
  refine scaled_eq (inWord_of_parts? h) ?_
  exact (count_le_length_of_parts? h).trans_lt (by rwa [String.length_toList])

/-- A typed value of such a length is read as it is written. -/
theorem read?_eq {text : String} (h : text.length < precision + powerLimit) :
    read? text = Decimal.read? text := by
  have hscaled {cs : List Char} {r : Nat × Int} (hlength : cs.length ≤ text.length)
      (hr : Decimal.unsignedParts? cs = some r) : scaled r.1 r.2 = Decimal.scaled r.1 r.2 := by
    refine scaled_eq (inWord_of_unsignedParts? hr) ?_
    exact (Decimal.count_le_length_of_unsignedParts? hr).trans_lt (hlength.trans_lt h)
  have htrim := Text.length_trim_le text.toList
  rw [String.length_toList] at htrim
  rw [Decimal.read?, read?]
  generalize Text.trim text.toList = cs at *
  obtain ⟨rest, rfl⟩ | hsign := em (∃ rest, cs = '-' :: rest)
  · rw [List.length_cons] at htrim
    exact Option.map_congr fun r hr => congrArg Neg.neg (hscaled (by omega) hr)
  · have hskip := length_skip_le '+' cs
    rw [not_exists] at hsign
    -- in neither reading does a sign stand in front
    simp only
    exact Option.map_congr fun r hr => hscaled (by omega) hr

end Word

end Keypad
