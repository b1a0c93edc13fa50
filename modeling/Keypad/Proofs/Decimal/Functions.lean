import Keypad.Proofs.Decimal.Canonical
import Keypad.Proofs.Fixed.Series

/-!
# The size of functions

The logarithms of a canonical decimal, the circular functions and their inverses are far from the
largest answer, whatever their argument is, and a result that others are divided by is not too
close to zero: it has a digit among its decimal places.
-/

namespace Keypad

namespace Digits

theorem lt_pow10_succ (n : Nat) : pow10 n < pow10 (n + 1) := by
  have hpos := pow10_pos n
  rw [pow10_succ]
  omega

/-- The remainder of a rounded division is at most half the divisor. -/
theorem two_mul_natAbs_sub_roundDiv_le (n : Int) {d : Nat} (hd : 0 < d) :
    2 * (n - roundDiv n d * d).natAbs ≤ d := by
  have hnat (m : Nat) : 2 * ((m : Int) - (roundDivNat m d : Int) * d).natAbs ≤ d := by
    have hle := roundDivNat_mul_le m d
    have hlt := lt_roundDivNat_mul m hd
    have hproduct : ((roundDivNat m d : Int)) * d = (d * roundDivNat m d : Nat) := by
      push_cast
      ring
    rw [Nat.mul_assoc] at hle hlt
    rw [Nat.mul_add, Nat.mul_one] at hlt
    rw [hproduct]
    omega
  by_cases h : n < 0
  · have hsign : n - roundDiv n d * d
        = -((n.natAbs : Int) - (roundDivNat n.natAbs d : Int) * d) := by
      rw [roundDiv, if_pos h, Int.neg_mul]
      omega
    rw [hsign, Int.natAbs_neg]
    exact hnat n.natAbs
  · have hsign : n - roundDiv n d * d = (n.natAbs : Int) - (roundDivNat n.natAbs d : Int) * d := by
      rw [roundDiv, if_neg h]
      omega
    rw [hsign]
    exact hnat n.natAbs

end Digits

namespace Decimal

open Digits

variable {x a b d : Decimal} {n : Int} {w c k : Nat}

/-! ## Fixed-point numbers -/

theorem natAbs_toFixed_lt (h : d.AtMost n) (w : Nat) :
    (d.toFixed w).natAbs < pow10 (n + w + 1).toNat := by
  have hpos := pow10_pos (n + w + 1).toNat
  by_cases hz : d.isZero
  · have hm : d.mantissa = 0 := by simpa [isZero] using hz
    simp only [toFixed, hm, Int.zero_mul, Int.zero_tdiv, ite_self, Int.natAbs_zero]
    exact hpos
  have hz' : d.isZero = false := by simpa using hz
  have hcount := count_natAbs_eq hz'
  have hleading := h hz'
  have hmantissa := lt_pow10_count d.mantissa.natAbs
  rw [toFixed]
  split
  · rw [natAbs_mul_pow10]
    calc d.mantissa.natAbs * pow10 (d.exponent + w).toNat
        < pow10 (count d.mantissa.natAbs) * pow10 (d.exponent + w).toNat :=
          Nat.mul_lt_mul_of_pos_right hmantissa (pow10_pos _)
      _ = pow10 (count d.mantissa.natAbs + (d.exponent + w).toNat) := (pow10_add _ _).symm
      _ ≤ pow10 (n + w + 1).toNat := pow10_le_pow10 (by omega)
  · split
    · exact hpos
    · rw [Int.natAbs_tdiv, Int.natAbs_natCast]
      refine (Nat.div_lt_iff_lt_mul (pow10_pos _)).2 ?_
      rw [← pow10_add]
      exact hmantissa.trans_le (pow10_le_pow10 (by omega))

/-- The decimal is a fixed-point number with `w` places and at most `c` digits before them. -/
def IsFixed (w c : Nat) (d : Decimal) : Prop :=
  ∃ s : Int, s.natAbs < pow10 (w + c) ∧ d = ofFixed s w

theorem isFixed_zero (w c : Nat) : zero.IsFixed w c := ⟨0, pow10_pos _, (scaled_zero _).symm⟩

theorem isFixed_ofFixed {s : Int} (h : s.natAbs < pow10 (w + c)) : (ofFixed s w).IsFixed w c :=
  ⟨s, h, rfl⟩

theorem IsFixed.atMost (h : d.IsFixed w c) (hc : 0 < c) : d.AtMost c := by
  obtain ⟨s, hs, rfl⟩ := h
  exact atMost_ofFixed (count_le (by omega) hs)

/-- A quotient is small if its divisor has a digit among its decimal places. -/
theorem AtMost.div_isFixed (ha : a.AtMost n) (hb : b.IsFixed w c) (hc : 0 < c)
    (hsmall : w + c ≤ 10 ^ 15) (h : a.div? b = some d) : d.AtMost (n + w + 1) := by
  have hb' : b.isZero = false := by
    by_contra hzero
    rw [div?, if_pos (by simpa using hzero)] at h
    cases h
  obtain ⟨s, hs, rfl⟩ := hb
  have hcount := count_le (by omega) hs
  have hleading := le_leading_ofFixed hb' (by omega) (by omega)
  exact (ha.div hleading h).mono (by omega)

/-! ## Constants -/

/-- The constants that the functions use, computed to their working digits. -/
theorem constants_size :
    (Fixed.ln2 (workDigits + 4)).natAbs ≤ pow10 (workDigits + 4) ∧
    (Fixed.ln10 (workDigits + 4)).natAbs ≤ pow10 (workDigits + 5) ∧
    ((Fixed.pi (workDigits + 4)).tdiv 2).natAbs ≤ pow10 (workDigits + 5) ∧
    0 ≤ ln10.leading ∧ halfPi.leading = 0 ∧
    roundDiv (one.toFixed (workDigits + 12)) (Fixed.ln10 (workDigits + 12)).natAbs = 0 := by
  decide +kernel

/-! ## Logarithms -/

/-- The logarithm of a reduced mantissa with the multiples of `ln 2` and `ln 10` taken out. -/
theorem natAbs_lnParts_lt {j : Nat} {e : Int} (t : Nat) (hj : j ≤ pow10 (workDigits + 6))
    (he : e.natAbs ≤ 10 ^ 16) :
    (Fixed.lnNearOne t (pow10 (workDigits + 4)) + Fixed.ln2 (workDigits + 4) * j
      + Fixed.ln10 (workDigits + 4) * e).natAbs < pow10 (workDigits + 4 + (workDigits + 7)) := by
  obtain ⟨hln2, hln10, -⟩ := constants_size
  have hnear := Fixed.natAbs_lnNearOne_le t (pow10 (workDigits + 4))
  have htwo : (Fixed.ln2 (workDigits + 4) * j).natAbs
      ≤ pow10 (workDigits + 4) * pow10 (workDigits + 6) := by
    rw [Int.natAbs_mul, Int.natAbs_natCast]
    exact Nat.mul_le_mul hln2 hj
  have hten : (Fixed.ln10 (workDigits + 4) * e).natAbs ≤ pow10 (workDigits + 5) * 10 ^ 16 := by
    rw [Int.natAbs_mul]
    exact Nat.mul_le_mul hln10 he
  calc _ ≤ 2 * (pow10 (workDigits + 4) + pow10 (workDigits + 4) * pow10 (workDigits + 4))
          + pow10 (workDigits + 4) * pow10 (workDigits + 6) + pow10 (workDigits + 5) * 10 ^ 16 := by
        refine (Int.natAbs_add_le _ _).trans (Nat.add_le_add ?_ hten)
        exact (Int.natAbs_add_le _ _).trans (Nat.add_le_add hnear htwo)
    _ < pow10 (workDigits + 4 + (workDigits + 7)) := by decide

theorem isFixed_ln (hx : x.IsCanonical) : x.ln.IsFixed (workDigits + 4) (workDigits + 7) := by
  rw [ln]
  split
  · exact isFixed_zero _ _
  · next hsign =>
    have hne : x.mantissa ≠ 0 := by
      intro hzero
      rw [sign, hzero] at hsign
      exact hsign (le_refl _)
    have hfirst : (scaled x.mantissa (x.exponent - x.leading)).AtMost 1 := by
      refine (atMost_scaled _ _).mono ?_
      rw [leading_of_ne_zero (by simpa [isZero] using hne)]
      omega
    have hm := natAbs_toFixed_lt hfirst (workDigits + 4)
    have hhalved := (Fixed.halve_le (pow10 (workDigits + 4) * 3 / 2)
      ((scaled x.mantissa (x.exponent - x.leading)).toFixed (workDigits + 4)).natAbs 0).2
    rw [Nat.zero_add] at hhalved
    exact isFixed_ofFixed (natAbs_lnParts_lt _ (hhalved.trans hm.le) hx.natAbs_leading_le)

theorem atMost_log10 (hx : x.IsCanonical) : x.log10.AtMost 72 := by
  obtain ⟨-, -, -, hln10, -⟩ := constants_size
  rw [log10]
  cases h : x.ln.div? ln10 with
  | none => exact atMost_zero _
  | some d => exact (((isFixed_ln hx).atMost (by decide)).div hln10 h).mono (by decide)

/-! ## Circular functions -/

theorem natAbs_reducedAngle?_le {w : Nat} {r : Int} (h : x.reducedAngle? w = some r) :
    r.natAbs ≤ 4 * pow10 w := by
  rw [reducedAngle?] at h
  split at h
  · cases h
  · cases h
    generalize x.leading.toNat + 4 = extra
    obtain ⟨hlow, hhigh⟩ := Fixed.pi_bounds (w + extra)
    have hpos := pow10_pos (w + extra)
    obtain ⟨turn, hturn⟩ : ∃ turn : Nat, Fixed.pi (w + extra) * 2 = turn :=
      Int.eq_ofNat_of_zero_le (by omega)
    rw [hturn, Int.natAbs_natCast, Int.natAbs_tdiv, Int.natAbs_natCast]
    have hrest := two_mul_natAbs_sub_roundDiv_le (x.toFixed (w + extra)) (d := turn) (by omega)
    refine Nat.div_le_of_le_mul ?_
    calc (x.toFixed (w + extra) - roundDiv (x.toFixed (w + extra)) turn * turn).natAbs
        ≤ 4 * pow10 (w + extra) := by omega
      _ = pow10 extra * (4 * pow10 w) := by
        rw [pow10_add]
        ring

theorem isFixed_of_sin? (h : x.sin? = some d) : d.IsFixed workDigits (workDigits + 264) := by
  obtain ⟨r, hr, rfl⟩ := Option.map_eq_some_iff.1 h
  have hle := natAbs_reducedAngle?_le hr
  exact isFixed_ofFixed (Fixed.natAbs_sin_lt (by omega))

theorem isFixed_of_cos? (h : x.cos? = some d) : d.IsFixed workDigits (workDigits + 264) := by
  obtain ⟨r, hr, rfl⟩ := Option.map_eq_some_iff.1 h
  have hle := natAbs_reducedAngle?_le hr
  exact isFixed_ofFixed (Fixed.natAbs_cos_lt (by omega))

/-! ## Inverse circular functions -/

theorem isFixed_atan (x : Decimal) : x.atan.IsFixed (workDigits + 4) (workDigits + 6) := by
  rw [atan]
  split
  · exact isFixed_zero _ _
  · obtain ⟨-, -, hpi, -⟩ := constants_size
    have hbound : pow10 (workDigits + 5) + 8 * (pow10 (workDigits + 4) + pow10 (workDigits + 4)
        * pow10 (workDigits + 4)) < pow10 (workDigits + 4 + (workDigits + 6)) := by decide
    dsimp only
    generalize (if x.abs.compare one == .gt then x.abs.inv?.getD zero else x.abs) = a
    generalize a.toFixed (workDigits + 4) = t
    have harctan := Fixed.natAbs_arctan_le t (pow10 (workDigits + 4))
    generalize Fixed.arctan t (pow10 (workDigits + 4)) = angle at harctan ⊢
    refine isFixed_ofFixed ?_
    split <;> split <;> omega

theorem atMost_halfPi : halfPi.AtMost 0 := by
  obtain ⟨-, -, -, -, hleading, -⟩ := constants_size
  exact fun _ => hleading.le

theorem atMost_asin (x : Decimal) : x.asin.AtMost 70 := by
  have hright := atMost_halfPi.mono (by decide : (0 : Int) ≤ 70)
  rw [asin]
  split
  · split
    · exact hright.neg
    · exact hright
  · split
    · exact ((isFixed_atan _).atMost (by decide)).mono (by decide)
    · exact atMost_zero _

theorem atMost_acos (x : Decimal) : x.acos.AtMost 72 :=
  (atMost_halfPi.mono (by decide)).sub (atMost_asin x)

/-! ## The number e -/

/-- Nothing is taken out of the argument one before its exponential is computed. -/
theorem exp?_one : ∃ r : Int, r.natAbs ≤ pow10 workDigits ∧
    one.exp? = some (scaled (Fixed.exp r workDigits) (-workDigits)) := by
  obtain ⟨-, -, -, -, -, hmultiple⟩ := constants_size
  have hsize : ((one.toFixed (workDigits + 12)).tdiv (pow10 12)).natAbs ≤ pow10 workDigits := by
    decide +kernel
  refine ⟨_, hsize, ?_⟩
  rw [exp?, if_neg (by decide), if_neg (by decide +kernel)]
  dsimp only
  rw [hmultiple, if_neg (by decide), if_neg (by decide), Int.zero_mul, Int.sub_zero, Int.zero_sub]

theorem atMost_euler : euler.AtMost maxExponent := by
  obtain ⟨r, hr, hexp⟩ := exp?_one
  have hlt := (Fixed.natAbs_exp_le hr).trans_lt (lt_pow10_succ _)
  have hcount := count_le (Nat.succ_pos _) hlt
  rw [euler, hexp]
  refine (atMost_scaled _ _).mono ?_
  rw [maxExponent]
  rw [workDigits, precision] at hcount ⊢
  omega

end Decimal

end Keypad
