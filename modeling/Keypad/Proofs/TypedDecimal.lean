import Keypad.Proofs.Evaluation.Function

/-!
# Typed decimals

A literal with a minus sign in front of it, or with none, and what is held of it once it is read: a
decimal of at most `precision` digits is held as it is, as a fraction or as a decimal, unless it is
so near to zero that it is read as zero.
-/

namespace Keypad

open Digits

namespace Decimal

variable {y : Decimal} {m e : Int}

/-- The limits of exponents leave a short number alone that is not too large, or flush it. -/
theorem limited_eq_or (hy : y.IsReduced) (hdigits : HasDigits precision y.value)
    (hmax : Quantity.exceedsMaximum y.limited = false) :
    y.limited = y ∨ y.limited = zero ∧ y.isZero = false ∧ y.leading < -2 * maxExponent := by
  have hcount : count y.mantissa.natAbs ≤ precision :=
    count_le (by decide) (hy.natAbs_mantissa_lt hdigits)
  rw [limited] at hmax ⊢
  split
  · next hfloor =>
    rw [exponentFloor] at hfloor
    rw [precision] at hcount
    have hzero : y.isZero = false := by
      rcases hy with rfl | hmod
      · cases hfloor
      · rw [isZero, beq_eq_false_iff_ne]
        omega
    refine .inr ⟨rfl, hzero, ?_⟩
    rw [leading_of_ne_zero hzero, maxExponent]
    omega
  · next hfloor =>
    rw [if_neg hfloor] at hmax
    left
    rcases le_or_gt y.exponent exponentCeiling with hceiling | hceiling
    · rw [min_eq_left hceiling]
    · exfalso
      rw [min_eq_right hceiling.le, exceedsMaximum_eq_false_iff] at hmax
      have hzero : isZero ⟨y.mantissa, exponentCeiling⟩ = false := by
        rcases hy with rfl | hmod
        · cases hceiling
        · rw [isZero, beq_eq_false_iff_ne]
          dsimp only
          omega
      have hle : exponentCeiling ≤ maxExponent := (exponent_le_leading hzero).trans (hmax hzero)
      exact absurd hle (by decide)

/-- The decimal that a short literal is read as has the value of the literal, unless that is next to
nothing. -/
theorem value_read_eq_or (hdigits : HasDigits precision (fraction m e))
    (hmax : Quantity.exceedsMaximum (scaled m e) = false) {d : Decimal}
    (hd : d = if (scaled m e).leading < -2 * maxExponent then zero else scaled m e) :
    d.value = fraction m e ∨ d.value = 0 ∧ |fraction m e| ≤ 1 / 10 ^ 20 := by
  obtain ⟨y, hreduced, hnearest, hscaled⟩ := roundsTo_round (show 0 < precision by decide) m e
  have hvalue : y.value = fraction m e := hnearest.unique (.self hdigits)
  rw [scaled, hscaled] at hd hmax
  have hsmall (hzero : y.isZero = false) (hlow : y.leading < -2 * maxExponent) :
      |y.value| ≤ 1 / 10 ^ 20 := by
    have hle : y.leading + 1 ≤ -20 := by
      rw [maxExponent] at hlow
      omega
    have hpow := zpow_le_zpow_right₀ (by norm_num : (1 : Rat) ≤ 10) hle
    exact ((abs_value_lt hzero).le.trans hpow).trans (by norm_num)
  rw [← hvalue]
  rcases limited_eq_or hreduced (hvalue ▸ hdigits) hmax with hself | ⟨hflushed, hzero, hlow⟩
  · rw [hself] at hd
    split at hd
    · next hlow =>
      have hzero : y.isZero = false := by
        rw [Bool.eq_false_iff]
        intro hzero
        rw [leading, if_pos hzero] at hlow
        cases hlow
      rw [hd]
      exact .inr ⟨value_zero, hsmall hzero hlow⟩
    · rw [hd]
      exact .inl rfl
  · rw [hflushed, ite_self] at hd
    rw [hd]
    exact .inr ⟨value_zero, hsmall hzero hlow⟩

end Decimal

/-- The quantity is what the calculator holds of the number `x`: the number itself, or zero for one
that is next to nothing. -/
structure Quantity.Holds (v : Quantity) (x : Rat) : Prop where
  faithful : v.Faithful
  canonical : v.toDecimal.IsCanonical
  sized : ∃ c < 2 ^ 40, Sized c v.rat
  near : v.rat = x ∨ v.rat = 0 ∧ |x| ≤ 1 / 10 ^ 20

namespace Quantity

variable {x : Rat} {v : Quantity}

theorem rat_neg (v : Quantity) : v.neg.rat = -v.rat := by
  cases v with
  | exact q => rfl
  | approx d => exact Decimal.value_neg d

theorem Holds.neg (h : v.Holds x) : v.neg.Holds (-x) where
  faithful := by
    rw [Faithful, toDecimal_neg, Decimal.value_neg, rat_neg, h.faithful]
  canonical := by
    rw [toDecimal_neg]
    exact h.canonical.neg
  sized := by
    obtain ⟨c, hc, hsized⟩ := h.sized
    refine ⟨c, hc, ?_⟩
    rw [rat_neg, Sized, abs_neg, neg_ne_zero]
    exact hsized
  near := by
    rw [rat_neg, neg_inj, neg_eq_zero, abs_neg]
    exact h.near

end Quantity

section Literals

variable {text : String}

theorem Literal.value_decimal_eq_or {d : Decimal} (hdigits : HasDigits precision (rat text))
    (h : decimal text = .ok d) :
    d.value = rat text ∨ d.value = 0 ∧ |rat text| ≤ 1 / 10 ^ 20 := by
  rw [decimal] at h
  split at h
  · cases h
  · next m e hparts =>
    dsimp only at h
    split at h
    · cases h
    · next hmax =>
      have hrat : rat text = Decimal.fraction m e := by simp [rat, hparts]
      rw [hrat] at hdigits ⊢
      exact Decimal.value_read_eq_or hdigits (Bool.eq_false_iff.2 hmax) (Except.ok.inj h).symm

theorem Literal.isCanonical_of_decimal {d : Decimal} (h : decimal text = .ok d) :
    d.IsCanonical := by
  rw [decimal] at h
  split at h
  · cases h
  · dsimp only at h
    split at h
    · cases h
    · obtain rfl := Except.ok.inj h
      split
      · exact Decimal.isCanonical_zero
      · exact Decimal.isCanonical_scaled _ _

theorem Literal.rat_of_exactRat? {q : Rat} (h : exactRat? text = some q) :
    q = rat text ∧ Quantity.inBounds q := by
  obtain ⟨⟨m, e⟩, hparts, hq⟩ := Option.bind_eq_some_iff.1 h
  obtain ⟨hfraction, hbounds, -⟩ := Quantity.literalRat?_eq_some hq
  refine ⟨hfraction.trans ?_, hbounds⟩
  simp [rat, hparts]

/-- A short literal is held when it is read. -/
theorem Run.holds_of_run_literal {t u : Trail} {v : Quantity}
    (hdigits : HasDigits precision (Literal.rat text))
    (h : (literal text).run t = .ok (v, u)) : v.Holds (Literal.rat text) := by
  have hdecimal := decimal_of_run_literal h
  have hfaithful : v.Faithful := by
    cases v with
    | approx d => rfl
    | exact q =>
      obtain ⟨hq, hbounds⟩ := Literal.rat_of_exactRat? (exactRat?_of_run_literal h)
      exact Decimal.value_ofRat_of_hasDigits (Decimal.isNearest_ofRat_of_inBounds hbounds)
        (hq ▸ hdigits)
  refine ⟨hfaithful, Literal.isCanonical_of_decimal hdecimal, ?_,
    hfaithful ▸ Literal.value_decimal_eq_or hdigits hdecimal⟩
  obtain ⟨c, hc⟩ : ∃ c : Nat, c = 20000000 := ⟨_, rfl⟩
  refine ⟨c, by omega, hfaithful ▸ Decimal.sized_value fun hzero => ?_⟩
  have hleading := Literal.leading_of_decimal hdecimal hzero
  rw [maxExponent] at hleading
  omega

end Literals

/-- A decimal as it is typed: a literal with a minus sign in front of it, or with none. -/
structure TypedDecimal where
  minus : Bool
  digits : String
  readable : (Literal.parts? digits.toList).isSome

namespace TypedDecimal

open Arithmetic
open Run (operations)

def text (x : TypedDecimal) : String := if x.minus then "-" ++ x.digits else x.digits

/-- The number that is written. -/
def rat (x : TypedDecimal) : Rat := if x.minus then -Literal.rat x.digits else Literal.rat x.digits

def terms (x : TypedDecimal) : Terms := .single (if x.minus then some true else none) x.digits

variable (x : TypedDecimal)

theorem typed_terms : x.terms.toLine.Typed := Terms.typed_single x.readable _

theorem joined_terms : Token.joined x.terms.toLine.toTokens = x.text.toList := by
  rw [terms, text]
  split
  · rw [Terms.joined_minus]
    simp
  · exact List.append_nil _

theorem holds_of_eval (hdigits : HasDigits precision x.rat) {t u : Trail} {v : Quantity}
    (h : (x.terms.eval operations).run t = .ok (v, u)) : v.Holds x.rat := by
  rw [terms, Terms.eval_single, StateT.run_bind] at h
  obtain ⟨⟨w, u'⟩, hliteral, hsigned⟩ := Except.exists_of_bind h
  cases hsigned
  rw [rat] at hdigits ⊢
  cases hminus : x.minus with
  | true =>
    rw [hminus, if_pos rfl] at hdigits
    have hpositive := hdigits.neg
    rw [neg_neg] at hpositive
    exact (Run.holds_of_run_literal hpositive hliteral).neg
  | false =>
    rw [hminus, if_neg Bool.false_ne_true] at hdigits
    exact Run.holds_of_run_literal hdigits hliteral

end TypedDecimal

end Keypad
