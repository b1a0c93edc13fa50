import Keypad.Proofs.Decimal.Accuracy
import Keypad.Proofs.Evaluation.ExactPower
import Keypad.Proofs.Evaluation.Exactness
import Keypad.Proofs.Evaluation.Literal

/-!
# Square roots and integer powers of fractions

Both are computed as a decimal, which is taken for a fraction if its first sixteen digits look like
one. So an exact result is as near to the root or the power as these digits tell, and is equal to it
where the root or the power has no more of them. A power that is too long to be computed exactly is
never equal to a fraction within the bounds, unless its base is one or minus one.
-/

namespace Keypad

open Digits Quantity

/-! ## Fractions of two integers -/

namespace Arithmetic

open Run (operations)

/-- The fraction `p/q` of two integers with their signs. -/
def Terms.fraction (p q : Int) : Terms :=
  .one (.one (.more (.one (.literal (signOf p) (toString p.natAbs)))
    (.literal (signOf q) (toString q.natAbs))))

theorem shaped_last_literal {a : Token} {text : String} (hcompletes : a.completes = false)
    (hoperation : a.operation? = none) (hsign : a.isSign = false)
    (htext : (Literal.parts? text.toList).isSome) (sign : Option Bool) (bars : Nat) :
    (signLine sign ++ .key (.literal text) .nil).Shaped a bars := by
  have hliteral {b : Token} (hb : b.completes = false) (ho : b.operation? = none) (n : Nat) :
      (Line.key (.literal text) .nil).Shaped b n :=
    ⟨Token.fits_of_begins hb ho rfl, htext, nofun, shaped_nil_literal htext _⟩
  cases sign with
  | none => exact hliteral hcompletes hoperation bars
  | some minus =>
    cases minus with
    | true => exact ⟨Token.fits_sign rfl hsign hoperation, trivial, nofun, hliteral rfl rfl _⟩
    | false => exact ⟨Token.fits_sign rfl hsign hoperation, trivial, nofun, hliteral rfl rfl _⟩

theorem Terms.toLine_fraction (p q : Int) :
    (fraction p q).toLine = signLine (signOf p) ++ .key (.literal (toString p.natAbs))
      (.key .bar (signLine (signOf q) ++ .key (.literal (toString q.natAbs)) .nil)) := by
  simp only [fraction, toLine, Factors.toLine, Row.toLine, Operand.toLine, Line.append_assoc]
  rfl

theorem Terms.typed_fraction (p q : Int) : (fraction p q).toLine.Typed where
  shaped := by
    have hp := Literal.isSome_parts?_toString p.natAbs
    have hq := Literal.isSome_parts?_toString q.natAbs
    have hbar : (Line.key .bar
        (signLine (signOf q) ++ .key (.literal (toString q.natAbs)) .nil)).Shaped
        (.key (.literal (toString p.natAbs))) 0 :=
      ⟨Token.fits_of_completes (Token.completes_literal hp) rfl, trivial, fun _ => by decide,
        shaped_last_literal rfl rfl rfl hq _ _⟩
    rw [toLine_fraction]
    exact shaped_literal rfl rfl rfl hp hbar _
  undivided := by
    simp [toLine_fraction, Line.commas_append, commas_signLine, Line.commas]
  typeable u hu := by
    have hp := Literal.isSome_parts?_toString p.natAbs
    have hq := Literal.isSome_parts?_toString q.natAbs
    simp only [fraction, toLine, Factors.toLine, Row.toLine, Line.toTokens_append,
      List.mem_append] at hu
    rcases hu with hfirst | hsecond
    · exact typeable_literal hp hfirst
    · rcases List.mem_cons.1 hsecond with rfl | hlast
      · exact .inl (by decide)
      · exact typeable_literal hq hlast

theorem Terms.joined_fraction (p q : Int) :
    Token.joined (fraction p q).toLine.toTokens
      = (toString p).toList ++ '/' :: (toString q).toList := by
  have hp := joined_integer p
  have hq := joined_integer q
  simp only [integer, single, fraction, toLine, Factors.toLine, Row.toLine, Line.toTokens_append,
    Line.toTokens, Token.joined_append, Token.joined_cons] at *
  rw [hp, hq]
  rfl

theorem Terms.eval_fraction (p q : Int) :
    (fraction p q).eval operations = (integer p).eval operations >>= fun v =>
      (integer q).eval operations >>= fun w => Run.div v w := by
  have hinteger (n : Int) : (integer n).eval operations
      = (Operand.literal (signOf n) (toString n.natAbs)).eval operations := by
    rw [integer, single, eval_one, Factors.eval_one]
  rw [hinteger, hinteger, fraction, eval_one, Factors.eval_row, Row.eval]
  simp [Row.gather, Operations.bar, Operations.close, operations]

theorem natAbs_num_div_le (p q : Int) : ((p : Rat) / q).num.natAbs ≤ p.natAbs := by
  rcases eq_or_ne q 0 with rfl | hq
  · simp
  rcases eq_or_ne p 0 with rfl | hp
  · simp
  · refine Nat.le_of_dvd (Int.natAbs_pos.2 hp) (Int.natAbs_dvd_natAbs.2 ?_)
    rw [← Rat.divInt_eq_div]
    exact Rat.num_dvd p hq

theorem den_div_le {p q : Int} (hq : q ≠ 0) : ((p : Rat) / q).den ≤ q.natAbs := by
  refine Nat.le_of_dvd (Int.natAbs_pos.2 hq) (Int.natCast_dvd.1 ?_)
  rw [← Rat.divInt_eq_div]
  exact Rat.den_dvd p q

variable {p q n : Int}

theorem inBounds_div (hp : p.natAbs ≤ fractionBound) (hq : q.natAbs ≤ fractionBound) (hq0 : q ≠ 0) :
    inBounds ((p : Rat) / q) := by
  rw [inBounds, Bool.and_eq_true, decide_eq_true_eq, decide_eq_true_eq]
  exact ⟨(natAbs_num_div_le p q).trans hp, (den_div_le hq0).trans hq⟩

theorem exceedsMaximum_ofInt (hn : n.natAbs ≤ fractionBound) :
    exceedsMaximum (.ofInt n) = false := by
  have hcount : count n.natAbs ≤ 10 := count_le (by decide) (hn.trans_lt (by decide))
  refine exceedsMaximum_of_leading ?_
  rw [maxExponent]
  by_cases hzero : (Decimal.ofInt n).isZero
  · rw [Decimal.leading, if_pos hzero]
    decide
  · have := Decimal.atMost_scaled n 0 (Bool.eq_false_iff.2 hzero)
    rw [Decimal.ofInt]
    omega

theorem Terms.run_integer_of_le (hn : n.natAbs ≤ fractionBound) :
    ((integer n).eval operations).run {} = .ok (.exact n, {}) := by
  rw [run_integer, exceedsMaximum_ofInt hn, if_neg Bool.false_ne_true, if_pos ⟨rfl, hn⟩]

theorem run_settle_exact {x : Rat} (hx : inBounds x) :
    (Run.settle (.exact x)).run {} = .ok (.exact x, {}) := by
  simp only [Run.settle, StateT.run_bind, StateT.run_get, pure_bind, hx, Bool.and_self, if_true]
  rfl

theorem Terms.run_fraction (hp : p.natAbs ≤ fractionBound) (hq : q.natAbs ≤ fractionBound)
    (hq0 : q ≠ 0) : ((fraction p q).eval operations).run {} = .ok (.exact (p / q), {}) := by
  have hdivisor : (exact (q : Rat)).isZero = false := by
    simpa [isZero, sign] using hq0
  rw [eval_fraction, Run.run_bind_of_ok (run_integer_of_le hp),
    Run.run_bind_of_ok (run_integer_of_le hq), Run.div, if_neg (by simp [hdivisor])]
  exact run_settle_exact (inBounds_div hp hq hq0)

end Arithmetic

/-! ## Exact results -/

namespace Run

variable {m : Run Quantity} {d : Decimal} {t u : Trail} {r x : Rat} {n : Int}

theorem of_ofFunction (h : (ofFunction d).run t = .ok (.exact r, u)) : rational? d = some r := by
  simp only [ofFunction, StateT.run_bind, StateT.run_get, pure_bind] at h
  split at h
  · split at h
    · next q hq =>
      cases h
      exact hq
    · cases h
  · cases h

theorem of_signed {negative : Bool} {magnitude : Option Decimal}
    (h : (signed negative magnitude).run t = .ok (.exact r, u)) :
    ∃ d, magnitude = some d ∧ rational? (if negative then -d else d) = some r := by
  cases magnitude with
  | none => cases h
  | some d =>
    refine ⟨d, rfl, ?_⟩
    simp only [signed, bounded] at h
    split at h
    · cases h
    · exact of_ofFunction h

theorem of_sqrt (h : (Run.sqrt (.exact x)).run t = .ok (.exact r, u)) :
    0 ≤ x ∧ rational? (Decimal.ofRat x).sqrt = some r := by
  rw [Run.sqrt] at h
  split at h
  · cases h
  · next hnegative =>
    refine ⟨?_, of_ofFunction h⟩
    have hnum : ¬x.num.sign < 0 := by simpa [isNegative, sign] using hnegative
    exact Rat.num_nonneg.1 (Int.sign_nonneg_iff.1 (not_lt.1 hnum))

theorem exact_of_power {a b : Quantity} (h : (power a b).run t = .ok (.exact r, u))
    (hu : u.exact) : t.exact := by
  by_contra ht
  have hends := keeps_power (Decimal.invariant_true {}) a b t
  rw [Ends, h] at hends
  have hlost := hends.2 (Bool.eq_false_iff.2 ht)
  rw [hu] at hlost
  cases hlost

theorem toInt?_intCast (n : Int) : (exact (n : Rat)).toInt? = some n := by
  rw [toInt?, if_pos (Rat.den_intCast n), Rat.num_intCast]

theorem of_powerOfZero (h : (powerOfZero (.exact n)).run t = .ok (.exact r, u)) :
    r = 0 ^ n := by
  have hsign : (exact (n : Rat)).sign = n.sign := congrArg Int.sign (Rat.num_intCast n)
  rw [powerOfZero, isNegative, isZero, hsign] at h
  split at h
  · cases h
  · next hnegative =>
    split at h
    · next hn =>
      obtain rfl : n = 0 := by simpa using hn
      rw [zpow_zero]
      exact Option.some.inj ((of_ofFunction h).symm.trans rational?_one)
    · next hn =>
      have hn0 : n ≠ 0 := by simpa using hn
      rw [zero_zpow n hn0]
      exact Option.some.inj ((of_ofFunction h).symm.trans rational?_zero)

/-- The three ways to an exact power of a fraction. -/
theorem of_power (h : (power (.exact x) (.exact n)).run t = .ok (.exact r, u)) :
    (x = 0 ∧ r = x ^ n) ∨
    (x ≠ 0 ∧ exactPower? x n = some (x ^ n) ∧ rational? (.ofRat (x ^ n)) = some r) ∨
    (x ≠ 0 ∧ exactPower? x n = none ∧ ∃ d, (Decimal.ofRat x).abs.realPower? (.ofInt n) = some d ∧
      rational? (if (Decimal.ofRat x).isNegative && isOdd n then -d else d) = some r) := by
  have hexact : (exact x).exactPower? (.exact n) = Keypad.exactPower? x n := by
    unfold Quantity.exactPower?
    rw [toInt?_intCast]
  rw [power, hexact] at h
  split at h
  · next hzero =>
    obtain rfl : x = 0 := by simpa [isZero, sign] using hzero
    exact .inl ⟨rfl, of_powerOfZero h⟩
  next hzero =>
  have hx : x ≠ 0 := fun hx => hzero (by rw [hx]; rfl)
  split at h
  · next s hs =>
    obtain rfl := exactPower?_eq_some hs
    obtain ⟨d, hd, hr⟩ := of_signed h
    obtain rfl := Option.some.inj hd
    exact .inr (.inl ⟨hx, hs, hr⟩)
  · next hs =>
    refine .inr (.inr ⟨hx, hs, ?_⟩)
    have hodd : (exact (n : Rat)).oddExponent? = some (isOdd n) := by
      unfold oddExponent?
      rw [toInt?_intCast]
    have hexponent : (exact (n : Rat)).exponentDecimal = .ofInt n := by
      rw [exponentDecimal, toInt?_intCast]
    rw [hodd, hexponent] at h
    dsimp only [toDecimal] at h
    cases hnegative : (Decimal.ofRat x).isNegative with
    | false =>
      rw [hnegative] at h
      exact of_signed h
    | true =>
      rw [hnegative] at h
      exact of_signed h

end Run

/-! ## The size of a power -/

section Size

variable {x : Rat} {n : Int}

/-- What is computed exactly is not so long that a limit is met. -/
theorem count_zpow_le (hx : x ≠ 0) (h : exactPower? x n ≠ none) :
    count (x ^ n).num.natAbs ≤ 2 ^ 51 ∧ count (x ^ n).den ≤ 2 ^ 51 := by
  obtain ⟨r, hr⟩ := Option.ne_none_iff_exists'.1 h
  have hlength := count_le_of_exactPower? hx hr
  obtain rfl := exactPower?_eq_some hr
  rw [exactPowerDigits] at hlength
  omega

/-- What is not computed exactly is not within the bounds. -/
theorem not_inBounds_zpow (hx : x ≠ 0) (hone : |x| ≠ 1) (hbounds : inBounds x)
    (h : exactPower? x n = none) : ¬inBounds (x ^ n) := by
  have hsize : exactPowerDigits < n.natAbs * (count x.num.natAbs + count x.den) := by
    by_contra hsmall
    rw [exactPower?, if_neg hsmall] at h
    cases h
  have hshort {k : Nat} (hk : k ≤ fractionBound) : count k ≤ 10 :=
    count_le (by decide) (hk.trans_lt (by decide))
  have hlong : 100 ≤ n.natAbs := by
    have hnum := hshort (natAbs_num_le hbounds)
    have hden := hshort (den_le hbounds)
    have hmul := Nat.mul_le_mul_left n.natAbs (Nat.add_le_add hnum hden)
    rw [exactPowerDigits] at hsize
    omega
  have htwo {a : Nat} (ha : 2 ≤ a) : fractionBound < a ^ n.natAbs :=
    calc fractionBound < 2 ^ 100 := by decide
      _ ≤ 2 ^ n.natAbs := Nat.pow_le_pow_right (by decide) hlong
      _ ≤ a ^ n.natAbs := Nat.pow_le_pow_left ha _
  obtain ⟨y, hy, hparts⟩ := exists_zpow_eq hx n
  intro hin
  have hnum := natAbs_num_le hin
  have hden := den_le hin
  rw [hy, Rat.num_pow, Int.natAbs_pow] at hnum
  rw [hy, Rat.den_pow] at hden
  have hpos := Int.natAbs_pos.2 (Rat.num_ne_zero.2 hx)
  have hpos' := x.den_pos
  have hnum1 : y.num.natAbs < 2 := by
    by_contra hge
    exact absurd hnum (not_le.2 (htwo (not_lt.1 hge)))
  have hden1 : y.den < 2 := by
    by_contra hge
    exact absurd hden (not_le.2 (htwo (not_lt.1 hge)))
  apply hone
  have habs := abs_mul_den x
  have hxnum : x.num.natAbs = 1 := by omega
  have hxden : x.den = 1 := by omega
  rw [hxnum, hxden] at habs
  simpa using habs

end Size

/-! ## What the digits tell -/

section Digits

open Decimal

variable {x q r s : Rat}

/-- A fraction that is read off its own decimal. -/
theorem near_of_rational?_ofRat (hq : IsNearest precision q (ofRat q).value)
    (h : rational? (ofRat q) = some r) : Near (6 / 10 ^ 16) q r := by
  have hdecimal : Near (1 / (2 * 10 ^ 47)) q (ofRat q).value := near_of_isNearest hq
  have htaken := near_of_rational? (isCanonical_ofRat q) h
  exact (hdecimal.trans htaken (by norm_num)).mono (by norm_num)

theorem eq_of_rational?_ofRat (hq : IsNearest precision q (ofRat q).value)
    (hdigits : HasDigits comparedDigits q) (h : rational? (ofRat q) = some r) : r = q := by
  have hvalue := value_ofRat_of_hasDigits hq (hdigits.mono (by decide))
  rw [eq_of_rational? (isCanonical_ofRat q) (by rwa [hvalue]) h, hvalue]

theorem HasDigits.sq (h : HasDigits comparedDigits s) : HasDigits precision (s * s) := by
  obtain ⟨m, e, hlt, rfl⟩ := h
  refine ⟨m * m, e + e, ?_, ?_⟩
  · rw [Int.natAbs_mul]
    exact (Nat.mul_lt_mul'' hlt hlt).trans (by decide)
  · rw [fraction_eq, fraction_eq, zpow_add₀ (by norm_num)]
    push_cast
    ring

theorem value_ofRat_pos (hx : inBounds x) (hpos : 0 < x) : 0 < (ofRat x).value := by
  have hnear : Near (1 / (2 * 10 ^ 47)) x (ofRat x).value :=
    near_of_isNearest (isNearest_ofRat_of_inBounds hx)
  rw [Near, abs_of_pos hpos, abs_sub_le_iff] at hnear
  linarith [hnear.2]

theorem sqrt_ofRat_zero : (ofRat 0).sqrt = .zero := by
  rw [ofRat_zero]
  rfl

/-- The square of an exact root is near to the radicand. -/
theorem near_sq_of_rational?_sqrt (hx : inBounds x) (hpos : 0 ≤ x)
    (h : rational? (ofRat x).sqrt = some r) : Near (11 / 10 ^ 16) x (r ^ 2) := by
  rcases hpos.eq_or_lt with rfl | hpos
  · rw [sqrt_ofRat_zero, rational?_zero] at h
    obtain rfl := Option.some.inj h
    simp [Near]
  · have hdecimal : Near (1 / (2 * 10 ^ 47)) x (ofRat x).value :=
      near_of_isNearest (isNearest_ofRat_of_inBounds hx)
    have hroot := near_sq_sqrt (isCanonical_ofRat x) (value_ofRat_pos hx hpos)
    have hdigits := (near_of_rational? (isCanonical_sqrt (ofRat x)) h).sq (by norm_num)
    exact ((hdecimal.trans hroot (by norm_num)).trans hdigits (by norm_num)).mono (by norm_num)

/-- A root that has at most sixteen digits is found. -/
theorem mul_self_of_hasDigits (hx : inBounds x) (hs : HasDigits comparedDigits s) (hsx : s * s = x)
    (h : rational? (ofRat x).sqrt = some r) : r * r = x := by
  rcases (hsx ▸ mul_self_nonneg s : 0 ≤ x).eq_or_lt with rfl | hpos
  · rw [sqrt_ofRat_zero, rational?_zero] at h
    obtain rfl := Option.some.inj h
    exact mul_zero 0
  have hvalue : (ofRat x).value = x := by
    refine value_ofRat_of_hasDigits (isNearest_ofRat_of_inBounds hx) ?_
    rw [← hsx]
    exact hs.sq
  have habs : HasDigits comparedDigits |s| := by
    rcases abs_choice s with hself | hneg
    · rwa [hself]
    · rw [hneg]
      exact hs.neg
  have hclosest := isClosest_sqrt (isCanonical_ofRat x) (by rwa [hvalue])
  have hroot : Real.sqrt ((ofRat x).value : Rat) = |s| := by
    rw [hvalue, ← hsx]
    push_cast
    exact Real.sqrt_mul_self_eq_abs s
  have hsqrt : (ofRat x).sqrt.value = |s| := by
    by_contra hne
    have hlt := hclosest.lt |s| (habs.mono (by decide)) (Ne.symm hne)
    rw [hroot] at hlt
    push_cast at hlt
    rw [sub_self, abs_zero] at hlt
    exact absurd hlt (not_lt.2 (abs_nonneg _))
  rw [eq_of_rational? (isCanonical_sqrt _) (by rwa [hsqrt]) h, hsqrt, abs_mul_abs_self, hsx]

theorem near_self {ε : Rat} (hε : 0 ≤ ε) : Near ε x x := by
  rw [Near, sub_self, abs_zero]
  exact mul_nonneg hε (abs_nonneg x)

theorem hasDigits_zero_zpow (n : Int) : HasDigits comparedDigits (0 ^ n) := by
  rcases eq_or_ne n 0 with rfl | hn
  · rw [zpow_zero]
    exact ⟨1, 0, by decide, by simp [fraction_eq]⟩
  · rw [zero_zpow n hn]
    exact hasDigits_zero _

/-- The logarithm of one is zero, and every power of one is one. -/
theorem realPower?_one (y : Decimal) : one.realPower? y = some .one := by
  have hln : one.ln = .zero := by decide +kernel
  have hmul : y.mul .zero = .zero := by
    rw [mul]
    show scaled (y.mantissa * 0) _ = _
    rw [mul_zero, scaled_zero]
  rw [realPower?, hln, hmul]
  rfl

theorem eq_zpow_of_abs_eq_one {d : Decimal} {n : Int} (hx : |x| = 1)
    (hd : (ofRat x).abs.realPower? (.ofInt n) = some d)
    (hr : rational? (if (ofRat x).isNegative && isOdd n then -d else d) = some r) : r = x ^ n := by
  have hminus : rational? (-.one) = some (-1) := by
    rw [rational?_neg, rational?_one]
    rfl
  rcases eq_or_eq_neg_of_abs_eq hx with rfl | rfl
  · have habs : one.abs = .one := by decide
    have hnegative : one.isNegative = false := by decide
    rw [ofRat_one, habs, realPower?_one] at hd
    obtain rfl := Option.some.inj hd
    rw [ofRat_one, hnegative, Bool.false_and, if_neg Bool.false_ne_true, rational?_one] at hr
    rw [one_zpow]
    exact (Option.some.inj hr).symm
  · have habs : (-one).abs = .one := by decide
    have hnegative : (-one).isNegative = true := by decide
    rw [ofRat_neg, ofRat_one, habs, realPower?_one] at hd
    obtain rfl := Option.some.inj hd
    rw [ofRat_neg, ofRat_one, hnegative, Bool.true_and] at hr
    cases hodd : isOdd n with
    | true =>
      rw [hodd, if_pos rfl, hminus] at hr
      rw [(isOdd_iff.1 hodd).neg_one_zpow]
      exact (Option.some.inj hr).symm
    | false =>
      have heven : Even n := Int.not_odd_iff_even.1 fun h => by simp [isOdd_iff.2 h] at hodd
      rw [hodd, if_neg Bool.false_ne_true, rational?_one] at hr
      rw [heven.neg_one_zpow]
      exact (Option.some.inj hr).symm

end Digits

open Arithmetic
open Run (operations)

/-- An exponent from which an exact power is computed is exact itself. -/
theorem Arithmetic.Terms.run_integer_of_power {a : Quantity} {n : Int} {r : Rat}
    (h : (((integer n).eval operations >>= fun w => Run.power a w >>= Run.settle).run {}).map
      Prod.fst = .ok (.exact r)) :
    ((integer n).eval operations).run {} = .ok (.exact n, {}) := by
  by_cases hn : n.natAbs ≤ fractionBound
  · exact run_integer_of_le hn
  have hrun := run_integer n {}
  split at hrun
  · rw [Run.run_bind_of_error hrun] at h
    cases h
  · rw [if_neg fun hboth => hn hboth.2] at hrun
    rw [Run.run_bind_of_ok hrun] at h
    obtain ⟨u, hpower, hu⟩ := Run.exists_of_settle h
    cases Run.exact_of_power hpower hu

namespace Calculator

section Values

variable (c : Calculator) (hconstants : c.constants.Valid) (p q n : Int)

include hconstants

theorem value_sqrt_fraction :
    c.value ("√" ++ ("(" ++ toString p ++ "/" ++ toString q ++ ")"))
      = (((Terms.fraction p q).eval operations >>= fun v => Run.sqrt v >>= Run.settle).run
          {}).map Prod.fst := by
  have htext : Token.joined ((Terms.fraction p q).applied .squareRoot).toTokens
      = ("√" ++ ("(" ++ toString p ++ "/" ++ toString q ++ ")")).toList := by
    simp [Terms.applied, Line.toTokens, Token.text, Key.text, Operation.symbol,
      Terms.joined_fraction]
  have hvalue := c.value_typed hconstants (Terms.typed_applied (Terms.typed_fraction p q))
  rw [htext, String.ofList_toList, Terms.value_applied _ rfl] at hvalue
  exact hvalue

theorem value_fraction_power :
    c.value (("(" ++ toString p ++ "/" ++ toString q ++ ")") ++ "^(" ++ toString n ++ ")")
      = (((Terms.fraction p q).eval operations >>= fun v =>
          (Terms.integer n).eval operations >>= fun w =>
            Run.power v w >>= Run.settle).run {}).map Prod.fst := by
  have htext : Token.joined ((Operand.group none (.fraction p q)).applied .power
      (.integer n)).toTokens
      = (("(" ++ toString p ++ "/" ++ toString q ++ ")") ++ "^(" ++ toString n ++ ")").toList := by
    simp [Operand.applied, Operand.toLine, Terms.applied, signLine, Line.toTokens, Token.text,
      Key.text, Operation.symbol, Terms.joined_fraction, Terms.joined_integer]
  have hvalue := c.value_typed hconstants
    (Operand.typed_applied_group (Terms.typed_fraction p q) (Terms.typed_integer n))
  have hsigned : (Operand.group none (.fraction p q)).eval operations
      = (Terms.fraction p q).eval operations := (Operand.eval_group _ _ _).trans (bind_pure _)
  rw [htext, String.ofList_toList, Operand.value_applied _ _ rfl, hsigned] at hvalue
  exact hvalue

end Values

/-- An exact root is near to the root and is the root if this has at most sixteen digits, or if it
has a small divisor itself. An exact power is near to the power and is the power under the like
conditions, as long as the power is not too long to be computed exactly. -/
theorem exact_root_and_power (c : Calculator) (hconstants : c.constants.Valid) {p q : Int}
    (hp : p.natAbs ≤ fractionBound) (hq : q.natAbs ≤ fractionBound) (hq0 : q ≠ 0) (n : Int) :
    let x : Rat := p / q
    let fraction := "(" ++ toString p ++ "/" ++ toString q ++ ")"
    (∀ r, c.value ("√" ++ fraction) = .ok (.exact r) →
      0 ≤ r ∧ Near (11 / 10 ^ 16) x (r ^ 2) ∧
      (r * r = x ↔ ∃ s, HasDigits comparedDigits s ∧ s * s = x) ∧ (r.den ≤ 600 → r * r = x)) ∧
    ∀ r, c.value (fraction ++ "^(" ++ toString n ++ ")") = .ok (.exact r) →
      if x ≠ 0 ∧ exactPower? x n = none then (r = x ^ n ↔ |x| = 1)
      else Near (6 / 10 ^ 16) (x ^ n) r ∧ (r = x ^ n ↔ HasDigits comparedDigits (x ^ n)) ∧
        (6 * (x ^ n).num.natAbs * r.den < 10 ^ 16 → r = x ^ n) := by
  intro x fraction
  have hx : inBounds x := inBounds_div hp hq hq0
  have hfraction := Terms.run_fraction hp hq hq0
  constructor
  · intro r hr
    rw [value_sqrt_fraction c hconstants, Run.run_bind_of_ok hfraction] at hr
    obtain ⟨u, hrun, -⟩ := Run.exists_of_settle hr
    obtain ⟨hpos, hroot⟩ := Run.of_sqrt hrun
    have hdigits := Decimal.isNearest_of_rational? (Decimal.isCanonical_sqrt _) hroot
    have hnear := near_sq_of_rational?_sqrt hx hpos hroot
    refine ⟨?_, hnear, ⟨fun h => ⟨r, hdigits.hasDigits, h⟩, ?_⟩, fun hden => ?_⟩
    · exact Rat.num_nonneg.1 (Decimal.sided_of_rational? hroot (Decimal.sided_sqrt _))
    · rintro ⟨s, hs, hsx⟩
      exact mul_self_of_hasDigits hx hs hsx hroot
    · rw [← pow_two]
      refine hnear.eq_of_parts ?_
      have hparts : x.num.natAbs * (r ^ 2).den ≤ fractionBound * 600 ^ 2 := by
        rw [Rat.den_pow]
        exact Nat.mul_le_mul (natAbs_num_le hx) (Nat.pow_le_pow_left hden 2)
      have hcast : (x.num.natAbs * (r ^ 2).den : Rat) ≤ (fractionBound * 600 ^ 2 : Nat) := by
        exact_mod_cast hparts
      rw [fractionBound] at hcast
      norm_num at hcast ⊢
      linarith
  · intro r hr
    rw [value_fraction_power c hconstants, Run.run_bind_of_ok hfraction] at hr
    rw [Run.run_bind_of_ok (Terms.run_integer_of_power hr)] at hr
    obtain ⟨u, hrun, -⟩ := Run.exists_of_settle hr
    rcases Run.of_power hrun with ⟨hx0, hr⟩ | ⟨hx0, hpower, hr⟩ | ⟨hx0, hpower, d, hd, hr⟩
    · have hdigits : HasDigits comparedDigits (x ^ n) := by
        rw [show x = 0 from hx0]
        exact hasDigits_zero_zpow n
      rw [if_neg fun h => h.1 hx0, hr]
      exact ⟨near_self (by norm_num), iff_of_true rfl hdigits, fun _ => rfl⟩
    · obtain ⟨hnum, hden⟩ := count_zpow_le hx0 (by rw [hpower]; exact Option.some_ne_none _)
      have hnearest := Decimal.isNearest_ofRat le_rfl hnum hden
      have hnear := near_of_rational?_ofRat hnearest hr
      have hdigits := Decimal.isNearest_of_rational? (Decimal.isCanonical_ofRat _) hr
      rw [if_neg (by rw [hpower]; exact fun h => Option.some_ne_none _ h.2)]
      refine ⟨hnear, ⟨fun h => h ▸ hdigits.hasDigits, fun h => eq_of_rational?_ofRat hnearest h hr⟩,
        fun hsmall => hnear.eq_of_parts ?_⟩
      have hcast : (6 * (x ^ n).num.natAbs * r.den : Rat) < 10 ^ 16 := by exact_mod_cast hsmall
      norm_num at hcast ⊢
      linarith
    · rw [if_pos ⟨hx0, hpower⟩]
      refine ⟨fun h => ?_, fun hone => eq_zpow_of_abs_eq_one hone hd hr⟩
      by_contra hone
      exact not_inBounds_zpow hx0 hone hx hpower (h ▸ inBounds_of_rational? hr)

theorem exact_root_and_power_quarter :
    (1 : Int).natAbs ≤ fractionBound ∧ (4 : Int).natAbs ≤ fractionBound ∧ (4 : Int) ≠ 0 ∧
      ({} : Calculator).value "√(1/4)" = .ok (.exact (1 / 2)) ∧
      ({} : Calculator).value "(1/4)^(-3)" = .ok (.exact 64) ∧
      (1 / 2 : Rat) * (1 / 2) = ((1 : Int) / (4 : Int) : Rat) ∧
      (64 : Rat) = ((1 : Int) / (4 : Int) : Rat) ^ (-3 : Int) := by
  have hroot : ({} : Calculator).value "√(1/4)" = .ok (.exact (1 / 2)) := by decide +kernel
  have hpower : ({} : Calculator).value "(1/4)^(-3)" = .ok (.exact 64) := by decide +kernel
  obtain ⟨hsqrt, hpow⟩ := exact_root_and_power {} ConstantTable.valid_empty (p := 1) (q := 4)
    (by decide) (by decide) (by decide) (-3)
  obtain ⟨-, -, -, hexact⟩ := hsqrt _ hroot
  have hvalue := hpow _ hpower
  rw [if_neg (by decide +kernel)] at hvalue
  exact ⟨by decide, by decide, by decide, hroot, hpower, hexact (by decide +kernel),
    hvalue.2.2 (by decide +kernel)⟩

/-- Sixteen digits do not tell a root or a power from a decimal next to it. -/
theorem not_exact_root_and_power :
    ({} : Calculator).value "√(50000001/50000000)" = .ok (.exact (100000001 / 100000000)) ∧
      (100000001 / 100000000 : Rat) * (100000001 / 100000000) ≠ 50000001 / 50000000 ∧
      ({} : Calculator).value "(1855077841/1311738121)^(2)" = .ok (.exact 2) ∧
      (2 : Rat) ≠ (1855077841 / 1311738121) ^ (2 : Int) := by
  decide +kernel

end Calculator

end Keypad
