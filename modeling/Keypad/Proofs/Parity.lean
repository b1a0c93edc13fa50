import Keypad.Proofs.Evaluation.Literal
import Keypad.Proofs.Evaluation.Power

/-!
# Parity of exponents and indices

A power of a negative literal whose exponent is an integer has the sign that the parity of the
exponent gives, and a root of a negative literal is refused only for an even index. Both read the
integer to the digits that are compared: a longer one, which is not exact, counts as rounded to
them, and then it ends with a zero.
-/

namespace Keypad

open Digits

/-! ## The parity of an integer that is compared -/

theorem isOdd_neg (n : Int) : isOdd (-n) = isOdd n := by
  rw [isOdd, isOdd, Bool.eq_iff_iff, bne_iff_ne, bne_iff_ne]
  omega

theorem isOdd_of_ten_dvd {n : Int} (h : 10 ∣ n) : isOdd n = false := by
  rw [isOdd, bne_eq_false_iff_eq]
  omega

namespace Quantity

variable {n : Int} {d : Decimal} {v : Quantity}

theorem ten_dvd_pow10 {k : Nat} (hk : 0 < k) : (10 : Int) ∣ pow10 k := by
  obtain ⟨j, rfl⟩ := Nat.exists_eq_add_of_lt hk
  rw [zero_add, pow10_succ]
  exact ⟨pow10 j, by push_cast; ring⟩

theorem ten_dvd_comparedInt (h : comparedDigits < count n.natAbs) : 10 ∣ comparedInt n :=
  (ten_dvd_pow10 (by omega)).mul_left _

theorem ten_dvd_of_comparedInt? (h : comparedInt? d = some n)
    (hn : pow10 comparedDigits ≤ n.natAbs) :
    10 ∣ n := by
  have hlt := Decimal.natAbs_mantissa_round_lt (show 0 < comparedDigits by decide)
    d.mantissa d.exponent
  rw [comparedInt?, Decimal.significant, Decimal.toInt?] at h
  split at h
  · obtain rfl := Option.some.inj h
    refine (ten_dvd_pow10 (Nat.pos_of_ne_zero fun hzero => ?_)).mul_left _
    rw [hzero, pow10_zero, Nat.cast_one, mul_one] at hn
    omega
  · cases h

/-- An integer with too many digits to be kept is even in any case. -/
theorem any_isOdd_comparedInt? (N : Nat) :
    (comparedInt? (.ofInt N)).any isOdd = isOdd (comparedInt N) := by
  by_cases hcount : count (N : Int).natAbs ≤ precision
  · rw [comparedInt?_ofInt hcount, Option.any_some]
  · rw [precision] at hcount
    rw [isOdd_of_ten_dvd (ten_dvd_comparedInt (by rw [comparedDigits]; omega))]
    cases h : comparedInt? (.ofInt N) with
    | none => rfl
    | some n =>
      have hlarge : pow10 comparedDigits ≤ N := by
        refine Nat.le_of_not_lt fun hlt => hcount ?_
        exact (count_le (by decide) hlt).trans (by decide)
      have hle := le_of_comparedInt? h le_rfl (by exact_mod_cast hlarge)
      exact isOdd_of_ten_dvd (ten_dvd_of_comparedInt? h (by omega))

/-- The integer as it is compared is odd if the integer is and has no more digits. -/
theorem isOdd_comparedInt (n : Int) :
    isOdd (comparedInt n) = (isOdd n && decide (count n.natAbs ≤ comparedDigits)) := by
  by_cases hcount : count n.natAbs ≤ comparedDigits
  · rw [comparedInt_eq_self hcount, decide_eq_true hcount, Bool.and_true]
  · rw [isOdd_of_ten_dvd (ten_dvd_comparedInt (by omega)), decide_eq_false hcount, Bool.and_false]

theorem any_isOdd_toInt?_neg (v : Quantity) : v.neg.toInt?.any isOdd = v.toInt?.any isOdd := by
  cases v with
  | exact q =>
    show (toInt? (exact (-q))).any isOdd = _
    rw [toInt?, toInt?, Rat.neg_num, Rat.neg_den]
    split
    · exact isOdd_neg _
    · rfl
  | approx d =>
    show (comparedInt? (-d)).any isOdd = (comparedInt? d).any isOdd
    rw [comparedInt?_neg, Option.any_map]
    exact congrArg (Option.any · _) (funext isOdd_neg)

/-! ## Operands that are literals -/

theorem HasSign.neg {negative : Bool} (h : v.HasSign negative) : v.neg.HasSign (!negative) := by
  obtain ⟨hsided, hzero⟩ := h
  cases v with
  | exact q =>
    show HasSign _ (exact (-q))
    refine ⟨sided_sign_exact.2 ?_, fun h => ?_⟩
    · rw [Rat.neg_num]
      exact sided_neg_iff.2 (sided_sign_exact.1 hsided)
    · rw [toDecimal, ofRat_neg, Decimal.isZero_neg] at h
      simpa [isZero, sign] using hzero h
  | approx d =>
    show HasSign _ (approx (-d))
    refine ⟨sided_sign_approx.2 (sided_neg_iff.2 (sided_sign_approx.1 hsided)), fun h => ?_⟩
    rw [toDecimal, Decimal.isZero_neg] at h
    simpa [isZero, sign, Decimal.sign] using hzero h

end Quantity

open Quantity

namespace Run

variable {text : String} {m : Nat} {e : Int}

theorem gives_literal (hparts : Literal.parts? text.toList = some (m, e)) :
    Gives (HasSign false) (literal text) := by
  intro t
  rw [Ends, run_literal hparts]
  by_cases hmax : exceedsMaximum (.scaled m e)
  · rw [if_pos hmax]
    trivial
  rw [if_neg hmax]
  by_cases hlow : (Decimal.scaled m e).leading < -2 * maxExponent
  · rw [if_pos hlow]
    exact ⟨sided_zero false, fun _ => rfl⟩
  rw [if_neg hlow]
  have happrox : HasSign false (.approx (.scaled m e)) :=
    ⟨sided_sign_approx.2 (Decimal.sided_scaled (sided_natCast m) e), fun h => by
      simpa [isZero, sign, Decimal.sign, Decimal.isZero, toDecimal] using h⟩
  cases t.exact with
  | false => exact happrox
  | true =>
    simp only [if_true]
    cases hrat : literalRat? m e with
    | none => exact happrox
    | some q =>
      obtain ⟨hq, hbounds, -⟩ := literalRat?_eq_some hrat
      refine ⟨sided_sign_exact.2 ?_, fun h => ?_⟩
      · rw [hq]
        exact Decimal.sided_value (d := ⟨m, e⟩) (sided_natCast m)
      · have hsize : |q| < 10 ^ 11 := (abs_lt_of_inBounds hbounds).trans (by norm_num)
        have hvalue := (value_ofRat (terminates_of_literalRat? hrat) hsize).1
        obtain rfl : q = 0 := hvalue.symm.trans (value_of_isZero h)
        rfl

/-- A literal that writes an integer is worth an integer of the same parity, as it is compared. -/
theorem gives_integer (hparts : Literal.parts? text.toList = some (m, e)) {N : Nat}
    (hN : Decimal.fraction m e = N) :
    Gives (fun v => (∀ q, v = .exact q → q.den = 1) ∧ v.toInt?.any isOdd = isOdd (comparedInt N))
      (literal text) := by
  have hscaled : Decimal.scaled m e = .ofInt N :=
    Decimal.scaled_congr (hN.trans (by simp [Decimal.fraction_eq]))
  have happrox : (comparedInt? (.scaled m e)).any isOdd = isOdd (comparedInt N) := by
    rw [hscaled, any_isOdd_comparedInt?]
  have hlow : ¬(Decimal.scaled m e).leading < -2 * maxExponent := by
    have := Arithmetic.leading_ofInt_nonneg N
    rw [hscaled, maxExponent]
    omega
  intro t
  rw [Ends, run_literal hparts, if_neg hlow]
  by_cases hmax : exceedsMaximum (.scaled m e)
  · rw [if_pos hmax]
    trivial
  rw [if_neg hmax]
  cases t.exact with
  | false => exact ⟨by simp, happrox⟩
  | true =>
    simp only [if_true]
    cases hrat : literalRat? m e with
    | none => exact ⟨by simp, happrox⟩
    | some q =>
      obtain ⟨hq, hbounds, -⟩ := literalRat?_eq_some hrat
      obtain rfl : q = N := hq.trans hN
      have hnum : N ≤ fractionBound := by simpa using natAbs_num_le hbounds
      have hcount : count (N : Int).natAbs ≤ comparedDigits :=
        count_le (by decide) (hnum.trans_lt (by decide))
      refine ⟨fun q hq => ?_, ?_⟩
      · obtain rfl := Quantity.exact.inj hq
        exact Rat.den_natCast N
      · rw [toInt?, if_pos (Rat.den_natCast N), Option.any_some, comparedInt_eq_self hcount,
          Rat.num_natCast]

/-- Every value that a run ends with has the property that the run gives. -/
theorem Gives.of_map_run {α : Type} {P : α → Prop} {x : Run α} (h : Gives P x) {t : Trail} {a : α}
    (ha : (x.run t).map Prod.fst = .ok a) : P a := by
  have hends := h t
  rw [Ends] at hends
  cases hrun : x.run t with
  | error f =>
    rw [hrun] at ha
    cases ha
  | ok r =>
    rw [hrun] at hends ha
    obtain rfl := Except.ok.inj ha
    exact hends

theorem Gives.ends {α : Type} {P : α → Prop} {E : Failure → Prop} {x : Run α} {t : Trail}
    (h : Gives P x) (hx : Ends E t x fun _ _ => True) : Ends E t x fun a _ => P a := by
  have hends := h t
  unfold Ends at hx hends ⊢
  cases hrun : x.run t with
  | error f =>
    rw [hrun] at hx
    exact hx
  | ok r =>
    rw [hrun] at hends
    exact hends

theorem Ends.of_map_run {α : Type} {E : Failure → Prop} {Q : α → Trail → Prop} {x : Run α}
    {t : Trail} (h : Ends E t x Q) {f : Failure} (hf : (x.run t).map Prod.fst = .error f) :
    E f := by
  rw [Ends] at h
  cases hrun : x.run t with
  | error g =>
    rw [hrun] at h hf
    obtain rfl := Except.error.inj hf
    exact h
  | ok r =>
    rw [hrun] at hf
    cases hf

end Run

open Arithmetic
open Run (Gives Ends gives_pure operations)

variable {a w : String} {m : Nat} {e : Int} {N : Nat}

namespace Arithmetic

theorem Terms.gives_minus (ha : (Literal.parts? a.toList).isSome) :
    Gives (HasSign true) ((single (some true) a).eval operations) := by
  obtain ⟨⟨m, e⟩, hparts⟩ := Option.isSome_iff_exists.1 ha
  rw [eval_single]
  exact (Run.gives_literal hparts).bind fun v hv => gives_pure hv.neg

theorem Terms.gives_integer (hparts : Literal.parts? w.toList = some (m, e))
    (hN : Decimal.fraction m e = N) (sign : Option Bool) :
    Gives (fun v => (∀ q, v = .exact q → q.den = 1) ∧ v.toInt?.any isOdd = isOdd (comparedInt N))
      ((single sign w).eval operations) := by
  rw [eval_single]
  refine (Run.gives_integer hparts hN).bind fun v ⟨hden, hodd⟩ => gives_pure ?_
  rw [signed]
  split
  · refine ⟨fun q hq => ?_, (any_isOdd_toInt?_neg v).trans hodd⟩
    cases v with
    | exact r =>
      obtain rfl := Quantity.exact.inj hq
      exact hden r rfl
    | approx d => cases hq
  · exact ⟨hden, hodd⟩

theorem Terms.ends_literal {E : Failure → Prop} (hlarge : E .tooLarge)
    (hparts : Literal.parts? w.toList = some (m, e)) (sign : Option Bool) (t : Trail) :
    Ends E t ((single sign w).eval operations) fun _ _ => True := by
  have hliteral : Ends E t (Run.literal w) fun _ _ => True := by
    rw [Ends, Run.run_literal hparts]
    by_cases hmax : exceedsMaximum (.scaled m e)
    · rw [if_pos hmax]
      exact hlarge
    · rw [if_neg hmax]
      split_ifs
      · trivial
      · cases literalRat? m e <;> trivial
      · trivial
  rw [eval_single, Run.ends_bind]
  exact hliteral.mono fun _ _ _ => trivial

end Arithmetic

namespace Calculator

section Applied

variable (c : Calculator) (hconstants : c.constants.Valid) (ha : (Literal.parts? a.toList).isSome)
  (hw : (Literal.parts? w.toList).isSome) {sign : Option Bool} {integer : String}
  (hinteger : Token.joined (Terms.single sign w).toLine.toTokens = integer.toList)

include hconstants ha hw hinteger

theorem value_power :
    c.value ("(-" ++ a ++ ")^(" ++ integer ++ ")")
      = (((Terms.single (some true) a).eval operations >>= fun v =>
          (Terms.single sign w).eval operations >>= fun b =>
            Run.power v b >>= Run.settle).run {}).map Prod.fst := by
  have htext : Token.joined ((Operand.group none (.single (some true) a)).applied .power
      (.single sign w)).toTokens = ("(-" ++ a ++ ")^(" ++ integer ++ ")").toList := by
    simp [Operand.applied, Operand.toLine, Terms.applied, signLine, Line.toTokens, Token.text,
      Key.text, Operation.symbol, Terms.joined_minus, hinteger]
  have hvalue := c.value_typed hconstants (Operand.typed_applied_group
    (Terms.typed_single ha (some true)) (Terms.typed_single hw sign))
  have hsigned : (Operand.group none (.single (some true) a)).eval operations
      = (Terms.single (some true) a).eval operations :=
    (Operand.eval_group _ _ _).trans (bind_pure _)
  rw [htext, String.ofList_toList, Operand.value_applied _ _ rfl, hsigned] at hvalue
  exact hvalue

theorem value_root :
    c.value (integer ++ "x√(-" ++ a ++ ")")
      = (((Terms.single sign w).eval operations >>= fun b =>
          (Terms.single (some true) a).eval operations >>= fun v =>
            Run.root b v >>= Run.settle).run {}).map Prod.fst := by
  have htext : Token.joined ((Operand.literal sign w).applied .nthRoot
      (.single (some true) a)).toTokens = (integer ++ "x√(-" ++ a ++ ")").toList := by
    have hindex : Token.joined (Operand.literal sign w).toLine.toTokens = integer.toList := hinteger
    simp [Operand.applied, Terms.applied, Line.toTokens, Line.toTokens_append, Token.text,
      Key.text, Operation.symbol, Terms.joined_minus, hindex]
  have hvalue := c.value_typed hconstants (Operand.typed_applied_literal (.inr rfl) hw
    (Terms.typed_single ha (some true)) sign)
  have hsigned : (Operand.literal sign w).eval operations
      = (Terms.single sign w).eval operations := (Terms.eval_single sign w).symm
  rw [htext, String.ofList_toList, Operand.value_applied _ _ rfl, hsigned] at hvalue
  exact hvalue

end Applied

/-- A power of a negative literal whose exponent is an integer is negative for an odd exponent of at
most sixteen digits and positive for any other, and a root of a negative literal is not refused for
an odd index of at most sixteen digits. -/
theorem isNegative_power_root (c : Calculator) (hconstants : c.constants.Valid)
    (ha : (Literal.parts? a.toList).isSome) (hw : Literal.parts? w.toList = some (m, e))
    (hN : Decimal.fraction m e = N) (minus : Bool) :
    let n : Int := if minus then -N else N
    let integer := if minus then "-" ++ w else w
    (∀ v, c.value ("(-" ++ a ++ ")^(" ++ integer ++ ")") = .ok v → v.isZero = false →
      v.isNegative = (isOdd n && decide (count N ≤ comparedDigits))) ∧
    (isOdd n → count N ≤ comparedDigits →
      c.value (integer ++ "x√(-" ++ a ++ ")") ≠ .error .negativeRadicand) := by
  intro n integer
  have hreadable : (Literal.parts? w.toList).isSome := by rw [hw]; rfl
  have hparity : isOdd (comparedInt N) = (isOdd n && decide (count N ≤ comparedDigits)) := by
    rw [isOdd_comparedInt, Int.natAbs_natCast]
    cases minus with
    | false => rfl
    | true => exact congrArg (· && _) (isOdd_neg _).symm
  obtain ⟨sign, hinteger⟩ : ∃ sign, Token.joined (Terms.single sign w).toLine.toTokens
      = integer.toList := by
    cases minus with
    | false => exact ⟨none, List.append_nil _⟩
    | true =>
      have hminus : ("-" ++ w).toList = '-' :: w.toList := by simp
      exact ⟨some true, (Terms.joined_minus w).trans hminus.symm⟩
  have hindex := Terms.gives_integer hw hN sign
  rw [hparity] at hindex
  rw [value_power c hconstants ha hreadable hinteger,
    value_root c hconstants ha hreadable hinteger]
  refine ⟨fun v hv hzero => ?_, fun hodd hcount hrefused => ?_⟩
  · have hgives : Gives (fun v => Sided (isOdd n && decide (count N ≤ comparedDigits)) v.sign)
        ((Terms.single (some true) a).eval operations >>= fun v =>
          (Terms.single sign w).eval operations >>= fun b =>
            Run.power v b >>= Run.settle) :=
      (Terms.gives_minus ha).bind fun v hv => hindex.bind fun b ⟨hb, hparity⟩ =>
        hparity ▸ (Run.gives_power hv hb).bind fun w => Run.gives_settle
    exact isNegative_of_sided (hgives.of_map_run hv) hzero
  · obtain ⟨⟨k, f⟩, hparts⟩ := Option.isSome_iff_exists.1 ha
    have hends : Ends (fun f => f ≠ .negativeRadicand) {}
        ((Terms.single sign w).eval operations >>= fun b =>
          (Terms.single (some true) a).eval operations >>= fun v =>
            Run.root b v >>= Run.settle) fun _ _ => True := by
      simp only [Run.ends_bind]
      refine (hindex.ends (Terms.ends_literal (by simp) hw sign _)).mono fun b t ⟨_, hparity⟩ => ?_
      refine (Terms.ends_literal (by simp) hparts _ t).mono fun v t _ => ?_
      rw [hodd, decide_eq_true hcount, Bool.and_self] at hparity
      exact (Run.ends_root v hparity).mono fun r t _ => Run.ends_settle_true r
    exact hends.of_map_run hrefused rfl

theorem isNegative_power_root_minus_three :
    (Literal.parts? "2".toList).isSome ∧ Literal.parts? "3".toList = some (3, 0) ∧
      Decimal.fraction (3 : Nat) 0 = (3 : Nat) ∧
      ({} : Calculator).value "(-2)^(-3)" = .ok (.exact (-1 / 8)) ∧
      ({} : Calculator).value "-3x√(-2)" ≠ .error .negativeRadicand ∧
      (Quantity.exact (-1 / 8)).isNegative = true := by
  have hreadable : (Literal.parts? "2".toList).isSome := by decide +kernel
  have hw : Literal.parts? "3".toList = some (3, 0) := by decide +kernel
  have hN : Decimal.fraction (3 : Nat) 0 = (3 : Nat) := by decide +kernel
  have hvalue : ({} : Calculator).value "(-2)^(-3)" = .ok (.exact (-1 / 8)) := by decide +kernel
  obtain ⟨hpower, hroot⟩ :=
    isNegative_power_root {} ConstantTable.valid_empty hreadable hw hN true
  exact ⟨hreadable, hw, hN, hvalue, hroot (by decide) (by decide +kernel),
    (hpower _ hvalue (by decide +kernel)).trans (by decide +kernel)⟩

/-- The seventeen digits of an odd exponent or index are rounded to an even one. -/
theorem not_isNegative_power_root :
    ({} : Calculator).value "(-1)^(10000000000000001)" = .ok (.approx ⟨1, 0⟩) ∧
      (Quantity.approx ⟨1, 0⟩).isNegative = false ∧ isOdd 10000000000000001 ∧
      ({} : Calculator).value "10000000000000001x√(-1)" = .error .negativeRadicand := by
  decide +kernel

end Calculator

end Keypad
