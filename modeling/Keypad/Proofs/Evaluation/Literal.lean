import Keypad.Proofs.Application
import Keypad.Proofs.Arithmetic.Decimal
import Keypad.Proofs.Decimal.Shift
import Keypad.Proofs.Evaluation.Exactness

/-!
# The values of literals

What a literal is worth when it is read, and what an integer is worth that is typed with its sign:
a fraction in an exact run, a decimal otherwise.
-/

namespace Keypad

open Digits

namespace Literal

/-- The decimal that a literal writes, whatever its size. -/
def written (text : String) : Decimal :=
  match parts? text.toList with
  | none => .zero
  | some (m, e) => .scaled m e

/-- A literal that is not refused is not too large, and is zero or not too small. -/
theorem leading_of_decimal {text : String} {d : Decimal} (h : decimal text = .ok d) :
    d.isZero = false → -2 * maxExponent ≤ d.leading ∧ d.leading ≤ maxExponent := by
  intro hzero
  rw [decimal] at h
  split at h
  · cases h
  · next m e hparts =>
    dsimp only at h
    split at h
    · cases h
    · next hmax =>
      split at h
      · cases h
        cases hzero
      · next hlow =>
        cases h
        exact ⟨not_lt.1 hlow,
          Decimal.exceedsMaximum_eq_false_iff.1 (Bool.eq_false_iff.2 hmax) hzero⟩

end Literal

namespace Decimal

/-- Is the decimal read as zero? -/
def Vanishes (d : Decimal) : Prop := d.isZero ∨ d.leading < -2 * maxExponent

instance : DecidablePred Vanishes :=
  fun d => inferInstanceAs (Decidable (d.isZero = true ∨ d.leading < -2 * maxExponent))

end Decimal

namespace Run

variable {α β : Type} {text : String} {m : Nat} {e : Int} {t u : Trail}

theorem run_bind_of_ok {x : Run α} {a : α} (h : x.run t = .ok (a, u)) (k : α → Run β) :
    (x >>= k).run t = (k a).run u := by
  rw [StateT.run_bind, h]
  rfl

theorem run_bind_of_error {x : Run α} {f : Failure} (h : x.run t = .error f) (k : α → Run β) :
    (x >>= k).run t = .error f := by
  rw [StateT.run_bind, h]
  rfl

/-- What is exact when it is settled was exact before. -/
theorem exists_of_settle {x : Run Quantity} {q : Rat}
    (h : ((x >>= settle).run t).map Prod.fst = .ok (.exact q)) :
    ∃ u, x.run t = .ok (.exact q, u) ∧ u.exact := by
  rw [StateT.run_bind] at h
  cases hx : x.run t with
  | error f =>
    rw [hx] at h
    cases h
  | ok p =>
    obtain ⟨v, u⟩ := p
    rw [hx] at h
    refine ⟨u, ?_⟩
    have hsettle : ((settle v).run u).map Prod.fst = .ok (.exact q) := h
    cases v with
    | approx d => cases hsettle
    | exact r =>
      simp only [settle, StateT.run_bind, StateT.run_get, pure_bind] at hsettle
      split at hsettle
      · next hexact =>
        cases hsettle
        exact ⟨rfl, (Bool.and_eq_true_iff.1 hexact).1⟩
      · cases hsettle

theorem run_literal (hparts : Literal.parts? text.toList = some (m, e)) (t : Trail) :
    (literal text).run t =
      if Quantity.exceedsMaximum (.scaled m e) then .error .tooLarge
      else if (Decimal.scaled m e).leading < -2 * maxExponent then
        .ok (.approx .zero, { t with exact := false })
      else if t.exact then
        match Quantity.literalRat? m e with
        | some q => .ok (.exact q, t)
        | none => .ok (.approx (.scaled m e), { t with exact := false })
      else .ok (.approx (.scaled m e), t) := by
  rw [literal, hparts]
  dsimp only
  rw [bounded]
  split
  · rfl
  · rw [pure_bind]
    split
    · rfl
    · simp only [StateT.run_bind, StateT.run_get, pure_bind]
      cases ht : t.exact with
      | false => rfl
      | true =>
        simp only [if_true]
        cases Quantity.literalRat? m e <;> rfl

/-- The decimal that a literal is worth. -/
theorem toDecimal_of_run_literal (hparts : Literal.parts? text.toList = some (m, e)) {v : Quantity}
    (h : (literal text).run t = .ok (v, u)) :
    v.toDecimal
      = if (Decimal.scaled m e).leading < -2 * maxExponent then .zero else .scaled m e := by
  rw [run_literal hparts] at h
  split at h
  · cases h
  · split at h
    · next hlow =>
      cases h
      rw [if_pos hlow]
      rfl
    · next hlow =>
      rw [if_neg hlow]
      split at h
      · split at h
        · next hrat =>
          cases h
          exact Quantity.ofRat_eq_scaled hrat
        · cases h
          rfl
      · cases h
        rfl

/-- A literal is a fraction in an exact run that accepts it as such, and its decimal otherwise. -/
theorem run_literal_eq (text : String) (t : Trail) :
    (literal text).run t = (Literal.decimal text).map fun d =>
      match if t.exact then Literal.exactRat? text else none with
      | some q => (.exact q, t)
      | none => (.approx d, { t with exact := false }) := by
  cases hparts : Literal.parts? text.toList with
  | none =>
    rw [literal, Literal.decimal, hparts]
    rfl
  | some p =>
    obtain ⟨m, e⟩ := p
    have hrat : Literal.exactRat? text = Quantity.literalRat? m e := by
      simp [Literal.exactRat?, hparts]
    rw [run_literal hparts, Literal.decimal, hparts, hrat]
    dsimp only
    split
    · rfl
    · split
      · next hlow =>
        have hnone : Quantity.literalRat? m e = none := by
          cases hq : Quantity.literalRat? m e with
          | none => rfl
          | some q =>
            have := (Quantity.leading_of_literalRat? hq).1
            rw [maxExponent] at hlow
            omega
        rw [hnone, ite_self]
        rfl
      · cases t with
        | mk exact records =>
          cases exact with
          | false => rfl
          | true =>
            simp only [if_true]
            cases Quantity.literalRat? m e <;> rfl

theorem decimal_of_run_literal {v : Quantity} (h : (literal text).run t = .ok (v, u)) :
    Literal.decimal text = .ok v.toDecimal := by
  cases hparts : Literal.parts? text.toList with
  | none =>
    rw [literal, hparts] at h
    cases h
  | some p =>
    have hdecimal := toDecimal_of_run_literal hparts h
    rw [run_literal hparts] at h
    split at h
    · cases h
    · next hmax =>
      rw [Literal.decimal, hparts]
      dsimp only
      rw [if_neg hmax, hdecimal]

theorem exactRat?_of_run_literal {q : Rat} (h : (literal text).run t = .ok (.exact q, u)) :
    Literal.exactRat? text = some q := by
  rw [run_literal_eq] at h
  cases hdecimal : Literal.decimal text with
  | error f =>
    rw [hdecimal] at h
    cases h
  | ok d =>
    rw [hdecimal] at h
    have hpair := Except.ok.inj h
    split at hpair
    · next r hr =>
      cases hpair
      split at hr
      · exact hr
      · cases hr
    · cases hpair

theorem exists_run_literal {text : String} {m : Nat} {e : Int}
    (hparts : Literal.parts? text.toList = some (m, e))
    (hmax : Quantity.exceedsMaximum (.scaled m e) = false) :
    ∃ v u, (literal text).run {} = .ok (v, u) ∧
      v.toDecimal = (if (Decimal.scaled m e).Vanishes then .zero else .scaled m e) ∧
      u.exact = (Quantity.literalRat? m e).isSome := by
  have hvanishes : (if (Decimal.scaled m e).leading < -2 * maxExponent then .zero
      else Decimal.scaled m e) = if (Decimal.scaled m e).Vanishes then .zero
        else Decimal.scaled m e := by
    by_cases hzero : (Decimal.scaled m e).isZero
    · have hscaled : Decimal.scaled m e = .zero :=
        (Decimal.isCanonical_scaled _ _).isReduced.eq_zero (Quantity.value_of_isZero hzero)
      simp [hscaled]
    · simp [Decimal.Vanishes, hzero]
  have hdecimal : Literal.decimal text
      = .ok (if (Decimal.scaled m e).Vanishes then .zero else .scaled m e) := by
    rw [Literal.decimal, hparts, ← hvanishes]
    dsimp only
    rw [hmax, if_neg Bool.false_ne_true]
  have hrat : Literal.exactRat? text = Quantity.literalRat? m e := by
    simp [Literal.exactRat?, hparts]
  have hrun := run_literal_eq text {}
  rw [hdecimal, hrat] at hrun
  have htoDecimal {v : Quantity} {u : Trail} (h : (literal text).run {} = .ok (v, u)) :=
    Except.ok.inj ((decimal_of_run_literal h).symm.trans hdecimal)
  cases hq : Quantity.literalRat? m e with
  | none =>
    rw [hq] at hrun
    exact ⟨_, _, hrun, htoDecimal hrun, rfl⟩
  | some q =>
    rw [hq] at hrun
    exact ⟨_, _, hrun, htoDecimal hrun, rfl⟩

/-- A value that is settled keeps its decimal. -/
theorem exists_run_settle (v : Quantity) (t : Trail) :
    ∃ w u, (settle v).run t = .ok (w, u) ∧ w.toDecimal = v.toDecimal := by
  cases v with
  | approx d => exact ⟨_, _, rfl, rfl⟩
  | exact q =>
    simp only [settle, StateT.run_bind, StateT.run_get, pure_bind]
    by_cases h : t.exact && Quantity.inBounds q
    · simp only [h, if_true]
      exact ⟨_, _, rfl, rfl⟩
    · simp only [h]
      exact ⟨_, _, rfl, rfl⟩

end Run

namespace Arithmetic

open Run (operations)

theorem Terms.eval_single (sign : Option Bool) (text : String) :
    (single sign text).eval operations
      = Run.literal text >>= fun v => pure (signed Quantity.neg sign v) := by
  simp only [single, Terms.eval, Terms.gather, Factors.gather, Row.gather, Operand.eval,
    Operations.sum, Operations.product, Operations.close, Run.operations, List.foldrM_nil,
    bind_assoc, pure_bind]

/-- An integer with its sign. -/
def Terms.integer (n : Int) : Terms := single (Quantity.signOf n) (toString n.natAbs)

theorem Terms.typed_integer (n : Int) : (integer n).toLine.Typed :=
  typed_single (Literal.isSome_parts?_toString _) _

theorem Terms.joined_integer (n : Int) :
    Token.joined (integer n).toLine.toTokens = (toString n).toList := by
  rw [Literal.toList_toString_int, integer, single, Terms.toLine, Factors.toLine, Row.toLine,
    Operand.toLine, Quantity.signOf]
  split <;> simp [signLine, signKey, Line.toTokens, Token.text, Key.text]

theorem inBounds_intCast (n : Int) :
    Quantity.inBounds (n : Rat) = decide (n.natAbs ≤ fractionBound) := by
  have hone : decide (1 ≤ fractionBound) = true := by decide
  rw [Quantity.inBounds, Rat.num_intCast, Rat.den_intCast, hone, Bool.and_true]

theorem literalRat?_natCast (n : Nat) :
    Quantity.literalRat? n 0 = if n ≤ fractionBound then some (n : Rat) else none := by
  by_cases hzero : n = 0
  · subst hzero
    rfl
  · have hfraction : Decimal.fraction (n : Int) 0 = ((n : Int) : Rat) := by
      simp [Decimal.fraction_eq]
    rw [Quantity.literalRat?, if_neg (by omega), if_neg (by decide), hfraction]
    dsimp only
    rw [inBounds_intCast, Int.natAbs_natCast]
    split <;> simp_all

theorem signed_ofInt_natAbs (n : Int) :
    signed Quantity.neg (Quantity.signOf n) (.approx (.ofInt n.natAbs)) = .approx (.ofInt n) := by
  rw [Quantity.signOf]
  split
  · next hneg =>
    have hn : n = -(n.natAbs : Int) := by omega
    conv_rhs => rw [hn]
    exact congrArg Quantity.approx (Decimal.round_neg _ _ _).symm
  · next hneg =>
    have hn : n = (n.natAbs : Int) := by omega
    conv_rhs => rw [hn]
    rfl

theorem exceedsMaximum_neg (d : Decimal) :
    Quantity.exceedsMaximum (-d) = Quantity.exceedsMaximum d := by
  rw [Quantity.exceedsMaximum, Decimal.isZero_neg, Decimal.leading_neg, Quantity.exceedsMaximum]

theorem exceedsMaximum_ofInt_natAbs (n : Int) :
    Quantity.exceedsMaximum (.ofInt n.natAbs) = Quantity.exceedsMaximum (.ofInt n) := by
  rcases Int.natAbs_eq n with hn | hn
  · rw [← hn]
  · have hneg : Decimal.ofInt n = -Decimal.ofInt n.natAbs := by
      conv_lhs => rw [hn]
      exact Decimal.round_neg _ _ _
    rw [hneg, exceedsMaximum_neg]

/-- The first digit of an integer does not stand behind the point. -/
theorem leading_ofInt_nonneg (n : Int) : 0 ≤ (Decimal.ofInt n).leading := by
  by_cases hn : n = 0
  · subst hn
    exact le_of_eq (by rw [Decimal.ofInt, Decimal.scaled_zero]; rfl)
  · obtain ⟨m, f, -, -, hround⟩ := Decimal.exists_round (show 0 < precision by decide) hn
    have hcount := count_pos m.natAbs
    have hfloor : ¬(0 + f : Int) < exponentFloor := by
      rw [exponentFloor]
      omega
    rw [Decimal.ofInt, Decimal.scaled, (hround 0).1, Decimal.limited, if_neg hfloor,
      Decimal.leading, exponentCeiling]
    split
    · exact le_rfl
    · dsimp only
      omega

theorem Terms.run_integer (n : Int) (t : Trail) :
    ((integer n).eval operations).run t =
      if Quantity.exceedsMaximum (.ofInt n) then .error .tooLarge
      else if t.exact ∧ n.natAbs ≤ fractionBound then .ok (.exact n, t)
      else .ok (.approx (.ofInt n), { t with exact := false }) := by
  have hlow : ¬(Decimal.ofInt n.natAbs).leading < -2 * maxExponent := by
    have := leading_ofInt_nonneg n.natAbs
    rw [maxExponent]
    omega
  have hexact : signed Quantity.neg (Quantity.signOf n) (.exact (n.natAbs : Rat)) = .exact n := by
    rw [Quantity.signOf, signed]
    split
    · next hneg =>
      have hn : (n : Rat) = -(n.natAbs : Rat) := by
        rw [Nat.cast_natAbs]
        simp [abs_of_neg hneg]
      rw [hn]
      rfl
    · next hneg =>
      have hn : (n : Rat) = (n.natAbs : Rat) := by
        rw [Nat.cast_natAbs]
        simp [abs_of_nonneg (not_lt.1 hneg)]
      rw [hn]
      rfl
  rw [integer, eval_single, StateT.run_bind, Run.run_literal (Literal.parts?_toString _),
    ← Decimal.ofInt, exceedsMaximum_ofInt_natAbs, if_neg hlow, literalRat?_natCast]
  split
  · rfl
  · cases ht : t.exact with
    | false =>
      obtain ⟨exact, records⟩ := t
      cases ht
      rw [if_neg (by simp), if_neg (by simp)]
      exact congrArg (fun v => Except.ok (v, _)) (signed_ofInt_natAbs n)
    | true =>
      by_cases hbound : n.natAbs ≤ fractionBound
      · rw [if_pos rfl, if_pos hbound, if_pos ⟨rfl, hbound⟩]
        exact congrArg (fun v => Except.ok (v, t)) hexact
      · rw [if_pos rfl, if_neg hbound, if_neg (by simp [hbound])]
        exact congrArg (fun v => Except.ok (v, _)) (signed_ofInt_natAbs n)

end Arithmetic

open Arithmetic in
/-- A literal is typed as it stands. -/
theorem Calculator.value_literal (c : Calculator) (hconstants : c.constants.Valid) {text : String}
    (h : (Literal.parts? text.toList).isSome) :
    c.value text = ((Run.literal text >>= Run.settle).run {}).map Prod.fst := by
  have hvalue := c.value_typed hconstants (Terms.typed_single h none)
  have hjoined : Token.joined (Terms.single none text).toLine.toTokens = text.toList :=
    List.append_nil _
  have hsigned : (Run.literal text >>= fun v => pure (signed Quantity.neg none v))
      = Run.literal text := bind_pure _
  rw [hjoined, String.ofList_toList, Terms.value_toLine, Terms.eval_single, hsigned] at hvalue
  exact hvalue

end Keypad
