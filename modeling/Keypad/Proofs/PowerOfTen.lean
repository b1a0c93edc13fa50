import Keypad.Proofs.Evaluation.Exactness
import Keypad.Proofs.Evaluation.Function

/-!
# Two ways to type a power of ten

The formula `aEk` is one literal, the formula `aE(k)` applies an operation to a literal and a group.
The first is limited by the size of its value, the second by those of `a` and of `k`, and it may
take its result for a fraction. Both ways are described by the decimals that `a` and `aEk` write,
and it is told exactly when they agree.
-/

namespace Keypad

open Digits Arithmetic

namespace Literal

variable {base : List Char} {m places : Nat}

theorem not_mem_of_base? (h : base? base = some (m, places)) : 'E' ∉ base := fun hmem =>
  absurd ((isBase_of_base? h).2.1 'E' hmem) (by decide)

theorem parts?_of_base? (h : base? base = some (m, places)) :
    parts? base = some (m, clampExponent (-places)) := by
  rw [parts?, cut_eq_none (not_mem_of_base? h), h]
  rfl

theorem parts?_exponent (h : base? base = some (m, places)) (k : Int) :
    parts? (base ++ 'E' :: (toString k).toList)
      = some (m, clampExponent (clampExponent k - places)) := by
  obtain ⟨c, cs, hcs⟩ := List.exists_cons_of_ne_nil (isBase_of_base? h).1
  rw [parts?, cut_append (not_mem_of_base? h), hcs]
  dsimp only
  rw [← hcs, exponent?_toString, h]
  rfl

end Literal

namespace Decimal

/-- The size of a number that is not zero, by the power of ten behind it. -/
theorem exists_order {m : Int} (hm : m ≠ 0) :
    ∃ order : Int, ∀ e, (Quantity.exceedsMaximum (scaled m e) ↔ maxExponent < e + order) ∧
      ((scaled m e).Vanishes ↔ e + order < -2 * maxExponent) ∧
      (-4 * maxExponent ≤ e + order → scaled m e ≠ zero) := by
  obtain ⟨n, f, hmod, hcount, hround⟩ := exists_round (show 0 < precision by decide) hm
  have hpos := count_pos n.natAbs
  refine ⟨f + count n.natAbs - 1, fun e => ?_⟩
  rw [precision] at hcount
  rw [scaled, (hround e).1, limited]
  split
  · next hfloor =>
    rw [exponentFloor] at hfloor
    dsimp only at hfloor
    rw [maxExponent]
    exact ⟨⟨fun h => (by cases h), fun h => by omega⟩, ⟨fun _ => by omega, fun _ => .inl rfl⟩,
      fun h => by omega⟩
  · next hfloor =>
    have hzero : isZero ⟨n, min (e + f) exponentCeiling⟩ = false := by
      rw [isZero, beq_eq_false_iff_ne]
      dsimp only
      omega
    have hne : limited ⟨n, e + f⟩ ≠ zero := by
      rw [limited, if_neg hfloor]
      intro h
      rw [h] at hzero
      cases hzero
    rw [limited, if_neg hfloor] at hne
    rw [Quantity.exceedsMaximum, Vanishes, hzero, leading_of_ne_zero hzero, maxExponent,
      exponentCeiling]
    simp only [Bool.not_false, Bool.true_and, decide_eq_true_eq, Bool.false_eq_true, false_or]
    exact ⟨by omega, by omega, fun _ => hne⟩

theorem vanishes_zero : zero.Vanishes := .inl rfl

variable {m : Int} {e : Int}

theorem not_vanishes_of_exceedsMaximum (h : Quantity.exceedsMaximum (scaled m e)) :
    ¬(scaled m e).Vanishes := by
  rcases eq_or_ne m 0 with rfl | hm
  · rw [scaled_zero] at h
    cases h
  · obtain ⟨order, horder⟩ := exists_order hm
    rw [(horder e).1, maxExponent] at h
    rw [(horder e).2.1, maxExponent]
    omega

/-- Between the bounds of size, a product with a power of ten has the digits of its factor. -/
theorem scaled_moved (hmax : Quantity.exceedsMaximum (scaled m e) = false)
    (hlow : ¬(scaled m e).Vanishes) (k : Int) :
    scaled (scaled m e).mantissa ((scaled m e).exponent + k) = scaled m (e + k) := by
  have hzero : (scaled m e).isZero = false := Bool.eq_false_iff.2 fun h => hlow (.inl h)
  refine scaled_shift (fun h => ?_) ?_ k
  · rw [h] at hzero
    cases hzero
  · have hleading := exponent_le_leading hzero
    have hmax' := exceedsMaximum_eq_false_iff.1 hmax hzero
    rw [maxExponent] at hmax'
    rw [exponentCeiling]
    omega

end Decimal

namespace Run

variable {t : Trail}

variable {exact : Bool} {d : Decimal}

/-- The decimal that a power of ten is applied to, moved by `n` or lost. -/
def movedDecimal (exact : Bool) (d : Decimal) (n : Int) : Except Failure Decimal :=
  if (n.natAbs : Int) ≤ 2 * maxExponent then
    let moved := Decimal.scaled d.mantissa (d.exponent + n)
    if Quantity.exceedsMaximum moved then .error .tooLarge else .ok (taken exact moved)
  else if n < 0 then .ok .zero
  else .error .tooLarge

theorem map_run_timesPowerOfTen (v w : Quantity) (t : Trail) :
    ((timesPowerOfTen v w >>= settle).run t).map (fun r => r.1.toDecimal) =
      match w.toInt? with
      | none => .error .fractionalExponent
      | some n => movedDecimal t.exact v.toDecimal n := by
  rw [timesPowerOfTen]
  cases w.toInt? with
  | none => rfl
  | some n =>
    dsimp only
    rw [movedDecimal]
    split
    · rw [signed, bounded]
      dsimp only
      split
      · rfl
      · rw [pure_bind, if_neg Bool.false_ne_true]
        exact map_run_ofFunction_settle _ t
    · split
      · rw [map_run_ofFunction_settle, taken_zero]
      · rfl

end Run

/-- The same decimal, or failures of one kind. -/
def Alike : Except Failure Decimal → Except Failure Decimal → Prop
  | .ok d, .ok d' => d = d'
  | .error f, .error g => f.kind = g.kind
  | _, _ => False

/-- What a literal is worth that writes the decimal. -/
def Decimal.outcome (d : Decimal) : Except Failure Decimal :=
  if Quantity.exceedsMaximum d then .error .tooLarge else .ok (if d.Vanishes then .zero else d)

section Outcome

variable {m e : Int}

theorem alike_error_iff {f : Failure} (hf : f.kind = .math) (d : Decimal) :
    Alike d.outcome (.error f) ↔ Quantity.exceedsMaximum d := by
  rw [Decimal.outcome]
  split
  · next h => exact ⟨fun _ => h, fun _ => hf.symm⟩
  · next h => exact ⟨False.elim, fun h' => absurd h' h⟩

theorem alike_zero_iff :
    Alike (Decimal.scaled m e).outcome (.ok .zero) ↔ (Decimal.scaled m e).Vanishes := by
  rw [Decimal.outcome]
  split
  · next h => exact ⟨False.elim, fun h' => absurd h' (Decimal.not_vanishes_of_exceedsMaximum h)⟩
  · split
    · next hlow => exact ⟨fun _ => hlow, fun _ => rfl⟩
    · next hlow =>
      refine ⟨fun heq => .inl ?_, fun h => absurd h hlow⟩
      have hzero : Decimal.scaled m e = .zero := heq
      rw [hzero]
      rfl

theorem alike_taken_iff {exact : Bool} (hne : Decimal.scaled m e ≠ .zero) :
    Alike (Decimal.scaled m e).outcome
        (if Quantity.exceedsMaximum (.scaled m e) then .error .tooLarge
          else .ok (Run.taken exact (.scaled m e))) ↔
      Quantity.exceedsMaximum (.scaled m e) ∨ ¬(Decimal.scaled m e).Vanishes ∧
        (exact → ∀ q, Quantity.rational? (.scaled m e) = some q →
          q = (Decimal.scaled m e).value) := by
  have hcanonical := Decimal.isCanonical_scaled m e
  rw [Decimal.outcome]
  by_cases hmax : Quantity.exceedsMaximum (.scaled m e)
  · rw [if_pos hmax, if_pos hmax]
    exact ⟨fun _ => .inl hmax, fun _ => rfl⟩
  · rw [if_neg hmax, if_neg hmax, or_iff_right hmax, ← Run.taken_eq_self_iff hcanonical]
    split
    · next hlow =>
      exact ⟨fun h => absurd h.symm (Run.taken_ne_zero hcanonical hne), fun h => absurd hlow h.1⟩
    · next hlow => exact ⟨fun h => ⟨hlow, h.symm⟩, fun h => h.2.symm⟩

/-- A factor that vanishes is not brought beyond the largest number. -/
theorem not_exceedsMaximum_of_vanishes {e₀ k : Int} (hshift : e₀ + k = e)
    (hk : (k.natAbs : Int) ≤ 2 * maxExponent) (hlow : (Decimal.scaled m e₀).Vanishes) :
    ¬Quantity.exceedsMaximum (.scaled m e) := by
  rcases eq_or_ne m 0 with rfl | hm
  · rw [Decimal.scaled_zero]
    exact Bool.false_ne_true
  · obtain ⟨order, horder⟩ := Decimal.exists_order hm
    rw [(horder e₀).2.1, maxExponent] at hlow
    rw [(horder e).1, maxExponent]
    rw [maxExponent] at hk
    omega

/-- A factor that does not vanish is not brought to zero. -/
theorem scaled_ne_zero_of_not_vanishes {e₀ k : Int} (hshift : e₀ + k = e)
    (hk : (k.natAbs : Int) ≤ 2 * maxExponent) (hlow : ¬(Decimal.scaled m e₀).Vanishes) :
    Decimal.scaled m e ≠ .zero := by
  have hm : m ≠ 0 := by
    rintro rfl
    rw [Decimal.scaled_zero] at hlow
    exact hlow Decimal.vanishes_zero
  obtain ⟨order, horder⟩ := Decimal.exists_order hm
  rw [(horder e₀).2.1, maxExponent] at hlow
  rw [maxExponent] at hk
  refine (horder e).2.2 ?_
  rw [maxExponent]
  omega

/-- Where the exponent is accepted as it is, the two factors decide. -/
theorem alike_moved_iff {exact : Bool} {e₀ k : Int} (hshift : e₀ + k = e)
    (hk : (k.natAbs : Int) ≤ 2 * maxExponent) :
    Alike (Decimal.scaled m e).outcome
        (if Quantity.exceedsMaximum (.scaled m e₀) then .error .tooLarge
          else Run.movedDecimal exact
            (if (Decimal.scaled m e₀).Vanishes then .zero else .scaled m e₀) k) ↔
      Quantity.exceedsMaximum (.scaled m e) ∨
      (Decimal.scaled m e).Vanishes ∧ (Decimal.scaled m e₀).Vanishes ∨
      Quantity.exceedsMaximum (.scaled m e₀) = false ∧ ¬(Decimal.scaled m e₀).Vanishes ∧
        ¬(Decimal.scaled m e).Vanishes ∧
        (exact → ∀ q, Quantity.rational? (.scaled m e) = some q →
          q = (Decimal.scaled m e).value) := by
  by_cases hlarge : Quantity.exceedsMaximum (.scaled m e₀)
  · have hlow := Decimal.not_vanishes_of_exceedsMaximum hlarge
    rw [if_pos hlarge, alike_error_iff rfl]
    simp only [hlarge, hlow, and_false, false_and, or_false, Bool.true_eq_false]
  rw [if_neg hlarge, Run.movedDecimal, if_pos hk]
  by_cases hlow : (Decimal.scaled m e₀).Vanishes
  · have hzero : Decimal.scaled Decimal.zero.mantissa (Decimal.zero.exponent + k) = .zero :=
      Decimal.scaled_zero _
    have hmax := not_exceedsMaximum_of_vanishes hshift hk hlow
    rw [if_pos hlow, hzero]
    show Alike _ (.ok (Run.taken exact .zero)) ↔ _
    rw [Run.taken_zero, alike_zero_iff]
    simp only [hmax, hlow, and_true, not_true, false_and, and_false, or_false, false_or,
      Bool.false_eq_true]
  · have hmoved := Decimal.scaled_moved (Bool.eq_false_iff.2 hlarge) hlow k
    rw [if_neg hlow, hmoved, hshift]
    dsimp only
    rw [alike_taken_iff (scaled_ne_zero_of_not_vanishes hshift hk hlow)]
    simp only [Bool.eq_false_iff.2 hlarge, hlow, and_false, not_false_eq_true, true_and, false_or]

end Outcome

/-- Is the integer, typed in a group, accepted as an exponent? -/
def AcceptedExponent (k : Int) : Prop :=
  Quantity.exceedsMaximum (.ofInt k) = false ∧ (Quantity.comparedInt? (.ofInt k)).isSome

instance : DecidablePred AcceptedExponent :=
  fun k => inferInstanceAs (Decidable (Quantity.exceedsMaximum (.ofInt k) = false ∧
    (Quantity.comparedInt? (.ofInt k)).isSome = true))

namespace Calculator

variable {c : Calculator} {a : String} {m places : Nat}

theorem map_value_literal (hconstants : c.constants.Valid) {text : String} {e : Int}
    (hparts : Literal.parts? text.toList = some (m, e)) :
    (c.value text).map Quantity.toDecimal = (Decimal.scaled m e).outcome := by
  rw [c.value_literal hconstants (by rw [hparts]; rfl), Decimal.outcome]
  cases hmax : Quantity.exceedsMaximum (.scaled m e) with
  | true =>
    rw [Run.run_bind_of_error (by rw [Run.run_literal hparts, hmax]; rfl)]
    rfl
  | false =>
    obtain ⟨v, u, hliteral, hv, -⟩ := Run.exists_run_literal hparts hmax
    obtain ⟨w, u', hsettle, hw⟩ := Run.exists_run_settle v u
    rw [Run.run_bind_of_ok hliteral, hsettle]
    exact congrArg Except.ok (hw.trans hv)

/-- The integer in the group, as an exponent. -/
theorem exists_run_integer {k : Int} (hmax : Quantity.exceedsMaximum (.ofInt k) = false)
    (t : Trail) :
    ∃ w u, ((Terms.integer k).eval Run.operations).run t = .ok (w, u) ∧
      w.toInt? = Quantity.comparedInt? (.ofInt k) ∧
      u.exact = (t.exact && decide (k.natAbs ≤ fractionBound)) := by
  rw [Terms.run_integer, hmax, if_neg Bool.false_ne_true]
  split
  · next hexact =>
    have hcount : count k.natAbs ≤ comparedDigits :=
      count_le (by decide) (lt_of_le_of_lt hexact.2 (by decide))
    refine ⟨_, _, rfl, ?_, by simp [hexact.1, hexact.2]⟩
    rw [Quantity.comparedInt?_ofInt (hcount.trans (by decide)),
      Quantity.comparedInt_eq_self hcount]
    simp [Quantity.toInt?]
  · next hexact => exact ⟨_, _, rfl, rfl, by simpa using hexact⟩

/-- The literal and the group are evaluated one after the other. -/
theorem value_group (hconstants : c.constants.Valid)
    (ha : Literal.base? a.toList = some (m, places)) (k : Int) :
    c.value (a ++ "E(" ++ toString k ++ ")") =
      ((Run.literal a >>= fun v => (Terms.integer k).eval Run.operations >>= fun w =>
        Run.timesPowerOfTen v w >>= Run.settle).run {}).map Prod.fst := by
  have hreadable : (Literal.parts? a.toList).isSome := by
    rw [Literal.parts?_of_base? ha]
    rfl
  have htokens := tokenize_open hconstants (Literal.isBase_of_base? ha).2.1
    (Terms.typed_integer k)
  have hline := ofFormula_open hreadable (Terms.typed_integer k) c.answer.tokens
  have htext : String.ofList (Token.joined (Line.key (.literal (a ++ "E"))
      (.group (Terms.integer k).toLine .nil)).toTokens) = a ++ "E(" ++ toString k ++ ")" := by
    apply String.toList_inj.1
    rw [String.toList_ofList]
    simp only [Line.toTokens, Token.joined_cons, Token.joined_append, Token.joined_nil, Token.text,
      Key.text, Terms.joined_integer, String.toList_append, List.append_assoc]
    rfl
  have hsigned : (Operand.literal none a).eval Run.operations = Run.literal a := bind_pure _
  rw [← htext, value_of_ofFormula htokens hline, Operand.value_applied _ _ rfl, hsigned]
  rfl

theorem map_value_group (hconstants : c.constants.Valid)
    (ha : Literal.base? a.toList = some (m, places)) (k : Int) :
    let d := Decimal.scaled m (Literal.clampExponent (-places))
    (c.value (a ++ "E(" ++ toString k ++ ")")).map Quantity.toDecimal =
      if Quantity.exceedsMaximum d then .error .tooLarge
      else if Quantity.exceedsMaximum (.ofInt k) then .error .tooLarge
      else match Quantity.comparedInt? (.ofInt k) with
        | none => .error .fractionalExponent
        | some n =>
          Run.movedDecimal
            ((Literal.exactRat? a).isSome && decide (k.natAbs ≤ fractionBound))
            (if d.Vanishes then .zero else d) n := by
  have hrat : Literal.exactRat? a = Quantity.literalRat? m (Literal.clampExponent (-places)) := by
    simp [Literal.exactRat?, Literal.parts?_of_base? ha]
  intro d
  rw [value_group hconstants ha, hrat]
  cases hmax : Quantity.exceedsMaximum d with
  | true =>
    rw [Run.run_bind_of_error (by rw [Run.run_literal (Literal.parts?_of_base? ha), hmax]; rfl)]
    rfl
  | false =>
    obtain ⟨v, u, hliteral, hv, hu⟩ := Run.exists_run_literal (Literal.parts?_of_base? ha) hmax
    rw [Run.run_bind_of_ok hliteral, if_neg Bool.false_ne_true]
    cases hlarge : Quantity.exceedsMaximum (.ofInt k) with
    | true =>
      rw [Run.run_bind_of_error (by rw [Terms.run_integer, hlarge]; rfl)]
      rfl
    | false =>
      obtain ⟨w, u', hgroup, hw, hu'⟩ := exists_run_integer hlarge u
      have hmoved := Run.map_run_timesPowerOfTen v w u'
      rw [hw, hv, hu', hu] at hmoved
      rw [Run.run_bind_of_ok hgroup, if_neg Bool.false_ne_true, ← hmoved]
      cases (Run.timesPowerOfTen v w >>= Run.settle).run u' with
      | error f => rfl
      | ok r => rfl

/-! ### By the size of the exponent -/

section Exponent

variable {k : Int}

theorem comparedInt?_near (hk : (k.natAbs : Int) ≤ 2 * maxExponent) :
    Quantity.exceedsMaximum (.ofInt k) = false ∧ Quantity.comparedInt? (.ofInt k) = some k := by
  have hcount : count k.natAbs ≤ 8 := by
    refine count_le (by decide) ?_
    rw [maxExponent] at hk
    have : pow10 8 = 100000000 := rfl
    omega
  constructor
  · refine Quantity.exceedsMaximum_of_leading ?_
    by_cases hzero : (Decimal.ofInt k).isZero
    · rw [Decimal.leading, if_pos hzero]
      decide
    · refine (Decimal.atMost_scaled k 0 (Bool.eq_false_iff.2 hzero)).trans ?_
      rw [maxExponent]
      omega
  · rw [Quantity.comparedInt?_ofInt (hcount.trans (by decide)),
      Quantity.comparedInt_eq_self (hcount.trans (by decide))]

theorem lt_of_comparedInt? {n : Int} (h : Quantity.comparedInt? (.ofInt k) = some n)
    (hk : 2 * maxExponent < k) : 2 * maxExponent < n := by
  have hbound : ((19999999 : Nat) : Int) ≤ n :=
    Quantity.le_of_comparedInt? h (by decide) (by rw [maxExponent] at hk; omega)
  rw [maxExponent]
  omega

theorem lt_neg_of_comparedInt? {n : Int} (h : Quantity.comparedInt? (.ofInt k) = some n)
    (hk : k < -2 * maxExponent) : n < -2 * maxExponent := by
  have hneg : Quantity.comparedInt? (.ofInt (-k)) = some (-n) := by
    have hof : Decimal.ofInt (-k) = -Decimal.ofInt k := Decimal.round_neg _ _ _
    rw [hof, Quantity.comparedInt?_neg, h]
    rfl
  have := lt_of_comparedInt? hneg (by omega)
  omega

end Exponent

section Group

variable (hconstants : c.constants.Valid) (ha : Literal.base? a.toList = some (m, places)) {k : Int}
include hconstants ha

theorem map_value_group_near (hk : (k.natAbs : Int) ≤ 2 * maxExponent) :
    let d := Decimal.scaled m (Literal.clampExponent (-places))
    (c.value (a ++ "E(" ++ toString k ++ ")")).map Quantity.toDecimal =
      if Quantity.exceedsMaximum d then .error .tooLarge
      else Run.movedDecimal (Literal.exactRat? a).isSome (if d.Vanishes then .zero else d) k := by
  obtain ⟨hmax, hint⟩ := comparedInt?_near hk
  have hbound : decide (k.natAbs ≤ fractionBound) = true := by
    rw [decide_eq_true_eq, fractionBound]
    rw [maxExponent] at hk
    omega
  intro d
  rw [map_value_group hconstants ha, hmax, hint, hbound, Bool.and_true]
  simp only [Bool.false_eq_true, if_false]
  rfl

theorem map_value_group_above (hk : 2 * maxExponent < k) :
    ∃ f : Failure, f.kind = .math ∧
      (c.value (a ++ "E(" ++ toString k ++ ")")).map Quantity.toDecimal = .error f := by
  rw [map_value_group hconstants ha]
  split
  · exact ⟨_, rfl, rfl⟩
  · split
    · exact ⟨_, rfl, rfl⟩
    · split
      · exact ⟨_, rfl, rfl⟩
      · next n hn =>
        have hlarge := lt_of_comparedInt? hn hk
        rw [Run.movedDecimal, if_neg (by omega),
          if_neg (by rw [maxExponent] at hlarge; omega)]
        exact ⟨_, rfl, rfl⟩

theorem map_value_group_below (hk : k < -2 * maxExponent) :
    let d := Decimal.scaled m (Literal.clampExponent (-places))
    (Quantity.exceedsMaximum d = false ∧ AcceptedExponent k →
      (c.value (a ++ "E(" ++ toString k ++ ")")).map Quantity.toDecimal = .ok .zero) ∧
    (¬(Quantity.exceedsMaximum d = false ∧ AcceptedExponent k) → ∃ f : Failure, f.kind = .math ∧
      (c.value (a ++ "E(" ++ toString k ++ ")")).map Quantity.toDecimal = .error f) := by
  intro d
  rw [map_value_group hconstants ha]
  constructor
  · rintro ⟨hd, hmax, hint⟩
    obtain ⟨n, hn⟩ := Option.isSome_iff_exists.1 hint
    have hlarge := lt_neg_of_comparedInt? hn hk
    rw [hd, hmax, hn, if_neg Bool.false_ne_true, if_neg Bool.false_ne_true]
    dsimp only
    rw [Run.movedDecimal, if_neg (by omega), if_pos (by rw [maxExponent] at hlarge; omega)]
  · intro hnot
    split
    · exact ⟨_, rfl, rfl⟩
    · next hd =>
      split
      · exact ⟨_, rfl, rfl⟩
      · next hmax =>
        cases hn : Quantity.comparedInt? (.ofInt k) with
        | none => exact ⟨_, rfl, rfl⟩
        | some n =>
          exact absurd ⟨by simpa using hd, by simpa using hmax, by simp [hn]⟩ hnot

end Group

end Calculator

end Keypad
