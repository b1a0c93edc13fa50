import Keypad.Proofs.Answer.Tokens
import Keypad.Proofs.Arithmetic.Chain
import Keypad.Proofs.Decimal.Word
import Keypad.Proofs.Evaluation.Canonical

/-!
# The previous answer read back

`Ans` alone is evaluated like the text of the previous answer. A decimal that a formula gives is
read back as it is, unless it is too large for an answer, which only a constant can be, or so small
that a literal of its size counts as zero.
-/

namespace Keypad

/-! ## The word for the answer -/

namespace Lexer

/-- A token as long as the text is not outdone. -/
theorem foldl_longer_of_length {cs : List Char} {b : Token} (h : cs.length ≤ b.text.length)
    (ts : List Token) : ts.foldl (longer cs) (some b) = some b := by
  induction ts with
  | nil => rfl
  | cons t ts ih =>
    have hkeep : longer cs (some b) t = some b := by
      rw [longer]
      refine if_neg fun hboth => ?_
      obtain ⟨hfront, hlonger⟩ := Bool.and_eq_true_iff.1 hboth
      have hle := (List.isPrefixOf_iff_prefix.1 hfront).length_le
      have hlt : b.text.length < t.text.length := by simpa using hlonger
      rw [String.length_toList] at hle
      omega
    rw [List.foldl_cons, hkeep, ih]

/-- No name of a constant hides the word for the answer. -/
theorem tokenize_answer (names : List String) : tokenize names "Ans" = .ok [.key .answer] := by
  have hlongest : longest? names ['A', 'n', 's'] = some (.key .answer) := by
    have hfixed : Token.fixed.foldl (longer ['A', 'n', 's']) none = some (.key .answer) := by decide
    rw [longest?, vocabulary, List.foldl_append, hfixed]
    exact foldl_longer_of_length (by decide) _
  have hnext : next? names [] ['A', 'n', 's'] = some (.key .answer) := hlongest
  have hcut : cut names [] ['A', 'n', 's'] = [.key .answer] := by
    rw [cut, hnext]
    show gathered [] ++ .key .answer :: cut names [] [] = _
    rw [cut]
    rfl
  have hsqueeze : Text.squeeze "Ans".toList = ['A', 'n', 's'] := by decide
  have hrefusal : refusal? ['A', 'n', 's'] = none := by decide
  unfold tokenize
  rw [hsqueeze]
  dsimp only
  rw [hrefusal, hcut]
  rfl

end Lexer

/-- `Ans` alone is the answer in parentheses. -/
theorem Canonical.ofFormula_answer {answer : List Token} {line : Line}
    (h : ofAnswer answer = .ok line) :
    ofFormula answer [.key .answer] = .ok (.group line .nil) := by
  have hemit : Progress.emit {} (ofAnswer answer) false .answer = .ok (.group line .nil) := by
    rw [Progress.emit, h]
    rfl
  have hlevel : level (ofAnswer answer) {} {} (.key .answer .nil) = .ok (.group line .nil) := by
    rw [level]
    · show (Progress.emit {} (ofAnswer answer) false .answer >>= fun shown => _) = _
      rw [hemit]
      rfl
    all_goals
      intro h
      cases h
  exact hlevel

open Arithmetic

/-- The answer is evaluated like its tree. -/
theorem Calculator.value_answer (c : Calculator) (v : Quantity) :
    { c with answer := v }.value "Ans"
      = ((v.terms.eval Run.operations >>= Run.settle).run {}).map Prod.fst := by
  have hline : Canonical.ofFormula v.tokens [.key .answer]
      = .ok (Terms.one (.one (.one (.group none v.terms)))).toLine :=
    Canonical.ofFormula_answer v.ofAnswer_tokens
  have htokens := Lexer.tokenize_answer c.constants.names
  rw [value_of_ofFormula (c := { c with answer := v }) htokens hline, Terms.value_toLine,
    Terms.eval_one, Factors.eval_group]

/-! ## Exact answers -/

namespace Quantity

variable {q : Rat} {d : Decimal}

theorem fraction_natCast (n : Nat) : Decimal.fraction n 0 = n := by
  rw [Decimal.fraction_eq]
  simp

theorem literalRat?_natCast {n : Nat} (h : n ≤ fractionBound) : literalRat? n 0 = some n := by
  rw [literalRat?]
  split
  · next hzero =>
    obtain rfl : n = 0 := by exact_mod_cast hzero
    rfl
  · have hbounds : inBounds (n : Rat) := by
      rw [inBounds, Rat.num_natCast, Rat.den_natCast, Int.natAbs_natCast, decide_eq_true h]
      rfl
    simp only [fraction_natCast, hbounds, if_true]
    rfl

theorem isExact_toString {n : Nat} (h : n ≤ fractionBound) :
    (Formed.literal (toString n)).isExact := by
  rw [Formed.isExact, Literal.parts?_toString]
  exact Option.isSome_of_eq_some (literalRat?_natCast h)

theorem rat_toString (n : Nat) : Literal.rat (toString n) = n := by
  rw [Literal.rat, Literal.parts?_toString]
  exact fraction_natCast n

theorem signed_signOf (n : Int) : signed (- ·) (signOf n) ((n.natAbs : Nat) : Rat) = n := by
  rw [signOf]
  split
  · next h =>
    show -((n.natAbs : Nat) : Rat) = n
    rw [Nat.cast_natAbs, abs_of_neg h]
    simp
  · next h =>
    show ((n.natAbs : Nat) : Rat) = n
    rw [Nat.cast_natAbs, abs_of_nonneg (not_lt.1 h)]

/-- The two literals of a fraction and their quotient. -/
theorem eval_fraction {sign : Option Bool} {n d : String} {q : Rat} (hd : Literal.rat d ≠ 0)
    (hq : signed (- ·) sign (Literal.rat n) / Literal.rat d = q) :
    (Factors.one (.more (.one (.literal sign n)) (.literal none d))).eval Formation.operations
      = ⟨[.literal n, .literal d, .value q], some q⟩ := by
  have hdiv : Formation.div (signed (- ·) sign (Literal.rat n)) (Literal.rat d)
      = Formation.value q := by
    rw [Formation.div, if_neg hd, hq]
  have hrow : (Row.more (.one (.literal sign n)) (.literal none d)).gather Formation.operations
      = ⟨[.literal n, .literal d],
        some (.fraction (signed (- ·) sign (Literal.rat n)) (Literal.rat d))⟩ := rfl
  rw [Factors.eval_row, Row.eval, hrow, Formation.bind_of_some rfl]
  show Formation.mk (_ ++ (Formation.div _ _).formed) (Formation.div _ _).result = _
  rw [hdiv]
  rfl

/-- The text of an exact value forms that value, from literals that are exact. -/
theorem exists_formation (h : inBounds q) :
    ∃ xs, (exact q).terms.formation = ⟨xs, some q⟩ ∧ ∀ x ∈ xs, x.isExact := by
  have hnum := isExact_toString (natAbs_num_le h)
  have hden := isExact_toString (den_le h)
  have hvalue := signed_signOf q.num
  rw [← rat_toString] at hvalue
  have hlast : (Formed.value q).isExact := h
  rw [Terms.formation, terms, Terms.eval_one, row]
  split
  · next hone =>
    have hread : (Operand.literal (signOf q.num) (toString q.num.natAbs)).eval Formation.operations
        = ⟨[.literal (toString q.num.natAbs)], some q.num⟩ :=
      congrArg (fun x => Formation.mk [.literal (toString q.num.natAbs)] (some x)) hvalue
    rw [Factors.eval_one, hread, Formation.bind_of_some rfl, Rat.coe_int_num_of_den_eq_one hone]
    exact ⟨_, rfl, by simpa [Formation.value] using And.intro hnum hlast⟩
  · have hne : Literal.rat (toString q.den) ≠ 0 := by
      rw [rat_toString]
      exact_mod_cast q.den_ne_zero
    rw [eval_fraction hne (by rw [hvalue, rat_toString, Rat.num_div_den]),
      Formation.bind_of_some rfl]
    exact ⟨_, rfl, by simpa [Formation.value] using And.intro hnum (And.intro hden hlast)⟩

/-- The literal of an exact value within bounds is evaluated to that value. -/
theorem run_terms (h : inBounds q) :
    (((exact q).terms.eval Run.operations) >>= Run.settle).run {} = .ok (.exact q, {}) := by
  obtain ⟨xs, hformation, hexact⟩ := exists_formation h
  have heval := Terms.simulates_eval_of_gather (exact q).terms.simulates_gather
  have hsim : Simulates ((exact q).terms.eval Run.operations >>= Run.settle)
      (exact q).terms.formation .exact := heval.bind simulates_settle Run.keepsLoss_settle
  rw [hformation] at hsim
  exact hsim.exact {} rfl hexact

end Quantity

/-! ## Decimals -/

/-- What a decimal is read back as: one that is too large fails, and one that a literal cannot tell
from zero is zero. -/
def Decimal.reread (d : Decimal) : Except Failure Decimal :=
  if Quantity.exceedsMaximum d then .error .tooLarge
  else .ok (if d.leading < -2 * maxExponent then .zero else d)

variable {d : Decimal}

theorem Decimal.reread_neg (d : Decimal) : (-d).reread = d.reread >>= fun e => pure (-e) := by
  have hexceeds : Quantity.exceedsMaximum (-d) = Quantity.exceedsMaximum d := by
    simp only [Quantity.exceedsMaximum, isZero_neg, leading_neg]
  rw [reread, reread, hexceeds, leading_neg]
  split
  · rfl
  · split <;> rfl

/-- The decimals that are read back as they are. -/
theorem Decimal.reread_eq_ok_iff (d : Decimal) :
    d.reread = .ok d ↔ Quantity.exceedsMaximum d = false ∧ -2 * maxExponent ≤ d.leading := by
  rw [reread]
  split
  · next hlarge => simp [hlarge]
  · next hlarge =>
    split
    · next hsmall =>
      constructor
      · intro h
        cases h
        exact absurd hsmall (by decide)
      · rintro ⟨-, hle⟩
        omega
    · exact ⟨fun _ => ⟨by simpa using hlarge, not_lt.1 ‹_›⟩, fun _ => rfl⟩

theorem Literal.decimal_raw (hd : d.IsCanonical) (h : 0 ≤ d.mantissa) :
    decimal d.raw = d.reread := by
  rw [decimal, parts?_raw h, clampExponent_eq hd.inWord]
  dsimp only
  rw [Int.natAbs_of_nonneg h, hd.scaled_eq]
  rfl

theorem Quantity.agrees_terms (hd : d.IsCanonical) :
    Run.Agrees {} ((approx d).terms.eval Run.operations) d.reread Run.Denotes := by
  have hread : Literal.decimal d.abs.raw = d.abs.reread :=
    Literal.decimal_raw hd.abs (Int.natCast_nonneg _)
  have hliteral := Run.agrees_literal (t := {}) d.abs.raw
  rw [hread] at hliteral
  rw [terms, Terms.eval_one, row, Factors.eval_one, Operand.eval, signOf]
  split
  · next h =>
    have habs : d.abs = -d := by
      rw [Decimal.abs_eq, Decimal.isNegative, decide_eq_true h, if_pos rfl]
    have hback : d.reread = d.abs.reread >>= fun e => pure (-e) := by
      rw [habs, ← Decimal.reread_neg, Decimal.neg_neg]
    rw [hback]
    exact hliteral.bind fun u v e _ hv => Run.agrees_pure (Run.denotes_neg hv)
  · next h =>
    have habs : d.abs = d := by
      rw [Decimal.abs_eq, Decimal.isNegative, decide_eq_false h, if_neg Bool.false_ne_true]
    rw [habs] at hliteral ⊢
    rw [← bind_pure d.reread]
    exact hliteral.bind fun u v e _ hv => Run.agrees_pure hv

/-- What `Ans` alone is worth, for an answer of canonical form. -/
theorem Calculator.toDecimal_value_answer (c : Calculator) {v : Quantity}
    (hv : v.Within Decimal.IsCanonical) :
    ({ c with answer := v }.value "Ans").map Quantity.toDecimal = v.toDecimal.reread := by
  rw [value_answer]
  cases v with
  | exact q =>
    have hbounds : Quantity.inBounds q := hv
    have hlarge : Quantity.exceedsMaximum (.ofRat q) = false :=
      Decimal.exceedsMaximum_eq_false_iff.2
        ((Decimal.atMost_ofRat (Quantity.abs_lt_of_inBounds hbounds)).mono
          (by rw [maxExponent]; omega))
    have hsmall : -2 * maxExponent ≤ (Decimal.ofRat q).leading :=
      le_trans (by decide) (Decimal.le_leading_ofRat hbounds)
    rw [Quantity.run_terms hbounds]
    exact ((Decimal.reread_eq_ok_iff _).2 ⟨hlarge, hsmall⟩).symm
  | approx d => exact Chain.toDecimal_of_agrees (Quantity.agrees_terms hv)

/-- The previous answer is read back as it is, if it is not too large and not too close to zero for
a literal. Otherwise `Ans` fails or is zero. -/
theorem Calculator.value_answer_eq_iff (c : Calculator) (hc : c.constants.Built) {formula : String}
    {v : Quantity} (h : c.value formula = .ok v) :
    ({ c with answer := v }.value "Ans").map Quantity.toDecimal = v.toDecimal.reread ∧
    (({ c with answer := v }.value "Ans").map Quantity.toDecimal = .ok v.toDecimal ↔
      Quantity.exceedsMaximum v.toDecimal = false ∧ -2 * maxExponent ≤ v.toDecimal.leading) := by
  obtain ⟨e, he, rfl⟩ := exists_evaluate_of_value h
  have hread := toDecimal_value_answer c (isCanonical_evaluate hc he)
  refine ⟨hread, ?_⟩
  rw [hread]
  exact Decimal.reread_eq_ok_iff _

/-- The answer `1E-30000000` is read back as zero. -/
theorem Calculator.value_answer_tiny :
    ({} : Calculator).value "1E-15000000×1E-15000000" = .ok (.approx ⟨1, -30000000⟩) ∧
    (({ answer := .approx ⟨1, -30000000⟩ } : Calculator).value "Ans").map Quantity.toDecimal
      = .ok .zero := by
  have hvalue : ({} : Calculator).value "1E-15000000×1E-15000000"
      = .ok (.approx ⟨1, -30000000⟩) := by decide +kernel
  obtain ⟨hread, -⟩ := value_answer_eq_iff {} .empty hvalue
  have hzero : Decimal.reread ⟨1, -30000000⟩ = .ok .zero := by decide +kernel
  exact ⟨hvalue, hread.trans hzero⟩

end Keypad
