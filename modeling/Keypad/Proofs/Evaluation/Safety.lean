import Keypad.Proofs.Answer.Tokens
import Keypad.Proofs.Canonical.Tokens
import Keypad.Proofs.Evaluation.Range

/-!
# Evaluation never fails internally

The passes over a formula agree: what the canonical pass accepts has every operand, operation,
literal and constant that its evaluation looks up. The same holds by position: both passes over
tokens find the parenthesis that closes a group within its level, and the evaluation finds the
arguments of an operation between the commas.
-/

namespace Keypad

namespace Calculator

variable {c : Calculator} {formula : String} {answer tokens canonical : List Token} {inGroup : Bool}
  {op : Option Operation} {line : Line} {table : ConstantTable} {f : Failure}

/-! ## The previous answer -/

theorem answer_notMem_tokens (v : Quantity) : .key .answer ∉ v.tokens := by
  intro h
  rcases Quantity.of_mem_tokens h with heq | heq | ⟨text, heq⟩ <;> cases heq

theorem covers_tokens (table : ConstantTable) (v : Quantity) : table.Covers v.tokens := by
  intro name h
  rcases Quantity.of_mem_tokens h with heq | heq | ⟨text, heq⟩ <;> cases heq

theorem covers_of_tokenize (h : Lexer.tokenize table.names formula = .ok tokens) :
    table.Covers tokens := by
  intro name hname
  exact table.isSome_value?_iff.2 (Lexer.named_mem_of_tokenize h hname)

/-! ## Evaluation -/

/-- A canonical line has a value, or fails because of the values it meets. -/
theorem safe_value_of_ofTokens (hline : Canonical.ofTokens answer tokens inGroup op = .ok line)
    (htokens : table.Covers tokens) (hanswer : table.Covers answer) (unit : AngleUnit) :
    Run.Safe (line.value unit table) fun _ => True := by
  have hknown := Canonical.covers_of_ofTokens hline htokens hanswer
  rcases Canonical.ofTokens_shaped hline with rfl | ⟨hshaped, hcommas⟩
  · exact (Run.safe_settle .zero : Run.Safe (Run.settle .zero) _)
  · exact hshaped.safe_value unit hcommas hknown

theorem kind_of_run_value (hline : Canonical.ofTokens answer tokens inGroup op = .ok line)
    (htokens : table.Covers tokens) (hanswer : table.Covers answer) {unit : AngleUnit}
    {trail : Trail} (hf : (line.value unit table).run trail = .error f) : f.kind = .math := by
  have hsafe := safe_value_of_ofTokens hline htokens hanswer unit trail
  rw [Run.Ends, hf] at hsafe
  exact hsafe

theorem kind_of_evaluate (h : c.evaluate formula = .error f) :
    f.kind = .formula ∨ f.kind = .math := by
  rw [evaluate] at h
  rcases Except.of_bind_eq_error h with hf | ⟨tokens, htokens, h⟩
  · exact .inl (Lexer.kind_of_tokenize hf)
  rcases Except.of_bind_eq_error h with hf | ⟨answer, hanswer, h⟩
  · exact .inl (Lexer.kind_of_tokenize hf)
  rw [answerTokens_eq] at hanswer
  cases hanswer
  rcases Except.of_bind_eq_error h with hf | ⟨line, hline, h⟩
  · have hnone := answer_notMem_tokens c.answer
    exact .inl (Canonical.failsAsFormula_ofTokens hnone tokens false none f hf)
  rcases Except.of_bind_eq_error h with hf | ⟨r, -, h⟩
  · exact .inr (kind_of_run_value hline (covers_of_tokenize htokens)
      (covers_tokens c.constants c.answer) hf)
  · cases h

theorem kind_of_value (h : c.value formula = .error f) : f.kind = .formula ∨ f.kind = .math := by
  cases hevaluate : c.evaluate formula with
  | error g =>
    rw [value, hevaluate] at h
    cases h
    exact kind_of_evaluate hevaluate
  | ok e =>
    rw [value, hevaluate] at h
    cases h

/-! ## On tokens -/

theorem exists_line_of_normalizeTokens
    (h : Canonical.normalizeTokens answer tokens inGroup op = .ok canonical) :
    ∃ line, Canonical.ofTokens answer tokens inGroup op = .ok line ∧ line.toTokens = canonical := by
  rw [Canonical.normalizeTokens_eq] at h
  cases hline : Canonical.ofTokens answer tokens inGroup op with
  | error f =>
    rw [hline] at h
    cases h
  | ok line =>
    rw [hline] at h
    cases h
    exact ⟨line, rfl, rfl⟩

theorem kind_of_normalizeTokens (hnone : .key .answer ∉ answer)
    (h : Canonical.normalizeTokens answer tokens inGroup op = .error f) : f.kind = .formula := by
  rw [Canonical.normalizeTokens_eq] at h
  cases hline : Canonical.ofTokens answer tokens inGroup op with
  | error g =>
    rw [hline] at h
    cases h
    exact Canonical.failsAsFormula_ofTokens hnone tokens inGroup op _ hline
  | ok line =>
    rw [hline] at h
    cases h

theorem tokensValue_of_ofTokens (hline : Canonical.ofTokens answer tokens inGroup op = .ok line)
    (htokens : table.Covers tokens) (hanswer : table.Covers answer) (unit : AngleUnit) :
    tokensValue unit table line.toTokens = line.value unit table :=
  tokensValue_toTokens unit (Canonical.ofTokens_shaped hline)
    (Canonical.covers_of_ofTokens hline htokens hanswer)

/-- A formula is evaluated by position as it is in its line. -/
theorem evaluateTokens_eq (c : Calculator) (formula : String) :
    c.evaluateTokens formula = c.evaluate formula := by
  rw [evaluateTokens, evaluate, answerTokens_eq]
  cases htokens : Lexer.tokenize c.constants.names formula with
  | error f => rfl
  | ok tokens =>
    simp only [bind, Except.bind, Canonical.normalizeTokens_eq, Canonical.ofFormula]
    cases hline : Canonical.ofTokens c.answer.tokens tokens false none with
    | error f => rfl
    | ok line =>
      have hvalue := tokensValue_of_ofTokens hline (covers_of_tokenize htokens)
        (covers_tokens c.constants c.answer) c.settings.angleUnit
      simp only [Functor.map, Except.map, hvalue]

/-- A formula has a value, is refused as badly typed, or fails because of its values. Every look-up
is defined while an accepted line is evaluated, whatever the run has gathered before. This holds of
the line and, with every right parenthesis and comma looked up by position, of its tokens. -/
theorem evaluate_not_internal (c : Calculator) (formula : String) :
    (∀ f, c.evaluate formula = .error f → f.kind = .formula ∨ f.kind = .math) ∧
    (∀ f, c.value formula = .error f → f.kind = .formula ∨ f.kind = .math) ∧
    (∀ answer tokens inGroup op line, Canonical.ofTokens answer tokens inGroup op = .ok line →
      c.constants.Covers tokens → c.constants.Covers answer →
      ∀ trail f, (line.value c.settings.angleUnit c.constants).run trail = .error f →
        f.kind = .math) ∧
    c.evaluateTokens formula = c.evaluate formula ∧
    ∀ answer tokens inGroup op,
      (.key .answer ∉ answer → ∀ f,
        Canonical.normalizeTokens answer tokens inGroup op = .error f → f.kind = .formula) ∧
      ∀ canonical, Canonical.normalizeTokens answer tokens inGroup op = .ok canonical →
        (∃ p, Pairing.ofTokens canonical = .ok p ∧ p.missing = 0 ∧ p.Matches canonical ∧
          p.FindsGroups canonical) ∧
        (c.constants.Covers tokens → c.constants.Covers answer →
          ∀ trail f, (tokensValue c.settings.angleUnit c.constants canonical).run trail = .error f →
            f.kind = .math) := by
  refine ⟨fun f => kind_of_evaluate, fun f => kind_of_value, ?_, evaluateTokens_eq c formula, ?_⟩
  · intro answer tokens inGroup op line hline htokens hanswer trail f
    exact kind_of_run_value hline htokens hanswer
  · intro answer tokens inGroup op
    refine ⟨fun hnone f => kind_of_normalizeTokens hnone, fun canonical hcanonical => ?_⟩
    obtain ⟨line, hline, rfl⟩ := exists_line_of_normalizeTokens hcanonical
    have hpaired := Pairing.ofTokens_toTokens line
    have hmatches : Pairing.Matches ⟨line.pairs 0, 0⟩ line.toTokens := by
      simpa using Pairing.matches_of_ofTokens hpaired
    refine ⟨⟨_, hpaired, rfl, hmatches, hmatches.findsGroups⟩, ?_⟩
    intro htokens hanswer trail f hf
    rw [tokensValue_of_ofTokens hline htokens hanswer] at hf
    exact kind_of_run_value hline htokens hanswer hf

/-- The tokens of `log(2,0)`. -/
def zeroLogarithm : List Token :=
  [.key (.operation .log), .left, .key (.literal "2"), .key .comma, .key (.literal "0"), .right]

/-- The logarithm of zero is looked up by position, and fails for its value. -/
theorem evaluate_not_internal_zero_logarithm :
    Canonical.normalizeTokens [] zeroLogarithm false none = .ok zeroLogarithm ∧
      ∃ f, (tokensValue .degree {} zeroLogarithm).run {} = .error f ∧ f.kind = .math := by
  have hline : Canonical.ofTokens [] zeroLogarithm false none = .ok (.key (.operation .log) (.group
      (.key (.literal "2") (.key .comma (.key (.literal "0") .nil))) .nil)) := by decide +kernel
  have htokens : ConstantTable.Covers {} zeroLogarithm := by
    simp [ConstantTable.Covers, zeroLogarithm]
  have hanswer : ConstantTable.Covers {} [] := by simp [ConstantTable.Covers]
  have hcanonical : Canonical.normalizeTokens [] zeroLogarithm false none = .ok zeroLogarithm := by
    rw [Canonical.normalizeTokens_eq, hline]
    rfl
  have hvalue : (tokensValue .degree {} zeroLogarithm).run {} = .error (.notPositive .log) := by
    have heq := tokensValue_of_ofTokens hline htokens hanswer .degree
    refine (congrArg (fun m : Run Quantity => m.run {}) heq).trans ?_
    decide +kernel
  refine ⟨hcanonical, _, hvalue, ?_⟩
  exact (((evaluate_not_internal {} "").2.2.2.2 [] zeroLogarithm false none).2 _ hcanonical).2
    htokens hanswer {} _ hvalue

end Calculator

end Keypad
