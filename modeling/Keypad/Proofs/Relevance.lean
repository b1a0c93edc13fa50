import Keypad.Proofs.Evaluation.Relevance
import Keypad.Proofs.Evaluation.Safety
import Keypad.Proofs.LongestMatch

/-!
# What an evaluation depends on

Two calculators that agree on what a formula mentions evaluate it alike. A formula mentions the
names that occur in its text, whether or not they become tokens of their own: a constant is cut out
only where its name is typed. It mentions the previous answer if `Ans` is one of its tokens, and the
unit of angles if a trigonometric operation is. The style of fractions is never read.
-/

namespace Keypad

/-! ## Cutting with other names -/

namespace Lexer

variable {names names' : List String} {literal cs : List Char} {t u : Token}

/-- Tokens of one length that are typed at the start of one text are typed alike. -/
theorem text_eq_of_length_eq (ht : t.text.toList <+: cs) (hu : u.text.toList <+: cs)
    (hlength : t.text.length = u.text.length) : t.text = u.text := by
  rw [← String.length_toList, ← String.length_toList] at hlength
  apply String.toList_inj.1
  exact (List.prefix_of_prefix_length_le ht hu hlength.le).eq_of_length hlength

/-- What is typed at the start of a text is a token with either list of names. -/
theorem mem_vocabulary_of_front (h : ∀ name, name.toList <+: cs → (name ∈ names ↔ name ∈ names'))
    (ht : t ∈ vocabulary names) (hfront : t.text.toList <+: cs) : t ∈ vocabulary names' := by
  rcases List.mem_append.1 ht with hfixed | hnamed
  · exact List.mem_append_left _ hfixed
  · obtain ⟨name, hname, rfl⟩ := List.mem_map.1 hnamed
    exact List.mem_append_right _ (List.mem_map_of_mem ((h name hfront).1 hname))

/-- The longest token is the best of the keypad, or a name that is longer than that one. -/
theorem longest?_eq_some_or (h : longest? names cs = some t) :
    Token.fixed.foldl (longer cs) none = some t ∨
      (∃ name, t = .key (.constant (.named name))) ∧
        ∀ b ∈ Token.fixed.foldl (longer cs) none, b.text.length < t.text.length := by
  rw [longest?, vocabulary, List.foldl_append] at h
  rcases foldl_longer_eq_some h with hkeypad | ⟨⟨hname, -⟩, hlonger⟩
  · exact .inl hkeypad
  · obtain ⟨name, -, rfl⟩ := List.mem_map.1 hname
    exact .inr ⟨⟨name, rfl⟩, hlonger⟩

theorem longest?_congr (h : ∀ name, name.toList <+: cs → (name ∈ names ↔ name ∈ names')) :
    longest? names cs = longest? names' cs := by
  have h' : ∀ name, name.toList <+: cs → (name ∈ names' ↔ name ∈ names) :=
    fun name hfront => (h name hfront).symm
  cases ht : longest? names cs with
  | none =>
    refine (longest?_eq_none fun u hu hfront => ?_).symm
    exact (foldl_longer_eq_none ht).2 u (mem_vocabulary_of_front h' hu hfront) hfront
  | some t =>
    obtain ⟨htknown, htfront⟩ := longest?_eq_some ht
    have ht' := mem_vocabulary_of_front h htknown htfront
    cases hu : longest? names' cs with
    | none => exact absurd htfront ((foldl_longer_eq_none hu).2 t ht')
    | some u =>
      obtain ⟨huknown, hufront⟩ := longest?_eq_some hu
      have hu' := mem_vocabulary_of_front h' huknown hufront
      have hlength : t.text.length = u.text.length :=
        le_antisymm ((foldl_longer_monotone hu).2 t ht' htfront)
          ((foldl_longer_monotone ht).2 u hu' hufront)
      -- A name that wins is longer than the best of the keypad, so only two names can be as long.
      rcases longest?_eq_some_or ht with htkeypad | ⟨⟨name, rfl⟩, htlonger⟩
      · rcases longest?_eq_some_or hu with hukeypad | ⟨-, hulonger⟩
        · exact htkeypad.symm.trans hukeypad
        · exact absurd (hulonger t htkeypad) (by omega)
      · rcases longest?_eq_some_or hu with hukeypad | ⟨⟨name', rfl⟩, -⟩
        · exact absurd (htlonger u hukeypad) (by omega)
        · have hname : name = name' := text_eq_of_length_eq htfront hufront hlength
          rw [hname]

theorem next?_congr (h : ∀ name, name.toList <+: cs → (name ∈ names ↔ name ∈ names'))
    (literal : List Char) : next? names literal cs = next? names' literal cs := by
  rw [next?, next?, longest?_congr h]

/-- A text is cut alike with the same names among those that occur in it. -/
theorem cut_congr (h : ∀ name, name.toList <:+: cs → (name ∈ names ↔ name ∈ names')) :
    cut names literal cs = cut names' literal cs := by
  fun_induction cut names literal cs with
  | case1 literal => rw [cut]
  | case2 literal c cs t ht ih =>
    have hdrop : cs.drop (t.text.length - 1) <:+: c :: cs :=
      ((List.drop_suffix _ _).trans (List.suffix_cons _ _)).isInfix
    rw [next?_congr fun name hname => h name hname.isInfix] at ht
    rw [ih fun name hname => h name (hname.trans hdrop), cut, ht]
  | case3 literal c cs hnone ih =>
    have htail : cs <:+: c :: cs := (List.suffix_cons _ _).isInfix
    rw [next?_congr fun name hname => h name hname.isInfix] at hnone
    rw [ih fun name hname => h name (hname.trans htail), cut, hnone]

theorem tokenize_congr {formula : String}
    (h : ∀ name, name.toList <:+: Text.squeeze formula.toList → (name ∈ names ↔ name ∈ names')) :
    tokenize names formula = tokenize names' formula := by
  rw [tokenize, tokenize, cut_congr h]

end Lexer

/-! ## A canonical line with another answer -/

namespace Canonical

/-- Tokens without `Ans` have the same canonical line with any previous answer. -/
theorem ofFormula_congr {answer answer' tokens : List Token}
    (h : .key .answer ∈ tokens → answer = answer') :
    ofFormula answer tokens = ofFormula answer' tokens := by
  rw [ofFormula, ofFormula, ofTokens, ofTokens, fill_congr fun hmem => by rw [h hmem]]

end Canonical

namespace Calculator

/-- Two calculators agree on what a formula mentions: on the names that occur in its text, on the
previous answer if it is referred to, and on the unit of angles if a trigonometric operation is
typed. -/
structure Agree (c c' : Calculator) (formula : String) : Prop where
  constants : ∀ name, name.toList <:+: Text.squeeze formula.toList →
    c.constants.value? name = c'.constants.value? name
  answer : ∀ tokens, Lexer.tokenize c.constants.names formula = .ok tokens →
    .key .answer ∈ tokens → c.answer = c'.answer
  unit : ∀ tokens, Lexer.tokenize c.constants.names formula = .ok tokens →
    ∀ op, .key (.operation op) ∈ tokens → op.isTrigonometric →
      c.settings.angleUnit = c'.settings.angleUnit

variable {c c' : Calculator} {formula : String}

theorem Agree.tokenize_eq (h : Agree c c' formula) :
    Lexer.tokenize c.constants.names formula = Lexer.tokenize c'.constants.names formula := by
  apply Lexer.tokenize_congr
  intro name hname
  rw [← ConstantTable.isSome_value?_iff, h.constants name hname, ConstantTable.isSome_value?_iff]

/-- The canonical line names and applies only what was typed: a previous answer names no constant
and applies no operation. -/
theorem Agree.value_eq (h : Agree c c' formula) {tokens : List Token}
    (htokens : Lexer.tokenize c.constants.names formula = .ok tokens) {line : Line}
    (hline : Canonical.ofFormula c.answer.tokens tokens = .ok line) :
    line.value c.settings.angleUnit c.constants
      = line.value c'.settings.angleUnit c'.constants := by
  apply Line.value_congr
  · intro name hname
    rcases Canonical.of_mem_ofTokens hline hname with hwritten | hmem | hmem
    · cases hwritten
    · rcases Lexer.tokenize_eq_ok htokens hmem with ⟨text, hliteral⟩ | ⟨-, hoccurs⟩
      · cases hliteral
      · exact h.constants name hoccurs
    · rcases Quantity.of_mem_tokens hmem with heq | heq | ⟨text, heq⟩ <;> cases heq
  · intro op hop htrig
    rcases Canonical.of_mem_ofTokens hline hop with hwritten | hmem | hmem
    · cases op with
      | ratio r => cases hwritten
      | arc r => cases hwritten
      | _ => cases htrig
    · exact h.unit tokens htokens op hmem htrig
    · rcases Quantity.of_mem_tokens hmem with heq | heq | ⟨text, heq⟩ <;> cases heq

/-- The evaluation of a formula depends only on what the formula mentions, whether it succeeds or
fails. -/
theorem evaluate_eq_of_agree (h : Agree c c' formula) :
    c.evaluate formula = c'.evaluate formula ∧ c.value formula = c'.value formula := by
  have hevaluate : c.evaluate formula = c'.evaluate formula := by
    rw [evaluate, evaluate, answerTokens_eq, answerTokens_eq, ← h.tokenize_eq]
    cases htokens : Lexer.tokenize c.constants.names formula with
    | error f => rfl
    | ok tokens =>
      have hcanonical : Canonical.ofFormula c.answer.tokens tokens
          = Canonical.ofFormula c'.answer.tokens tokens :=
        Canonical.ofFormula_congr fun hmem => by rw [h.answer tokens htokens hmem]
      cases hline : Canonical.ofFormula c.answer.tokens tokens with
      | error f => simp only [← hcanonical, hline, bind, Except.bind]
      | ok line =>
        simp only [← hcanonical, hline, h.value_eq htokens hline, bind, Except.bind]
  exact ⟨hevaluate, by rw [value, value, hevaluate]⟩

/-- A calculator with the constant `v`. -/
def plain : Calculator := { constants := ⟨[("v", ⟨9, 1⟩)]⟩ }

/-- One with another constant beside `v`, a huge previous answer and another style of fractions. -/
def crowded : Calculator :=
  ⟨⟨.degree, .mixed⟩, .approx ⟨1, 20000000⟩, ⟨[("sv", ⟨7, 0⟩), ("v", ⟨9, 1⟩)]⟩⟩

/-- Both give `sin(v)` the sine of 90 degrees. -/
theorem evaluate_eq_of_agree_sine :
    Agree plain crowded "sin(v)" ∧ plain.evaluate "sin(v)" = crowded.evaluate "sin(v)" ∧
      plain.value "sin(v)" = crowded.value "sin(v)" ∧
      crowded.value "sin(v)" = .ok (.approx .one) := by
  have hsqueeze : Text.squeeze "sin(v)".toList = ['s', 'i', 'n', '(', 'v', ')'] := by decide
  have hagree : Agree plain crowded "sin(v)" := by
    refine ⟨fun name hname => ?_, fun tokens htokens hmem => ?_, fun _ _ _ _ _ => rfl⟩
    · have hne : name ≠ "sv" := by
        rintro rfl
        rw [hsqueeze] at hname
        revert hname
        decide
      exact ((ConstantTable.lookup_entry "sv" _ _ name).trans (if_neg hne)).symm
    · rcases Lexer.tokenize_eq_ok htokens hmem with ⟨text, hliteral⟩ | ⟨-, hoccurs⟩
      · cases hliteral
      · rw [hsqueeze] at hoccurs
        revert hoccurs
        decide
  obtain ⟨hevaluate, hvalue⟩ := evaluate_eq_of_agree hagree
  have hplain : plain.value "sin(v)" = .ok (.approx .one) := by decide +kernel
  exact ⟨hagree, hevaluate, hvalue, hvalue.symm.trans hplain⟩

end Calculator

end Keypad
