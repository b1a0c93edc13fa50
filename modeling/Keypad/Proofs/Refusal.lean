import Keypad.Proofs.Canonical.Operands
import Keypad.Proofs.Typing.Replacement

/-!
# Refused texts and the grammar

A text is refused before it is cut where a formula seems to lack an operand. The characters that are
looked at do not tell the tokens: a minus sign may belong to a literal, and a letter to the name of
a constant. Still, the grammar refuses whatever such a text is cut into. The one exception is a
point right behind a parenthesis, which may begin a literal.
-/

namespace Keypad.Lexer

variable {names : List String} {cs pre post : List Char} {d : Char} {s : String}
variable {t u : Token} {tokens : List Token}

/-! ## Characters of a text in its cut -/

/-- The token `u` stands among the tokens, or a minus sign in a literal does, with the text `post`
behind it. -/
inductive Stands (u : Token) : List Char → List Token → Prop where
  | token (before after : List Token) : Stands u (Token.joined after) (before ++ u :: after)
  | sign (before : List Token) {after : List Token} {text : String} {front back : List Char} :
    text.toList = front ++ '-' :: back →
    Stands u (back ++ Token.joined after) (before ++ .key (.literal text) :: after)

theorem Stands.cons (h : Stands u post tokens) (t : Token) : Stands u post (t :: tokens) := by
  cases h with
  | token before after => exact .token (t :: before) after
  | sign before htext => exact .sign (t :: before) htext

section Names

variable (hnames : ∀ name ∈ names, ConstantTable.checkName name = .ok ())
include hnames

/-- The longest token at the start of a text is the first one of the cut. -/
theorem IsCut.exists_cons (h : IsCut names cs tokens) (hu : IsLongest names u cs) :
    ∃ after, tokens = u :: after := by
  have hcs := h.joined
  cases tokens with
  | nil =>
    rw [← hcs] at hu
    exact absurd (List.prefix_nil.1 hu.front) (text_ne_nil_of_mem_vocabulary hnames hu.known)
  | cons t after =>
    by_cases hliteral : t.isLiteral
    · obtain ⟨text, rfl⟩ := Token.exists_of_isLiteral hliteral
      obtain ⟨c, back, htext⟩ := List.exists_cons_of_ne_nil (h.text_ne_nil hnames)
      have hfront := hu.front
      rw [← hcs, Token.joined_cons, htext] at hfront
      obtain ⟨-, hlast⟩ := h.inert text after (List.suffix_refl _) [] c back htext u hu.known hfront
      cases hlast
    · have ht := h.longest t after (List.suffix_refl _) hliteral
      rw [hcs] at ht
      have hsame := (longest?_of_isLongest hnames ht).symm.trans (longest?_of_isLongest hnames hu)
      exact ⟨after, by rw [Option.some.inj hsame]⟩

/-- Where a character that severs is typed, its token is cut, or it is a minus sign in a literal. -/
theorem IsCut.stands (hd : Severs names d) (hu : u ∈ vocabulary names)
    (htext : u.text.toList = [d]) (h : IsCut names cs tokens) (hcs : cs = pre ++ d :: post) :
    Stands u post tokens := by
  induction tokens generalizing cs pre with
  | nil =>
    rw [← h.joined] at hcs
    simp at hcs
  | cons t ts ih =>
    have hsplit := h.joined.trans hcs
    rw [Token.joined_cons] at hsplit
    -- The character stands behind the first token or in it.
    rcases List.append_eq_append_iff.1 hsplit with ⟨mid, -, hmid⟩ | ⟨back, ht, hback⟩
    · exact (ih h.tail hmid).cons t
    · cases back with
      | nil =>
        have hlater : Token.joined ts = [] ++ d :: post := hback.symm
        exact (ih h.tail hlater).cons t
      | cons e back =>
        obtain ⟨rfl, rfl⟩ := List.cons_eq_cons.1 hback
        by_cases hliteral : t.isLiteral
        · obtain ⟨text, rfl⟩ := Token.exists_of_isLiteral hliteral
          have hfront : u.text.toList <+: d :: back ++ Token.joined ts := by simp [htext]
          obtain ⟨rfl, -⟩ := h.inert text ts (List.suffix_refl _) pre d back ht u hu hfront
          exact .sign [] ht
        · have hknown := (h.longest t ts (List.suffix_refl _) hliteral).known
          have halone := hd t hknown (by simp [ht])
          obtain rfl : u = t := by
            refine eq_of_text_eq hnames hknown hu (String.toList_inj.1 ?_)
            rw [htext, halone]
          obtain ⟨rfl, rfl⟩ : pre = [] ∧ back = [] := by
            rw [htext] at ht
            cases pre <;> simp_all
          exact .token [] ts

/-! ## Operands that are missing -/

/-- A word of the keypad that needs an operand is the longest where it stands. -/
theorem isLongest_of_needsOperand (hu : u ∈ Token.fixed) (hneeds : u.needsOperand)
    (h : u.text.toList <+: cs) : IsLongest names u cs := by
  have hwords : ∀ u ∈ Token.fixed, u.needsOperand →
      u ∈ Token.symbols ∨ u = .key (.operation .nthRoot) := by decide
  obtain ⟨rest, rfl⟩ := h
  rcases hwords u hu hneeds with hsymbol | rfl
  · exact isLongest_symbol hnames hsymbol rest
  · exact isLongest_nthRoot hnames rest

/-- A formula does not start with a word that needs an operand. -/
theorem IsCut.not_supported_of_prefix (h : IsCut names cs tokens) (hu : u ∈ Token.fixed)
    (hneeds : u.needsOperand) (hfront : u.text.toList <+: cs) : ¬Token.Supported tokens := by
  intro hsupported
  obtain ⟨after, rfl⟩ := h.exists_cons hnames (isLongest_of_needsOperand hnames hu hneeds hfront)
  rw [hsupported.first] at hneeds
  cases hneeds

/-- Such a word does not stand behind a character that completes no operand. -/
theorem IsCut.not_supported_of_infix (h : IsCut names (pre ++ d :: post) tokens)
    (hd : Severs names d) (ht : t ∈ Token.fixed) (htext : t.text.toList = [d])
    (hopen : t.completes = false) (hu : u ∈ Token.fixed) (hneeds : u.needsOperand)
    (hfront : u.text.toList <+: post) : ¬Token.Supported tokens := by
  intro hsupported
  have hlongest := isLongest_of_needsOperand hnames hu hneeds hfront
  cases h.stands hnames hd (List.mem_append_left _ ht) htext rfl with
  | token before after =>
    obtain ⟨after, rfl⟩ := h.of_append.tail.exists_cons hnames hlongest
    rw [hsupported.neighbours hneeds] at hopen
    cases hopen
  | @sign before after text front back hliteral =>
    cases back with
    | nil =>
      -- The literal ends in the minus sign, so its exponent is missing.
      have hlast : text.toList.getLast? = some '-' := by rw [hliteral, List.getLast?_concat]
      have hcomplete : (Token.key (.literal text)).completes := by
        simp [Token.completes, Token.exponentBase?, hlast]
      obtain ⟨r, hr⟩ := Option.isSome_iff_exists.1 (hsupported.readable text (by simp) hcomplete)
      exact absurd (Literal.isMark_of_getLast? hr hlast) (by decide)
    | cons e back =>
      -- The word would start in the literal, and not behind an `E`.
      rw [← List.singleton_append, ← List.append_assoc] at hliteral
      obtain ⟨-, hE⟩ := h.inert text after (List.suffix_append _ _) _ e back hliteral u
        hlongest.known hfront
      rw [List.getLast?_concat] at hE
      cases hE

/-- A word that completes an operand may stand at the end of a formula. -/
theorem forbiddenEnds_ne_of_completes (ht : t ∈ vocabulary names) (h : t.completes) :
    ∀ s ∈ forbiddenEnds, s.toList.getLast? ≠ t.text.toList.getLast? := by
  rcases List.mem_append.1 ht with hfixed | hnamed
  · have hwords : ∀ t ∈ Token.fixed, t.completes → ∀ s ∈ forbiddenEnds,
        s.toList.getLast? ≠ t.text.toList.getLast? := by decide
    exact hwords t hfixed h
  · obtain ⟨name, hname, rfl⟩ := List.mem_map.1 hnamed
    obtain ⟨-, hletters, hlast⟩ := ConstantTable.letters_of_checkName (hnames name hname)
    have hends : ∀ s ∈ forbiddenEnds, s.toList.getLast?.any fun c =>
        decide (c.isAlpha → c = 'E') := by decide
    intro s hs hsame
    obtain ⟨c, hc, hE⟩ := (Option.any_eq_true _ _).1 (hends s hs)
    rw [hc] at hsame
    have hletter := hletters c (List.mem_of_getLast? hsame.symm)
    exact hlast (of_decide_eq_true hE hletter ▸ hsame.symm)

/-- A formula does not end in a character behind which an operand is missing. -/
theorem IsCut.not_supported_of_suffix (h : IsCut names cs tokens) (hs : s ∈ forbiddenEnds)
    (hsuffix : s.toList <:+ cs) : ¬Token.Supported tokens := by
  intro hsupported
  have hends : ∀ s ∈ forbiddenEnds, s.toList ≠ [] := by decide
  rcases List.eq_nil_or_concat' tokens with rfl | ⟨before, t, rfl⟩
  · exact absurd (hsupported.chain.rel rfl) (by decide)
  · have hcomplete := hsupported.last
    have hlast : s.toList.getLast? = t.text.toList.getLast? :=
      calc s.toList.getLast?
          = cs.getLast? := by
            obtain ⟨front, rfl⟩ := hsuffix
            rw [List.getLast?_append_of_ne_nil _ (hends s hs)]
        _ = (Token.joined before ++ t.text.toList).getLast? := by
            rw [← h.joined, Token.joined_append, Token.joined_cons, Token.joined_nil,
              List.append_nil]
        _ = t.text.toList.getLast? :=
            List.getLast?_append_of_ne_nil _ (h.of_append.text_ne_nil hnames)
    by_cases hliteral : t.isLiteral
    · obtain ⟨text, rfl⟩ := Token.exists_of_isLiteral hliteral
      exact forbiddenEnds_ne_literal (hsupported.readable text (by simp) hcomplete) s hs hlast
    · have hknown := (h.longest t [] (List.suffix_append _ _) hliteral).known
      exact forbiddenEnds_ne_of_completes hnames hknown hcomplete s hs hlast

/-! ## Refused texts -/

omit hnames in
/-- The texts that may not stand at the start are those of words that need an operand. -/
theorem exists_of_mem_forbiddenStarts :
    ∀ s ∈ forbiddenStarts, ∃ u ∈ Token.fixed, u.needsOperand ∧ u.text = s := by decide

/-- The characters of the keys behind which a rule finds an operand missing. -/
def openEnds : List Char := ['+', '-', '×', '÷', '/', '(']

omit hnames in
/-- Such a character stands in no other word, and its key completes no operand. -/
theorem exists_of_mem_openEnds : ∀ d ∈ openEnds,
    (d.isAlpha = false ∧ ∀ u ∈ Token.fixed, d ∈ u.text.toList → u.text.toList = [d]) ∧
      ∃ t ∈ Token.fixed, t.text.toList = [d] ∧ t.completes = false := by
  rw [← List.forall_iff_forall_mem]
  decide

omit hnames in
/-- But for a point behind a group, the rules refuse there what may not stand at the start. -/
theorem subset_of_mem_rules : ∀ rule ∈ rules, rule.failure ≠ .pointAfterGroup →
    rule.before ⊆ openEnds ∧ rule.after ⊆ forbiddenStarts := by decide

theorem IsCut.not_supported_of_occurs {rule : Rule} (h : IsCut names cs tokens)
    (hrule : rule ∈ rules) (hpoint : rule.failure ≠ .pointAfterGroup) (hoccurs : rule.occurs cs) :
    ¬Token.Supported tokens := by
  obtain ⟨hbefore, hafter⟩ := subset_of_mem_rules rule hrule hpoint
  obtain ⟨pre, d, post, rfl, hd, s, hs, hfront⟩ := exists_of_occurs hoccurs
  obtain ⟨⟨hletter, halone⟩, t, ht, htext, hopen⟩ := exists_of_mem_openEnds d (hbefore hd)
  obtain ⟨u, hu, hneeds, rfl⟩ := exists_of_mem_forbiddenStarts s (hafter hs)
  exact h.not_supported_of_infix hnames (severs_of_fixed hnames hletter halone) ht htext hopen hu
    hneeds hfront

theorem IsCut.not_supported_of_refusal? {f : Failure} (h : IsCut names cs tokens)
    (hf : refusal? cs = some f) (hpoint : f ≠ .pointAfterGroup) : ¬Token.Supported tokens := by
  rw [refusal?] at hf
  split at hf
  · next s hs =>
    obtain ⟨u, hu, hneeds, rfl⟩ := exists_of_mem_forbiddenStarts s (List.mem_of_find?_eq_some hs)
    have hfront := List.find?_some hs
    exact h.not_supported_of_prefix hnames hu hneeds (List.isPrefixOf_iff_prefix.1 hfront)
  · split at hf
    · next s hs =>
      have hend := List.find?_some hs
      exact h.not_supported_of_suffix hnames (List.mem_of_find?_eq_some hs)
        (List.isSuffixOf_iff_suffix.1 hend)
    · obtain ⟨rule, hrule, rfl⟩ := Option.map_eq_some_iff.1 hf
      have hoccurs := List.find?_some hrule
      exact h.not_supported_of_occurs hnames (List.mem_of_find?_eq_some hrule) hpoint hoccurs

end Names

/-- A text that is refused, but for a point behind a parenthesis, is cut into tokens that have no
canonical form, with any constants that were defined. -/
theorem exists_ofFormula_eq_error_of_refusal? {table : ConstantTable} (ht : table.Built)
    {f : Failure} (hf : refusal? cs = some f) (hpoint : f ≠ .pointAfterGroup)
    (answer : List Token) :
    ∃ g, Canonical.ofFormula answer (cut table.names [] cs) = .error g := by
  have hstart : Inert table.names (List.reverse []) cs := inert_nil _ _
  have hcut : IsCut table.names cs (cut table.names [] cs) := isCut_cut ht.valid hstart
  cases hform : Canonical.ofFormula answer (cut table.names [] cs) with
  | error g => exact ⟨g, rfl⟩
  | ok line =>
    have hne : cut table.names [] cs ≠ [] := by
      intro hnil
      have hempty := hcut.joined
      rw [hnil, Token.joined_nil] at hempty
      have hnone : refusal? [] = none := by decide
      rw [← hempty, hnone] at hf
      cases hf
    have hsupported := Canonical.supported_of_ofFormula hne hform
    exact absurd hsupported (hcut.not_supported_of_refusal? ht.valid hf hpoint)

/-- In `2E-×3Ev` the sign that is refused belongs to a literal. -/
theorem exists_ofFormula_eq_error_open_exponent :
    refusal? "2E-×3Ev".toList = some .signBeforeOperator ∧
      ∃ g, Canonical.ofFormula [] (cut ["Ev"] [] "2E-×3Ev".toList) = .error g := by
  have hEv : ConstantTable.empty.define "Ev" "2" = .ok ⟨[("Ev", ⟨2, 0⟩)]⟩ := by decide +kernel
  have hrefusal : refusal? "2E-×3Ev".toList = some .signBeforeOperator := by decide +kernel
  exact ⟨hrefusal, exists_ofFormula_eq_error_of_refusal? (ConstantTable.Built.empty.define hEv)
    hrefusal (by decide) []⟩

/-- The point in `(1).5` is refused, though it would begin a literal. -/
example : refusal? "(1).5".toList = some .pointAfterGroup ∧
    (Canonical.ofFormula [] (cut [] [] "(1).5".toList)).isOk := by decide +kernel

end Keypad.Lexer
