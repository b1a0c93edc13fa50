import Keypad.Proofs.Typing.Symbols

/-!
# Texts that are replaced from some symbol on

A character that occurs in no word but its own ends whatever is typed before it. What the text
before it is cut into, therefore, does not depend on what stands there instead: tokens may be
replaced by others from some point on, if the new ones start with such a character.
-/

namespace Keypad.Lexer

variable {names : List String} {formula : String} {literal cs w text rest : List Char} {d : Char}
variable {t u : Token} {tokens pre post post' : List Token}

/-- The character is typed in no token but as the only character of one. -/
def Severs (names : List String) (d : Char) : Prop :=
  ∀ u ∈ vocabulary names, d ∈ u.text.toList → u.text.toList = [d]

/-- A character severs that is no letter and stands alone in the words of the keypad. -/
theorem severs_of_fixed (hnames : ∀ name ∈ names, ConstantTable.checkName name = .ok ())
    (hletter : d.isAlpha = false)
    (halone : ∀ u ∈ Token.fixed, d ∈ u.text.toList → u.text.toList = [d]) : Severs names d := by
  intro u hu hmem
  rcases List.mem_append.1 hu with hfixed | hnamed
  · exact halone u hfixed hmem
  · obtain ⟨name, hname, rfl⟩ := List.mem_map.1 hnamed
    have hall := (ConstantTable.letters_of_checkName (hnames name hname)).2.1 d hmem
    rw [hletter] at hall
    cases hall

theorem Severs.prefix_of_prefix (hd : Severs names d) (hu : u ∈ vocabulary names) (hw : w ≠ [])
    (h : u.text.toList <+: w ++ d :: rest) : u.text.toList <+: w := by
  rcases le_total u.text.toList.length w.length with hle | hle
  · exact List.prefix_of_prefix_length_le h (List.prefix_append _ _) hle
  · obtain ⟨back, hback⟩ := List.prefix_of_prefix_length_le (List.prefix_append w (d :: rest)) h hle
    cases back with
    | nil =>
      rw [List.append_nil] at hback
      exact hback ▸ List.prefix_refl _
    | cons e back =>
      -- The word goes on with the character, so it is that character, which stands behind `w`.
      rw [← hback, List.prefix_append_right_inj] at h
      obtain rfl := (List.cons_prefix_cons.1 h).1
      have halone := hd u hu (by simp [← hback])
      rw [← hback] at halone
      cases w with
      | nil => exact absurd rfl hw
      | cons f w => simp at halone

theorem IsLongest.replace (hd : Severs names d) (h : IsLongest names t (t.text.toList ++ w ++ cs))
    (hne : t.text.toList ≠ []) : IsLongest names t (t.text.toList ++ w ++ d :: rest) where
  known := h.known
  front := (List.prefix_append _ _).trans (List.prefix_append _ _)
  longest u hu hfront := by
    have hfront := hd.prefix_of_prefix hu (by simp [hne]) hfront
    exact h.longest u hu (hfront.trans (List.prefix_append _ _))

theorem Inert.replace (hd : Severs names d) (h : Inert names text (w ++ cs)) :
    Inert names text (w ++ d :: rest) := by
  intro front c back hsplit u hu hfront
  rw [← List.append_assoc] at hfront
  have hfront := hd.prefix_of_prefix hu (by simp) hfront
  refine h front c back hsplit u hu ?_
  rw [← List.append_assoc]
  exact hfront.trans (List.prefix_append _ _)

theorem IsCut.of_append (h : IsCut names cs (pre ++ post)) :
    IsCut names (Token.joined post) post := by
  induction pre generalizing cs with
  | nil =>
    rw [List.nil_append] at h
    exact h.joined ▸ h
  | cons t pre ih => exact ih h.tail

/-- Tokens are replaced from some point on. -/
theorem IsCut.replace (hnames : ∀ name ∈ names, ConstantTable.checkName name = .ok ())
    (hd : Severs names d) (h : IsCut names cs (pre ++ post)) (hpost : IsCut names (d :: rest) post')
    (hhead : ∀ u ∈ post'.head?, ¬u.isLiteral) :
    IsCut names (Token.joined pre ++ d :: rest) (pre ++ post') := by
  induction pre generalizing cs with
  | nil => exact hpost
  | cons t pre ih =>
    rw [List.cons_append] at h
    have hrest := ih h.tail
    rw [Token.joined_cons, List.append_assoc]
    by_cases hliteral : t.isLiteral
    · obtain ⟨text, rfl⟩ := Token.exists_of_isLiteral hliteral
      have hne : text ≠ "" := by
        rintro rfl
        exact h.nonempty List.mem_cons_self
      have hnext : ∀ u ∈ (pre ++ post').head?, ¬u.isLiteral := by
        intro u hu hboth
        cases pre with
        | nil => exact hhead u hu hboth
        | cons v pre =>
          obtain rfl := Option.some.inj hu
          exact h.separate.rel ⟨rfl, hboth⟩
      have hinert := h.inert text _ (List.suffix_refl _)
      rw [Token.joined_append] at hinert
      exact hrest.literal_cons hne hnext (hinert.replace hd)
    · have hlongest := h.longest t _ (List.suffix_refl _) hliteral
      rw [Token.joined_cons, Token.joined_append, ← List.append_assoc] at hlongest
      have hne := text_ne_nil_of_mem_vocabulary hnames hlongest.known
      have hreplaced : IsLongest names t (t.text.toList ++ Token.joined pre ++ d :: rest) :=
        hlongest.replace hd hne
      rw [List.append_assoc] at hreplaced
      exact hrest.token_cons hliteral hreplaced

/-- A minus sign behind an open literal would have been read as a part of it. -/
abbrev Admits (t u : Token) : Prop := t.isOpen → u ≠ .key .minus

theorem isChain_gathered (htokens : tokens.IsChain Admits)
    (h : literal.head? = some 'E' → ∀ u ∈ tokens.head?, u ≠ .key .minus) :
    (gathered literal ++ tokens).IsChain Admits := by
  cases literal with
  | nil => exact htokens
  | cons c literal =>
    refine htokens.cons fun u hu hopen => h ?_ u hu
    simpa [Token.isOpen, ← List.head?_reverse] using hopen

theorem isChain_cut (names : List String) (literal cs : List Char) :
    (cut names literal cs).IsChain Admits := by
  fun_induction cut names literal cs with
  | case1 literal =>
    rw [← List.append_nil (gathered literal)]
    exact isChain_gathered .nil (by simp)
  | case2 literal c cs t ht ih =>
    have hnot := not_isLiteral_of_mem_vocabulary (longest?_eq_some (longest?_of_next? ht)).1
    refine isChain_gathered (ih.cons fun u _ hopen => ?_) fun hE u hu => ?_
    · exact absurd (Token.isLiteral_of_isOpen hopen) hnot
    · obtain rfl := Option.some.inj hu
      rintro rfl
      obtain ⟨-, rest, hrest⟩ := longest?_eq_some (longest?_of_next? ht)
      obtain rfl : '-' = c := (List.cons_eq_cons.1 hrest).1
      simp [next?, hE] at ht
  | case3 literal c cs hnone ih => exact ih

theorem IsChain.replace (h : (pre ++ post).IsChain Admits) (hpost : post'.IsChain Admits)
    (hhead : ∀ u ∈ post'.head?, u ≠ .key .minus) : (pre ++ post').IsChain Admits :=
  List.isChain_append.2 ⟨(List.isChain_append.1 h).1, hpost, fun _ _ u hu _ => hhead u hu⟩

theorem eq_cut_of_tokenize (h : tokenize names formula = .ok tokens) :
    tokens = cut names [] (Text.squeeze formula.toList) := by
  simp only [tokenize] at h
  split at h
  · next hempty =>
    cases h
    rw [List.isEmpty_iff.1 hempty, cut]
    rfl
  · split at h
    · cases h
    · cases h
      rfl

/-- The tokens of a formula are the cut of its text, and the only one. -/
theorem isCut_tokens (hnames : ∀ name ∈ names, ConstantTable.checkName name = .ok ())
    (h : tokenize names formula = .ok tokens) :
    IsCut names (Text.squeeze formula.toList) tokens ∧ tokens.IsChain Admits := by
  have hstart : Inert names (List.reverse []) (Text.squeeze formula.toList) := inert_nil _ _
  rw [eq_cut_of_tokenize h]
  exact ⟨isCut_cut hnames hstart, isChain_cut _ _ _⟩

end Keypad.Lexer
