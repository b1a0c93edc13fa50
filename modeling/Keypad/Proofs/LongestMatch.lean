import Mathlib.Data.List.Nodup
import Keypad.Proofs.Evaluation.Canonical
import Keypad.Proofs.Typing

/-!
# Cutting by longest match

A text is cut greedily. Each token that is not a literal is the longest one typed where it stands,
among those of the keypad and the names of the constants. A literal takes the characters at which
no token starts, and the minus sign behind its `E`, at which one does.

Names may overlap with each other and with the words of the keypad (`s` and `sin`, `Ev` and the `E`
of an exponent). What names may not do is to be empty or to be a word of the keypad: the first keeps
every token moving forward, the second makes the longest token the only one of its length.
-/

namespace Keypad

theorem ConstantTable.Built.valid {t : ConstantTable} (ht : t.Built) : t.Valid := by
  induction ht with
  | empty => exact valid_empty
  | define _ h ih => exact ih.define h
  | erase _ name ih => exact ih.erase name

/-- Is the token a literal? -/
def Token.isLiteral : Token → Bool
  | key (.literal _) => true
  | _ => false

namespace Lexer

/-! ## The longest token at the start of a text -/

/-- Of the tokens typed at the start of `cs`, every other one is shorter than `t`, in characters as
well as in bytes. -/
structure IsLongest (names : List String) (t : Token) (cs : List Char) : Prop where
  known : t ∈ vocabulary names
  front : t.text.toList <+: cs
  longest : ∀ u ∈ vocabulary names, u.text.toList <+: cs →
    u = t ∨ u.text.length < t.text.length ∧ u.text.utf8ByteSize < t.text.utf8ByteSize

variable {names : List String} {literal cs : List Char} {t u : Token} {tokens : List Token}

theorem longer_monotone {best : Option Token} {a : Token} (h : longer cs best a = some t) :
    (∀ b, best = some b → b.text.length ≤ t.text.length) ∧
      (a.text.toList <+: cs → a.text.length ≤ t.text.length) := by
  rw [longer] at h
  split at h
  · next hif =>
    cases h
    refine ⟨?_, fun _ => le_rfl⟩
    rintro b rfl
    exact (of_decide_eq_true (Bool.and_eq_true_iff.1 hif).2).le
  · next hif =>
    subst h
    refine ⟨by rintro b ⟨⟩; rfl, fun hfront => ?_⟩
    by_contra hlonger
    exact hif (Bool.and_eq_true_iff.2 ⟨List.isPrefixOf_iff_prefix.2 hfront, by simpa using hlonger⟩)

theorem foldl_longer_monotone {ts : List Token} {best : Option Token}
    (h : ts.foldl (longer cs) best = some t) :
    (∀ b, best = some b → b.text.length ≤ t.text.length) ∧
      ∀ u ∈ ts, u.text.toList <+: cs → u.text.length ≤ t.text.length := by
  induction ts generalizing best with
  | nil =>
    cases h
    exact ⟨by rintro b ⟨⟩; rfl, nofun⟩
  | cons a ts ih =>
    rw [List.foldl_cons] at h
    obtain ⟨hbest, hrest⟩ := ih h
    cases hfirst : longer cs best a with
    | none =>
      have hnone : best = none ∧ ∀ u ∈ [a], ¬u.text.toList <+: cs := foldl_longer_eq_none hfirst
      refine ⟨by simp [hnone.1], fun u hu hfront => ?_⟩
      rcases List.mem_cons.1 hu with rfl | hu
      · exact absurd hfront (hnone.2 u List.mem_cons_self)
      · exact hrest u hu hfront
    | some b =>
      obtain ⟨hold, hnew⟩ := longer_monotone hfirst
      have hb := hbest b hfirst
      refine ⟨fun c hc => (hold c hc).trans hb, fun u hu hfront => ?_⟩
      rcases List.mem_cons.1 hu with rfl | hu
      · exact (hnew hfront).trans hb
      · exact hrest u hu hfront

section Names

variable (hnames : ∀ name ∈ names, ConstantTable.checkName name = .ok ())
include hnames

theorem text_ne_nil_of_mem_vocabulary (ht : t ∈ vocabulary names) : t.text.toList ≠ [] := by
  rcases List.mem_append.1 ht with hfixed | hnamed
  · exact text_ne_nil_of_mem_fixed t hfixed
  · obtain ⟨name, hname, rfl⟩ := List.mem_map.1 hnamed
    exact (ConstantTable.letters_of_checkName (hnames name hname)).1

/-- No two tokens are typed alike. -/
theorem eq_of_text_eq (ht : t ∈ vocabulary names) (hu : u ∈ vocabulary names)
    (h : u.text = t.text) : u = t := by
  have hreserved {t u : Token} (ht : t ∈ Token.fixed)
      (hu : u ∈ names.map fun name => .key (.constant (.named name))) : u.text ≠ t.text := by
    obtain ⟨name, hname, rfl⟩ := List.mem_map.1 hu
    intro heq
    exact ConstantTable.not_mem_reserved_of_checkName (hnames name hname)
      (List.mem_append_left _ (List.mem_map.2 ⟨t, ht, heq.symm⟩))
  rcases List.mem_append.1 ht with htf | htn <;> rcases List.mem_append.1 hu with huf | hun
  · have hnodup : (Token.fixed.map Token.text).Nodup := by decide
    exact List.inj_on_of_nodup_map hnodup huf htf h
  · exact absurd h (hreserved htf hun)
  · exact absurd h.symm (hreserved huf htn)
  · obtain ⟨name, -, rfl⟩ := List.mem_map.1 htn
    obtain ⟨other, -, rfl⟩ := List.mem_map.1 hun
    exact congrArg (fun name => Token.key (.constant (.named name))) h

/-- Of two tokens, one of which is the beginning of the other, that one is shorter. -/
theorem eq_or_shorter_of_prefix (ht : t ∈ vocabulary names) (hu : u ∈ vocabulary names)
    (h : u.text.toList <+: t.text.toList) :
    u = t ∨ u.text.length < t.text.length ∧ u.text.utf8ByteSize < t.text.utf8ByteSize := by
  obtain ⟨rest, hrest⟩ := h
  have htext : u.text ++ String.ofList rest = t.text := by
    rw [← String.toList_inj, String.toList_append, String.toList_ofList, hrest]
  rcases eq_or_ne rest [] with rfl | hne
  · rw [List.append_nil] at hrest
    exact .inl (eq_of_text_eq hnames ht hu (String.toList_inj.1 hrest))
  · have hbytes : (String.ofList rest).utf8ByteSize ≠ 0 := by simp [hne]
    have hchars : (String.ofList rest).length ≠ 0 := by simp [hne]
    right
    rw [← htext, String.length_append, String.utf8ByteSize_append]
    omega

theorem isLongest_of_longest? (h : longest? names cs = some t) : IsLongest names t cs := by
  obtain ⟨hknown, hfront⟩ := longest?_eq_some h
  refine ⟨hknown, hfront, fun u hu hu' => eq_or_shorter_of_prefix hnames hknown hu ?_⟩
  -- Both stand at the start of one text: the shorter one is the beginning of the longer one.
  refine List.prefix_of_prefix_length_le hu' hfront ?_
  rw [String.length_toList, String.length_toList]
  exact (foldl_longer_monotone h).2 u hu hu'

/-- A token with a left parenthesis behind it is the longest where it stands: no other token that is
typed there reaches the parenthesis. -/
theorem isLongest_before_left (ht : t ∈ vocabulary names) (hleft : '(' ∉ t.text.toList)
    (cs : List Char) : IsLongest names t (t.text.toList ++ '(' :: cs) := by
  refine ⟨ht, List.prefix_append _ _, fun u hu hfront => eq_or_shorter_of_prefix hnames ht hu ?_⟩
  have hplain : '(' ∉ u.text.toList := by
    rcases List.mem_append.1 hu with hfixed | hnamed
    · intro hmem
      have honly : ∀ u ∈ Token.fixed, '(' ∈ u.text.toList → u.text.toList = ['('] := by decide
      rw [honly u hfixed hmem] at hfront
      obtain ⟨c, rest, htext⟩ :=
        List.exists_cons_of_ne_nil (text_ne_nil_of_mem_vocabulary hnames ht)
      rw [htext] at hfront hleft
      exact hleft ((List.cons_prefix_cons.1 hfront).1 ▸ List.mem_cons_self)
    · obtain ⟨name, hname, rfl⟩ := List.mem_map.1 hnamed
      exact fun hmem =>
        absurd ((ConstantTable.letters_of_checkName (hnames name hname)).2.1 _ hmem) (by decide)
  rcases List.prefix_or_prefix_of_prefix hfront (List.prefix_append _ _) with hle | ⟨rest, hrest⟩
  · exact hle
  · rw [← hrest, List.prefix_append_right_inj] at hfront
    cases rest with
    | nil => exact ⟨[], by simpa using hrest.symm⟩
    | cons c rest =>
      obtain rfl := (List.cons_prefix_cons.1 hfront).1
      exact absurd (hrest ▸ List.mem_append_right _ List.mem_cons_self) hplain

end Names

/-! ## What a literal takes -/

/-- In a text followed by `cs`, no token starts at a character of the text, except at a minus sign
right behind an `E` of it. -/
def Inert (names : List String) (text cs : List Char) : Prop :=
  ∀ front c back, text = front ++ c :: back →
    ∀ u ∈ vocabulary names, u.text.toList <+: c :: back ++ cs → c = '-' ∧ front.getLast? = some 'E'

theorem inert_nil (names : List String) (cs : List Char) : Inert names [] cs := by
  intro front c back h
  cases front <;> cases h

theorem eq_of_next?_eq_none {c : Char} (h : next? names literal (c :: cs) = none)
    (hu : u ∈ vocabulary names) (hfront : u.text.toList <+: c :: cs) :
    c = '-' ∧ literal.head? = some 'E' := by
  rw [next?] at h
  split at h
  · next hsign =>
    obtain ⟨hE, hminus⟩ := Bool.and_eq_true_iff.1 hsign
    exact ⟨Option.some.inj (of_decide_eq_true hminus), of_decide_eq_true hE⟩
  · exact absurd hfront ((foldl_longer_eq_none h).2 u hu)

/-- A literal takes one more character where no token follows. -/
theorem Inert.concat {c : Char} (h : Inert names literal.reverse (c :: cs))
    (hnext : next? names literal (c :: cs) = none) : Inert names (c :: literal).reverse cs := by
  intro front d back hsplit u hu hfront
  rw [List.reverse_cons] at hsplit
  rcases List.eq_nil_or_concat' back with rfl | ⟨back, e, rfl⟩
  · obtain ⟨rfl, hd⟩ := List.append_inj' hsplit rfl
    cases hd
    rw [List.getLast?_reverse]
    exact eq_of_next?_eq_none hnext hu hfront
  · rw [← List.cons_append, ← List.append_assoc] at hsplit
    obtain ⟨hliteral, he⟩ := List.append_inj' hsplit rfl
    cases he
    exact h front d back hliteral u hu (by simpa using hfront)

/-! ## Texts and their tokens -/

/-- The tokens of a text, as a cut by longest match gives them. -/
structure IsCut (names : List String) (cs : List Char) (tokens : List Token) : Prop where
  /-- Nothing of the text is lost. -/
  joined : Token.joined tokens = cs
  nonempty : .key (.literal "") ∉ tokens
  separate : tokens.IsChain fun t u => ¬(t.isLiteral ∧ u.isLiteral)
  longest : ∀ t after, t :: after <:+ tokens → ¬t.isLiteral →
    IsLongest names t (Token.joined (t :: after))
  inert : ∀ text after, .key (.literal text) :: after <:+ tokens →
    Inert names text.toList (Token.joined after)

namespace IsCut

theorem nil (names : List String) : IsCut names [] [] where
  joined := rfl
  nonempty := nofun
  separate := .nil
  longest _ _ h := by cases List.suffix_nil.1 h
  inert _ _ h := by cases List.suffix_nil.1 h

theorem token_cons (h : IsCut names cs tokens) (hliteral : ¬t.isLiteral)
    (ht : IsLongest names t (t.text.toList ++ cs)) :
    IsCut names (t.text.toList ++ cs) (t :: tokens) where
  joined := by rw [Token.joined_cons, h.joined]
  nonempty hmem := by
    rcases List.mem_cons.1 hmem with rfl | hmem
    · exact hliteral rfl
    · exact h.nonempty hmem
  separate := h.separate.cons fun _ _ hboth => hliteral hboth.1
  longest u after hsuffix hu := by
    rcases List.suffix_cons_iff.1 hsuffix with heq | hsuffix
    · cases heq
      rwa [Token.joined_cons, h.joined]
    · exact h.longest u after hsuffix hu
  inert text after hsuffix := by
    rcases List.suffix_cons_iff.1 hsuffix with heq | hsuffix
    · cases heq
      exact absurd rfl hliteral
    · exact h.inert text after hsuffix

theorem literal_cons {text : String} (h : IsCut names cs tokens) (hne : text ≠ "")
    (hhead : ∀ u ∈ tokens.head?, ¬u.isLiteral) (htext : Inert names text.toList cs) :
    IsCut names (text.toList ++ cs) (.key (.literal text) :: tokens) where
  joined := by rw [Token.joined_cons, h.joined]; rfl
  nonempty hmem := by
    rcases List.mem_cons.1 hmem with heq | hmem
    · cases heq
      exact hne rfl
    · exact h.nonempty hmem
  separate := h.separate.cons fun u hu hboth => hhead u hu hboth.2
  longest u after hsuffix hu := by
    rcases List.suffix_cons_iff.1 hsuffix with heq | hsuffix
    · cases heq
      exact absurd rfl hu
    · exact h.longest u after hsuffix hu
  inert other after hsuffix := by
    rcases List.suffix_cons_iff.1 hsuffix with heq | hsuffix
    · cases heq
      rwa [h.joined]
    · exact h.inert other after hsuffix

/-- The literal read so far, in front of a text that does not start with one. -/
theorem gathered (h : IsCut names cs tokens) (hhead : ∀ u ∈ tokens.head?, ¬u.isLiteral)
    (hliteral : Inert names literal.reverse cs) :
    IsCut names (literal.reverse ++ cs) (Lexer.gathered literal ++ tokens) := by
  cases literal with
  | nil => exact h
  | cons c literal =>
    have hne : String.ofList (c :: literal).reverse ≠ "" := by simp
    have hcut := h.literal_cons hne hhead (by rwa [String.toList_ofList])
    rwa [String.toList_ofList] at hcut

end IsCut

theorem not_isLiteral_of_mem_vocabulary (ht : t ∈ vocabulary names) : ¬t.isLiteral := by
  rcases List.mem_append.1 ht with hfixed | hnamed
  · have hnot : ∀ t ∈ Token.fixed, ¬t.isLiteral := by decide
    exact hnot t hfixed
  · obtain ⟨name, -, rfl⟩ := List.mem_map.1 hnamed
    exact Bool.false_ne_true

/-- The text that is left behind a token. -/
theorem drop_of_prefix {text : List Char} {c : Char} (hne : text ≠ [])
    (h : text <+: c :: cs) : text ++ cs.drop (text.length - 1) = c :: cs := by
  obtain ⟨rest, hrest⟩ := h
  cases text with
  | nil => exact absurd rfl hne
  | cons d text =>
    obtain ⟨rfl, rfl⟩ := List.cons_eq_cons.1 hrest
    simp

theorem isCut_cut (hnames : ∀ name ∈ names, ConstantTable.checkName name = .ok ())
    (h : Inert names literal.reverse cs) :
    IsCut names (literal.reverse ++ cs) (cut names literal cs) := by
  -- What is gathered stays inert in front of the text that is left; a token empties it.
  fun_induction cut names literal cs with
  | case1 literal => 
    have hcut := (IsCut.nil names).gathered (by simp) h
    rwa [List.append_nil (gathered _)] at hcut
  | case2 literal c cs t ht ih =>
    have ht := isLongest_of_longest? hnames (longest?_of_next? ht)
    have hrest := drop_of_prefix (text_ne_nil_of_mem_vocabulary hnames ht.known) ht.front
    rw [String.length_toList] at hrest
    have hnot := not_isLiteral_of_mem_vocabulary ht.known
    have hcut := (ih (inert_nil _ _)).token_cons hnot
      (by rwa [List.reverse_nil, List.nil_append, hrest])
    rw [List.reverse_nil, List.nil_append, hrest] at hcut
    exact hcut.gathered (by simpa using hnot) h
  | case3 literal c cs hnone ih =>
    have hcut := ih (h.concat hnone)
    rwa [List.reverse_cons, List.append_assoc] at hcut

variable {formula : String} {table : ConstantTable}

/-- A formula that is accepted is cut by longest match, with any constants that were defined. -/
theorem isCut_of_tokenize (ht : table.Built) (h : tokenize table.names formula = .ok tokens) :
    IsCut table.names (Text.squeeze formula.toList) tokens := by
  simp only [tokenize] at h
  split at h
  · next hempty =>
    cases h
    rw [List.isEmpty_iff.1 hempty]
    exact .nil _
  · split at h
    · cases h
    · cases h
      have hstart : Inert table.names (List.reverse []) (Text.squeeze formula.toList) :=
        inert_nil _ _
      exact isCut_cut ht.valid hstart

/-- The tokens of `2E-3 sinx√s Ev` with the constants `s` and `Ev`. -/
def overlapping : List Token :=
  [.key (.literal "2E-3"), .key (.operation (.ratio .sin)), .key (.operation .nthRoot),
    .key (.constant (.named "s")), .key (.constant (.named "Ev"))]

/-- The sign of the exponent stays in its literal, and each word is the longest that can be read. -/
theorem isCut_overlapping : IsCut ["Ev", "s"] "2E-3sinx√sEv".toList overlapping := by
  have hs : ConstantTable.empty.define "s" "1" = .ok ⟨[("s", ⟨1, 0⟩)]⟩ := by decide +kernel
  have hEv : ConstantTable.define ⟨[("s", ⟨1, 0⟩)]⟩ "Ev" "2"
      = .ok ⟨[("Ev", ⟨2, 0⟩), ("s", ⟨1, 0⟩)]⟩ := by decide +kernel
  have htokens : tokenize ["Ev", "s"] "2E-3 sinx√s Ev" = .ok overlapping := by decide +kernel
  have hsqueeze : Text.squeeze "2E-3 sinx√s Ev".toList = "2E-3sinx√sEv".toList := by decide +kernel
  have hcut := isCut_of_tokenize ((ConstantTable.Built.empty.define hs).define hEv) htokens
  rwa [hsqueeze] at hcut

end Lexer

end Keypad
