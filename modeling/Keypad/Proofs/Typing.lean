import Keypad.ConstantTable
import Keypad.Proofs.Failure
import Keypad.Proofs.Lexer
import Keypad.Proofs.Literal
import Mathlib.Data.List.Chain

/-!
# Texts of tokens

The names that constants may have leave the characters of literals alone: no token starts at one of
them. A text is not refused if nothing stands against its first and last characters and against any
two of its neighbours.
-/

namespace Keypad

/-! ## Names of constants -/

namespace ConstantTable

/-- Every constant of the table has a name that may be defined. -/
def Valid (t : ConstantTable) : Prop := ∀ name ∈ t.names, checkName name = .ok ()

theorem valid_empty : empty.Valid := fun _ h => by cases h

theorem mem_insertEntry {name other : String} {d : Decimal} {es : List (String × Decimal)}
    (h : other ∈ (insertEntry name d es).map Prod.fst) :
    other = name ∨ other ∈ es.map Prod.fst := by
  induction es with
  | nil => exact .inl (by simpa [insertEntry] using h)
  | cons entry rest ih =>
    rw [insertEntry] at h
    split at h
    · next heq =>
      rcases List.mem_cons.1 h with hname | hrest
      · exact .inl hname
      · exact .inr (List.mem_cons_of_mem _ hrest)
    · split at h
      · exact List.mem_cons.1 h
      · rcases List.mem_cons.1 h with hentry | hrest
        · exact .inr (List.mem_cons.2 (.inl hentry))
        · exact (ih hrest).imp_right (List.mem_cons_of_mem _)

theorem Valid.define {t u : ConstantTable} (ht : t.Valid) {name text : String}
    (h : t.define name text = .ok u) : u.Valid := by
  rw [ConstantTable.define] at h
  obtain ⟨⟨⟩, hname, h⟩ := Except.exists_of_bind h
  obtain ⟨d, -, h⟩ := Except.exists_of_bind h
  cases h
  intro other hother
  rcases mem_insertEntry hother with rfl | hmem
  · exact hname
  · exact ht other hmem

theorem Valid.erase {t : ConstantTable} (ht : t.Valid) (name : String) : (t.erase name).Valid := by
  intro other hother
  obtain ⟨entry, hentry, rfl⟩ := List.mem_map.1 hother
  exact ht _ (List.mem_map_of_mem (List.mem_filter.1 hentry).1)

theorem letters_of_checkName {name : String} (h : checkName name = .ok ()) :
    name.toList ≠ [] ∧ (∀ c ∈ name.toList, c.isAlpha) ∧ name.toList.getLast? ≠ some 'E' := by
  dsimp only [checkName] at h
  split at h
  · cases h
  · next hlength =>
    split at h
    · cases h
    · next hletters =>
      split at h
      · cases h
      · split at h
        · cases h
        · next hlast =>
          refine ⟨fun hnil => hlength (.inl ?_), by simpa using hletters, hlast⟩
          rw [String.toList_eq_nil_iff.1 hnil]
          rfl

theorem not_mem_reserved_of_checkName {name : String} (h : checkName name = .ok ()) :
    name ∉ reserved := by
  intro hmem
  have hcontains : reserved.contains name = true := List.contains_iff_mem.2 hmem
  dsimp only [checkName] at h
  rw [hcontains] at h
  split at h
  · cases h
  · split at h <;> cases h

end ConstantTable

/-! ## Cutting -/

theorem isAlpha_of_isDigit {c : Char} (h : c.isDigit) : c.isAlpha = false := by
  have hle : c.toNat ≤ 57 := (Char.isDigit_iff_toNat.1 h).2
  apply Bool.or_eq_false_iff.2
  constructor
  · rw [Bool.eq_false_iff]
    intro hupper
    have hge : 65 ≤ c.toNat := UInt32.le_iff_toNat_le.1 (of_decide_eq_true hupper).1
    omega
  · rw [Bool.eq_false_iff]
    intro hlower
    have hge : 97 ≤ c.toNat :=
      UInt32.le_iff_toNat_le.1 (of_decide_eq_true (Bool.and_eq_true_iff.1 hlower).1)
    omega

namespace Token

theorem completes_literal {text : String} (h : (Literal.parts? text.toList).isSome) :
    (Token.key (.literal text)).completes := by
  simp [Token.completes, Literal.exponentBase?_of_parts? h]

/-- The text of joined tokens. -/
def joined (tokens : List Token) : List Char := tokens.flatMap fun t => t.text.toList

@[simp] theorem joined_nil : joined [] = [] := rfl

@[simp] theorem joined_cons (t : Token) (ts : List Token) :
    joined (t :: ts) = t.text.toList ++ joined ts := List.flatMap_cons

@[simp] theorem joined_append (ts us : List Token) :
    joined (ts ++ us) = joined ts ++ joined us := List.flatMap_append

end Token

namespace Lexer

variable {names : List String} {cs : List Char} {t : Token}

theorem longest?_eq_none (h : ∀ t ∈ vocabulary names, ¬t.text.toList <+: cs) :
    longest? names cs = none := by
  cases hlongest : longest? names cs with
  | none => rfl
  | some t =>
    obtain ⟨hmem, hfront⟩ := longest?_eq_some hlongest
    exact absurd hfront (h t hmem)

theorem foldl_longer_eq_none {ts : List Token} {best : Option Token}
    (h : ts.foldl (longer cs) best = none) : best = none ∧ ∀ t ∈ ts, ¬t.text.toList <+: cs := by
  induction ts generalizing best with
  | nil => exact ⟨h, fun t ht => by cases ht⟩
  | cons a ts ih =>
    obtain ⟨hnone, hrest⟩ := ih h
    rw [longer] at hnone
    split at hnone
    · cases hnone
    · next hnot =>
      subst hnone
      refine ⟨rfl, fun t ht => ?_⟩
      rcases List.mem_cons.1 ht with rfl | ht
      · simpa using hnot
      · exact hrest t ht

/-- No constant is typed where no letter stands, nor at an `E` with no letter behind it. -/
theorem not_prefix_of_checkName {name : String} (h : ConstantTable.checkName name = .ok ())
    {c : Char} (hc : c.isAlpha → c = 'E' ∧ ∀ d, cs.head? = some d → d.isAlpha = false) :
    ¬name.toList <+: c :: cs := by
  obtain ⟨hne, hletters, hlast⟩ := ConstantTable.letters_of_checkName h
  intro hfront
  cases hname : name.toList with
  | nil => exact hne hname
  | cons b tail =>
    rw [hname] at hfront hletters hlast
    obtain ⟨rfl, htail⟩ := List.cons_prefix_cons.1 hfront
    obtain ⟨rfl, hnext⟩ := hc (hletters b List.mem_cons_self)
    cases tail with
    | nil => exact hlast rfl
    | cons d tail =>
      obtain ⟨rest, rfl⟩ := htail
      have halpha := hletters d (List.mem_cons_of_mem _ List.mem_cons_self)
      rw [hnext d rfl] at halpha
      cases halpha

theorem text_ne_nil_of_mem_fixed : ∀ t ∈ Token.fixed, t.text.toList ≠ [] := by decide

/-- What a token that is typed at the start of a text may be. -/
theorem of_mem_vocabulary (hnames : ∀ name ∈ names, ConstantTable.checkName name = .ok ())
    {c : Char} (hc : c.isAlpha → c = 'E' ∧ ∀ d, cs.head? = some d → d.isAlpha = false)
    (ht : t ∈ vocabulary names) (hfront : t.text.toList <+: c :: cs) :
    t ∈ Token.fixed ∧ t.text.toList.head? = some c := by
  rcases List.mem_append.1 ht with hfixed | hnamed
  · refine ⟨hfixed, ?_⟩
    cases htext : t.text.toList with
    | nil => exact absurd htext (text_ne_nil_of_mem_fixed t hfixed)
    | cons b tail =>
      rw [htext] at hfront
      exact congrArg some (List.cons_prefix_cons.1 hfront).1
  · obtain ⟨name, hname, rfl⟩ := List.mem_map.1 hnamed
    exact absurd hfront (not_prefix_of_checkName (hnames name hname) hc)

/-- No token is typed by a character of a literal. -/
theorem longest?_eq_none_of_literal
    (hnames : ∀ name ∈ names, ConstantTable.checkName name = .ok ()) {c : Char}
    (hc : Literal.IsMark c ∨ c = 'E')
    (hnext : c = 'E' → ∀ d, cs.head? = some d → d.isAlpha = false) :
    longest? names (c :: cs) = none := by
  have hfixed : ∀ t ∈ Token.fixed,
      t.text.toList.head?.all fun d => decide ¬(Literal.IsMark d ∨ d = 'E') := by decide
  apply longest?_eq_none
  intro t ht hfront
  have halpha : c.isAlpha → c = 'E' ∧ ∀ d, cs.head? = some d → d.isAlpha = false := by
    intro ha
    rcases hc with (hdigit | rfl) | rfl
    · exact absurd ha (by simp [isAlpha_of_isDigit hdigit])
    · exact absurd ha (by decide)
    · exact ⟨rfl, hnext rfl⟩
  obtain ⟨hmem, hhead⟩ := of_mem_vocabulary hnames halpha ht hfront
  have hnot := hfixed t hmem
  rw [hhead] at hnot
  exact of_decide_eq_true hnot hc

theorem head?_reverse_ne {text : String} (h : (Literal.parts? text.toList).isSome) :
    text.toList.reverse.head? ≠ some 'E' := by
  have hbase := Literal.exponentBase?_of_parts? h
  rw [Token.exponentBase?] at hbase
  rw [List.head?_reverse]
  intro hlast
  rw [if_pos hlast] at hbase
  cases hbase

/-! ## Texts that are not refused -/

theorem exists_of_occurs {rule : Rule} (h : rule.occurs cs) :
    ∃ b c rest, cs = b ++ c :: rest ∧ c ∈ rule.before ∧ ∃ s ∈ rule.after, s.toList <+: rest := by
  induction cs with
  | nil => cases h
  | cons c cs ih =>
    rw [Rule.occurs] at h
    rcases Bool.or_eq_true_iff.1 h with hhere | hlater
    · obtain ⟨hbefore, hafter⟩ := Bool.and_eq_true_iff.1 hhere
      obtain ⟨s, hs, hfront⟩ := List.any_eq_true.1 hafter
      exact ⟨[], c, cs, rfl, List.contains_iff_mem.1 hbefore, s, hs,
        List.isPrefixOf_iff_prefix.1 hfront⟩
    · obtain ⟨b, d, rest, rfl, hd⟩ := ih hlater
      exact ⟨c :: b, d, rest, rfl, hd⟩

/-- No rule refuses `d` right behind `c`. -/
def Permits (c d : Char) : Prop :=
  ∀ rule ∈ rules, c ∈ rule.before → ∀ s ∈ rule.after, s.toList.head? ≠ some d

instance (c d : Char) : Decidable (Permits c d) :=
  inferInstanceAs (Decidable (∀ rule ∈ rules, c ∈ rule.before → ∀ s ∈ rule.after,
    s.toList.head? ≠ some d))

theorem not_occurs_of_permits (h : cs.IsChain Permits) : ∀ rule ∈ rules,
    rule.occurs cs = false := by
  intro rule hrule
  have hne : ∀ rule ∈ rules, ∀ s ∈ rule.after, s.toList ≠ [] := by decide
  by_contra hoccurs
  obtain ⟨b, c, rest, rfl, hc, s, hs, tail, rfl⟩ := exists_of_occurs (by simpa using hoccurs)
  obtain ⟨d, text, htext⟩ := List.exists_cons_of_ne_nil (hne rule hrule s hs)
  rw [htext] at h
  have hpermits : Permits c d := (List.isChain_append.1 h).2.1.rel
  exact hpermits rule hrule hc s hs (by rw [htext]; rfl)

/-- Which texts are not refused: by their first and last characters, and by neighbours. -/
theorem refusal?_eq_none (hstart : ∀ s ∈ forbiddenStarts, s.toList.head? ≠ cs.head?)
    (hend : ∀ s ∈ forbiddenEnds, s.toList.getLast? ≠ cs.getLast?) (h : cs.IsChain Permits) :
    refusal? cs = none := by
  have hne : ∀ s ∈ forbiddenStarts ++ forbiddenEnds, s.toList ≠ [] := by decide
  have hstarts : forbiddenStarts.find? (fun s => s.toList.isPrefixOf cs) = none := by
    refine List.find?_eq_none.2 fun s hs hfront => hstart s hs ?_
    obtain ⟨rest, rfl⟩ := List.isPrefixOf_iff_prefix.1 hfront
    rw [List.head?_append_of_ne_nil _ (hne s (by simp [hs]))]
  have hends : forbiddenEnds.find? (fun s => s.toList.isSuffixOf cs) = none := by
    refine List.find?_eq_none.2 fun s hs hsuffix => hend s hs ?_
    obtain ⟨rest, rfl⟩ := List.isSuffixOf_iff_suffix.1 hsuffix
    rw [List.getLast?_append_of_ne_nil _ (hne s (by simp [hs]))]
  have hrules : rules.find? (fun rule => rule.occurs cs) = none :=
    List.find?_eq_none.2 fun rule hrule hoccurs => by
      rw [not_occurs_of_permits h rule hrule] at hoccurs
      cases hoccurs
  rw [refusal?, hstarts, hends, hrules]
  rfl

/-- The last mark of a readable literal may stand at the end of a formula. -/
theorem forbiddenEnds_ne_literal {text : String} (h : (Literal.parts? text.toList).isSome) :
    ∀ s ∈ forbiddenEnds, s.toList.getLast? ≠ text.toList.getLast? := by
  have hends : ∀ s ∈ forbiddenEnds, s.toList.getLast?.any fun c =>
      decide ¬Literal.IsMark c := by decide
  intro s hs hlast
  have hnot := hends s hs
  obtain ⟨r, hr⟩ := Option.isSome_iff_exists.1 h
  cases hc : text.toList.getLast? with
  | none =>
    rw [hlast, hc] at hnot
    cases hnot
  | some c =>
    rw [hlast, hc] at hnot
    exact of_decide_eq_true hnot (Literal.isMark_of_getLast? hr hc)

end Lexer

end Keypad
