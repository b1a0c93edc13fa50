import Keypad.Token.Lexer

/-!
# What a text is cut into

Every token of a text is a literal or typed somewhere in the text by its own words.
-/

namespace Keypad.Lexer

variable {names : List String} {literal cs : List Char} {t : Token}

/-- The better of two tokens is the one at hand, or it is typed here and longer than that one. -/
theorem longer_eq_some {best : Option Token} {a : Token} (h : longer cs best a = some t) :
    best = some t ∨
      (a = t ∧ t.text.toList <+: cs) ∧ ∀ b ∈ best, b.text.length < t.text.length := by
  rw [longer] at h
  split at h
  · next hif =>
    cases h
    obtain ⟨hfront, hlonger⟩ := Bool.and_eq_true_iff.1 hif
    refine .inr ⟨⟨rfl, List.isPrefixOf_iff_prefix.1 hfront⟩, ?_⟩
    rintro b rfl
    exact of_decide_eq_true hlonger
  · exact .inl h

theorem foldl_longer_eq_some {ts : List Token} {best : Option Token}
    (h : ts.foldl (longer cs) best = some t) :
    best = some t ∨
      (t ∈ ts ∧ t.text.toList <+: cs) ∧ ∀ b ∈ best, b.text.length < t.text.length := by
  induction ts generalizing best with
  | nil => exact .inl h
  | cons a ts ih =>
    rcases ih h with hbest | ⟨⟨hmem, hfront⟩, hlonger⟩
    · rcases longer_eq_some hbest with hb | ⟨⟨rfl, hfront⟩, hlonger⟩
      · exact .inl hb
      · exact .inr ⟨⟨List.mem_cons_self, hfront⟩, hlonger⟩
    · refine .inr ⟨⟨List.mem_cons_of_mem _ hmem, hfront⟩, ?_⟩
      rintro b rfl
      rw [longer] at hlonger
      split at hlonger
      · next hif =>
        have hb : b.text.length < a.text.length := of_decide_eq_true (Bool.and_eq_true_iff.1 hif).2
        exact Nat.lt_trans hb (hlonger a rfl)
      · exact hlonger b rfl

theorem longest?_eq_some (h : longest? names cs = some t) :
    t ∈ vocabulary names ∧ t.text.toList <+: cs := by
  rcases foldl_longer_eq_some h with hnone | hsome
  · cases hnone
  · exact hsome.1

theorem longest?_of_next? (h : next? names literal cs = some t) : longest? names cs = some t := by
  rw [next?] at h
  split at h
  · cases h
  · exact h

theorem mem_gathered (h : t ∈ gathered literal) : ∃ s, t = .key (.literal s) := by
  rw [gathered] at h
  split at h
  · cases h
  · exact ⟨_, List.mem_singleton.1 h⟩

theorem mem_cut (h : t ∈ cut names literal cs) :
    (∃ s, t = .key (.literal s)) ∨ t ∈ vocabulary names ∧ t.text.toList <:+: cs := by
  fun_induction cut names literal cs with
  | case1 literal => exact .inl (mem_gathered h)
  | case2 literal c cs a ha ih =>
    rcases List.mem_append.1 h with hmem | hmem
    · exact .inl (mem_gathered hmem)
    · rcases List.mem_cons.1 hmem with rfl | hrest
      · have hnext := longest?_eq_some (longest?_of_next? ha)
        exact .inr ⟨hnext.1, hnext.2.isInfix⟩
      · have hdrop : cs.drop (a.text.length - 1) <:+ c :: cs :=
          (List.drop_suffix _ _).trans (List.suffix_cons _ _)
        exact (ih hrest).imp_right fun hr => ⟨hr.1, hr.2.trans hdrop.isInfix⟩
  | case3 literal c cs _ ih =>
    exact (ih h).imp_right fun hr => ⟨hr.1, hr.2.trans (List.suffix_cons _ _).isInfix⟩

theorem named_mem_of_mem_vocabulary {name : String}
    (h : .key (.constant (.named name)) ∈ vocabulary names) : name ∈ names := by
  rcases List.mem_append.1 h with hfixed | hnamed
  · simp [Token.fixed, Ratio.all] at hfixed
  · obtain ⟨other, hother, heq⟩ := List.mem_map.1 hnamed
    cases heq
    exact hother

/-! ## Texts that are accepted or refused -/

theorem tokenize_eq_ok {formula : String} {tokens : List Token}
    (h : tokenize names formula = .ok tokens) (ht : t ∈ tokens) :
    (∃ s, t = .key (.literal s)) ∨
      t ∈ vocabulary names ∧ t.text.toList <:+: Text.squeeze formula.toList := by
  simp only [tokenize] at h
  split at h
  · cases h
    cases ht
  · split at h
    · cases h
    · cases h
      exact mem_cut ht

theorem named_mem_of_tokenize {formula name : String} {tokens : List Token}
    (h : tokenize names formula = .ok tokens)
    (hname : .key (.constant (.named name)) ∈ tokens) : name ∈ names := by
  rcases tokenize_eq_ok h hname with ⟨s, hs⟩ | ⟨hvocabulary, -⟩
  · cases hs
  · exact named_mem_of_mem_vocabulary hvocabulary

theorem kind_of_refusal {f : Failure} (h : refusal? cs = some f) : f.kind = .formula := by
  rw [refusal?] at h
  split at h
  · cases h
    rfl
  · split at h
    · cases h
      rfl
    · obtain ⟨rule, hrule, rfl⟩ := Option.map_eq_some_iff.1 h
      have hkinds : ∀ rule ∈ rules, rule.failure.kind = .formula := by decide
      exact hkinds rule (List.mem_of_find?_eq_some hrule)

theorem kind_of_tokenize {formula : String} {f : Failure}
    (h : tokenize names formula = .error f) : f.kind = .formula := by
  simp only [tokenize] at h
  split at h
  · cases h
  · split at h
    · next hf =>
      cases h
      exact kind_of_refusal hf
    · cases h

end Keypad.Lexer
