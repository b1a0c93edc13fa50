import Keypad.Proofs.Canonical.Levels
import Keypad.Token.Pairing

/-!
# Canonical formulas

The canonical line of a formula is canonical, and so is every level in it, an argument of a
logarithm being a level of its own. The bound on bars holds within a level: two arguments together
may have more.
-/

namespace Keypad

namespace Line

/-- The stretches between the commas outside groups. -/
def parts : Line → List Line
  | nil => [nil]
  | key k rest => if k = .comma then nil :: rest.parts else rest.parts.modifyHead (key k)
  | group inner rest => rest.parts.modifyHead (group inner)

/-- The levels inside the groups of a line, at every depth. -/
def levels : Line → List Line
  | nil => []
  | key _ rest => rest.levels
  | group inner rest => inner.parts ++ (inner.levels ++ rest.levels)

theorem Shaped.congr {a b : Token} {bars : Nat} {line : Line} (h : line.Shaped a bars)
    (hfits : ∀ t, a.Fits t → b.Fits t) (hop : b.operation? = a.operation?) :
    line.Shaped b bars := by
  cases line with
  | nil => exact hfits _ h
  | key k rest => exact ⟨hfits _ h.1, h.2⟩
  | group inner rest => exact ⟨hfits _ h.1, hop ▸ h.2.1, h.2.2⟩

/-- A part of a canonical level is a canonical level. -/
theorem Shaped.parts {a : Token} {bars : Nat} {line : Line} (h : line.Shaped a bars) :
    ∃ first others, line.parts = first :: others ∧ (first.Shaped a bars ∧ first.commas = 0) ∧
      ∀ part ∈ others, part.Shaped .left 0 ∧ part.commas = 0 := by
  induction line generalizing a bars with
  | nil => exact ⟨nil, [], rfl, ⟨h, rfl⟩, by simp⟩
  | key k rest ih =>
    obtain ⟨hfit, hk, hbar, hrest⟩ := h
    obtain ⟨first, others, hparts, hfirst, hothers⟩ := ih hrest
    by_cases hc : k = .comma
    · subst hc
      have hend : a.Fits .right := Token.fits_of_completes (hfit.operand rfl) rfl
      have hstart : first.Shaped .left 0 := by
        refine hfirst.1.congr (fun t ht => ?_) rfl
        exact ⟨fun hc => by simpa [Token.completes] using ht.operand hc, fun _ => rfl,
          by simp [Token.isSign], by simp [Token.operation?]⟩
      refine ⟨nil, first :: others, by simp [Line.parts, hparts], ⟨hend, rfl⟩, ?_⟩
      intro part hpart
      rcases List.mem_cons.1 hpart with rfl | hpart
      · exact ⟨hstart, hfirst.2⟩
      · exact hothers part hpart
    · exact ⟨key k first, others, by simp [Line.parts, hc, hparts],
        ⟨⟨hfit, hk, hbar, hfirst.1⟩, by simp [commas, hc, hfirst.2]⟩, hothers⟩
  | group inner rest _ ih =>
    obtain ⟨hfit, hcommas, hinner, hrest⟩ := h
    obtain ⟨first, others, hparts, hfirst, hothers⟩ := ih hrest
    exact ⟨group inner first, others, by simp [Line.parts, hparts],
      ⟨⟨hfit, hcommas, hinner, hfirst.1⟩, hfirst.2⟩, hothers⟩

/-- Each part of a canonical level is one by itself. -/
theorem Shaped.of_mem_parts {line part : Line} (h : line.Shaped .left 0)
    (hpart : part ∈ line.parts) : part.Shaped .left 0 ∧ part.commas = 0 := by
  obtain ⟨first, others, hparts, hfirst, hothers⟩ := h.parts
  rw [hparts] at hpart
  rcases List.mem_cons.1 hpart with rfl | hpart
  · exact hfirst
  · exact hothers part hpart

theorem Shaped.levels {a : Token} {bars : Nat} {line : Line} (h : line.Shaped a bars)
    {part : Line} (hpart : part ∈ line.levels) : part.Shaped .left 0 ∧ part.commas = 0 := by
  induction line generalizing a bars with
  | nil => cases hpart
  | key k rest ih => exact ih h.2.2.2 hpart
  | group inner rest ihi ihr =>
    obtain ⟨-, -, hinner, hrest⟩ := h
    rcases List.mem_append.1 hpart with hp | hp
    · exact hinner.of_mem_parts hp
    · rcases List.mem_append.1 hp with hp | hp
      · exact ihi hinner hp
      · exact ihr hrest hp

end Line

/-- The pairs of a line that stands at the position `i`, in the order of their right parentheses but
for that of a group, which follows those inside it. -/
def Line.pairs (i : Nat) : Line → List (Nat × Nat)
  | nil => []
  | key _ rest => rest.pairs (i + 1)
  | group inner rest =>
    inner.pairs (i + 1) ++ (i, i + 1 + inner.toTokens.length) ::
      rest.pairs (i + 1 + inner.toTokens.length + 1)

namespace Pairing

/-- The tokens of a line leave the open positions as they are. -/
theorem pairFrom_toTokens_append (line : Line) (opened : List Nat) (i : Nat) (ts : List Token) :
    pairFrom opened i (line.toTokens ++ ts) = (pairFrom opened (i + line.toTokens.length) ts).map
      fun p => { p with pairs := line.pairs i ++ p.pairs } := by
  induction line generalizing opened i ts with
  | nil => cases h : pairFrom opened i ts <;> simp [Line.toTokens, Line.pairs, h, Except.map]
  | key k rest ih =>
    simpa [Line.toTokens, Line.pairs, pairFrom, Nat.add_assoc, Nat.add_comm]
      using ih opened (i + 1) ts
  | group inner rest ihi ihr =>
    have hlen : i + (Line.group inner rest).toTokens.length
        = i + 1 + inner.toTokens.length + 1 + rest.toTokens.length := by
      simp only [Line.toTokens, List.length_cons, List.length_append]
      omega
    rw [hlen]
    simp only [Line.toTokens, Line.pairs, List.cons_append, List.append_assoc, pairFrom, ihi, ihr]
    cases pairFrom opened (i + 1 + inner.toTokens.length + 1 + rest.toTokens.length) ts <;>
      simp [Except.map]

/-- The parentheses of a line are balanced. -/
theorem ofTokens_toTokens (line : Line) : ofTokens line.toTokens = .ok ⟨line.pairs 0, 0⟩ := by
  simpa [ofTokens, pairFrom, Except.map] using pairFrom_toTokens_append line [] 0 []

end Pairing

namespace Canonical

/-- The canonical line of a formula is canonical at every level. -/
theorem ofFormula_isCanonical {answer tokens : List Token} {line : Line}
    (h : ofFormula answer tokens = .ok line) (hne : line ≠ .nil) :
    line.IsCanonical ∧ (∀ part ∈ line.levels, part.IsCanonical) ∧
      ∃ p, Pairing.ofTokens line.toTokens = .ok p ∧ p.missing = 0 := by
  rcases ofTokens_shaped h with hnil | ⟨hshape, hcommas⟩
  · exact absurd hnil hne
  · refine ⟨hshape.isCanonical hcommas, fun part hpart => ?_, _,
      Pairing.ofTokens_toTokens line, rfl⟩
    obtain ⟨hs, hc⟩ := hshape.levels hpart
    exact hs.isCanonical hc

/-- The canonical line of `2log(--Ans,50%E(3`, where the answer is `7`. -/
def shorthandLine : Line :=
  .key (.literal "2") (.key .times (.key (.operation .log) (.group
    (.key .plus (.group (.key (.literal "7") .nil) (.key .comma (.key (.literal "50") (.key .obelus
      (.key (.literal "100") (.key .times (.key (.literal "1") (.key (.operation .exponent)
        (.group (.key (.literal "3") .nil) .nil)))))))))) .nil)))

theorem ofFormula_isCanonical_shorthand :
    ofFormula [.key (.literal "7")]
        [.key (.literal "2"), .key (.operation .log), .left, .key .minus, .key .minus, .key .answer,
          .key .comma, .key (.literal "50"), .key .percent, .key (.literal "E"), .left,
          .key (.literal "3")] = .ok shorthandLine ∧ shorthandLine ≠ .nil ∧
      shorthandLine.IsCanonical ∧ (∀ part ∈ shorthandLine.levels, part.IsCanonical) ∧
      ∃ p, Pairing.ofTokens shorthandLine.toTokens = .ok p ∧ p.missing = 0 := by
  have h : ofFormula [.key (.literal "7")]
      [.key (.literal "2"), .key (.operation .log), .left, .key .minus, .key .minus, .key .answer,
        .key .comma, .key (.literal "50"), .key .percent, .key (.literal "E"), .left,
        .key (.literal "3")] = .ok shorthandLine := by decide +kernel
  have hne : shorthandLine ≠ .nil := by decide
  exact ⟨h, hne, ofFormula_isCanonical h hne⟩

/-- Two arguments of a logarithm may have three bars with only the comma among them. -/
theorem three_bars_around_comma :
    ∃ line s, ofFormula []
        [.key (.operation .log), .left, .key (.literal "1"), .key .bar, .key (.literal "2"),
          .key .bar, .key (.literal "3"), .key .comma, .key (.literal "4"), .key .bar,
          .key (.literal "5"), .right] = .ok line ∧ s <:+: line.toTokens ∧
      (∀ t ∈ s, t ∉ [.key .plus, .key .minus, .key .times, .key .obelus, .left, .right]) ∧
      maxBars < s.count (.key .bar) := by
  refine ⟨.key (.operation .log) (.group (.key (.literal "1") (.key .bar (.key (.literal "2")
      (.key .bar (.key (.literal "3") (.key .comma (.key (.literal "4") (.key .bar
        (.key (.literal "5") .nil))))))))) .nil),
    [.key .bar, .key (.literal "2"), .key .bar, .key (.literal "3"), .key .comma,
      .key (.literal "4"), .key .bar], by decide +kernel, by decide, by decide, by decide⟩

end Canonical

end Keypad
