import Keypad.Token.Pairing

/-!
# Paired tokens

Tokens with the pairing of their parentheses. A left parenthesis is closed behind itself, and the
ranges between commas lie within the stretch they are cut from. So a reader that jumps from a
parenthesis to its partner, or goes into a range, comes nearer to the end.
-/

namespace Keypad

namespace Pairing

variable {tokens : List Token} {opened : List Nat} {i o c : Nat} {p : Pairing}

/-- Parentheses that were open before the position `i`, or open later, are closed behind
themselves. -/
theorem lt_of_mem_pairs (h : pairFrom opened i tokens = .ok p) (hopened : ∀ o ∈ opened, o < i)
    (hmem : (o, c) ∈ p.pairs) : o < c := by
  induction tokens generalizing opened i p with
  | nil =>
    cases h
    have ho := hopened o (List.fst_mem_of_mem_zipIdx hmem)
    exact Nat.lt_of_lt_of_le ho (List.le_snd_of_mem_zipIdx hmem)
  | cons t ts ih =>
    have hlater : ∀ o ∈ opened, o < i + 1 := fun o ho => Nat.lt_succ_of_lt (hopened o ho)
    cases t with
    | left => exact ih h (List.forall_mem_cons.2 ⟨Nat.lt_succ_self i, hlater⟩) hmem
    | key k => exact ih h hlater hmem
    | right =>
      cases opened with
      | nil => cases h
      | cons first others =>
        rw [pairFrom] at h
        cases hrest : pairFrom others (i + 1) ts with
        | error j => simp [hrest, Except.map] at h
        | ok q =>
          rw [hrest] at h
          cases h
          rcases List.mem_cons.1 hmem with heq | hmem
          · cases heq
            exact hopened _ List.mem_cons_self
          · exact ih hrest (List.forall_mem_cons.1 hlater).2 hmem

theorem lt_of_closing? (h : ofTokens tokens = .ok p) (hc : p.closing? o = some c) : o < c := by
  obtain ⟨before, after, hpairs, -⟩ := List.lookup_eq_some_iff.1 hc
  exact lt_of_mem_pairs h (by simp) (hpairs ▸ by simp)

end Pairing

/-- Tokens, none of whose left parentheses is closed before itself. -/
structure PairedTokens where
  tokens : List Token
  pairing : Pairing
  lt : ∀ o c, pairing.closing? o = some c → o < c

namespace PairedTokens

/-- The tokens with the right parentheses that are missing put behind them. The error is the
position of a right parenthesis without a left one. -/
def ofTokens (tokens : List Token) : Except Nat PairedTokens :=
  match h : Pairing.ofTokens tokens with
  | .error i => .error i
  | .ok p =>
    .ok ⟨tokens ++ List.replicate p.missing .right, p, fun _ _ => Pairing.lt_of_closing? h⟩

/-- The position that closes the left parenthesis at position `o`. -/
def closing? (b : PairedTokens) (o : Nat) : Option { c // o < c } :=
  match h : b.pairing.closing? o with
  | none => none
  | some c => some ⟨c, b.lt o c h⟩

theorem closing?_eq_some {b : PairedTokens} {o c : Nat} (h : b.pairing.closing? o = some c) :
    b.closing? o = some ⟨c, b.lt o c h⟩ := by
  rw [closing?]
  split
  · next hnone => simp [h] at hnone
  · next c' hc =>
    obtain rfl := Option.some.inj (hc.symm.trans h)
    rfl

end PairedTokens

/-! ## Ranges -/

variable {tokens : List Token} {start stop : Nat} {range : Nat × Nat}

theorem bounds_of_mem_rangesFrom {i depth : Nat} (h : range ∈ rangesFrom start stop i depth tokens)
    (hi : start ≤ i) (hstop : i + tokens.length ≤ stop) :
    start ≤ range.1 ∧ range.1 ≤ range.2 ∧ range.2 ≤ stop := by
  induction tokens generalizing start i depth with
  | nil =>
    obtain rfl := List.mem_singleton.1 h
    exact ⟨Nat.le_refl _, Nat.le_trans hi hstop, Nat.le_refl _⟩
  | cons t ts ih =>
    have hnext : i + 1 + ts.length ≤ stop := by
      rw [List.length_cons] at hstop
      omega
    cases t with
    | left => exact ih h (Nat.le_succ_of_le hi) hnext
    | right => exact ih h (Nat.le_succ_of_le hi) hnext
    | key k =>
      rw [rangesFrom] at h
      split at h
      · rcases List.mem_cons.1 h with rfl | h
        · exact ⟨Nat.le_refl _, hi, by dsimp only; omega⟩
        · obtain ⟨hlow, hmiddle, hhigh⟩ := ih h (Nat.le_refl _) hnext
          exact ⟨by omega, hmiddle, hhigh⟩
      · exact ih h (Nat.le_succ_of_le hi) hnext

theorem bounds_of_mem_commaRanges (h : range ∈ commaRanges tokens start stop)
    (hle : start ≤ stop) : start ≤ range.1 ∧ range.1 ≤ range.2 ∧ range.2 ≤ stop := by
  apply bounds_of_mem_rangesFrom h (Nat.le_refl _)
  simp only [List.length_drop, List.length_take]
  omega

end Keypad
