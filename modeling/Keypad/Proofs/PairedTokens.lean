import Keypad.Proofs.Canonical.Ranges
import Keypad.Proofs.Longhand
import Keypad.Proofs.Pairing
import Keypad.Token.Paired

/-!
# The pairing finds the groups of a line

Tokens can be paired exactly when they have a line, and with the missing right parentheses behind
them they are the tokens of that line. In a sequence that holds the tokens of a line, wherever they
stand, the pairing closes each group of the line at the right parenthesis behind its content.
-/

namespace Keypad

namespace Pairing

variable {ts before after buffer : List Token} {opened : List Nat} {p : Pairing} {i : Nat}

/-! ## Tokens that can be paired -/

/-- The pairing fails if more right parentheses lack a left one than are open. -/
theorem pairFrom_isError_iff (opened : List Nat) (i : Nat) (ts : List Token) :
    (∃ j, pairFrom opened i ts = .error j) ↔ opened.length < Token.orphans 0 ts := by
  induction ts generalizing opened i with
  | nil => simp [pairFrom, Token.orphans]
  | cons t ts ih =>
    cases t with
    | key k => exact ih opened (i + 1)
    | left =>
      rw [pairFrom, ih, List.length_cons]
      exact Nat.lt_sub_iff_add_lt.symm
    | right =>
      cases opened with
      | nil => simp [pairFrom, Token.orphans]
      | cons o opened =>
        have hmap (r : Except Nat Pairing) :
            (∃ j, (r.map fun p => { p with pairs := (o, i) :: p.pairs }) = .error j) ↔
              ∃ j, r = .error j := by
          cases r <;> simp [Except.map]
        rw [pairFrom, hmap, ih]
        exact Nat.succ_lt_succ_iff.symm

theorem ofTokens_isError_iff (ts : List Token) :
    (∃ j, ofTokens ts = .error j) ↔ Line.ofTokens? ts = none := by
  rw [Line.ofTokens?_eq_none_iff, ofTokens, pairFrom_isError_iff, List.length_nil,
    Nat.pos_iff_ne_zero]

theorem missing_eq (h : ofTokens ts = .ok p) : (p.missing : Int) = depth ts := by
  have hdescribes : Describes ts [] 0 (ofTokens ts) := describes_pairFrom (.nil balanced_nil) ts
  rw [h] at hdescribes
  exact hdescribes.1

theorem matches_of_ofTokens (h : ofTokens ts = .ok p) :
    p.Matches (ts ++ List.replicate p.missing .right) := by
  have hextended := describes_pairFrom (.nil balanced_nil) (ts ++ .replicate p.missing .right)
  rw [List.nil_append, List.length_nil, pairFrom_append_replicate h] at hextended
  exact Pairs.matches (p := p) (hextended.2.2 rfl)

/-! ## Groups of a line -/

theorem balanced_toTokens (line : Line) : Balanced line.toTokens := by
  induction line with
  | nil => exact balanced_nil
  | key k rest ih => exact (balanced_key k).append ih
  | group inner rest ihi ihr =>
    have hgroup := ihi.enclose.append ihr
    simpa [Line.toTokens] using hgroup

/-- The missing right parentheses are those that the line of the tokens has more. -/
theorem append_replicate_missing {line : Line} (h : ofTokens ts = .ok p)
    (hline : Line.ofTokens? ts = some line) :
    ts ++ List.replicate p.missing .right = line.toTokens := by
  obtain ⟨n, hn⟩ := Line.exists_toTokens_of_ofTokens? hline
  have hmissing := missing_eq h
  have hdepth := (balanced_toTokens line).1
  have hreplicate : depth (List.replicate n .right) = -n := by simp [depth, List.count_replicate]
  rw [hn, depth_append, hreplicate] at hdepth
  have heq : p.missing = n := by omega
  rw [hn, heq]

/-- The content of a group lies between the parentheses that are paired. -/
theorem Matches.closing?_eq (h : p.Matches buffer) {inner : Line}
    (hbuffer : buffer = before ++ .left :: (inner.toTokens ++ .right :: after)) :
    p.closing? before.length = some (before.length + 1 + inner.toTokens.length) := by
  have hleft : buffer[before.length]? = some .left := by simp [hbuffer]
  have hpair : IsPair buffer before.length (before.length + 1 + inner.toTokens.length) := by
    refine ⟨hleft, ?_, by omega, ?_⟩
    · simp [hbuffer, Nat.add_assoc, Nat.add_comm 1]
    · have hinner := tokensIn_append (before ++ [.left]) inner.toTokens (.right :: after)
      rw [List.length_append, List.length_singleton, ← List.append_cons, ← hbuffer] at hinner
      exact (congrArg Balanced hinner).mpr (balanced_toTokens inner)
  obtain ⟨c, hc⟩ := Option.isSome_iff_exists.1 ((h.isSome_iff before.length).2 hleft)
  have hfound : IsPair buffer before.length c :=
    ⟨hleft, h.right _ _ hc, h.lt _ _ hc, h.balanced _ _ hc⟩
  rw [hc, hfound.right_unique hpair]

/-- Every group that stands in the sequence is closed behind its content, which the commas cut into
its parts. -/
def FindsGroups (p : Pairing) (ts : List Token) : Prop :=
  ∀ (before : List Token) (inner : Line) (after : List Token),
    ts = before ++ .left :: (inner.toTokens ++ .right :: after) →
      let start := before.length + 1
      p.closing? before.length = some (start + inner.toTokens.length) ∧
        (commaRanges ts start (start + inner.toTokens.length)).map (tokensIn ts)
          = inner.parts.map Line.toTokens

theorem Matches.findsGroups (h : p.Matches ts) : p.FindsGroups ts := by
  intro before inner after htokens start
  refine ⟨h.closing?_eq htokens, ?_⟩
  have hranges := map_tokensIn_commaRanges (before ++ [.left]) inner (.right :: after)
  rwa [List.length_append, List.length_singleton, List.append_assoc, ← List.append_cons,
    ← htokens] at hranges

end Pairing

namespace PairedTokens

variable {ts : List Token} {p : Pairing}

theorem ofTokens_eq_error {j : Nat} (h : Pairing.ofTokens ts = .error j) :
    ofTokens ts = .error j := by
  rw [ofTokens]
  split <;> simp_all

theorem exists_ofTokens_eq_ok (h : Pairing.ofTokens ts = .ok p) :
    ∃ b, ofTokens ts = .ok b ∧ b.pairing = p ∧
      b.tokens = ts ++ List.replicate p.missing .right := by
  rw [ofTokens]
  split
  · simp_all
  · next q hq =>
    rw [h] at hq
    cases hq
    exact ⟨_, rfl, rfl, rfl⟩

/-- Tokens that have a line are paired as those of the line. -/
theorem exists_of_ofTokens? {line : Line} (h : Line.ofTokens? ts = some line) :
    ∃ b, ofTokens ts = .ok b ∧ b.tokens = line.toTokens ∧ b.pairing.Matches b.tokens := by
  cases hpaired : Pairing.ofTokens ts with
  | error j =>
    rw [(Pairing.ofTokens_isError_iff ts).1 ⟨j, hpaired⟩] at h
    cases h
  | ok p =>
    obtain ⟨b, hb, hp, htokens⟩ := exists_ofTokens_eq_ok hpaired
    refine ⟨b, hb, ?_, ?_⟩
    · rw [htokens, Pairing.append_replicate_missing hpaired h]
    · rw [hp, htokens]
      exact Pairing.matches_of_ofTokens hpaired

theorem exists_error_of_ofTokens? (h : Line.ofTokens? ts = none) :
    ∃ j, ofTokens ts = .error j :=
  ((Pairing.ofTokens_isError_iff ts).2 h).imp fun _ => ofTokens_eq_error

end PairedTokens

end Keypad
