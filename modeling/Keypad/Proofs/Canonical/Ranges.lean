import Keypad.Proofs.Canonical.Formula

/-!
# Ranges of positions

A line is cut into the same parts whether its commas are found among its keys or, in a buffer that
holds its tokens, by counting parentheses. The groups behind a logarithm are found alike: as those
of the line that follow its key, and as the stretches from a left parenthesis to the position that
closes it.
-/

namespace Keypad

theorem tokensIn_append (before middle after : List Token) :
    tokensIn (before ++ (middle ++ after)) (before.length, before.length + middle.length)
      = middle := by
  simp [tokensIn, List.take_append, List.take_of_length_le]

/-! ## Commas -/

/-- Inside parentheses a line has no comma that counts. -/
theorem rangesFrom_toTokens_append (line : Line) (start stop i depth : Nat) (ts : List Token) :
    rangesFrom start stop i (depth + 1) (line.toTokens ++ ts)
      = rangesFrom start stop (i + line.toTokens.length) (depth + 1) ts := by
  induction line generalizing i depth ts with
  | nil => rfl
  | key k rest ih =>
    have hlen : i + (Line.key k rest).toTokens.length = i + 1 + rest.toTokens.length := by
      simp only [Line.toTokens, List.length_cons]
      omega
    rw [hlen, ← ih]
    exact if_neg fun h => Nat.succ_ne_zero depth h.2
  | group inner rest ihi ihr =>
    have hlen : i + (Line.group inner rest).toTokens.length
        = i + 1 + inner.toTokens.length + 1 + rest.toTokens.length := by
      simp only [Line.toTokens, List.length_cons, List.length_append]
      omega
    rw [hlen, ← ihr]
    simp only [Line.toTokens, List.cons_append, List.append_assoc, rangesFrom]
    rw [ihi]
    rfl

/-- A group has no comma that counts outside it. -/
theorem rangesFrom_group (inner : Line) (start stop i : Nat) (ts : List Token) :
    rangesFrom start stop i 0 (.left :: (inner.toTokens ++ .right :: ts))
      = rangesFrom start stop (i + 1 + inner.toTokens.length + 1) 0 ts := by
  rw [rangesFrom, rangesFrom_toTokens_append]
  rfl

theorem rangesFrom_key {k : Key} (hk : k ≠ .comma) (start stop i : Nat) (ts : List Token) :
    rangesFrom start stop i 0 (.key k :: ts) = rangesFrom start stop (i + 1) 0 ts :=
  if_neg fun h => hk h.1

section Parts

variable {line current : Line} {before after buffer : List Token} {start stop i : Nat}

/-- A line is read on with `next` put to its first part. -/
theorem Line.modifyHead_append (current next : Line) (parts : List Line) :
    (parts.modifyHead (next ++ ·)).modifyHead (current ++ ·)
      = parts.modifyHead (current ++ next ++ ·) := by
  cases parts with
  | nil => rfl
  | cons first others => simp [Line.append_assoc]

theorem Line.modifyHead_nil_append (parts : List Line) : parts.modifyHead (nil ++ ·) = parts := by
  cases parts <;> rfl

/-- What was read of a part ends at the position of the next token. -/
theorem tokensIn_current (hbuffer : buffer = before ++ (current ++ line).toTokens ++ after)
    (hstart : start = before.length) (hi : i = start + current.toTokens.length) :
    tokensIn buffer (start, i) = current.toTokens := by
  rw [hbuffer, hi, hstart, Line.toTokens_append, List.append_assoc, List.append_assoc]
  exact tokensIn_append _ _ _

/-- The ranges of a line, of whose first part `current` was read before. -/
theorem map_tokensIn_rangesFrom (hbuffer : buffer = before ++ (current ++ line).toTokens ++ after)
    (hstart : start = before.length) (hi : i = start + current.toTokens.length)
    (hstop : stop = i + line.toTokens.length) :
    (rangesFrom start stop i 0 line.toTokens).map (tokensIn buffer)
      = (line.parts.modifyHead (current ++ ·)).map Line.toTokens := by
  induction line generalizing before current start i with
  | nil =>
    have hend : stop = i := hstop
    simp [rangesFrom, Line.parts, Line.toTokens, hend, tokensIn_current hbuffer hstart hi]
  | key k rest ih =>
    simp only [Line.toTokens, List.length_cons] at hstop
    by_cases hk : k = .comma
    · subst hk
      have hnext : buffer = (before ++ current.toTokens ++ [.key .comma])
          ++ (Line.nil ++ rest).toTokens ++ after := by
        simp [hbuffer, Line.toTokens]
      have hposition : i + 1 = (before ++ current.toTokens ++ [Token.key .comma]).length := by
        simp [hi, hstart, Nat.add_assoc]
      have hrest := ih (i := i + 1) hnext hposition rfl (by omega)
      rw [Line.modifyHead_nil_append] at hrest
      simp [Line.toTokens, Line.parts, rangesFrom, tokensIn_current hbuffer hstart hi, hrest]
    · rw [Line.toTokens, rangesFrom_key hk, Line.parts, if_neg hk]
      have hnext := Line.modifyHead_append current (.key k .nil) rest.parts
      refine (ih ?_ hstart ?_ ?_).trans (congrArg _ hnext.symm)
      · simp [hbuffer, Line.toTokens]
      · simp [hi, Line.toTokens, Nat.add_assoc]
      · omega
  | group inner rest _ ih =>
    simp only [Line.toTokens, List.length_cons, List.length_append] at hstop
    rw [Line.toTokens, rangesFrom_group, Line.parts]
    have hnext := Line.modifyHead_append current (.group inner .nil) rest.parts
    refine (ih ?_ hstart ?_ ?_).trans (congrArg _ hnext.symm)
    · simp [hbuffer, Line.toTokens]
    · simp only [hi, Line.toTokens_append, Line.toTokens, List.length_append, List.length_cons,
        List.length_nil]
      omega
    · omega

end Parts

/-- The ranges that the commas cut out of a line, wherever its tokens stand, hold its parts. -/
theorem map_tokensIn_commaRanges (before : List Token) (line : Line) (after : List Token) :
    (commaRanges (before ++ line.toTokens ++ after) before.length
        (before.length + line.toTokens.length)).map
        (tokensIn (before ++ line.toTokens ++ after))
      = line.parts.map Line.toTokens := by
  have hline := tokensIn_append before line.toTokens after
  rw [tokensIn, ← List.append_assoc] at hline
  have hbuffer : before ++ line.toTokens ++ after
      = before ++ (Line.nil ++ line).toTokens ++ after := rfl
  have hranges := map_tokensIn_rangesFrom hbuffer rfl rfl rfl
  rw [Line.modifyHead_nil_append] at hranges
  rw [commaRanges, hline]
  exact hranges

/-! ## Logarithms -/

/-- The content of the group that follows the key, if the key is that of a logarithm. -/
def Line.logArgument : Key → Line → List Line
  | .operation .log, group inner _ => [inner]
  | _, _ => []

theorem Line.logArgument_of_ne {k : Key} (hk : k ≠ .operation .log) (rest : Line) :
    logArgument k rest = [] := by
  unfold logArgument
  split
  · exact absurd rfl hk
  · rfl

/-- The contents of the groups of the logarithms, at every depth and in the order of their keys.
Those of the previous answer stand where `Ans` is. -/
def Line.logs (answered : List Line) : Line → List Line
  | nil => []
  | key k rest =>
    logArgument k rest ++ ((if k = .answer then answered else []) ++ rest.logs answered)
  | group inner rest => inner.logs answered ++ rest.logs answered

namespace Pairing

variable {p : Pairing} {i j : Nat} {line inner rest : Line} {k : Key}

/-- The ranges of positions between the parentheses of the logarithms, in the order of their keys.
The first token has the position `i`. -/
def logRanges (p : Pairing) (i : Nat) : List Token → List (Nat × Nat)
  | [] => []
  | t :: ts =>
    (if t = .key (.operation .log) then (p.closing? (i + 1)).map (i + 2, ·) else none).toList
      ++ p.logRanges (i + 1) ts

theorem logRanges_append (p : Pairing) (i : Nat) (ts us : List Token) :
    p.logRanges i (ts ++ us) = p.logRanges i ts ++ p.logRanges (i + ts.length) us := by
  induction ts generalizing i with
  | nil => rfl
  | cons t ts ih =>
    have hlen : i + (t :: ts).length = i + 1 + ts.length := by
      rw [List.length_cons]
      omega
    rw [List.cons_append, logRanges, logRanges, ih, hlen, List.append_assoc]

/-- A line opens parentheses at its own positions only. -/
theorem bounds_of_mem_pairs {o c : Nat} (h : (o, c) ∈ line.pairs i) :
    i ≤ o ∧ o < i + line.toTokens.length := by
  induction line generalizing i with
  | nil => cases h
  | key k rest ih =>
    obtain ⟨hlow, hhigh⟩ := ih h
    simp only [Line.toTokens, List.length_cons]
    omega
  | group inner rest ihi ihr =>
    simp only [Line.toTokens, List.length_cons, List.length_append]
    rcases List.mem_append.1 h with h | h
    · obtain ⟨hlow, hhigh⟩ := ihi h
      omega
    · rcases List.mem_cons.1 h with h | h
      · cases h
        omega
      · obtain ⟨hlow, hhigh⟩ := ihr h
        omega

theorem lookup_pairs_eq_none (h : j < i ∨ i + line.toTokens.length ≤ j) :
    (line.pairs i).lookup j = none := by
  apply List.lookup_eq_none_iff.2
  rintro ⟨o, c⟩ hmem
  obtain ⟨hlow, hhigh⟩ := bounds_of_mem_pairs hmem
  simp only [bne_iff_ne]
  omega

/-- The pairing closes the parentheses of a line that stands at the position `i`, and none at the
position behind it. -/
def Closes (p : Pairing) (i : Nat) (line : Line) : Prop :=
  ∀ j, i ≤ j → j ≤ i + line.toTokens.length → p.closing? j = (line.pairs i).lookup j

theorem closes_toTokens (line : Line) : Closes ⟨line.pairs 0, 0⟩ 0 line := fun _ _ _ => rfl

theorem Closes.of_key (h : p.Closes i (.key k rest)) : p.Closes (i + 1) rest := by
  intro j hlow hhigh
  apply h j (by omega)
  simp only [Line.toTokens, List.length_cons]
  omega

theorem Closes.of_group (h : p.Closes i (.group inner rest)) :
    p.closing? i = some (i + 1 + inner.toTokens.length) ∧ p.Closes (i + 1) inner ∧
      p.Closes (i + 1 + inner.toTokens.length + 1) rest := by
  have hlookup (j : Nat) (hlow : i ≤ j)
      (hhigh : j ≤ i + 1 + inner.toTokens.length + 1 + rest.toTokens.length) :
      p.closing? j = ((inner.pairs (i + 1)).lookup j).or
        (((i, i + 1 + inner.toTokens.length) ::
          rest.pairs (i + 1 + inner.toTokens.length + 1)).lookup j) := by
    rw [← List.lookup_append]
    apply h j hlow
    simp only [Line.toTokens, List.length_cons, List.length_append]
    omega
  refine ⟨?_, fun j hlow hhigh => ?_, fun j hlow hhigh => ?_⟩
  · rw [hlookup i (by omega) (by omega), lookup_pairs_eq_none (by omega), Option.none_or]
    exact List.lookup_cons_self
  · have hne : (j == i) = false := beq_false_of_ne (by omega)
    have hnone : (rest.pairs (i + 1 + inner.toTokens.length + 1)).lookup j = none :=
      lookup_pairs_eq_none (by omega)
    rw [hlookup j (by omega) (by omega), List.lookup_cons, hne, hnone]
    exact Option.or_none
  · have hne : (j == i) = false := beq_false_of_ne (by omega)
    have hnone : (inner.pairs (i + 1)).lookup j = none := lookup_pairs_eq_none (by omega)
    rw [hlookup j (by omega) (by omega), List.lookup_cons, hne, hnone]
    exact Option.none_or

/-- The tokens of the line are those at the positions of the range. -/
def Holds (buffer : List Token) (line : Line) (range : Nat × Nat) : Prop :=
  ∃ before after, buffer = before ++ line.toTokens ++ after ∧
    range = (before.length, before.length + line.toTokens.length)

variable {before after buffer : List Token}

theorem forall₂_logArgument (h : p.Closes i (.key k rest))
    (hbuffer : buffer = before ++ (Line.key k rest).toTokens ++ after) (hi : i = before.length) :
    List.Forall₂ (Holds buffer) (Line.logArgument k rest)
      (if Token.key k = .key (.operation .log) then (p.closing? (i + 1)).map (i + 2, ·)
        else none).toList := by
  by_cases hk : k = .operation .log
  · subst hk
    rw [if_pos rfl]
    have hnext := h.of_key
    cases rest with
    | nil =>
      rw [hnext (i + 1) (Nat.le_refl _) (Nat.le_refl _)]
      exact .nil
    | key k rest =>
      rw [hnext (i + 1) (Nat.le_refl _) (Nat.le_add_right _ _), Line.pairs,
        lookup_pairs_eq_none (by omega)]
      exact .nil
    | group inner rest =>
      rw [hnext.of_group.1]
      refine .cons ⟨before ++ [.key (.operation .log), .left], .right :: (rest.toTokens ++ after),
        ?_, ?_⟩ .nil
      · simp [hbuffer, Line.toTokens]
      · simp only [hi, List.length_append, List.length_cons, List.length_nil]
  · rw [Line.logArgument_of_ne hk, if_neg fun heq => hk (Token.key.inj heq)]
    exact .nil

/-- The ranges of the logarithms of a line hold the contents of the groups behind them. -/
theorem forall₂_logRanges (h : p.Closes i line)
    (hbuffer : buffer = before ++ line.toTokens ++ after) (hi : i = before.length) :
    List.Forall₂ (Holds buffer) (line.logs []) (p.logRanges i line.toTokens) := by
  induction line generalizing i before after with
  | nil => exact .nil
  | key k rest ih =>
    have hargument := forall₂_logArgument h hbuffer hi
    have hnext : buffer = (before ++ [.key k]) ++ rest.toTokens ++ after := by
      simp [hbuffer, Line.toTokens]
    have hrest := ih h.of_key hnext (by simp [hi])
    rw [Line.logs, ite_self, List.nil_append, Line.toTokens, logRanges]
    exact List.rel_append hargument hrest
  | group inner rest ihi ihr =>
    obtain ⟨-, hinner, hrest⟩ := h.of_group
    have hinside : buffer
        = (before ++ [.left]) ++ inner.toTokens ++ .right :: (rest.toTokens ++ after) := by
      simp [hbuffer, Line.toTokens]
    have hbehind : buffer
        = (before ++ .left :: (inner.toTokens ++ [.right])) ++ rest.toTokens ++ after := by
      simp [hbuffer, Line.toTokens]
    have hinnerLogs := ihi hinner hinside (by simp [hi])
    have hrestLogs := ihr hrest hbehind (by simp [hi, Nat.add_assoc, Nat.add_comm 1])
    rw [Line.logs, Line.toTokens, logRanges, logRanges_append, logRanges, if_neg (by simp),
      if_neg (by simp)]
    exact List.rel_append hinnerLogs hrestLogs

end Pairing

end Keypad
