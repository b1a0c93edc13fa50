import Keypad.Line.Canonical
import Keypad.Token.Paired

/-!
# Canonical tokens

The pass over a formula, on its tokens. The tokens of a level are paired and the missing right
parentheses put behind them; then they are read by position. At a left parenthesis the tokens up to
the right one are brought into canonical form by themselves, or those between the commas if an
operation takes several arguments, and the reading goes on behind it. The tokens written are those
of the canonical line.
-/

namespace Keypad

/-! ## Left parentheses to come -/

section

variable {ts : List Token} {i j : Nat}

theorem count_left_drop_succ_le (ts : List Token) (i : Nat) :
    (ts.drop (i + 1)).count .left ≤ (ts.drop i).count .left := by
  rw [← List.drop_drop]
  exact (List.drop_sublist 1 _).count_le _

/-- Behind a left parenthesis there is one less to come. -/
theorem count_left_drop_lt (h : ts[i]? = some .left) (hj : i < j) :
    (ts.drop j).count .left < (ts.drop i).count .left := by
  obtain ⟨hi, heq⟩ := List.getElem?_eq_some_iff.1 h
  obtain ⟨k, rfl⟩ := Nat.exists_eq_add_of_lt hj
  rw [List.drop_eq_getElem_cons hi, heq, List.count_cons_self, Nat.lt_succ_iff,
    Nat.add_right_comm, ← List.drop_drop]
  exact (List.drop_sublist k _).count_le _

theorem count_left_tokensIn_le (ts : List Token) (range : Nat × Nat) :
    (tokensIn ts range).count .left ≤ (ts.drop range.1).count .left := by
  rw [tokensIn, List.drop_take]
  exact (List.take_sublist _ _).count_le _

/-- The pairing puts only right parentheses behind the tokens. -/
theorem PairedTokens.count_left {b : PairedTokens} (h : ofTokens ts = .ok b) :
    b.tokens.count .left = ts.count .left := by
  rw [ofTokens] at h
  split at h
  · cases h
  · cases h
    simp [List.count_replicate]

end

namespace Canonical

/-- The canonical tokens of a key other than a sign or a comma. -/
def Progress.emitTokens (p : Progress) (answer : Except Failure (List Token)) (beforeGroup : Bool) :
    Key → Except Failure (List Token)
  | .answer => do return .left :: ((← answer) ++ [.right])
  | k => do return (← p.emit (.error .nestedAnswer) beforeGroup k).toTokens

mutual

/-- The canonical tokens of a level inside a group that follows `op` or nothing. -/
def normalize (answer : Except Failure (List Token)) (op : Option Operation)
    (tokens : List Token) : Except Failure (List Token) :=
  if tokens = [] then .error (.emptyGroup op)
  else
    match _ : PairedTokens.ofTokens tokens with
    | .error _ => .error .unbalanced
    | .ok b => normalizeFrom answer op b {} 0
termination_by (tokens.count .left, 1, 0)
decreasing_by
  rw [List.drop_zero, PairedTokens.count_left ‹PairedTokens.ofTokens tokens = .ok b›]
  exact Prod.Lex.right _ (Prod.Lex.left _ _ Nat.zero_lt_one)

/-- Those of the rest of a level from the position `i` on, of which `p` is known. -/
def normalizeFrom (answer : Except Failure (List Token)) (op : Option Operation) (b : PairedTokens)
    (p : Progress) (i : Nat) : Except Failure (List Token) :=
  match h : b.tokens[i]? with
  | none => do
    p.finish { operation := op }
    return []
  | some (.key .plus) => normalizeFrom answer op b (p.addSign false) (i + 1)
  | some (.key .minus) => normalizeFrom answer op b (p.addSign true) (i + 1)
  | some (.key .comma) => .error .strayComma
  | some (.key k) => do
    let own ← p.emitTokens answer (b.tokens[i + 1]? = some .left) k
    let tail ← normalizeFrom answer op b (p.after k) (i + 1)
    return (p.lead (.key k)).toTokens ++ (own ++ tail)
  | some .right => .error .unopenedGroup
  | some .left =>
    match b.closing? i with
    | none => .error .unclosedGroup
    | some ⟨j, _⟩ => do
      let content ← normalizeGroup answer p.pending (tokensIn b.tokens (i + 1, j))
      let tail ← normalizeFrom answer op b .afterGroup (j + 1)
      return (p.lead .left).toTokens ++ .left :: (content ++ .right :: tail)
termination_by ((b.tokens.drop i).count .left, 0, b.tokens.length - i)
decreasing_by
  all_goals have hi := (List.getElem?_eq_some_iff.1 h).1
  · exact Prod.Lex.right' _ (count_left_drop_succ_le _ _) (Prod.Lex.right _ (by omega))
  · exact Prod.Lex.right' _ (count_left_drop_succ_le _ _) (Prod.Lex.right _ (by omega))
  · exact Prod.Lex.right' _ (count_left_drop_succ_le _ _) (Prod.Lex.right _ (by omega))
  · have hinner := count_left_tokensIn_le b.tokens (i + 1, j)
    exact Prod.Lex.left _ _ (Nat.lt_of_le_of_lt hinner (count_left_drop_lt h (Nat.lt_succ_self i)))
  · exact Prod.Lex.left _ _ (count_left_drop_lt h (Nat.lt_succ_of_lt ‹i < j›))

/-- Those of the content of a group that follows `op` or nothing. -/
def normalizeGroup (answer : Except Failure (List Token)) (op : Option Operation)
    (inner : List Token) : Except Failure (List Token) :=
  match op.bind fun op => op.commas?.map fun counts => (op, counts) with
  | none => normalize answer op inner
  | some (op, counts) =>
    let ranges := commaRanges inner 0 inner.length
    if counts.contains (ranges.length - 1) then do
      let parts ← ranges.attach.mapM fun r => normalize answer (some op) (tokensIn inner r.1)
      return List.intercalate [.key .comma] parts
    else .error (.commaCount op)
termination_by (inner.count .left, 2, 0)
decreasing_by
  · exact Prod.Lex.right _ (Prod.Lex.left _ _ Nat.one_lt_two)
  · have hpart := Nat.le_trans (count_left_tokensIn_le inner r.1)
      ((List.drop_sublist _ _).count_le _)
    exact Prod.Lex.right' _ hpart (Prod.Lex.left _ _ Nat.one_lt_two)

end

/-- The canonical tokens for which `Ans` stands, given those of the previous answer. These may not
hold `Ans` themselves. -/
def normalizeAnswer (tokens : List Token) : Except Failure (List Token) :=
  normalize (.error .nestedAnswer) none tokens

/-- The canonical tokens of a whole formula, which may be empty, or of a group, which may not. -/
def normalizeTokens (answer tokens : List Token) (inGroup : Bool) (op : Option Operation) :
    Except Failure (List Token) :=
  if tokens.isEmpty && !inGroup then .ok [] else normalize (normalizeAnswer answer) op tokens

end Canonical

end Keypad
