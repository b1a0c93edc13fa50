import Keypad.Proofs.Canonical.Arguments
import Keypad.Proofs.PairedTokens
import Keypad.Token.Canonical

/-!
# Canonical tokens are those of the canonical line

The pass over tokens goes from a left parenthesis to its partner by position, and the pass over a
line goes into the group and then on behind it. Both write the same and refuse the same, with the
same failures. In particular the pass over tokens finds a partner for every left parenthesis and
meets no right one.
-/

namespace Keypad

namespace Canonical

variable {answer : Except Failure (List Token)} {op : Option Operation} {b : PairedTokens}
  {p : Progress} {i : Nat} {k : Key}

/-! ## Steps by position -/

theorem normalizeFrom_none (h : b.tokens[i]? = none) : normalizeFrom answer op b p i = (do
    p.finish { operation := op }
    return []) := by
  rw [normalizeFrom]
  split <;> simp_all

theorem normalizeFrom_plus (h : b.tokens[i]? = some (.key .plus)) :
    normalizeFrom answer op b p i = normalizeFrom answer op b (p.addSign false) (i + 1) := by
  rw [normalizeFrom]
  split <;> simp_all

theorem normalizeFrom_minus (h : b.tokens[i]? = some (.key .minus)) :
    normalizeFrom answer op b p i = normalizeFrom answer op b (p.addSign true) (i + 1) := by
  rw [normalizeFrom]
  split <;> simp_all

theorem normalizeFrom_comma (h : b.tokens[i]? = some (.key .comma)) :
    normalizeFrom answer op b p i = .error .strayComma := by
  rw [normalizeFrom]
  split <;> simp_all

theorem normalizeFrom_key (hk : k ≠ .plus ∧ k ≠ .minus ∧ k ≠ .comma)
    (h : b.tokens[i]? = some (.key k)) : normalizeFrom answer op b p i = (do
      let own ← p.emitTokens answer (b.tokens[i + 1]? = some .left) k
      let tail ← normalizeFrom answer op b (p.after k) (i + 1)
      return (p.lead (.key k)).toTokens ++ (own ++ tail)) := by
  rw [normalizeFrom]
  split <;> simp_all

theorem normalizeFrom_left {j : Nat} (h : b.tokens[i]? = some .left)
    (hj : b.pairing.closing? i = some j) : normalizeFrom answer op b p i = (do
      let content ← normalizeGroup answer p.pending (tokensIn b.tokens (i + 1, j))
      let tail ← normalizeFrom answer op b .afterGroup (j + 1)
      return (p.lead .left).toTokens ++ .left :: (content ++ .right :: tail)) := by
  have hclosing := PairedTokens.closing?_eq_some hj
  rw [normalizeFrom]
  split <;> simp_all

/-! ## Lines written out -/

section Lines

variable {answer : Except Failure Line} {place : Place}

theorem Progress.emitTokens_map (p : Progress) (answer : Except Failure Line) (g : Bool) (k : Key) :
    p.emitTokens (Line.toTokens <$> answer) g k = Line.toTokens <$> p.emit answer g k := by
  by_cases hk : k = .answer
  · subst hk
    cases answer <;> rfl
  · rw [emitTokens, p.emit_answer_congr (fun h => absurd h hk) g, map_eq_pure_bind]
    exact hk

theorem map_level_nil : Line.toTokens <$> level answer place p .nil = (do
    p.finish place
    return []) := by
  simp [level, Line.toTokens]

theorem map_level_comma {rest : Line} (hd : place.divided) :
    Line.toTokens <$> level answer place p (.key .comma rest) = (do
      p.finish place
      let tail ← Line.toTokens <$> level answer place {} rest
      return .key .comma :: tail) := by
  simp [level, hd, Line.toTokens]

theorem map_level_key {rest : Line} (hk : k ≠ .plus ∧ k ≠ .minus ∧ k ≠ .comma) :
    Line.toTokens <$> level answer place p (.key k rest) = (do
      let own ← Line.toTokens <$> p.emit answer rest.startsWithGroup k
      let tail ← Line.toTokens <$> level answer place (p.after k) rest
      return (p.lead (.key k)).toTokens ++ (own ++ tail)) := by
  simp [level_key hk]

theorem map_level_group {inner rest : Line} :
    Line.toTokens <$> level answer place p (.group inner rest) = (do
      checkCommas p.pending inner
      let content ← Line.toTokens <$> level answer (.inside p.pending) {} inner
      let tail ← Line.toTokens <$> level answer place .afterGroup rest
      return (p.lead .left).toTokens ++ .left :: (content ++ .right :: tail)) := by
  simp [level, Line.toTokens]

/-- What is written in front of a part is written in front of all of them. -/
theorem intercalate_append_cons (sep ts us : List Token) (parts : List (List Token)) :
    sep.intercalate ((ts ++ us) :: parts) = ts ++ sep.intercalate (us :: parts) := by
  cases parts <;> simp [List.intercalate]

/-- A divided level is written part by part, each of which but the first is a level of its own. -/
theorem exists_map_level_divided (answer : Except Failure Line) (op : Option Operation)
    (line : Line) : ∃ first others, line.parts = first :: others ∧ ∀ p,
      Line.toTokens <$> level answer ⟨op, true⟩ p line = (do
        let ts ← Line.toTokens <$> level answer ⟨op, false⟩ p first
        let tss ← others.mapM fun part => Line.toTokens <$> level answer ⟨op, false⟩ {} part
        return [.key .comma].intercalate (ts :: tss)) := by
  induction line with
  | nil =>
    refine ⟨.nil, [], rfl, fun p => ?_⟩
    simp [map_level_nil, List.intercalate]
    rfl
  | key k rest ih =>
    obtain ⟨first, others, hparts, hlevel⟩ := ih
    by_cases hcomma : k = .comma
    · subst hcomma
      refine ⟨.nil, first :: others, by simp [Line.parts, hparts], fun p => ?_⟩
      simp [map_level_comma, map_level_nil, hlevel, List.mapM_cons, List.intercalate]
      rfl
    · refine ⟨.key k first, others, by simp [Line.parts, hcomma, hparts], fun p => ?_⟩
      by_cases hplus : k = .plus
      · subst hplus
        exact hlevel _
      by_cases hminus : k = .minus
      · subst hminus
        exact hlevel _
      have hk : k ≠ .plus ∧ k ≠ .minus ∧ k ≠ .comma := ⟨hplus, hminus, hcomma⟩
      simp only [map_level_key hk, hlevel, bind_assoc, pure_bind, intercalate_append_cons,
        Line.startsWithGroup_of_parts hparts]
  | group inner rest _ ih =>
    obtain ⟨first, others, hparts, hlevel⟩ := ih
    refine ⟨.group inner first, others, by simp [Line.parts, hparts], fun p => ?_⟩
    have happend (ts content tail : List Token) (tss : List (List Token)) :
        [.key .comma].intercalate ((ts ++ .left :: (content ++ .right :: tail)) :: tss)
          = ts ++ .left :: (content ++ .right :: [.key .comma].intercalate (tail :: tss)) := by
      have hsplit := intercalate_append_cons [.key .comma] (ts ++ .left :: (content ++ [.right]))
        tail tss
      simpa using hsplit
    simp only [map_level_group, hlevel, bind_assoc, pure_bind, happend]

end Lines

/-! ## Levels by position -/

/-- From where the tokens of the line begin to the end of the sequence, the pass by position writes
what the pass over the line writes. -/
def Reads (answer : Except Failure Line) (line : Line) : Prop :=
  ∀ (op : Option Operation) (b : PairedTokens) (before : List Token) (p : Progress),
    b.pairing.Matches b.tokens → b.tokens = before ++ line.toTokens →
      normalizeFrom (Line.toTokens <$> answer) op b p before.length
        = Line.toTokens <$> level answer ⟨op, false⟩ p line

section Reads

variable {answer : Except Failure Line} {line inner rest : Line}

theorem normalize_of_reads {tokens : List Token} (hline : Line.ofTokens? tokens = some line)
    (h : Reads answer line) (op : Option Operation) :
    normalize (Line.toTokens <$> answer) op tokens
      = Line.toTokens <$> level answer ⟨op, false⟩ {} line := by
  obtain ⟨b, hb, htokens, hmatches⟩ := PairedTokens.exists_of_ofTokens? hline
  rw [normalize]
  split
  · next hnil =>
    subst hnil
    cases hline
    rfl
  · have hfrom := h op b [] {} hmatches htokens
    split <;> simp_all

theorem mapM_attach {m : Type → Type} [Monad m] [LawfulMonad m] {α β : Type} (as : List α)
    (f : α → m β) : as.attach.mapM (fun a => f a.1) = as.mapM f := by
  conv_rhs => rw [← List.attach_map_subtype_val as, List.mapM_map]
  rfl

/-- The parts of a line, found by counting parentheses, are written each as a level. -/
theorem mapM_normalize_commaRanges (hparts : ∀ part ∈ line.parts, Reads answer part)
    (op : Option Operation) :
    (commaRanges line.toTokens 0 line.toTokens.length).attach.mapM
        (fun r => normalize (Line.toTokens <$> answer) op (tokensIn line.toTokens r.1))
      = line.parts.mapM fun part => Line.toTokens <$> level answer ⟨op, false⟩ {} part := by
  have hranges := map_tokensIn_commaRanges [] line []
  simp only [List.nil_append, List.append_nil, List.length_nil, Nat.zero_add] at hranges
  have hmapM := congrArg (List.mapM (normalize (Line.toTokens <$> answer) op)) hranges
  rw [List.mapM_map, List.mapM_map] at hmapM
  rw [mapM_attach _ fun r => normalize (Line.toTokens <$> answer) op (tokensIn line.toTokens r)]
  refine hmapM.trans (mapM_congr fun part hpart => ?_)
  exact normalize_of_reads (Line.ofTokens?_toTokens part) (hparts part hpart) op

/-- The content of a group is written as a whole, or part by part. -/
theorem normalizeGroup_of_reads (hinner : Reads answer inner)
    (hparts : ∀ part ∈ inner.parts, Reads answer part) (op : Option Operation) :
    normalizeGroup (Line.toTokens <$> answer) op inner.toTokens = (do
      checkCommas op inner
      Line.toTokens <$> level answer (.inside op) {} inner) := by
  have hwhole := normalize_of_reads (Line.ofTokens?_toTokens inner) hinner op
  cases op with
  | none =>
    rw [normalizeGroup]
    exact hwhole
  | some op =>
    cases hcounts : op.commas? with
    | none =>
      simp only [normalizeGroup, Option.bind_some, hcounts, Option.map_none, hwhole, checkCommas,
        Option.all_none, if_true, Place.inside]
      rfl
    | some counts =>
      obtain ⟨first, others, hcut, hlevel⟩ := exists_map_level_divided answer (some op) inner
      have hmapM := mapM_normalize_commaRanges hparts (some op)
      have hlength : (commaRanges inner.toTokens 0 inner.toTokens.length).length - 1
          = inner.commas := by
        have hranges := congrArg List.length (map_tokensIn_commaRanges [] inner [])
        simp only [List.length_map, Line.length_parts, List.nil_append, List.append_nil,
          List.length_nil, Nat.zero_add] at hranges
        omega
      simp only [normalizeGroup, Option.bind_some, hcounts, Option.map_some, hlength, hmapM,
        checkCommas, Option.all_some, Place.inside, Option.isSome_some, hcut, List.mapM_cons]
      split
      · rw [hlevel]
        simp only [bind_assoc, pure_bind]
        rfl
      · rfl

theorem reads_nil (answer : Except Failure Line) : Reads answer .nil := by
  intro op b before p _ htokens
  rw [normalizeFrom_none (by simp [htokens, Line.toTokens]), map_level_nil]

theorem Reads.key (h : Reads answer rest) (k : Key) : Reads answer (.key k rest) := by
  intro op b before p hmatches htokens
  have hget : b.tokens[before.length]? = some (.key k) := by simp [htokens, Line.toTokens]
  have hrest (q : Progress) := h op b (before ++ [.key k]) q hmatches (by
    simp [htokens, Line.toTokens])
  rw [List.length_append, List.length_singleton] at hrest
  by_cases hplus : k = .plus
  · subst hplus
    rw [normalizeFrom_plus hget, hrest, level]
  by_cases hminus : k = .minus
  · subst hminus
    rw [normalizeFrom_minus hget, hrest, level]
  by_cases hcomma : k = .comma
  · subst hcomma
    rw [normalizeFrom_comma hget, level]
    rfl
  have hk : k ≠ .plus ∧ k ≠ .minus ∧ k ≠ .comma := ⟨hplus, hminus, hcomma⟩
  have hgroup : decide (b.tokens[before.length + 1]? = some .left) = rest.startsWithGroup := by
    cases rest <;> simp [htokens, Line.toTokens, Line.startsWithGroup]
  rw [normalizeFrom_key hk hget, map_level_key hk, hgroup, Progress.emitTokens_map]
  simp only [hrest]

theorem Reads.group (hinner : Reads answer inner) (hparts : ∀ part ∈ inner.parts, Reads answer part)
    (h : Reads answer rest) : Reads answer (.group inner rest) := by
  intro op b before p hmatches htokens
  have hget : b.tokens[before.length]? = some .left := by simp [htokens, Line.toTokens]
  have hbuffer : b.tokens = before ++ .left :: (inner.toTokens ++ .right :: rest.toTokens) :=
    htokens
  have hclosing := hmatches.closing?_eq hbuffer
  have hcontent : tokensIn b.tokens
      (before.length + 1, before.length + 1 + inner.toTokens.length) = inner.toTokens := by
    have hin := tokensIn_append (before ++ [.left]) inner.toTokens (.right :: rest.toTokens)
    rw [List.length_append, List.length_singleton, ← List.append_cons] at hin
    rw [htokens]
    exact hin
  have hrest := h op b (before ++ .left :: (inner.toTokens ++ [.right])) .afterGroup hmatches (by
    simp [htokens, Line.toTokens])
  have hlength : (before ++ Token.left :: (inner.toTokens ++ [.right])).length
      = before.length + 1 + inner.toTokens.length + 1 := by
    simp only [List.length_append, List.length_cons, List.length_nil]
    omega
  rw [hlength] at hrest
  rw [normalizeFrom_left hget hclosing, hcontent, normalizeGroup_of_reads hinner hparts, hrest,
    map_level_group, bind_assoc]

/-- Every line is read so, and each of its parts by itself. -/
theorem reads (answer : Except Failure Line) (line : Line) :
    Reads answer line ∧ ∀ part ∈ line.parts, Reads answer part := by
  induction line with
  | nil => exact ⟨reads_nil answer, by simpa [Line.parts] using reads_nil answer⟩
  | key k rest ih =>
    obtain ⟨hrest, hparts⟩ := ih
    refine ⟨hrest.key k, ?_⟩
    rw [Line.parts]
    split
    · exact List.forall_mem_cons.2 ⟨reads_nil answer, hparts⟩
    · exact forall_mem_modifyHead hparts fun part hpart => hpart.key k
  | group inner rest ihi ihr =>
    obtain ⟨hrest, hparts⟩ := ihr
    exact ⟨Reads.group ihi.1 ihi.2 hrest,
      forall_mem_modifyHead hparts fun part hpart => Reads.group ihi.1 ihi.2 hpart⟩

end Reads

/-! ## Formulas -/

theorem normalize_eq_map_fill (answer : Except Failure Line) (op : Option Operation)
    (tokens : List Token) : normalize (Line.toTokens <$> answer) op tokens
      = Line.toTokens <$> fill answer { operation := op } tokens := by
  rw [fill]
  cases hline : Line.ofTokens? tokens with
  | none =>
    have hne : tokens ≠ [] := by
      rintro rfl
      cases hline
    obtain ⟨j, hj⟩ := PairedTokens.exists_error_of_ofTokens? hline
    rw [normalize, if_neg hne]
    split <;> simp_all
  | some line => exact normalize_of_reads hline (reads answer line).1 op

/-- The pass over tokens writes the tokens of the canonical line, and refuses what has none for the
same reason. -/
theorem normalizeTokens_eq (answer tokens : List Token) (inGroup : Bool) (op : Option Operation) :
    normalizeTokens answer tokens inGroup op
      = Line.toTokens <$> ofTokens answer tokens inGroup op := by
  have hanswer : normalizeAnswer answer = Line.toTokens <$> ofAnswer answer :=
    normalize_eq_map_fill (.error .nestedAnswer) none answer
  rw [normalizeTokens, ofTokens, hanswer, normalize_eq_map_fill]
  split <;> rfl

end Canonical

end Keypad
