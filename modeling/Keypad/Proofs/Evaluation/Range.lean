import Keypad.Evaluation.Range
import Keypad.Proofs.Canonical.Arguments
import Keypad.Proofs.PairedTokens

/-!
# The value of canonical tokens is that of their line

While the tokens of a canonical line are evaluated in place, every position that is read holds a
token, every left parenthesis is closed within its level, no right parenthesis is met, and the
ranges between commas hold the arguments. So each level has the result of the line whose tokens it
holds.
-/

namespace Keypad

open Run

/-- Runs go on alike when they do so from every value that the first one can have. -/
theorem Run.Safe.bind_congr {α β : Type} {m : Run α} {Q : α → Prop} {k k' : α → Run β}
    (h : Safe m Q) (hk : ∀ a, Q a → k a = k' a) : m >>= k = m >>= k' := by
  refine StateT.ext fun t => ?_
  have hends := h t
  rw [StateT.run_bind, StateT.run_bind]
  cases hm : m.run t with
  | error f => rfl
  | ok r =>
    rw [Ends, hm] at hends
    exact congrArg (fun n => n.run r.2) (hk r.1 hends)

namespace Line

variable {unit : AngleUnit} {table : ConstantTable} {line rest : Line} {c : Frame}

/-- The value of a level without commas, of which `c` is the state. -/
def result (unit : AngleUnit) (table : ConstantTable) (c : Frame) (line : Line) : Run Quantity := do
  match ← line.values unit table c with
  | [v] => return v
  | _ => throw (.strayKey .comma)

theorem result_nil : result unit table c nil = c.finish := by
  simp [result, values]

theorem result_key {k : Key} (hk : k ≠ .comma) :
    result unit table c (key k rest) = c.key table k >>= fun c' => rest.result unit table c' := by
  simp only [result, values_key unit table c hk, bind_assoc]

theorem result_group {inner : Line} : result unit table c (group inner rest)
    = c.group unit (inner.values unit table {}) >>= fun c' => rest.result unit table c' := by
  simp only [result, values, bind_assoc]

/-- A canonical level without commas has no other value than its result. -/
theorem Shaped.values_eq {a : Token} {bars : Nat} (h : line.Shaped a bars)
    (hcommas : line.commas = 0)
    (hknown : table.Covers line.toTokens) (hc : c.Follows a) :
    line.values unit table c = (fun v => [v]) <$> line.result unit table c := by
  have hsafe := h.safe_values unit hknown hc
  rw [result, map_bind, ← bind_pure (line.values unit table c), bind_assoc]
  apply hsafe.bind_congr
  intro vs hvs
  rw [hcommas] at hvs
  obtain ⟨v, rfl⟩ := List.length_eq_one_iff.1 hvs
  rfl

/-- The values of a canonical level are the results of its parts. -/
theorem Shaped.values_eq_mapM (h : line.Shaped .left 0) (hknown : table.Covers line.toTokens) :
    line.values unit table {} = line.parts.mapM fun part => part.result unit table {} := by
  have hpart : ∀ part ∈ line.parts, part.values unit table {}
      = (fun v => [v]) <$> part.result unit table {} := by
    intro part hpart
    obtain ⟨hshaped, hcommas⟩ := h.of_mem_parts hpart
    have hknown' := hknown.of_subset (line.toTokens_subset_of_mem_parts part hpart)
    exact hshaped.values_eq hcommas hknown' (Frame.follows_start (.inl rfl))
  have hflatten (f : Line → Run Quantity) (parts : List Line) :
      List.flatten <$> (parts.mapM fun part => (fun v => [v]) <$> f part) = parts.mapM f := by
    induction parts with
    | nil => rfl
    | cons part parts ih => simp [List.mapM_cons, ← ih]
  rw [values_eq_flatten, mapM_congr hpart, hflatten]

end Line

/-- A group is read by position as it is in a line: the arguments are the parts of its content, and
its whole content is evaluated when it has no comma. -/
theorem Frame.groupAt_eq {unit : AngleUnit} {table : ConstantTable} {c : Frame} {inner : Line}
    (hfit : CommasFit c.pending inner) (hshaped : inner.Shaped .left 0)
    (hknown : table.Covers inner.toTokens) {whole : Run Quantity}
    (hwhole : inner.commas = 0 → whole = inner.result unit table {}) :
    c.groupAt unit whole (inner.parts.map fun part => part.result unit table {})
      = c.group unit (inner.values unit table {}) := by
  have hone (hcommas : inner.commas = 0) :
      inner.values unit table {} = (fun v => [v]) <$> whole := by
    rw [hwhole hcommas]
    exact hshaped.values_eq hcommas hknown (follows_start (.inl rfl))
  rw [groupAt, group]
  cases hpending : c.pending with
  | none =>
    have hcommas : inner.commas = 0 := hfit.commas_eq_zero (by simp [hpending])
    simp [hone hcommas]
  | some op =>
    by_cases hback : op.isBackward
    · have hcommas : inner.commas = 0 := by
        apply hfit.commas_eq_zero
        rw [hpending]
        rintro ⟨⟩
        cases hback
      simp [hback, hone hcommas]
    · by_cases hmany : op.commas?.isSome ∧
          1 < (inner.parts.map fun part => part.result unit table {}).length
      · simp only [hback, hmany, and_self, if_true, List.mapM_map,
          hshaped.values_eq_mapM hknown]
        rfl
      · have hcommas : inner.commas = 0 := by
          rcases hfit with hzero | ⟨hlog, hone⟩
          · exact hzero
          · rw [hpending] at hlog
            cases hlog
            simp [Operation.commas?, Line.length_parts, hone] at hmany
        simp only [if_neg hback, if_neg hmany, hone hcommas, bind_map_left]
        rfl

namespace Evaluator

variable {e : Evaluator} {stop i j : Nat} {c : Frame} {k : Key}

theorem level_end (h : stop ≤ i) : e.level stop c i = c.finish := by
  rw [level, if_neg (Nat.not_lt.2 h)]

theorem level_key (hi : i < stop) (h : e.buffer.tokens[i]? = some (.key k)) :
    e.level stop c i = c.key e.table k >>= fun c' => e.level stop c' (i + 1) := by
  rw [level, if_pos hi, h]

theorem level_left (hi : i < stop) (h : e.buffer.tokens[i]? = some .left)
    (hj : e.buffer.pairing.closing? i = some j) (hstop : j < stop) :
    e.level stop c i = c.groupAt e.unit (e.range (i + 1) j)
        ((commaRanges e.buffer.tokens (i + 1) j).map fun r => e.range r.1 r.2) >>=
      fun c' => e.level stop c' (j + 1) := by
  rw [level, if_pos hi, h]
  have harguments : (commaRanges e.buffer.tokens (i + 1) j).attach.map
      (fun r => e.range r.1.1 r.1.2) = _ :=
    List.attach_map_val (f := fun r : Nat × Nat => e.range r.1 r.2)
  simp only [PairedTokens.closing?_eq_some hj, dif_pos hstop, harguments]

/-! ## Levels by position -/

/-- Wherever the tokens of the line stand, the level they make up has the result of the line. -/
def Evaluates (e : Evaluator) (line : Line) : Prop :=
  ∀ (a : Token) (bars : Nat) (c : Frame) (before after : List Token),
    line.Shaped a bars → line.commas = 0 → e.table.Covers line.toTokens → c.Follows a →
    e.buffer.tokens = before ++ line.toTokens ++ after →
      e.level (before.length + line.toTokens.length) c before.length
        = line.result e.unit e.table c

variable {line inner rest : Line}

theorem Evaluates.range_eq (h : e.Evaluates line) (hshaped : line.Shaped .left 0)
    (hcommas : line.commas = 0) (hknown : e.table.Covers line.toTokens) {before after : List Token}
    (hbuffer : e.buffer.tokens = before ++ line.toTokens ++ after) :
    e.range before.length (before.length + line.toTokens.length)
      = line.result e.unit e.table {} := by
  have hne : before.length ≠ before.length + line.toTokens.length := by
    cases line with
    | nil => cases hshaped.operand rfl
    | key k rest => simp [Line.toTokens]
    | group inner rest => simp [Line.toTokens]
  rw [range, if_neg hne]
  exact h _ _ _ _ _ hshaped hcommas hknown (Frame.follows_start (.inl rfl)) hbuffer

theorem evaluates_nil (e : Evaluator) : e.Evaluates .nil := by
  intro a bars c before after _ _ _ _ _
  rw [Line.result_nil]
  exact level_end (Nat.le_refl before.length)

theorem Evaluates.key (h : e.Evaluates rest) (k : Key) : e.Evaluates (.key k rest) := by
  intro a bars c before after hshaped hcommas hknown hc hbuffer
  obtain ⟨hfit, hplain, -, hrest⟩ := hshaped
  have hk : k ≠ .comma := by
    rintro rfl
    simp [Line.commas] at hcommas
  have hget : e.buffer.tokens[before.length]? = some (.key k) := by
    simp [hbuffer, Line.toTokens]
  have hkey := hc.safe_key hfit hplain hk fun name hn => hknown name (hn ▸ List.mem_cons_self)
  rw [Line.result_key hk, level_key (by simp [Line.toTokens]) hget]
  apply hkey.bind_congr
  intro c' hc'
  have hnext := h _ _ c' (before ++ [.key k]) after hrest (by simpa [Line.commas, hk] using hcommas)
    (hknown.of_subset (List.subset_cons_self _ _)) hc' (by simp [hbuffer, Line.toTokens])
  simpa [Line.toTokens, Nat.add_assoc, Nat.add_comm 1] using hnext

/-- A range of positions and the line whose tokens it holds. -/
theorem exists_append_tokensIn {buffer : List Token} {r : Nat × Nat} (hle : r.1 ≤ r.2)
    (hlength : r.2 ≤ buffer.length) : ∃ before after,
      buffer = before ++ tokensIn buffer r ++ after ∧
        r = (before.length, before.length + (tokensIn buffer r).length) := by
  refine ⟨buffer.take r.1, buffer.drop r.2, ?_, ?_⟩
  · have htake : buffer.take r.1 = (buffer.take r.2).take r.1 := by
      rw [List.take_take, Nat.min_eq_left hle]
    rw [tokensIn, htake, List.take_append_drop, List.take_append_drop]
  · simp only [tokensIn, List.length_take, List.length_drop, Prod.ext_iff]
    omega

/-- The ranges between the commas have the results of the parts. -/
theorem map_range_commaRanges (hparts : ∀ part ∈ inner.parts, e.Evaluates part)
    (hshaped : inner.Shaped .left 0) (hknown : e.table.Covers inner.toTokens)
    {before after : List Token} (hbuffer : e.buffer.tokens = before ++ inner.toTokens ++ after) :
    ((commaRanges e.buffer.tokens before.length (before.length + inner.toTokens.length)).map
        fun r => e.range r.1 r.2)
      = inner.parts.map fun part => part.result e.unit e.table {} := by
  have hranges := map_tokensIn_commaRanges before inner after
  rw [← hbuffer] at hranges
  have hresult := congrArg (List.map fun ts =>
    ((Line.ofTokens? ts).getD .nil).result e.unit e.table {}) hranges
  simp only [List.map_map, Function.comp_def, Line.ofTokens?_toTokens, Option.getD_some] at hresult
  rw [← hresult]
  refine List.map_congr_left fun r hr => ?_
  obtain ⟨-, hle, hhigh⟩ := bounds_of_mem_commaRanges hr (Nat.le_add_right _ _)
  obtain ⟨part, hpart, htokens⟩ := List.mem_map.1 (hranges ▸ List.mem_map_of_mem hr)
  obtain ⟨hpartShaped, hcommas⟩ := hshaped.of_mem_parts hpart
  have hpartKnown := hknown.of_subset (inner.toTokens_subset_of_mem_parts part hpart)
  have hlength : r.2 ≤ e.buffer.tokens.length := by
    rw [hbuffer, List.length_append, List.length_append]
    omega
  obtain ⟨first, last, hsplit, hr⟩ := exists_append_tokensIn hle hlength
  rw [← htokens] at hsplit hr
  have hrange := (hparts part hpart).range_eq hpartShaped hcommas hpartKnown hsplit
  rw [← htokens, Line.ofTokens?_toTokens, Option.getD_some, ← hrange, hr]

theorem Evaluates.group (he : e.buffer.pairing.Matches e.buffer.tokens) (hinner : e.Evaluates inner)
    (hparts : ∀ part ∈ inner.parts, e.Evaluates part) (h : e.Evaluates rest) :
    e.Evaluates (.group inner rest) := by
  intro a bars c before after hshaped hcommas hknown hc hbuffer
  obtain ⟨hfit, hfits, hinside, hrest⟩ := hshaped
  have hknownInner : e.table.Covers inner.toTokens :=
    hknown.of_subset fun t ht => Line.mem_toTokens_group.2 (.inr (.inl ht))
  have hknownRest : e.table.Covers rest.toTokens :=
    hknown.of_subset fun t ht => Line.mem_toTokens_group.2 (.inr (.inr (.inr ht)))
  have hsplit : e.buffer.tokens
      = before ++ .left :: (inner.toTokens ++ .right :: (rest.toTokens ++ after)) := by
    simp [hbuffer, Line.toTokens]
  have hclosing := he.closing?_eq hsplit
  have hget : e.buffer.tokens[before.length]? = some .left := by simp [hsplit]
  have hlength : before.length + (Line.group inner rest).toTokens.length
      = before.length + 1 + inner.toTokens.length + 1 + rest.toTokens.length := by
    simp only [Line.toTokens, List.length_cons, List.length_append]
    omega
  have hcontent : e.buffer.tokens = (before ++ [.left]) ++ inner.toTokens
      ++ .right :: (rest.toTokens ++ after) := by simp [hsplit]
  have hwhole (hnone : inner.commas = 0) := hinner.range_eq hinside hnone hknownInner hcontent
  have harguments := map_range_commaRanges hparts hinside hknownInner hcontent
  rw [List.length_append, List.length_singleton] at hwhole harguments
  rw [← hc.pending] at hfits
  rw [hlength, level_left (by omega) hget hclosing (by omega), harguments,
    Frame.groupAt_eq hfits hinside hknownInner hwhole, Line.result_group]
  rw [hc.pending] at hfits
  have hvalues := hinside.safe_values e.unit hknownInner (Frame.follows_start (.inl rfl))
  apply (hc.safe_group hfit e.unit hfits hvalues).bind_congr
  intro c' hc'
  have hnext := h _ _ c' (before ++ .left :: (inner.toTokens ++ [.right])) after hrest hcommas
    hknownRest hc' (by simp [hsplit])
  simpa [Nat.add_assoc, Nat.add_comm 1] using hnext

/-- Every line is evaluated so, and each of its parts by itself. -/
theorem evaluates (he : e.buffer.pairing.Matches e.buffer.tokens) (line : Line) :
    e.Evaluates line ∧ ∀ part ∈ line.parts, e.Evaluates part := by
  induction line with
  | nil => exact ⟨evaluates_nil e, by simpa [Line.parts] using evaluates_nil e⟩
  | key k rest ih =>
    obtain ⟨hrest, hparts⟩ := ih
    refine ⟨hrest.key k, ?_⟩
    rw [Line.parts]
    split
    · exact List.forall_mem_cons.2 ⟨evaluates_nil e, hparts⟩
    · exact forall_mem_modifyHead hparts fun part hpart => hpart.key k
  | group inner rest ihi ihr =>
    obtain ⟨hrest, hparts⟩ := ihr
    exact ⟨Evaluates.group he ihi.1 ihi.2 hrest,
      forall_mem_modifyHead hparts fun part hpart => Evaluates.group he ihi.1 ihi.2 hpart⟩

end Evaluator

/-- The tokens of a canonical line have its value. -/
theorem tokensValue_toTokens (unit : AngleUnit) {table : ConstantTable} {line : Line}
    (h : line = .nil ∨ line.Shaped .left 0 ∧ line.commas = 0)
    (hknown : table.Covers line.toTokens) :
    tokensValue unit table line.toTokens = line.value unit table := by
  have hpaired := Pairing.ofTokens_toTokens line
  obtain ⟨b, hb, hpairing, htokens⟩ := PairedTokens.exists_ofTokens_eq_ok hpaired
  have hmatches := Pairing.matches_of_ofTokens hpaired
  rw [← hpairing] at hmatches htokens
  have hmissing : b.pairing.missing = 0 := by rw [hpairing]
  rw [hmissing, List.replicate_zero, List.append_nil] at hmatches htokens
  rw [← htokens] at hmatches
  simp only [tokensValue, hb, hmissing, if_true]
  rcases h with rfl | ⟨hshaped, hcommas⟩
  · simp [Line.toTokens, Evaluator.range, Line.value]
  · have hbuffer : b.tokens = [] ++ line.toTokens ++ [] := by simp [htokens]
    have hevaluates := (Evaluator.evaluates (e := ⟨unit, table, b⟩) hmatches line).1
    have hrange := hevaluates.range_eq hshaped hcommas hknown hbuffer
    rw [List.length_nil, Nat.zero_add] at hrange
    have hne : line ≠ .nil := by
      rintro rfl
      cases hshaped.operand rfl
    rw [hrange, Line.value, Line.result, bind_assoc]
    · apply bind_congr
      intro vs
      rcases vs with _ | ⟨v, _ | ⟨w, vs⟩⟩ <;> rfl
    · exact hne

end Keypad
