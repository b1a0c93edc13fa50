import Keypad.ConstantTable
import Keypad.Proofs.Canonical.Levels

/-!
# What a canonical line takes from its tokens

Every token of a canonical line was typed, or belongs to the previous answer, or is written in place
of a shorthand. Hence its constants are known if those of its tokens are. Tokens that have no
canonical line are refused as a formula.
-/

namespace Keypad

variable {table : ConstantTable}

/-- The constants among the tokens are those of the table, or defined by themselves. -/
def ConstantTable.Covers (table : ConstantTable) (tokens : List Token) : Prop :=
  ∀ name, .key (.constant (.named name)) ∈ tokens → (table.value? name).isSome

theorem ConstantTable.Covers.of_subset {ts us : List Token} (h : table.Covers us) (hsub : ts ⊆ us) :
    table.Covers ts := fun name hname => h name (hsub hname)

/-- Is the token a parenthesis, or a key of what a shorthand stands for? The canonical pass writes
these by itself. -/
def Token.isWritten : Token → Bool
  | key .plus | key .minus | key .times | key .obelus | key (.literal _)
  | key (.operation .exponent) | left | right => true
  | _ => false

/-! ## Tokens of a line -/

namespace Line

/-- The tokens of a line that is being read from its end, with the lines behind it. -/
def spelled (state : Line × List Line) : List Token :=
  state.1.toTokens ++ state.2.flatMap fun line => .right :: line.toTokens

theorem exists_spelled_place (t : Token) (state : Line × List Line) :
    ∃ n, spelled (place t state) = t :: spelled state ++ List.replicate n .right := by
  obtain ⟨line, outer⟩ := state
  cases t with
  | key k => exact ⟨0, by simp [place, spelled, toTokens]⟩
  | right => exact ⟨0, by simp [place, spelled, toTokens]⟩
  | left =>
    cases outer with
    | nil => exact ⟨1, by simp [place, spelled, toTokens]⟩
    | cons after outer => exact ⟨0, by simp [place, spelled, toTokens]⟩

/-- A line has the tokens it is read from, and the right parentheses that were missing. -/
theorem exists_toTokens_of_ofTokens? {tokens : List Token} {line : Line}
    (h : ofTokens? tokens = some line) :
    ∃ n, line.toTokens = tokens ++ List.replicate n .right := by
  have hspelled : ∃ n, spelled (tokens.foldr place (nil, []))
      = tokens ++ List.replicate n .right := by
    clear h
    induction tokens with
    | nil => exact ⟨0, rfl⟩
    | cons t ts ih =>
      obtain ⟨n, hn⟩ := ih
      obtain ⟨k, hk⟩ := exists_spelled_place t (ts.foldr place (nil, []))
      refine ⟨n + k, ?_⟩
      rw [List.foldr_cons, hk, hn, ← List.replicate_append_replicate]
      simp
  rw [ofTokens?] at h
  split at h
  · next hfold =>
    cases h
    simpa [hfold, spelled] using hspelled
  · cases h

theorem mem_of_mem_toTokens {tokens : List Token} {line : Line} (h : ofTokens? tokens = some line)
    {t : Token} (ht : t ∈ line.toTokens) : t ∈ tokens ∨ t = .right := by
  obtain ⟨n, hn⟩ := exists_toTokens_of_ofTokens? h
  rw [hn] at ht
  exact (List.mem_append.1 ht).imp_right List.eq_of_mem_replicate

theorem mem_toTokens_group {inner rest : Line} {t : Token} :
    t ∈ (group inner rest).toTokens ↔
      t = .left ∨ t ∈ inner.toTokens ∨ t = .right ∨ t ∈ rest.toTokens := by
  simp [toTokens]

end Line

namespace Canonical

/-! ## The previous answer -/

section Answer

variable {answer answer' : Except Failure Line} {place : Place} {p : Progress} {line out : Line}

/-- Only `Ans` is written with the previous answer. -/
theorem Progress.emit_answer_congr {k : Key} (h : k = .answer → answer = answer') (p : Progress)
    (grouped : Bool) : p.emit answer grouped k = p.emit answer' grouped k := by
  cases k with
  | answer => rw [h rfl]
  | _ => rfl

theorem level_congr (h : .key .answer ∈ line.toTokens → answer = answer') :
    level answer place p line = level answer' place p line := by
  fun_induction level answer place p line with
  | case1 place p => rw [level]
  | case2 place p rest ih => rw [ih fun hmem => h (List.mem_cons_of_mem _ hmem), level]
  | case3 place p rest ih => rw [ih fun hmem => h (List.mem_cons_of_mem _ hmem), level]
  | case4 place p rest hdivided ih =>
    rw [ih fun hmem => h (List.mem_cons_of_mem _ hmem), level, if_pos hdivided]
  | case5 place p rest hdivided => rw [level, if_neg hdivided]
  | case6 place p k rest _ _ _ ih =>
    have hkey : k = .answer → answer = answer' := fun hk => h (hk ▸ List.mem_cons_self)
    have hown := p.emit_answer_congr hkey rest.startsWithGroup
    have htail := ih fun hmem => h (List.mem_cons_of_mem _ hmem)
    rw [level, hown, htail] <;> assumption
  | case7 place p inner rest ihi ihr =>
    have hinner := ihi fun hmem => h (Line.mem_toTokens_group.2 (.inr (.inl hmem)))
    have hrest := ihr fun hmem => h (Line.mem_toTokens_group.2 (.inr (.inr (.inr hmem))))
    rw [level, hinner, hrest]

theorem fill_congr {tokens : List Token} (h : .key .answer ∈ tokens → answer = answer')
    (place : Place) : fill answer place tokens = fill answer' place tokens := by
  rw [fill, fill]
  split
  · rfl
  · next line hline =>
    apply level_congr
    intro hmem
    rcases Line.mem_of_mem_toTokens hline hmem with htokens | hright
    · exact h htokens
    · cases hright

/-- A level that is accepted without a previous answer does not hold `Ans`. -/
theorem answer_notMem_of_level {f : Failure} (h : level (.error f) place p line = .ok out) :
    .key .answer ∉ line.toTokens := by
  replace h := becomes_of_level h
  induction h with
  | nil => exact List.not_mem_nil
  | plus _ ih | minus _ ih | comma _ _ _ ih =>
    exact List.not_mem_cons_of_ne_of_not_mem (by simp) ih
  | key _ hown _ ih =>
    refine List.not_mem_cons_of_ne_of_not_mem (fun hk => ?_) ih
    cases Token.key.inj hk
    cases hown
  | group _ _ _ ihi ih =>
    rw [Line.mem_toTokens_group]
    rintro (hleft | hinner | hright | hrest)
    · cases hleft
    · exact ihi hinner
    · cases hright
    · exact ih hrest

/-- Such a level is accepted with any previous answer, and is written alike. -/
theorem level_of_level_error {f : Failure} (h : level (.error f) place p line = .ok out) :
    level answer place p line = .ok out := by
  rw [← h]
  exact level_congr fun hmem => absurd hmem (answer_notMem_of_level h)

end Answer

/-! ## Where the tokens of a canonical line come from -/

theorem Progress.isWritten_of_mem_lead {p : Progress} {t u : Token} (h : u ∈ (p.lead t).toTokens) :
    u.isWritten := by
  rw [lead] at h
  split at h
  · obtain rfl := List.mem_singleton.1 h
    split <;> rfl
  · split at h
    · obtain rfl := List.mem_singleton.1 h
      rfl
    · cases h

theorem Progress.of_mem_emit {p : Progress} {answer : Except Failure Line} {grouped : Bool}
    {k : Key} {own : Line} (h : p.emit answer grouped k = .ok own) {u : Token}
    (hu : u ∈ own.toTokens) :
    u.isWritten ∨ u = .key k ∨ ∃ line, answer = .ok line ∧ u ∈ line.toTokens := by
  obtain ⟨rfl, -⟩ | ⟨text, base, -, -, rfl⟩ | ⟨-, rfl⟩ | ⟨-, line, hline, rfl⟩ := eq_of_emit h
  · exact .inr (.inl (List.mem_singleton.1 hu))
  · refine .inl ?_
    rcases List.mem_cons.1 hu with rfl | hu
    · rfl
    · rw [List.mem_singleton.1 hu]
      rfl
  · refine .inl ?_
    rcases List.mem_cons.1 hu with rfl | hu
    · rfl
    · rw [List.mem_singleton.1 hu]
      rfl
  · rcases Line.mem_toTokens_group.1 hu with rfl | hmem | rfl | hmem
    · exact .inl rfl
    · exact .inr (.inr ⟨line, hline, hmem⟩)
    · exact .inl rfl
    · cases hmem

/-- A token of what a level becomes is written by the pass, or read in the level, or it belongs to
the previous answer. -/
theorem of_mem_level {answer : Except Failure Line} {place : Place} {p : Progress}
    {line out : Line} (h : level answer place p line = .ok out) {u : Token}
    (hu : u ∈ out.toTokens) :
    u.isWritten ∨ u ∈ line.toTokens ∨ ∃ m, answer = .ok m ∧ u ∈ m.toTokens := by
  replace h := becomes_of_level h
  induction h with
  | nil => cases hu
  | plus _ ih | minus _ ih => exact (ih hu).imp_right (.imp_left (List.mem_cons_of_mem _))
  | comma _ _ _ ih =>
    rcases List.mem_cons.1 hu with rfl | hu
    · exact .inr (.inl List.mem_cons_self)
    · exact (ih hu).imp_right (.imp_left (List.mem_cons_of_mem _))
  | key _ hown _ ih =>
    simp only [Line.toTokens_append, List.mem_append] at hu
    rcases hu with hlead | hmem | htail
    · exact .inl (Progress.isWritten_of_mem_lead hlead)
    · rcases Progress.of_mem_emit hown hmem with hw | rfl | hanswer
      · exact .inl hw
      · exact .inr (.inl List.mem_cons_self)
      · exact .inr (.inr hanswer)
    · exact (ih htail).imp_right (.imp_left (List.mem_cons_of_mem _))
  | group _ _ _ ihi ih =>
    simp only [Line.toTokens_append, List.mem_append, Line.mem_toTokens_group] at hu ⊢
    rcases hu with hlead | rfl | hcontent | rfl | htail
    · exact .inl (Progress.isWritten_of_mem_lead hlead)
    · exact .inl rfl
    · exact (ihi hcontent).imp_right (.imp_left fun hinner => .inr (.inl hinner))
    · exact .inl rfl
    · exact (ih htail).imp_right (.imp_left fun hrest => .inr (.inr (.inr hrest)))

theorem of_mem_fill {answer : Except Failure Line} {place : Place} {tokens : List Token}
    {line : Line} (h : fill answer place tokens = .ok line) {u : Token} (hu : u ∈ line.toTokens) :
    u.isWritten ∨ u ∈ tokens ∨ ∃ m, answer = .ok m ∧ u ∈ m.toTokens := by
  rw [fill] at h
  split at h
  · cases h
  · next hline =>
    rcases of_mem_level h hu with hw | hmem | hanswer
    · exact .inl hw
    · rcases Line.mem_of_mem_toTokens hline hmem with htokens | rfl
      · exact .inr (.inl htokens)
      · exact .inl rfl
    · exact .inr (.inr hanswer)

/-- A token of a canonical line is written by the pass, or it was typed, or it belongs to the
previous answer. -/
theorem of_mem_ofTokens {answer tokens : List Token} {inGroup : Bool} {op : Option Operation}
    {line : Line} (h : ofTokens answer tokens inGroup op = .ok line) {u : Token}
    (hu : u ∈ line.toTokens) : u.isWritten ∨ u ∈ tokens ∨ u ∈ answer := by
  rw [ofTokens] at h
  split at h
  · cases h
    cases hu
  · rcases of_mem_fill h hu with hw | htokens | ⟨m, hm, hmem⟩
    · exact .inl hw
    · exact .inr (.inl htokens)
    · rcases of_mem_fill hm hmem with hw | hanswer | ⟨nested, hnested, -⟩
      · exact .inl hw
      · exact .inr (.inr hanswer)
      · cases hnested

/-- The constants of a canonical line are known when those of the tokens and of the previous answer
are. -/
theorem covers_of_ofTokens {answer tokens : List Token} {inGroup : Bool} {op : Option Operation}
    {line : Line} (h : ofTokens answer tokens inGroup op = .ok line)
    (htokens : table.Covers tokens) (hanswer : table.Covers answer) :
    table.Covers line.toTokens := by
  intro name hname
  rcases of_mem_ofTokens h hname with hw | hmem | hmem
  · cases hw
  · exact htokens name hmem
  · exact hanswer name hmem

/-! ## Tokens that are refused -/

/-- If it fails, then because the formula is badly typed. -/
abbrev FailsAsFormula {α : Type} (x : Except Failure α) : Prop :=
  FailsIn (fun f => f.kind = .formula) x

theorem failsAsFormula_check (text : String) : FailsAsFormula (Literal.check text) := by
  intro f hf
  simp only [Literal.check] at hf
  split_ifs at hf <;> cases hf <;> rfl

theorem Progress.failsAsFormula_requireOperand (p : Progress) (k : Key) :
    FailsAsFormula (p.requireOperand k) := by
  intro f hf
  rw [requireOperand] at hf
  split at hf <;> cases hf
  rfl

theorem Progress.failsAsFormula_finish (p : Progress) (place : Place) :
    FailsAsFormula (p.finish place) := by
  intro f hf
  rw [finish] at hf
  split at hf
  · cases hf
    rfl
  · split at hf <;> cases hf
    rfl

theorem failsAsFormula_checkCommas (pending : Option Operation) (inner : Line) :
    FailsAsFormula (checkCommas pending inner) := by
  intro f hf
  simp only [checkCommas] at hf
  split at hf
  · cases hf
  · split at hf <;> cases hf
    rfl

theorem Progress.failsAsFormula_emit (p : Progress) {answer : Except Failure Line} (grouped : Bool)
    {k : Key} (h : k = .answer → FailsAsFormula answer) :
    FailsAsFormula (p.emit answer grouped k) := by
  have hrequire := p.failsAsFormula_requireOperand
  cases k with
  | literal text =>
    have hcheck (base : String) (line : Line) :
        FailsAsFormula (Literal.check base >>= fun _ => pure line) :=
      (failsAsFormula_check base).bind fun _ => failsIn_ok line
    simp only [emit]
    split
    · split
      · exact failsIn_error rfl
      · split
        · exact failsIn_ok _
        · exact hcheck _ _
    · exact hcheck _ _
  | operation op =>
    have hgroup : FailsAsFormula (if grouped then pure (.key (.operation op) .nil)
        else throw (.missingGroup op) : Except Failure Line) := by
      split
      · exact failsIn_ok _
      · exact failsIn_error rfl
    simp only [emit]
    split
    · exact (hrequire _).bind fun _ => hgroup
    · exact hgroup
  | bar =>
    apply (hrequire _).bind
    intro _
    split
    · exact failsIn_ok _
    · exact failsIn_error rfl
  | answer => exact (h rfl).bind fun _ => failsIn_ok _
  | constant c => exact failsIn_ok _
  | _ => exact (hrequire _).bind fun _ => failsIn_ok _

theorem failsAsFormula_level {answer : Except Failure Line} (place : Place) (p : Progress)
    {line : Line} (h : .key .answer ∈ line.toTokens → FailsAsFormula answer) :
    FailsAsFormula (level answer place p line) := by
  fun_induction level answer place p line with
  | case1 place p => exact (p.failsAsFormula_finish place).bind fun _ => failsIn_ok _
  | case2 place p rest ih => exact ih fun hmem => h (List.mem_cons_of_mem _ hmem)
  | case3 place p rest ih => exact ih fun hmem => h (List.mem_cons_of_mem _ hmem)
  | case4 place p rest _ ih =>
    have hrest := ih fun hmem => h (List.mem_cons_of_mem _ hmem)
    exact (p.failsAsFormula_finish place).bind fun _ => hrest.bind fun _ => failsIn_ok _
  | case5 => exact failsIn_error rfl
  | case6 place p k rest _ _ _ ih =>
    have hown := p.failsAsFormula_emit rest.startsWithGroup (k := k) fun hk =>
      h (hk ▸ List.mem_cons_self)
    have hrest := ih fun hmem => h (List.mem_cons_of_mem _ hmem)
    exact hown.bind fun _ => hrest.bind fun _ => failsIn_ok _
  | case7 place p inner rest ihi ihr =>
    have hinner := ihi fun hmem => h (by simp [Line.toTokens, hmem])
    have hrest := ihr fun hmem => h (by simp [Line.toTokens, hmem])
    apply (failsAsFormula_checkCommas p.pending inner).bind
    intro _
    exact hinner.bind fun _ => hrest.bind fun _ => failsIn_ok _

theorem failsAsFormula_fill {answer : Except Failure Line} (place : Place) {tokens : List Token}
    (h : .key .answer ∈ tokens → FailsAsFormula answer) :
    FailsAsFormula (fill answer place tokens) := by
  rw [fill]
  split
  · exact failsIn_error rfl
  · next line hline =>
    refine failsAsFormula_level place {} fun hmem => h ?_
    obtain ⟨n, hn⟩ := Line.exists_toTokens_of_ofTokens? hline
    rw [hn] at hmem
    rcases List.mem_append.1 hmem with htokens | hright
    · exact htokens
    · cases List.eq_of_mem_replicate hright

/-- With a previous answer that does not refer to one itself. -/
theorem failsAsFormula_ofTokens {answer : List Token} (h : .key .answer ∉ answer)
    (tokens : List Token) (inGroup : Bool) (op : Option Operation) :
    FailsAsFormula (ofTokens answer tokens inGroup op) := by
  have hanswer : FailsAsFormula (ofAnswer answer) := failsAsFormula_fill _ fun hmem => absurd hmem h
  rw [ofTokens]
  split
  · exact failsIn_ok _
  · exact failsAsFormula_fill _ fun _ => hanswer

end Canonical

end Keypad
