import Keypad.Proofs.Canonical.Content
import Keypad.Proofs.Canonical.Ranges
import Keypad.Proofs.Evaluation.Frame

/-!
# Arguments of a logarithm

The pass over a formula and the evaluation of its canonical line cut the arguments of a logarithm
apart independently: the pass cuts the typed tokens, in which parentheses may be missing and `Ans`
may stand, and the evaluation cuts the buffer of the canonical tokens. Both find the same number of
arguments, and each range of the buffer holds the canonical form of the typed argument. So what the
pass adds within an argument, be it a group, a logarithm or the previous answer, adds no boundary.
-/

namespace Keypad

theorem forall₂_trans {α β γ : Type} {R : α → β → Prop} {S : β → γ → Prop} {T : α → γ → Prop}
    (hT : ∀ a b c, R a b → S b c → T a c) {as : List α} {bs : List β} {cs : List γ}
    (h : List.Forall₂ R as bs) (h' : List.Forall₂ S bs cs) : List.Forall₂ T as cs := by
  induction h generalizing cs with
  | nil =>
    cases h'
    exact .nil
  | cons hab _ ih =>
    cases h' with
    | cons hbc hrest => exact .cons (hT _ _ _ hab hbc) (ih hrest)

theorem forall_mem_modifyHead {α : Type} {P : α → Prop} {as : List α} {f : α → α}
    (h : ∀ a ∈ as, P a) (hf : ∀ a, P a → P (f a)) : ∀ a ∈ as.modifyHead f, P a := by
  cases as with
  | nil => exact h
  | cons a as =>
    obtain ⟨ha, has⟩ := List.forall_mem_cons.1 h
    exact List.forall_mem_cons.2 ⟨hf a ha, has⟩

theorem mapM_congr {m : Type → Type} [Monad m] [LawfulMonad m] {α β : Type} {as : List α}
    {f g : α → m β} (h : ∀ a ∈ as, f a = g a) : as.mapM f = as.mapM g := by
  have hmap := congrArg (List.mapM id) (List.map_congr_left h)
  rwa [List.mapM_map, List.mapM_map] at hmap

namespace Line

/-! ## Parts -/

theorem length_parts (line : Line) : line.parts.length = line.commas + 1 := by
  induction line with
  | nil => rfl
  | key k rest ih =>
    by_cases hk : k = .comma
    · simp [parts, commas, hk, ih, Nat.add_comm]
    · simp [parts, commas, hk, ih]
  | group inner rest _ ih => simpa [parts, commas] using ih

theorem parts_append {line : Line} (h : line.commas = 0) (rest : Line) :
    (line ++ rest).parts = rest.parts.modifyHead (line ++ ·) := by
  induction line with
  | nil => exact (modifyHead_nil_append _).symm
  | key k line ih =>
    have hk : k ≠ .comma := by
      rintro rfl
      simp [commas] at h
    rw [key_append, parts, if_neg hk, ih (by simpa [commas, hk] using h)]
    exact modifyHead_append (.key k .nil) line rest.parts
  | group inner line _ ih =>
    rw [group_append, parts, ih h]
    exact modifyHead_append (.group inner .nil) line rest.parts

theorem toTokens_subset_of_mem_parts (line : Line) :
    ∀ part ∈ line.parts, part.toTokens ⊆ line.toTokens := by
  induction line with
  | nil => simp [parts]
  | key k rest ih =>
    have hrest : ∀ part ∈ rest.parts, part.toTokens ⊆ (key k rest).toTokens := fun part hpart =>
      List.subset_cons_of_subset _ (ih part hpart)
    rw [parts]
    split
    · exact List.forall_mem_cons.2 ⟨List.nil_subset _, hrest⟩
    · exact forall_mem_modifyHead hrest fun part hpart =>
        List.cons_subset.2 ⟨List.mem_cons_self, hpart⟩
  | group inner rest _ ih =>
    have hrest : ∀ part ∈ rest.parts, part.toTokens ⊆ (group inner rest).toTokens :=
      fun part hpart t ht => mem_toTokens_group.2 (.inr (.inr (.inr (ih part hpart ht))))
    refine forall_mem_modifyHead hrest fun part hpart t ht => mem_toTokens_group.2 ?_
    rcases mem_toTokens_group.1 ht with hleft | hinner | hright | hpart'
    · exact .inl hleft
    · exact .inr (.inl hinner)
    · exact .inr (.inr (.inl hright))
    · exact mem_toTokens_group.1 (hpart hpart')

theorem startsWithGroup_of_parts {line first : Line} {others : List Line}
    (h : line.parts = first :: others) : first.startsWithGroup = line.startsWithGroup := by
  cases line with
  | nil =>
    cases h
    rfl
  | key k rest =>
    rw [parts] at h
    split at h
    · cases h
      rfl
    · cases hrest : rest.parts with
      | nil => simp [hrest] at h
      | cons part parts =>
        rw [hrest] at h
        cases h
        rfl
  | group inner rest =>
    rw [parts] at h
    cases hrest : rest.parts with
    | nil => simp [hrest] at h
    | cons part parts =>
      rw [hrest] at h
      cases h
      rfl

/-- The values of a line are those of its parts, each of which but the first is a level of its
own. -/
theorem exists_values_eq (unit : AngleUnit) (table : ConstantTable) (line : Line) :
    ∃ first others, line.parts = first :: others ∧ ∀ c : Frame,
      line.values unit table c = do
        let vs ← first.values unit table c
        let rest ← others.mapM fun part => part.values unit table {}
        return vs ++ rest.flatten := by
  induction line with
  | nil => exact ⟨nil, [], rfl, fun c => by simp [values]⟩
  | key k rest ih =>
    obtain ⟨first, others, hparts, hvalues⟩ := ih
    by_cases hk : k = .comma
    · subst hk
      refine ⟨nil, first :: others, by simp [parts, hparts], fun c => ?_⟩
      simp [values, hvalues, List.mapM_cons]
    · refine ⟨key k first, others, by simp [parts, hk, hparts], fun c => ?_⟩
      rw [values_key unit table c hk, values_key unit table c hk, bind_assoc]
      exact congrArg _ (funext hvalues)
  | group inner rest _ ih =>
    obtain ⟨first, others, hparts, hvalues⟩ := ih
    refine ⟨group inner first, others, by simp [parts, hparts], fun c => ?_⟩
    rw [values, values, bind_assoc]
    exact congrArg _ (funext hvalues)

theorem values_eq_flatten (unit : AngleUnit) (table : ConstantTable) (line : Line) :
    line.values unit table {}
      = List.flatten <$> line.parts.mapM fun part => part.values unit table {} := by
  obtain ⟨first, others, hparts, hvalues⟩ := exists_values_eq unit table line
  rw [hparts, hvalues, List.mapM_cons]
  simp

/-! ## Logarithms -/

theorem logs_append {line : Line} (h : .key (.operation .log) ∉ line.toTokens) (rest : Line) :
    (line ++ rest).logs [] = rest.logs [] := by
  induction line generalizing rest with
  | nil => rfl
  | key k line ih =>
    simp only [toTokens, List.mem_cons, not_or] at h
    rw [key_append, logs, ite_self, logArgument_of_ne fun hk => h.1 (by rw [hk])]
    exact ih h.2 rest
  | group inner line ihi ihr =>
    rw [mem_toTokens_group] at h
    simp only [not_or] at h
    have hinner : inner.logs [] = [] := by
      have hnil := ihi h.2.1 nil
      rwa [append_nil] at hnil
    rw [group_append, logs, hinner]
    exact ihr h.2.2.2 rest

end Line

namespace Canonical

open Progress

variable {answer : Except Failure Line} {place : Place} {p : Progress} {line out : Line}

/-! ## The pass cuts at commas -/

/-- Each part of a divided level is written as a level of its own, the first one with what is known
before it. -/
theorem Becomes.exists_parts (h : Becomes answer place p line out) (hd : place.divided) :
    ∃ first others first' others', line.parts = first :: others ∧ out.parts = first' :: others' ∧
      Becomes answer { operation := place.operation } p first first' ∧
      List.Forall₂ (Becomes answer { operation := place.operation } {}) others others' := by
  induction h with
  | nil hfinish => exact ⟨.nil, [], .nil, [], rfl, rfl, .nil hfinish, .nil⟩
  | plus _ ih =>
    obtain ⟨first, others, first', others', hparts, hparts', hfirst, hothers⟩ := ih hd
    exact ⟨.key .plus first, others, first', others', by simp [Line.parts, hparts], hparts',
      .plus hfirst, hothers⟩
  | minus _ ih =>
    obtain ⟨first, others, first', others', hparts, hparts', hfirst, hothers⟩ := ih hd
    exact ⟨.key .minus first, others, first', others', by simp [Line.parts, hparts], hparts',
      .minus hfirst, hothers⟩
  | comma _ hfinish _ ih =>
    obtain ⟨first, others, first', others', hparts, hparts', hfirst, hothers⟩ := ih hd
    exact ⟨.nil, first :: others, .nil, first' :: others', by simp [Line.parts, hparts],
      by simp [Line.parts, hparts'], .nil hfinish, .cons hfirst hothers⟩
  | @key _ p k rest own tail hk hown _ ih =>
    obtain ⟨first, others, first', others', hparts, hparts', hfirst, hothers⟩ := ih hd
    refine ⟨.key k first, others, p.lead (.key k) ++ (own ++ first'), others',
      by simp [Line.parts, hk.2.2, hparts], ?_, .key hk ?_ hfirst, hothers⟩
    · rw [Line.parts_append (commas_lead p _), Line.parts_append (commas_of_emit hk.2.2 hown),
        hparts']
      rfl
    · rwa [Line.startsWithGroup_of_parts hparts]
  | @group _ p inner rest content tail hcheck hinner _ _ ih =>
    obtain ⟨first, others, first', others', hparts, hparts', hfirst, hothers⟩ := ih hd
    refine ⟨.group inner first, others, p.lead .left ++ .group content first', others',
      by simp [Line.parts, hparts], ?_, .group hcheck hinner hfirst, hothers⟩
    rw [Line.parts_append (commas_lead p _), Line.parts, hparts']
    rfl

/-- What the pass writes of the content of a logarithm's group. -/
def Argues (answer : Except Failure Line) (inner content : Line) : Prop :=
  level answer (.inside (some .log)) {} inner = .ok content

/-- The parts of the content are the arguments. -/
theorem Argues.parts {inner content : Line} (h : Argues answer inner content) :
    List.Forall₂ (fun part part' => level answer { operation := some .log } {} part = .ok part')
      inner.parts content.parts := by
  obtain ⟨first, others, first', others', hparts, hparts', hfirst, hothers⟩ :=
    (becomes_of_level h).exists_parts rfl
  rw [hparts, hparts']
  exact .cons hfirst.level_eq (hothers.imp fun _ _ h => h.level_eq)

/-! ## Logarithms of a level -/

theorem Argues.of_error {f : Failure} {inner content : Line} (h : Argues (.error f) inner content) :
    Argues answer inner content := level_of_level_error h

theorem log_not_mem_lead (p : Progress) (t : Token) :
    .key (.operation .log) ∉ (p.lead t).toTokens := fun h =>
  Bool.false_ne_true (Progress.isWritten_of_mem_lead h)

/-- A key other than `Ans` and the logarithm becomes no logarithm. -/
theorem log_not_mem_emit {g : Bool} {k : Key} {own : Line} (h : p.emit answer g k = .ok own)
    (ha : k ≠ .answer) (hk : k ≠ .operation .log) : .key (.operation .log) ∉ own.toTokens := by
  have h' : p.emit (.error .nestedAnswer) g k = .ok own := by
    rw [← h]
    exact p.emit_answer_congr (fun hanswer => absurd hanswer ha) g
  intro hmem
  rcases Progress.of_mem_emit h' hmem with hw | heq | ⟨m, hm, -⟩
  · exact Bool.false_ne_true hw
  · exact hk (Token.key.inj heq).symm
  · cases hm

/-- The group behind a logarithm is written right behind it. -/
theorem forall₂_logArgument_of_becomes {rest tail : Line} (hstarts : rest.startsWithGroup)
    (h : Becomes answer place (p.after (.operation .log)) rest tail) :
    List.Forall₂ (Argues answer) (Line.logArgument (.operation .log) rest)
      (Line.logArgument (.operation .log) tail) := by
  cases h with
  | group _ hinner => exact .cons hinner.level_eq .nil
  | _ => cases hstarts

/-- The logarithms of what a level becomes are those of the level, with those of the previous
answer in place of `Ans`. -/
theorem forall₂_logs_of_level {answered : List Line}
    (ha : ∀ m, answer = .ok m → List.Forall₂ (Argues answer) answered (m.logs []))
    (h : level answer place p line = .ok out) :
    List.Forall₂ (Argues answer) (line.logs answered) (out.logs []) := by
  replace h := becomes_of_level h
  induction h with
  | nil => exact .nil
  | plus _ ih | minus _ ih | comma _ _ _ ih => exact ih
  | @key _ p k _ _ _ _ hown htail ih =>
    rw [Line.logs, Line.logs_append (log_not_mem_lead p _)]
    by_cases hanswer : k = .answer
    · subst hanswer
      obtain ⟨m, hm, hown⟩ := Except.exists_of_bind hown
      cases hown
      exact List.rel_append (ha m hm) ih
    · rw [if_neg hanswer, List.nil_append]
      by_cases hlog : k = .operation .log
      · subst hlog
        obtain ⟨-, hstarts, rfl⟩ := Progress.emit_operation_eq_ok hown
        exact List.rel_append (forall₂_logArgument_of_becomes hstarts htail) ih
      · rw [Line.logArgument_of_ne hlog, Line.logs_append (log_not_mem_emit hown hanswer hlog)]
        exact ih
  | @group _ p _ _ _ _ _ _ _ ihi ih =>
    rw [Line.logs_append (log_not_mem_lead p _)]
    exact List.rel_append ihi ih

/-! ## Formulas -/

/-- The logarithms of the previous answer. -/
def answerLogs (answer : List Token) : List Line := ((Line.ofTokens? answer).getD .nil).logs []

theorem forall₂_logs_of_fill {answer tokens : List Token} {place : Place} {out : Line}
    (h : fill (ofAnswer answer) place tokens = .ok out) :
    ∃ line, Line.ofTokens? tokens = some line ∧
      List.Forall₂ (Argues (ofAnswer answer)) (line.logs (answerLogs answer)) (out.logs []) := by
  have hanswer (m : Line) (hm : ofAnswer answer = .ok m) :
      List.Forall₂ (Argues (ofAnswer answer)) (answerLogs answer) (m.logs []) := by
    rw [ofAnswer, fill] at hm
    split at hm
    · cases hm
    · next line hline =>
      have hnone (m' : Line) (hm' : .error .nestedAnswer = Except.ok (ε := Failure) m') :
          List.Forall₂ (Argues (.error .nestedAnswer)) [] (m'.logs []) := by cases hm'
      have hlogs := forall₂_logs_of_level hnone hm
      rw [answerLogs, hline]
      exact hlogs.imp fun _ _ h => h.of_error
  rw [fill] at h
  split at h
  · cases h
  · next line hline => exact ⟨line, hline, forall₂_logs_of_level hanswer h⟩

end Canonical

/-- The values of the tokens of a line. -/
def tokenValues (unit : AngleUnit) (table : ConstantTable) (tokens : List Token) :
    Run (List Quantity) :=
  ((Line.ofTokens? tokens).getD .nil).values unit table {}

theorem tokenValues_toTokens (unit : AngleUnit) (table : ConstantTable) (line : Line) :
    tokenValues unit table line.toTokens = line.values unit table {} := by
  rw [tokenValues, Line.ofTokens?_toTokens]
  rfl

namespace Canonical

/-- The content `inner` of a logarithm's group, as typed, and the range of its canonical tokens in
the buffer are cut alike. -/
structure CutAlike (answer buffer : List Token) (inner : Line) (range : Nat × Nat) : Prop where
  /-- There are as many arguments, and each has its canonical form in the buffer. -/
  arguments : List.Forall₂
    (fun typed written => ∃ part,
      ofTokens answer (tokensIn inner.toTokens typed) true (some .log) = .ok part ∧
      tokensIn buffer written = part.toTokens)
    (commaRanges inner.toTokens 0 inner.toTokens.length) (commaRanges buffer range.1 range.2)
  /-- The group is evaluated argument by argument. -/
  values : ∀ unit table, tokenValues unit table (tokensIn buffer range)
    = List.flatten <$> (commaRanges buffer range.1 range.2).mapM fun argument =>
        tokenValues unit table (tokensIn buffer argument)

theorem Argues.cutAlike {answer buffer : List Token} {inner content : Line} {range : Nat × Nat}
    (h : Argues (ofAnswer answer) inner content) (hholds : Pairing.Holds buffer content range) :
    CutAlike answer buffer inner range := by
  obtain ⟨before, after, rfl, rfl⟩ := hholds
  have htyped := map_tokensIn_commaRanges [] inner []
  have hwritten := map_tokensIn_commaRanges before content after
  simp only [List.nil_append, List.append_nil, List.length_nil, Nat.zero_add] at htyped
  constructor
  · have hparts : List.Forall₂ (fun ts us => ∃ part,
        ofTokens answer ts true (some .log) = .ok part ∧ us = part.toTokens)
        (inner.parts.map Line.toTokens) (content.parts.map Line.toTokens) := by
      rw [List.forall₂_map_left_iff, List.forall₂_map_right_iff]
      refine h.parts.imp fun part part' hpart => ⟨part', ?_, rfl⟩
      rw [ofTokens, Bool.not_true, Bool.and_false, if_neg Bool.false_ne_true, fill,
        Line.ofTokens?_toTokens]
      exact hpart
    rw [← htyped, ← hwritten, List.forall₂_map_left_iff, List.forall₂_map_right_iff] at hparts
    exact hparts
  · intro unit table
    have hcontent : tokensIn (before ++ content.toTokens ++ after)
        (before.length, before.length + content.toTokens.length) = content.toTokens := by
      rw [List.append_assoc]
      exact tokensIn_append _ _ _
    have hranges := congrArg (List.mapM (tokenValues unit table)) hwritten
    rw [List.mapM_map, List.mapM_map] at hranges
    have hparts : (tokenValues unit table ∘ Line.toTokens)
        = fun part => part.values unit table {} :=
      funext fun part => tokenValues_toTokens unit table part
    rw [hparts] at hranges
    rw [hcontent, tokenValues_toTokens, Line.values_eq_flatten, ← hranges]
    rfl

/-- The pass over a formula and the evaluation of its canonical line agree on the arguments of every
logarithm, whatever is typed between its parentheses. The logarithms of the line are those of the
formula in their order, with those of the previous answer in place of `Ans`. -/
theorem logarithms_cut_alike {answer tokens : List Token} {inGroup : Bool} {op : Option Operation}
    {line : Line} (h : ofTokens answer tokens inGroup op = .ok line) :
    ∃ typed p, Line.ofTokens? tokens = some typed ∧ Pairing.ofTokens line.toTokens = .ok p ∧
      List.Forall₂ (CutAlike answer line.toTokens) (typed.logs (answerLogs answer))
        (p.logRanges 0 line.toTokens) := by
  have hlogs : ∃ typed, Line.ofTokens? tokens = some typed ∧
      List.Forall₂ (Argues (ofAnswer answer)) (typed.logs (answerLogs answer)) (line.logs []) := by
    rw [ofTokens] at h
    split at h
    · next hempty =>
      cases h
      have hnil : tokens = [] := by
        simp only [Bool.and_eq_true, List.isEmpty_iff] at hempty
        exact hempty.1
      exact ⟨.nil, by rw [hnil]; rfl, .nil⟩
    · exact forall₂_logs_of_fill h
  obtain ⟨typed, htyped, hlogs⟩ := hlogs
  refine ⟨typed, _, htyped, Pairing.ofTokens_toTokens line, ?_⟩
  have hbuffer : line.toTokens = [] ++ line.toTokens ++ [] := (List.append_nil _).symm
  have hranges := Pairing.forall₂_logRanges (Pairing.closes_toTokens line) hbuffer rfl
  exact forall₂_trans (fun _ _ _ hargues hholds => hargues.cutAlike hholds) hlogs hranges

/-- The tokens of `log(Ans2,--(log(2,4`. -/
def nestedTyped : List Token :=
  [.key (.operation .log), .left, .key .answer, .key (.literal "2"), .key .comma, .key .minus,
    .key .minus, .left, .key (.operation .log), .left, .key (.literal "2"), .key .comma,
    .key (.literal "4")]

/-- The tokens of `log(3,9)`, the previous answer. -/
def nestedAnswer : List Token :=
  [.key (.operation .log), .left, .key (.literal "3"), .key .comma, .key (.literal "9"), .right]

/-- The canonical line of the two, `log((log(3,9))×2,+(log(2,4)))`. -/
def nestedLine : Line :=
  .key (.operation .log) (.group
    (.group (.key (.operation .log) (.group
        (.key (.literal "3") (.key .comma (.key (.literal "9") .nil))) .nil))
      (.key .times (.key (.literal "2") (.key .comma (.key .plus
        (.group (.key (.operation .log) (.group
          (.key (.literal "2") (.key .comma (.key (.literal "4") .nil))) .nil)) .nil))))))
    .nil)

/-- A logarithm within an argument and one within the answer add no boundary to the outer one. -/
theorem logarithms_cut_alike_nested :
    ofTokens nestedAnswer nestedTyped false none = .ok nestedLine ∧
      (commaRanges nestedLine.toTokens 2 22).length = 2 ∧
      ∃ typed p, Line.ofTokens? nestedTyped = some typed ∧
        Pairing.ofTokens nestedLine.toTokens = .ok p ∧
        List.Forall₂ (CutAlike nestedAnswer nestedLine.toTokens)
          (typed.logs (answerLogs nestedAnswer)) (p.logRanges 0 nestedLine.toTokens) := by
  have h : ofTokens nestedAnswer nestedTyped false none = .ok nestedLine := by decide +kernel
  exact ⟨h, by decide, logarithms_cut_alike h⟩

end Canonical

end Keypad
