import Keypad.Proofs.Application
import Keypad.Proofs.Percent.Line
import Keypad.Proofs.Typing.Replacement

/-!
# Percent signs

A percent sign becomes a division by a hundred, which is one more factor of the term it stands in.
Where it makes no difference whether that division is carried out before the rest of the term, the
operand with its percent sign may be replaced by its hundredth in parentheses. It does make one
behind a division or within a fraction, before a key that takes the operand, and where a minus sign
belongs to an operand that is squared, raised or replaced in another way before it is divided.
-/

namespace Keypad

open Run

/-- An operand with a percent sign in a formula. It stands behind signs, if there are any; `true` is
a minus sign. -/
structure PercentSite where
  before : List Token := []
  signs : List Bool := []
  operand : TypedOperand
  after : List Token := []

namespace PercentSite

variable {s : PercentSite}

def front (s : PercentSite) : List Token :=
  s.before ++ s.signs.map fun minus => .key (Arithmetic.signKey minus)

/-- The formula with the percent sign. -/
def typed (s : PercentSite) : List Token :=
  s.front ++ (s.operand.toLine.toTokens ++ .key .percent :: s.after)

/-- The formula with the operand divided by a hundred in parentheses. -/
def grouped (s : PercentSite) : List Token :=
  s.front ++ .left :: (s.operand.toLine.toTokens ++
    .key .obelus :: .key (.literal "100") :: .right :: s.after)

/-- The percent sign belongs to the operand alone. -/
structure Binds (s : PercentSite) : Prop where
  start : (s.before.getLastD .left).completes ∨ (s.before.getLastD .left).multiplied
  sign : (s.before.getLastD .left).completes ∨ s.signs.count true % 2 = 0 ∨ s.operand.takesSign
  next : ∀ u ∈ s.after.head?, u.takes = false

end PercentSite

/-! ## Lines -/

namespace Line

theorem foldr_place_signs (signs : List Bool) (line : Line) (outer : List Line) :
    (signs.map fun minus => Token.key (Arithmetic.signKey minus)).foldr place (line, outer)
      = (line.signed signs, outer) := by
  induction signs with
  | nil => rfl
  | cons minus signs ih =>
    rw [List.map_cons, List.foldr_cons, ih]
    rfl

/-- A line starts with the key with which its tokens start. -/
theorem head?_of_foldr_place {tokens : List Token} {line : Line} {outer : List Line}
    (h : tokens.foldr place (nil, []) = (line, outer)) {k : Key}
    (hk : .key k ∈ line.toTokens.head?) : .key k ∈ tokens.head? := by
  cases tokens with
  | nil =>
    cases h
    cases hk
  | cons t tokens =>
    rw [List.foldr_cons] at h
    generalize tokens.foldr place (nil, []) = state at h
    obtain ⟨inner, rest⟩ := state
    cases t with
    | key j =>
      cases h
      exact hk
    | right =>
      cases h
      cases hk
    | left =>
      cases rest <;> (cases h; simp [toTokens] at hk)

/-- The states of reading two token sequences from their ends, up to the token `a`. -/
inductive GroupedState (a : Token) : Line × List Line → Line × List Line → Prop where
  | here {line line' : Line} (h : Grouped a line line') (outer : List Line) :
      GroupedState a (line, outer) (line', outer)
  | outer (line : Line) (first last : List Line) {rest rest' : Line}
      (h : Grouped .right rest rest') :
      GroupedState a (line, first ++ rest :: last) (line, first ++ rest' :: last)

theorem GroupedState.place {a b : Token} {state state' : Line × List Line}
    (h : GroupedState a state state') :
    GroupedState b (Line.place a state) (Line.place a state') := by
  cases h with
  | here h outer =>
    cases a with
    | key k => exact .here (.key k h) outer
    | right => exact .outer .nil [] outer h
    | left =>
      cases outer with
      | nil => exact .here (.inner .nil h) []
      | cons rest outer => exact .here (.inner rest h) outer
  | outer line first last h =>
    cases a with
    | key k => exact .outer (.key k line) first last h
    | right => exact .outer .nil (line :: first) last h
    | left =>
      cases first with
      | nil => exact .here (.rest line h) last
      | cons rest first => exact .outer (.group line rest) first last h

theorem GroupedState.foldr_place {a : Token} {tokens : List Token} {state state' : Line × List Line}
    (h : GroupedState (tokens.getLastD a) state state') :
    GroupedState a (tokens.foldr Line.place state) (tokens.foldr Line.place state') := by
  induction tokens generalizing a with
  | nil => exact h
  | cons t tokens ih =>
    have hrest : GroupedState t (tokens.foldr Line.place state) (tokens.foldr Line.place state') :=
      ih (by rwa [List.getLastD_cons] at h)
    exact hrest.place

theorem GroupedState.exists_of_nil {a : Token} {line : Line} {state : Line × List Line}
    (h : GroupedState a (line, []) state) :
    ∃ line', state = (line', []) ∧ Grouped a line line' := by
  generalize hread : (line, []) = read at h
  cases h with
  | here h outer =>
    cases hread
    exact ⟨_, rfl, h⟩
  | outer _ first last h =>
    have hnil := congrArg Prod.snd hread
    simp at hnil

end Line

namespace PercentSite

variable {s : PercentSite}

/-- The tokens with the group are those of a line if the ones with the percent sign are. -/
theorem Binds.exists_ofTokens? (hs : s.Binds) {line : Line}
    (h : Line.ofTokens? s.typed = some line) :
    ∃ line', Line.ofTokens? s.grouped = some line' ∧ Line.Grouped .left line line' := by
  obtain ⟨⟨rest, outer⟩, hafter⟩ : ∃ state, s.after.foldr Line.place (.nil, []) = state := ⟨_, rfl⟩
  have hnext : ∀ u ∈ rest.toTokens.head?, u.takes = false := by
    intro u hu
    cases rest with
    | nil => cases hu
    | key k rest =>
      obtain rfl := Option.some.inj hu
      exact hs.next _ (Line.head?_of_foldr_place hafter rfl)
    | group inner rest =>
      obtain rfl := Option.some.inj hu
      rfl
  have hplace : Line.place (.key .percent) (rest, outer) = (.key .percent rest, outer) := rfl
  have htyped : s.typed.foldr Line.place (.nil, []) = s.before.foldr Line.place
      ((s.operand.toLine ++ .key .percent rest).signed s.signs, outer) := by
    rw [typed, front, List.append_assoc, List.foldr_append, List.foldr_append, List.foldr_append,
      List.foldr_cons, hafter, hplace, Line.foldr_place_toTokens, Line.foldr_place_signs]
  have hgrouped : s.grouped.foldr Line.place (.nil, []) = s.before.foldr Line.place
      ((Line.group (s.operand.toLine ++ hundredth) rest).signed s.signs, outer) := by
    have hgroup : Token.left :: (s.operand.toLine.toTokens ++
        .key .obelus :: .key (.literal "100") :: .right :: s.after)
          = (Line.group (s.operand.toLine ++ hundredth) .nil).toTokens ++ s.after := by
      simp [Line.toTokens, hundredth]
    rw [grouped, hgroup, front, List.append_assoc, List.foldr_append, List.foldr_append,
      List.foldr_append, hafter, Line.foldr_place_toTokens, Line.group_append, Line.nil_append,
      Line.foldr_place_signs]
  have hsite : Line.Grouped (s.before.getLastD .left)
      ((s.operand.toLine ++ .key .percent rest).signed s.signs)
      ((Line.group (s.operand.toLine ++ hundredth) rest).signed s.signs) :=
    .here s.signs s.operand rest hs.start hs.sign hnext
  have hstate := (Line.GroupedState.here hsite outer).foldr_place
  rw [← htyped, ← hgrouped] at hstate
  have hline : s.typed.foldr Line.place (.nil, []) = (line, []) := by
    rw [Line.ofTokens?] at h
    split at h
    · next hfold =>
      cases h
      exact hfold
    · cases h
  rw [hline] at hstate
  obtain ⟨line', hfold, hlines⟩ := hstate.exists_of_nil
  exact ⟨line', by rw [Line.ofTokens?, hfold], hlines⟩

/-! ## Formulas -/

/-- No minus sign gets behind an open literal. -/
theorem isChain_grouped (h : s.typed.IsChain Lexer.Admits) : s.grouped.IsChain Lexer.Admits := by
  have hrest := (List.isChain_append.1 h).2.1
  have hafter := (List.isChain_append.1 hrest).2.1.tail
  have hdivision : (.key .obelus :: .key (.literal "100") :: .right :: s.after).IsChain
      Lexer.Admits :=
    ((hafter.cons (by simp [Token.isOpen])).cons (by simp [Lexer.Admits])).cons
      (by simp [Lexer.Admits])
  have hquotient := Lexer.IsChain.replace hrest hdivision (by simp)
  exact Lexer.IsChain.replace h (hquotient.cons (by simp [Token.isOpen])) (by simp)

section Typing

variable {names : List String} (hnames : ∀ name ∈ names, ConstantTable.checkName name = .ok ())
include hnames

/-- The division by a hundred and the end of the group are cut as they are typed. -/
theorem isCut_division {after : List Token}
    (h : Lexer.IsCut names (Token.joined after) after) :
    Lexer.IsCut names ('÷' :: ("100".toList ++ (')' :: Token.joined after)))
      (.key .obelus :: .key (.literal "100") :: .right :: after) := by
  have hright : Lexer.IsLongest names .right (')' :: Token.joined after) :=
    Lexer.isLongest_symbol hnames (by decide) _
  have hobelus : Lexer.IsLongest names (.key .obelus)
      ('÷' :: ("100".toList ++ (')' :: Token.joined after))) :=
    Lexer.isLongest_symbol hnames (by decide) _
  have hhundred : Lexer.Inert names "100".toList (')' :: Token.joined after) :=
    Lexer.inert_of_marks hnames (by simp [Literal.IsMark]) _
  have hclosed := h.token_cons (by decide) hright
  have hliteral := hclosed.literal_cons (by decide) (by simp [Token.isLiteral]) hhundred
  exact hliteral.token_cons (by decide) hobelus

theorem cut_grouped {f : String} (h : Lexer.tokenize names f = .ok s.typed) :
    Lexer.cut names [] (Token.joined s.grouped) = s.grouped := by
  obtain ⟨hcut, hchain⟩ := Lexer.isCut_tokens hnames h
  have hrest := hcut.of_append
  have hdivision := isCut_division hnames hrest.of_append.tail
  have hobelus : Lexer.Severs names '÷' := Lexer.severs_of_fixed hnames rfl (by decide)
  have hquotient := hrest.replace hnames hobelus hdivision (by simp [Token.isLiteral])
  have hleft (cs : List Char) : Lexer.IsLongest names .left ('(' :: cs) :=
    Lexer.isLongest_symbol hnames (by decide) cs
  have hgroup := hquotient.token_cons (by decide) (hleft _)
  have hsevers : Lexer.Severs names '(' := Lexer.severs_of_fixed hnames rfl (by decide)
  have hgrouped := hcut.replace hnames hsevers hgroup (by simp [Token.isLiteral])
  refine Lexer.cut_eq_of_isCut hnames ?_ (isChain_grouped hchain)
  rw [← hgrouped.joined] at hgrouped
  exact hgrouped

end Typing

/-- Both formulas have a canonical line, if they have a value, and these agree. -/
theorem Binds.agree_ofFormula (hs : s.Binds) (unit : AngleUnit) (table : ConstantTable)
    {answer : List Token} {out out' : Line} (h : Canonical.ofFormula answer s.typed = .ok out)
    (h' : Canonical.ofFormula answer s.grouped = .ok out') :
    out ≠ .nil ∧ out' ≠ .nil ∧
      Agree Eq (out.values unit table {}) (out'.values unit table {}) := by
  have hlevel {tokens : List Token} {out : Line} (hne : tokens ≠ [])
      (h : Canonical.ofFormula answer tokens = .ok out) :
      ∃ line, Line.ofTokens? tokens = some line ∧
        Canonical.level (Canonical.ofAnswer answer) {} {} line = .ok out := by
    rw [Canonical.ofFormula, Canonical.ofTokens, if_neg (by simpa using hne), Canonical.fill] at h
    split at h
    · cases h
    · next line hline => exact ⟨line, hline, h⟩
  obtain ⟨line, hline, hout⟩ := hlevel (by simp [typed]) h
  obtain ⟨line', hline', hout'⟩ := hlevel (by simp [grouped]) h'
  obtain ⟨grouped, hgrouped, hlines⟩ := hs.exists_ofTokens? hline
  cases hline'.symm.trans hgrouped
  have hstart := Canonical.Progress.meets_start (.inl rfl)
  exact ⟨Canonical.ne_nil_of_level (.inr rfl) hout, Canonical.ne_nil_of_level (.inr rfl) hout',
    hlines.agree_values hstart (Frame.all_start _) (by simp) hout hout'⟩

end PercentSite

/-- An exact value was settled from an exact level. -/
theorem Line.exists_arrives_of_value {unit : AngleUnit} {table : ConstantTable} {line : Line}
    (hne : line ≠ .nil) {q : Rat} {u : Trail}
    (h : (line.value unit table).run {} = .ok (.exact q, u)) :
    ∃ w, Arrives (line.values unit table {}) {} [.exact q] w := by
  have hvalue : line.value unit table
      = (line.values unit table {} >>= Frame.only) >>= settle := by
    rw [bind_assoc]
    cases line with
    | nil => exact absurd rfl hne
    | _ =>
      rw [Line.value]
      · refine congrArg _ (funext fun vs => ?_)
        rcases vs with _ | ⟨v, _ | ⟨w, vs⟩⟩ <;> rfl
      · simp
  obtain ⟨w, honly, hexact⟩ := exists_of_settle (by rw [← hvalue, h]; rfl)
  obtain ⟨vs, w', hvs, hv⟩ := exists_of_run_bind honly
  rcases vs with _ | ⟨x, _ | ⟨y, vs⟩⟩
  · cases hv
  · cases hv
    exact ⟨_, hvs, hexact⟩
  · cases hv

namespace Calculator

/-- A percent sign that belongs to its operand alone divides it by a hundred: with the operand and
the percent sign replaced by the quotient in parentheses, an exact result stays the same. -/
theorem value_percent_eq {c : Calculator} (hconstants : c.constants.Valid) {s : PercentSite}
    (hs : s.Binds) {f g : String} (hf : Lexer.tokenize c.constants.names f = .ok s.typed)
    (hg : Text.squeeze g.toList = Token.joined s.grouped) {a b : Rat}
    (ha : c.value f = .ok (.exact a)) (hb : c.value g = .ok (.exact b)) : a = b := by
  obtain ⟨tokens, out, trail, htokens, hout, hrun⟩ := exists_run_of_value ha
  obtain ⟨tokens', out', trail', htokens', hout', hrun'⟩ := exists_run_of_value hb
  obtain rfl : s.typed = tokens := Except.ok.inj (hf.symm.trans htokens)
  obtain rfl : tokens' = s.grouped := by
    rw [Lexer.eq_cut_of_tokenize htokens', hg, PercentSite.cut_grouped hconstants hf]
  obtain ⟨hne, hne', hagree⟩ := hs.agree_ofFormula c.settings.angleUnit c.constants hout hout'
  obtain ⟨u, hu⟩ := Line.exists_arrives_of_value hne hrun
  obtain ⟨w, hw⟩ := Line.exists_arrives_of_value hne' hrun'
  obtain ⟨hvalues, -⟩ := hagree _ _ _ _ _ hu hw
  simpa using hvalues

/-- The formula `3×-50%4`, with a sign and an understood multiplication beside the operand. -/
theorem value_percent_eq_between_factors :
    ∃ s : PercentSite, s.Binds ∧ Lexer.tokenize [] "3×-50%4" = .ok s.typed ∧
      Text.squeeze "3×-(50÷100)4".toList = Token.joined s.grouped ∧
      ∃ a b : Rat, value {} "3×-50%4" = .ok (.exact a) ∧
        value {} "3×-(50÷100)4" = .ok (.exact b) ∧ a = b := by
  let s : PercentSite :=
    { before := [.key (.literal "3"), .key .times], signs := [true],
      operand := { atom := .literal "50" (by decide) }, after := [.key (.literal "4")] }
  have hs : s.Binds :=
    ⟨.inr rfl, .inr (.inr rfl), fun u hu => by cases Option.some.inj hu; rfl⟩
  have htokens : Lexer.tokenize [] "3×-50%4" = .ok s.typed := by decide +kernel
  have htext : Text.squeeze "3×-(50÷100)4".toList = Token.joined s.grouped := by decide +kernel
  have hf : value {} "3×-50%4" = .ok (.exact (-6)) := by decide +kernel
  have hg : value {} "3×-(50÷100)4" = .ok (.exact (-6)) := by decide +kernel
  exact ⟨s, hs, htokens, htext, -6, -6, hf, hg,
    value_percent_eq (c := {}) ConstantTable.valid_empty hs htokens htext hf hg⟩

/-- A divisor with a percent sign is not its hundredth: `2÷50%` is divided by fifty and then by a
hundred. -/
theorem not_value_percent_eq_divisor :
    ∃ s : PercentSite, Lexer.tokenize [] "2÷50%" = .ok s.typed ∧
      Text.squeeze "2÷(50÷100)".toList = Token.joined s.grouped ∧
      value {} "2÷50%" = .ok (.exact (1 / 2500)) ∧ value {} "2÷(50÷100)" = .ok (.exact 4) ∧
      (1 / 2500 : Rat) ≠ 4 :=
  ⟨{ before := [.key (.literal "2"), .key .obelus],
     operand := { atom := .literal "50" (by decide) } },
    by decide +kernel, by decide +kernel, by decide +kernel, by decide +kernel, by decide +kernel⟩

end Calculator

end Keypad
