import Keypad.Proofs.Answer.Tokens
import Keypad.Proofs.Arithmetic.Machine
import Keypad.Proofs.Typing.Symbols

/-!
# Formulas that apply an operation

A formula that is typed as its own canonical line has the value of that line. Where an operation is
applied to a group, or to the operand before it and a group, that value is the operation's result
on the values of the two.
-/

namespace Keypad

/-- A formula is worth the value of its canonical line. -/
theorem Calculator.value_of_ofFormula {c : Calculator} {formula : String} {tokens : List Token}
    {line : Line} (htokens : Lexer.tokenize c.constants.names formula = .ok tokens)
    (hline : Canonical.ofFormula c.answer.tokens tokens = .ok line) :
    c.value formula
      = ((line.value c.settings.angleUnit c.constants).run {}).map Prod.fst := by
  rw [Calculator.value, Calculator.evaluate, htokens, c.answerTokens_eq]
  show Except.map _ (Canonical.ofFormula _ tokens >>= _) = _
  rw [hline]
  show Except.map _ ((line.value c.settings.angleUnit c.constants).run {} >>= _) = _
  cases (line.value c.settings.angleUnit c.constants).run {} with
  | error f => rfl
  | ok r => rfl

/-- The steps that led to the value of a formula. -/
theorem Calculator.exists_run_of_value {c : Calculator} {formula : String} {v : Quantity}
    (h : c.value formula = .ok v) :
    ∃ tokens line trail, Lexer.tokenize c.constants.names formula = .ok tokens ∧
      Canonical.ofFormula c.answer.tokens tokens = .ok line ∧
      (line.value c.settings.angleUnit c.constants).run {} = .ok (v, trail) := by
  obtain ⟨e, he, rfl⟩ := exists_evaluate_of_value h
  rw [Calculator.evaluate] at he
  obtain ⟨tokens, htokens, he⟩ := Except.exists_of_bind he
  obtain ⟨answer, hanswer, he⟩ := Except.exists_of_bind he
  obtain ⟨line, hline, he⟩ := Except.exists_of_bind he
  obtain ⟨⟨v, trail⟩, hrun, he⟩ := Except.exists_of_bind he
  cases he
  obtain rfl : answer = c.answer.tokens :=
    Except.ok.inj (hanswer.symm.trans c.answerTokens_eq)
  exact ⟨tokens, line, trail, htokens, hline, hrun⟩

/-- The canonical lines without a comma whose tokens are typed by symbols, by the key of the root or
as literals. -/
structure Line.Typed (line : Line) : Prop where
  shaped : line.Shaped .left 0
  undivided : line.commas = 0
  typeable : ∀ t ∈ line.toTokens, t.Typeable

/-- A canonical line that is typed out is worth its own value. -/
theorem Calculator.value_typed (c : Calculator) (hconstants : c.constants.Valid) {line : Line}
    (h : line.Typed) :
    c.value (String.ofList (Token.joined line.toTokens))
      = ((line.value c.settings.angleUnit c.constants).run {}).map Prod.fst :=
  value_of_ofFormula (Lexer.tokenize_of_shaped hconstants h.shaped h.typeable)
    (Canonical.ofTokens_toTokens h.shaped h.undivided)

namespace Arithmetic

open Run (operations)

variable {unit : AngleUnit} {table : ConstantTable} {op : Operation}

/-- The line `op(s)`. -/
def Terms.applied (op : Operation) (s : Terms) : Line :=
  .key (.operation op) (.group s.toLine .nil)

/-- The line `x op(s)`. -/
def Operand.applied (op : Operation) (x : Operand) (s : Terms) : Line := x.toLine ++ s.applied op

theorem Terms.values_toLine (s : Terms) :
    s.toLine.values unit table {} = s.eval operations >>= fun v => pure [v] :=
  values_toLine_of_append (s.values_append .nil)

theorem Terms.value_applied (s : Terms) (hop : op.isBackward = false) :
    (s.applied op).value unit table = s.eval operations >>= fun v =>
      op.apply unit v >>= Run.settle := by
  have hvalues : (s.applied op).values unit table {} = (s.eval operations >>= fun v =>
      op.apply unit v) >>= fun v => pure [v] := by
    rw [applied, Line.values_key _ _ _ (by simp)]
    simp only [Frame.key, pure_bind, Line.values, Frame.group, hop, s.values_toLine, bind_assoc,
      Operation.applyAll, Bool.false_eq_true, if_false]
    rfl
  rw [value_of_values (by simp [applied]) hvalues, bind_assoc]

theorem Operand.value_applied (x : Operand) (s : Terms) (hop : op.isBackward) :
    (x.applied op s).value unit table = x.eval operations >>= fun v =>
      s.eval operations >>= fun w => op.applyBackward v w >>= Run.settle := by
  have hvalues : (x.applied op s).values unit table {} = (x.eval operations >>= fun v =>
      s.eval operations >>= fun w => op.applyBackward v w) >>= fun v => pure [v] := by
    rw [applied, x.values_append _ rfl rfl rfl, bind_assoc]
    refine bind_congr fun v => ?_
    rw [Terms.applied, Line.values_key _ _ _ (by simp)]
    simp only [Frame.key, pure_bind, Line.values, Frame.group, hop, s.values_toLine, bind_assoc,
      Frame.takeLast, if_true]
    rfl
  have hne : x.applied op s ≠ .nil := append_ne_nil _ (by simp [Terms.applied])
  rw [value_of_values hne hvalues, bind_assoc]
  simp only [bind_assoc]

/-! ## Canonical form -/

/-- A literal alone, with its sign. -/
def Terms.single (sign : Option Bool) (text : String) : Terms :=
  .one (.one (.one (.literal sign text)))

variable {a : Token} {sign : Option Bool} {text : String} {s t : Terms}

theorem typeable_signLine {u : Token} (h : u ∈ (signLine sign).toTokens) : u.Typeable := by
  cases sign with
  | none => cases h
  | some minus =>
    obtain rfl : u = .key (signKey minus) := List.mem_singleton.1 h
    cases minus <;> exact .inl (by decide)

theorem typeable_literal (h : (Literal.parts? text.toList).isSome) {u : Token}
    (hu : u ∈ (Operand.literal sign text).toLine.toTokens) : u.Typeable := by
  rw [Operand.toLine, Line.toTokens_append] at hu
  rcases List.mem_append.1 hu with hsign | hliteral
  · exact typeable_signLine hsign
  · obtain rfl : u = .key (.literal text) := List.mem_singleton.1 hliteral
    exact .inl h

theorem shaped_nil_literal (h : (Literal.parts? text.toList).isSome) (bars : Nat) :
    Line.nil.Shaped (.key (.literal text)) bars :=
  Token.fits_of_completes (Token.completes_literal h) rfl

theorem Terms.typed_single (h : (Literal.parts? text.toList).isSome) (sign : Option Bool) :
    (single sign text).toLine.Typed where
  shaped := shaped_literal rfl rfl rfl h (shaped_nil_literal h 0) sign
  undivided := by
    rw [single, Terms.toLine, Factors.toLine, Row.toLine, Operand.toLine, Line.commas_append,
      commas_signLine]
    rfl
  typeable _ hu := typeable_literal h hu

theorem Terms.joined_minus (text : String) :
    Token.joined (single (some true) text).toLine.toTokens = '-' :: text.toList := by
  simp [single, toLine, Factors.toLine, Row.toLine, Operand.toLine, signLine, signKey,
    Line.toTokens, Token.text, Key.text]

theorem fits_left_operation (op : Operation) : (Token.key (.operation op)).Fits .left where
  operand := nofun
  separate _ := rfl
  signed := nofun
  applied _ := rfl

theorem Terms.shaped_applied (hs : s.toLine.Typed) (ha : a.Fits (.key (.operation op)))
    (bars : Nat) : (s.applied op).Shaped a bars :=
  ⟨ha, trivial, nofun, fits_left_operation op, .inl hs.undivided, hs.shaped,
    Token.fits_of_completes rfl rfl⟩

theorem Terms.typeable_applied (hop : op ∈ [.power, .nthRoot, .squareRoot]) (hs : s.toLine.Typed)
    {u : Token} (hu : u ∈ (s.applied op).toTokens) : u.Typeable := by
  have hkeys : ∀ op ∈ [Operation.power, .nthRoot, .squareRoot],
      .key (.operation op) ∈ Token.symbols ∨
        Token.key (.operation op) = .key (.operation .nthRoot) := by decide
  simp only [applied, Line.toTokens, List.mem_cons, List.mem_append] at hu
  rcases hu with rfl | rfl | hinner | rfl | hnil
  · exact hkeys op hop
  · exact .inl (by decide)
  · exact hs.typeable u hinner
  · exact .inl (by decide)
  · cases hnil

theorem Terms.typed_applied (hs : s.toLine.Typed) : (s.applied .squareRoot).Typed where
  shaped := shaped_applied hs (Token.fits_of_begins rfl rfl rfl) 0
  undivided := rfl
  typeable _ hu := typeable_applied (by simp) hs hu

theorem Operand.typed_applied_literal (hop : op = .power ∨ op = .nthRoot)
    (h : (Literal.parts? text.toList).isSome) (hs : s.toLine.Typed) (sign : Option Bool) :
    ((Operand.literal sign text).applied op s).Typed where
  shaped := by
    have hfit : (Token.key (.literal text)).Fits (.key (.operation op)) :=
      Token.fits_of_completes (Token.completes_literal h) (by rcases hop with rfl | rfl <;> rfl)
    have hline := shaped_literal (a := .left) rfl rfl rfl h (s.shaped_applied hs hfit 0) sign
    rwa [applied, toLine, Line.append_assoc]
  undivided := by
    rw [applied, toLine, Line.commas_append, Line.commas_append, commas_signLine]
    rfl
  typeable u hu := by
    rw [applied, Line.toTokens_append] at hu
    rcases List.mem_append.1 hu with hfirst | hsecond
    · exact typeable_literal h hfirst
    · exact Terms.typeable_applied (by rcases hop with rfl | rfl <;> simp) hs hsecond

theorem Operand.typed_applied_group (ht : t.toLine.Typed) (hs : s.toLine.Typed) :
    ((Operand.group none t).applied .power s).Typed where
  shaped := ⟨Token.fits_of_begins rfl rfl rfl, .inl ht.undivided, ht.shaped,
    s.shaped_applied hs (Token.fits_of_completes rfl rfl) 0⟩
  undivided := rfl
  typeable u hu := by
    simp only [applied, toLine, signLine, Line.nil_append, Line.group_append, Line.toTokens,
      List.mem_cons, List.mem_append] at hu
    rcases hu with rfl | hinner | rfl | hrest
    · exact .inl (by decide)
    · exact ht.typeable u hinner
    · exact .inl (by decide)
    · exact Terms.typeable_applied (by simp) hs hrest

/-! ## A ratio of a group -/

/-- The name of a ratio may stand at the start of a formula, and a left parenthesis behind it. -/
theorem word_ratio (r : Ratio) :
    Token.key (.operation (.ratio r)) ∈ Token.fixed ∧ '(' ∉ r.name.toList ∧
      (r.name.toList.all fun c => !Text.isBlank c) ∧ r.name.toList.IsChain Lexer.Permits ∧
      (r.name.toList.getLast?.all fun c => decide (Lexer.Permits c '(')) ∧
      ∀ s ∈ Lexer.forbiddenStarts, s.toList.head? ≠ r.name.toList.head? := by
  cases r <;> decide

theorem tokenize_ratio {names : List String}
    (hnames : ∀ name ∈ names, ConstantTable.checkName name = .ok ()) (r : Ratio)
    (hs : s.toLine.Typed) :
    Lexer.tokenize names (String.ofList (Token.joined (s.applied (.ratio r)).toTokens))
      = .ok (s.applied (.ratio r)).toTokens := by
  obtain ⟨ts, hgroup⟩ : ∃ ts, ts = Token.left :: (s.toLine.toTokens ++ [.right]) := ⟨_, rfl⟩
  have htokens : (s.applied (.ratio r)).toTokens = .key (.operation (.ratio r)) :: ts := by
    rw [hgroup]
    rfl
  have htypeable : ∀ t ∈ ts, t.Typeable := by
    rw [hgroup]
    exact Lexer.typeable_group hs.typeable
  have hchain : ts.IsChain Token.Joins := by
    rw [hgroup]
    exact Lexer.isChain_joins_of_shaped hs.shaped hs.typeable
  have hcut := Lexer.isCut_joined hnames htypeable hchain
  have hblank : ∀ c ∈ Token.joined ts, Text.isBlank c = false := fun c hc =>
    Lexer.isBlank_of_mem_joined htypeable hc
  have hpermits := Lexer.isChain_permits_joined htypeable hchain
  obtain ⟨cs, hcs, hlast⟩ : ∃ cs, Token.joined ts = '(' :: cs ∧ cs.getLast? = some ')' := by
    rw [hgroup]
    exact ⟨Token.joined (s.toLine.toTokens ++ [.right]), rfl, by simp [Token.text]⟩
  rw [hcs] at hcut hblank hpermits
  obtain ⟨hfixed, hleft, hword, hletters, hnext, hstart⟩ := word_ratio r
  have hwhole := hcut.token_cons (t := .key (.operation (.ratio r))) Bool.false_ne_true
    (Lexer.isLongest_before_left hnames (List.mem_append_left _ hfixed) hleft cs)
  have hne : r.name.toList ≠ [] := Lexer.text_ne_nil_of_mem_fixed _ hfixed
  rw [htokens, Token.joined_cons, hcs]
  show Lexer.tokenize names (String.ofList (r.name.toList ++ '(' :: cs)) = _
  refine Lexer.tokenize_of_isCut hnames hwhole (by simp)
    ((Lexer.isChain_isOpen hchain).cons fun _ _ hopen => absurd hopen Bool.false_ne_true)
    (fun c hc => ?_) ?_ ?_ ?_
  · rcases List.mem_append.1 hc with hc | hc
    · simpa using List.all_eq_true.1 hword c hc
    · exact hblank c hc
  · rwa [List.head?_append_of_ne_nil _ hne]
  · have hend : ∀ s ∈ Lexer.forbiddenEnds, s.toList.getLast? ≠ some ')' := by decide
    rwa [List.getLast?_append_of_ne_nil _ (by simp), List.getLast?_cons, hlast]
  · refine List.isChain_append.2 ⟨hletters, hpermits, fun c hc d hd => ?_⟩
    obtain rfl := Option.some.inj hd
    exact of_decide_eq_true ((Option.all_eq_true _ _).1 hnext c hc)

/-- A ratio of a group is worth what the operation makes of the value of the group. -/
theorem Terms.value_ratio (c : Calculator) (hconstants : c.constants.Valid) (r : Ratio)
    (hs : s.toLine.Typed) :
    c.value (String.ofList (Token.joined (s.applied (.ratio r)).toTokens))
      = ((s.eval operations >>= fun v =>
          Run.ratio c.settings.angleUnit r v >>= Run.settle).run {}).map Prod.fst := by
  have hshaped : (s.applied (.ratio r)).Shaped .left 0 :=
    s.shaped_applied hs (Token.fits_of_begins rfl rfl rfl) 0
  rw [Calculator.value_of_ofFormula (tokenize_ratio hconstants r hs)
    (Canonical.ofTokens_toTokens hshaped rfl), s.value_applied rfl]
  rfl

/-! ## A literal that leaves its exponent to a group -/

theorem exponentBase?_append_E (base : String) :
    Token.exponentBase? (base ++ "E") = some base := by
  have htext : (base ++ "E").toList = base.toList ++ ['E'] := String.toList_append
  rw [Token.exponentBase?, htext]
  simp

theorem tokenize_open {names : List String}
    (hnames : ∀ name ∈ names, ConstantTable.checkName name = .ok ()) {base : String}
    (hmarks : ∀ c ∈ base.toList, Literal.IsMark c) (hs : s.toLine.Typed) :
    Lexer.tokenize names (String.ofList (Token.joined
        (Line.key (.literal (base ++ "E")) (.group s.toLine .nil)).toTokens))
      = .ok (Line.key (.literal (base ++ "E")) (.group s.toLine .nil)).toTokens := by
  have htext : (base ++ "E").toList = base.toList ++ ['E'] := String.toList_append
  have hchain := Lexer.isChain_joins_of_shaped hs.shaped hs.typeable
  refine Lexer.tokenize_joined_of_joins hnames (List.cons_ne_nil _ _) (fun u hu => ?_) ?_ ?_ ?_
  · simp only [Line.toTokens, List.mem_cons, List.mem_append] at hu
    rcases hu with rfl | rfl | hinner | rfl | hnil
    · exact .inr ⟨base.toList, htext, hmarks⟩
    · exact .inl (by decide)
    · exact hs.typeable u hinner
    · exact .inl (by decide)
    · cases hnil
  · exact List.isChain_cons_cons.2 ⟨Token.joins_open htext hmarks, hchain⟩
  · rintro u hu
    obtain rfl := Option.some.inj hu
    exact .inr rfl
  · intro u hu
    have hlast : (Line.key (.literal (base ++ "E")) (.group s.toLine .nil)).toTokens.getLast?
        = some .right := by
      simp [Line.toTokens, List.getLast?_cons]
    rw [hlast] at hu
    obtain rfl := Option.some.inj hu
    exact .inl (by decide)

theorem ofFormula_open {base : String} (h : (Literal.parts? base.toList).isSome)
    (hs : s.toLine.Typed) (answer : List Token) :
    Canonical.ofFormula answer (Line.key (.literal (base ++ "E")) (.group s.toLine .nil)).toTokens
      = .ok ((Operand.literal none base).applied .exponent s) := by
  have hne : base.isEmpty = false := by
    rw [Bool.eq_false_iff]
    intro hempty
    rw [String.isEmpty_iff.1 hempty] at h
    cases h
  have hinner : Canonical.level (Canonical.ofAnswer answer) (.inside (some .exponent)) {} s.toLine
      = .ok s.toLine :=
    Canonical.level_of_shaped hs.shaped (Canonical.Progress.follows_start (.inl rfl))
      fun hcommas => absurd hs.undivided hcommas
  have hcheck : Canonical.checkCommas (some .exponent) s.toLine = .ok () := by
    simp [Canonical.checkCommas, Operation.commas?]
  have hgroup : Canonical.level (Canonical.ofAnswer answer) {}
      (Canonical.Progress.after {} (.literal (base ++ "E"))) (.group s.toLine .nil)
        = .ok (.group s.toLine .nil) := by
    have hafter : Canonical.Progress.after {} (.literal (base ++ "E"))
        = { previous := some (.key (.operation .exponent)), pending := some .exponent } := by
      simp [Canonical.Progress.after, exponentBase?_append_E, Canonical.Progress.multiplies,
        Canonical.Progress.hasOperand]
    rw [hafter, Canonical.level]
    dsimp only
    rw [hcheck, hinner]
    rfl
  have hline : (Line.key (.literal (base ++ "E")) (.group s.toLine .nil)).toTokens
      = .key (.literal (base ++ "E")) :: (Line.group s.toLine .nil).toTokens := rfl
  rw [Canonical.ofFormula, Canonical.ofTokens, hline]
  simp only [List.isEmpty_cons, Bool.false_and, Bool.false_eq_true, if_false]
  rw [← hline, Canonical.fill, Line.ofTokens?_toTokens]
  dsimp only
  rw [Canonical.level_key (by simp)]
  simp only [Canonical.Progress.emit, exponentBase?_append_E, Line.startsWithGroup, Bool.not_true,
    Bool.false_eq_true, if_false, hne, Literal.check_of_parts? h]
  rw [hgroup]
  rfl

end Arithmetic

end Keypad
