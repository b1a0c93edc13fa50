import Keypad.Proofs.LongestMatch

/-!
# Formulas that are cut where they were joined

A text has one cut by longest match, up to a minus sign behind an open `E`. Hence joined tokens are
cut apart again as soon as each of them is the longest where it stands. This is so for the keys that
are no letters, for the key of the root and for literals, also for one that leaves its exponent to
a group.
-/

namespace Keypad

namespace Token

/-- Is the token a literal that ends in `E`? -/
def isOpen : Token → Bool
  | key (.literal text) => text.toList.getLast? = some 'E'
  | _ => false

/-- The tokens that are typed by one character, which is not a letter. -/
def symbols : List Token :=
  [key .plus, key .minus, key .times, key .obelus, key .bar, left, right,
    key (.operation .power), key .square, key .bang, key .percent, key (.operation .squareRoot),
    key .comma]

theorem isLiteral_of_isOpen {t : Token} (h : t.isOpen) : t.isLiteral := by
  cases t with
  | key k => cases k with
    | literal text => rfl
    | _ => cases h
  | left => cases h
  | right => cases h

theorem exists_of_isLiteral {t : Token} (h : t.isLiteral) : ∃ text, t = .key (.literal text) := by
  cases t with
  | key k => cases k with
    | literal text => exact ⟨text, rfl⟩
    | _ => cases h
  | left => cases h
  | right => cases h

end Token

namespace Lexer

variable {names : List String} {literal cs text : List Char} {t : Token} {tokens : List Token}

/-! ## One cut for each text -/

theorem IsCut.tail {ts : List Token} (h : IsCut names cs (t :: ts)) :
    IsCut names (Token.joined ts) ts where
  joined := rfl
  nonempty hmem := h.nonempty (List.mem_cons_of_mem _ hmem)
  separate := h.separate.tail
  longest u after hsuffix := h.longest u after (hsuffix.trans (List.suffix_cons _ _))
  inert u after hsuffix := h.inert u after (hsuffix.trans (List.suffix_cons _ _))

section Names

variable (hnames : ∀ name ∈ names, ConstantTable.checkName name = .ok ())
include hnames

theorem IsCut.text_ne_nil {ts : List Token} (h : IsCut names cs (t :: ts)) :
    t.text.toList ≠ [] := by
  by_cases hliteral : t.isLiteral
  · obtain ⟨text, rfl⟩ := Token.exists_of_isLiteral hliteral
    intro hnil
    obtain rfl : text = "" := String.toList_eq_nil_iff.1 hnil
    exact h.nonempty List.mem_cons_self
  · exact text_ne_nil_of_mem_vocabulary hnames (h.longest t ts (List.suffix_refl _) hliteral).known

theorem longest?_of_isLongest (h : IsLongest names t cs) : longest? names cs = some t := by
  cases hlongest : longest? names cs with
  | none => exact absurd h.front ((foldl_longer_eq_none hlongest).2 t h.known)
  | some u =>
    have hu := isLongest_of_longest? hnames hlongest
    rcases h.longest u hu.known hu.front with rfl | ⟨hshorter, -⟩
    · rfl
    · rcases hu.longest t h.known h.front with rfl | ⟨hlonger, -⟩
      · rfl
      · omega

/-- Only the key of the minus sign is typed by a text with a minus sign in front. -/
theorem eq_minus_of_head? (ht : t ∈ vocabulary names) (h : t.text.toList.head? = some '-') :
    t = .key .minus := by
  have hfixed : ∀ t ∈ Token.fixed, t.text.toList.head? = some '-' → t = .key .minus := by decide
  rcases List.mem_append.1 ht with hmem | hnamed
  · exact hfixed t hmem h
  · obtain ⟨name, hname, rfl⟩ := List.mem_map.1 hnamed
    have hletter := (ConstantTable.letters_of_checkName (hnames name hname)).2.1 '-'
      (List.mem_of_mem_head? h)
    exact absurd hletter (by decide)

theorem cut_token (ht : IsLongest names t (t.text.toList ++ cs))
    (hopen : literal.head? = some 'E' → t ≠ .key .minus) :
    cut names literal (t.text.toList ++ cs) = gathered literal ++ t :: cut names [] cs := by
  have hlongest := longest?_of_isLongest hnames ht
  obtain ⟨c, tail, htext⟩ :=
    List.exists_cons_of_ne_nil (text_ne_nil_of_mem_vocabulary hnames ht.known)
  have hlength : t.text.length - 1 = tail.length := by
    rw [← String.length_toList, htext]
    rfl
  rw [htext, List.cons_append] at hlongest ⊢
  have hnext : next? names literal (c :: (tail ++ cs)) = some t := by
    rw [next?, if_neg, hlongest]
    intro hsign
    obtain ⟨hE, hminus⟩ := Bool.and_eq_true_iff.1 hsign
    refine hopen (of_decide_eq_true hE) (eq_minus_of_head? hnames ht.known ?_)
    rw [htext]
    exact of_decide_eq_true hminus
  rw [cut, hnext]
  dsimp only
  rw [hlength, List.drop_left]

omit hnames in
/-- A literal that holds no token is gathered as a whole. -/
theorem cut_of_inert (h : Inert names text cs) :
    cut names [] (text ++ cs) = cut names text.reverse cs := by
  -- What is gathered is the front of the literal; its next character starts no token there.
  have hgather : ∀ back front, text = front ++ back →
      cut names front.reverse (back ++ cs) = cut names text.reverse cs := by
    intro back
    induction back with
    | nil =>
      rintro front rfl
      rw [List.append_nil, List.nil_append]
    | cons c back ih =>
      intro front hsplit
      have hnext : next? names front.reverse (c :: (back ++ cs)) = none := by
        rw [next?]
        split
        · rfl
        · next hsign =>
          refine longest?_eq_none fun u hu hfront => hsign ?_
          obtain ⟨rfl, hlast⟩ := h front c back hsplit u hu (by simpa using hfront)
          simp [List.head?_reverse, hlast]
      have hrest := ih (front ++ [c]) (by rw [hsplit, List.append_assoc]; rfl)
      rw [List.reverse_append] at hrest
      rw [List.cons_append, cut, hnext]
      exact hrest
  exact hgather text [] rfl

/-- The tokens of a cut by longest match are those that the text is cut into. -/
theorem cut_eq_of_isCut (h : IsCut names cs tokens)
    (hopen : tokens.IsChain fun t u => t.isOpen → u ≠ .key .minus) : cut names [] cs = tokens := by
  obtain rfl := h.joined
  induction tokens with
  | nil =>
    rw [Token.joined_nil, cut]
    rfl
  | cons t ts ih =>
    have hrest := ih hopen.tail h.tail
    by_cases hliteral : t.isLiteral
    · obtain ⟨text, rfl⟩ := Token.exists_of_isLiteral hliteral
      have hne : text.toList ≠ [] := h.text_ne_nil hnames
      have hgathered : gathered text.toList.reverse = [.key (.literal text)] := by
        simp [gathered, hne]
      rw [Token.joined_cons]
      refine (cut_of_inert (h.inert text ts (List.suffix_refl _))).trans ?_
      cases ts with
      | nil =>
        rw [Token.joined_nil, cut]
        exact hgathered
      | cons u ts =>
        have hu : ¬u.isLiteral := fun hu => h.separate.rel ⟨rfl, hu⟩
        have hlongest := h.longest u ts (List.suffix_cons _ _) hu
        rw [Token.joined_cons] at hlongest hrest ⊢
        rw [cut_token hnames hlongest (by simp)] at hrest
        rw [cut_token hnames hlongest, hgathered]
        · exact congrArg _ hrest
        · intro hE
          refine hopen.rel (decide_eq_true ?_)
          rwa [List.head?_reverse] at hE
    · have hlongest := h.longest t ts (List.suffix_refl _) hliteral
      rw [Token.joined_cons] at hlongest ⊢
      rw [cut_token hnames hlongest (by simp), hrest]
      rfl

/-! ## The keys -/

/-- A key that is no letter is the only one typed where it stands. -/
theorem isLongest_symbol (ht : t ∈ Token.symbols) (cs : List Char) :
    IsLongest names t (t.text.toList ++ cs) := by
  have hshape : ∀ t ∈ Token.symbols, t.text.toList.tail = [] ∧
      t.text.toList.head?.any fun c => !c.isAlpha := by decide
  have hfixed : ∀ t ∈ Token.symbols, t ∈ Token.fixed := by decide
  have hunique : ∀ t ∈ Token.symbols, ∀ u ∈ Token.fixed,
      u.text.toList.head? = t.text.toList.head? → u = t := by decide
  refine ⟨List.mem_append_left _ (hfixed t ht), List.prefix_append _ _, fun u hu hfront => .inl ?_⟩
  obtain ⟨htail, hhead⟩ := hshape t ht
  cases htext : t.text.toList with
  | nil =>
    rw [htext] at hhead
    cases hhead
  | cons c tail =>
    rw [htext] at htail hhead hfront
    obtain rfl : tail = [] := htail
    have hc : c.isAlpha = false := by simpa using hhead
    obtain ⟨hmem, hsame⟩ := of_mem_vocabulary hnames (by simp [hc]) hu hfront
    exact hunique t ht u hmem (by rw [hsame, htext]; rfl)

/-- Only a constant named `x` is typed where the key of the root stands, and it is shorter. -/
theorem isLongest_nthRoot (cs : List Char) :
    IsLongest names (.key (.operation .nthRoot)) ('x' :: '√' :: cs) := by
  refine ⟨List.mem_append_left _ (by decide), ⟨cs, rfl⟩, fun u hu hfront => ?_⟩
  rcases List.mem_append.1 hu with hfixed | hnamed
  · have hunique : ∀ u ∈ Token.fixed, u.text.toList.head? = some 'x' →
        u = .key (.operation .nthRoot) := by decide
    refine .inl (hunique u hfixed ?_)
    cases htext : u.text.toList with
    | nil => exact absurd htext (text_ne_nil_of_mem_fixed u hfixed)
    | cons c tail =>
      rw [htext] at hfront
      exact congrArg some (List.cons_prefix_cons.1 hfront).1
  · obtain ⟨name, hname, rfl⟩ := List.mem_map.1 hnamed
    obtain ⟨hne, hletters, -⟩ := ConstantTable.letters_of_checkName (hnames name hname)
    obtain ⟨c, tail, htext⟩ := List.exists_cons_of_ne_nil hne
    have hx : name = "x" := by
      rw [Token.text, Key.text, htext] at hfront
      rw [htext] at hletters
      obtain ⟨rfl, htail⟩ := List.cons_prefix_cons.1 hfront
      cases tail with
      | nil => exact String.toList_inj.1 htext
      | cons d tail =>
        obtain ⟨rfl, -⟩ := List.cons_prefix_cons.1 htail
        exact absurd (hletters '√' (by simp)) (by decide)
    subst hx
    exact .inr (by decide)

/-! ## Literals -/

theorem not_prefix_of_literal {c : Char} (hc : Literal.IsMark c ∨ c = 'E')
    (hnext : c = 'E' → ∀ d, cs.head? = some d → d.isAlpha = false) :
    ∀ u ∈ vocabulary names, ¬u.text.toList <+: c :: cs :=
  (foldl_longer_eq_none (longest?_eq_none_of_literal hnames hc hnext)).2

theorem inert_of_marks (h : ∀ c ∈ text, Literal.IsMark c) (cs : List Char) :
    Inert names text cs := by
  rintro front c back rfl u hu hfront
  have hc := h c (by simp)
  refine absurd hfront (not_prefix_of_literal hnames (.inl hc) ?_ u hu)
  rintro rfl
  rcases hc with hdigit | hpoint
  · exact absurd hdigit (by decide)
  · exact absurd hpoint (by decide)

/-- One more character at the end of a literal. -/
theorem Inert.append_mark {c : Char} (h : Inert names text (c :: cs))
    (hc : Literal.IsMark c ∨ c = 'E')
    (hnext : c = 'E' → ∀ d, cs.head? = some d → d.isAlpha = false) :
    Inert names (text ++ [c]) cs := by
  have hnone : next? names text.reverse (c :: cs) = none := by
    rw [next?]
    split
    · rfl
    · exact longest?_eq_none_of_literal hnames hc hnext
  have hconcat : Inert names text.reverse.reverse (c :: cs) := by rwa [List.reverse_reverse]
  simpa using hconcat.concat hnone

theorem Inert.append_marks {marks : List Char} (hmarks : ∀ c ∈ marks, Literal.IsMark c)
    (h : Inert names text (marks ++ cs)) : Inert names (text ++ marks) cs := by
  induction marks generalizing text with
  | nil => simpa using h
  | cons c marks ih =>
    have hc := hmarks c List.mem_cons_self
    have hnext : c = 'E' → ∀ d, (marks ++ cs).head? = some d → d.isAlpha = false := by
      rintro rfl
      rcases hc with hdigit | hpoint
      · exact absurd hdigit (by decide)
      · exact absurd hpoint (by decide)
    have hmore := Inert.append_mark hnames h (.inl hc) hnext
    have hall := ih (fun d hd => hmarks d (List.mem_cons_of_mem _ hd)) hmore
    rwa [List.append_assoc, List.singleton_append] at hall

/-- A literal that leaves its exponent to a group. -/
theorem inert_open (h : ∀ c ∈ text, Literal.IsMark c)
    (hnext : ∀ d, cs.head? = some d → d.isAlpha = false) : Inert names (text ++ ['E']) cs :=
  Inert.append_mark hnames (inert_of_marks hnames h _) (.inr rfl) fun _ => hnext

/-- No token stands in a readable literal but the minus sign of its exponent. -/
theorem inert_of_parts? (h : (Literal.parts? text).isSome) (cs : List Char) :
    Inert names text cs := by
  obtain ⟨r, hr⟩ := Option.isSome_iff_exists.1 h
  rcases Literal.shape_of_parts? hr with ⟨-, hmarks, -⟩ |
      ⟨base, sign, digits, rfl, ⟨hmarks, -⟩, hs, hd, hall⟩
  · exact inert_of_marks hnames hmarks cs
  · have hdigits : ∀ c ∈ digits, Literal.IsMark c := fun c hc => .inl (hall c hc)
    have hhead : ∀ d, (sign ++ digits ++ cs).head? = some d → d.isAlpha = false := by
      intro d hfirst
      rcases hs with rfl | rfl
      · cases digits with
        | nil => exact absurd rfl hd
        | cons e digits =>
          obtain rfl : e = d := Option.some.inj hfirst
          exact isAlpha_of_isDigit (hall e List.mem_cons_self)
      · obtain rfl : '-' = d := Option.some.inj hfirst
        rfl
    have hbase : Inert names (base ++ ['E']) (sign ++ (digits ++ cs)) :=
      inert_open hnames hmarks (by simpa using hhead)
    have hsign : Inert names (base ++ ['E'] ++ sign) (digits ++ cs) := by
      rcases hs with rfl | rfl
      · simpa using hbase
      · have hreverse : Inert names (base ++ ['E']).reverse.reverse ('-' :: (digits ++ cs)) := by
          rwa [List.reverse_reverse]
        have hnone : next? names (base ++ ['E']).reverse ('-' :: (digits ++ cs)) = none := by
          simp [next?]
        simpa using hreverse.concat hnone
    simpa using hsign.append_marks hnames hdigits

end Names

/-! ## Texts that are not refused -/

/-- Nothing is refused behind a character of a literal. -/
theorem permits_of_literal {c : Char} (hc : Literal.IsMark c ∨ c = 'E') (d : Char) :
    Permits c d := by
  have hrules : ∀ rule ∈ rules,
      rule.before.all fun b => decide ¬(Literal.IsMark b ∨ b = 'E') := by decide
  exact fun rule hrule hbefore =>
    absurd hc (of_decide_eq_true (List.all_eq_true.1 (hrules rule hrule) c hbefore))

/-- Nothing is refused at the start of a literal but a point behind a group. -/
theorem permits_literal {c d : Char} (hd : Literal.IsMark d ∨ d = 'E') (hc : c ≠ ')') :
    Permits c d := by
  have hpoint : ∀ rule ∈ rules, rule.before = [')'] ∨ ∀ s ∈ rule.after,
      s.toList.head?.all fun b => decide ¬(Literal.IsMark b ∨ b = 'E') := by
    decide
  intro rule hrule hbefore s hs hhead
  rcases hpoint rule hrule with hgroup | hafter
  · rw [hgroup] at hbefore
    exact hc (List.mem_singleton.1 hbefore)
  · have hnot := hafter s hs
    rw [hhead] at hnot
    exact of_decide_eq_true hnot hd

end Lexer

/-! ## Joined tokens -/

namespace Token

/-- The tokens typed by symbols, by the key of the root or as literals. -/
def Typeable : Token → Prop
  | key (.literal text) =>
    (Literal.parts? text.toList).isSome ∨
      ∃ base, text.toList = base ++ ['E'] ∧ ∀ c ∈ base, Literal.IsMark c
  | t => t ∈ symbols ∨ t = key (.operation .nthRoot)

/-- May `u` be typed right behind `t`? -/
structure Joins (t u : Token) : Prop where
  separate : ¬(t.isLiteral ∧ u.isLiteral)
  closed : t.isOpen → u = left
  permitted : ∀ c ∈ t.text.toList.getLast?, ∀ d ∈ u.text.toList.head?, Lexer.Permits c d

variable {t u : Token} {text : String}

theorem Typeable.eq_literal_or (h : t.Typeable) :
    (∃ text, t = key (.literal text) ∧ ((Literal.parts? text.toList).isSome ∨
      ∃ base, text.toList = base ++ ['E'] ∧ ∀ c ∈ base, Literal.IsMark c)) ∨
    (t ∈ symbols ∨ t = key (.operation .nthRoot)) ∧ t.isLiteral = false := by
  cases t with
  | key k => cases k with
    | literal text => exact .inl ⟨text, rfl, h⟩
    | _ => exact .inr ⟨h, rfl⟩
  | left => exact .inr ⟨h, rfl⟩
  | right => exact .inr ⟨h, rfl⟩

/-- The characters of a literal are marks, an `E` and a minus sign behind it. -/
theorem of_mem_literal (h : (key (.literal text)).Typeable) {c : Char} (hc : c ∈ text.toList) :
    Literal.IsMark c ∨ c = 'E' ∨ c = '-' := by
  rcases h with hparts | ⟨base, htext, hbase⟩
  · obtain ⟨r, hr⟩ := Option.isSome_iff_exists.1 hparts
    exact Literal.mem_of_parts? hr hc
  · rw [htext] at hc
    rcases List.mem_append.1 hc with hc | hc
    · exact .inl (hbase c hc)
    · exact .inr (.inl (List.mem_singleton.1 hc))

theorem Typeable.text_ne_nil (h : t.Typeable) : t.text.toList ≠ [] := by
  rcases h.eq_literal_or with ⟨text, rfl, hparts | ⟨base, htext, -⟩⟩ | ⟨hfixed, -⟩
  · intro hnil
    rw [Token.text, Key.text] at hnil
    rw [hnil] at hparts
    cases hparts
  · rw [Token.text, Key.text, htext]
    simp
  · have hall : ∀ t ∈ symbols ++ [key (.operation .nthRoot)], t.text.toList ≠ [] := by decide
    exact hall t (by simpa using hfixed)

/-- The last character of a literal may stand before anything, the first one only not behind a
right parenthesis. -/
theorem permits_of_getLast? (h : (key (.literal text)).Typeable) {c : Char}
    (hc : c ∈ text.toList.getLast?) (d : Char) : Lexer.Permits c d := by
  rcases h with hparts | ⟨base, htext, -⟩
  · obtain ⟨r, hr⟩ := Option.isSome_iff_exists.1 hparts
    exact Lexer.permits_of_literal (.inl (Literal.isMark_of_getLast? hr hc)) d
  · rw [htext, List.getLast?_append_of_ne_nil _ (by simp)] at hc
    obtain rfl : 'E' = c := Option.some.inj hc
    exact Lexer.permits_of_literal (.inr rfl) d

theorem isMark_of_head? (h : (key (.literal text)).Typeable) {d : Char}
    (hd : d ∈ text.toList.head?) : Literal.IsMark d ∨ d = 'E' := by
  rcases of_mem_literal h (List.mem_of_mem_head? hd) with hmark | hE | rfl
  · exact .inl hmark
  · exact .inr hE
  -- A minus sign stands only behind the `E`.
  · exfalso
    have hbase {base rest : List Char} (hmarks : ∀ c ∈ base, Literal.IsMark c)
        (hhead : '-' ∈ (base ++ 'E' :: rest).head?) : False := by
      cases base with
      | nil => exact absurd (Option.some.inj hhead) (by decide)
      | cons b base =>
        obtain rfl : b = '-' := Option.some.inj hhead
        exact absurd (hmarks '-' List.mem_cons_self) (by decide)
    rcases h with hparts | ⟨base, htext, hmarks⟩
    · obtain ⟨r, hr⟩ := Option.isSome_iff_exists.1 hparts
      rcases Literal.shape_of_parts? hr with ⟨-, hmarks, -⟩ |
          ⟨base, sign, digits, htext, ⟨hmarks, -⟩, -⟩
      · exact absurd (hmarks '-' (List.mem_of_mem_head? hd)) (by decide)
      · exact hbase hmarks (htext ▸ hd)
    · exact hbase hmarks (htext ▸ hd)

/-! ### What may stand side by side -/

theorem joins_of_literal (h : (Literal.parts? text.toList).isSome) (hu : u.isLiteral = false) :
    (key (.literal text)).Joins u where
  separate hboth := by simp [hu] at hboth
  closed hopen := by
    have hlast := Lexer.head?_reverse_ne h
    rw [List.head?_reverse] at hlast
    exact absurd (of_decide_eq_true hopen) hlast
  permitted _ hc _ _ := permits_of_getLast? (.inl h) hc _

theorem joins_open {base : List Char} (htext : text.toList = base ++ ['E'])
    (h : ∀ c ∈ base, Literal.IsMark c) : (key (.literal text)).Joins left where
  separate hboth := Bool.false_ne_true hboth.2
  closed _ := rfl
  permitted _ hc _ _ := permits_of_getLast? (.inr ⟨base, htext, h⟩) hc _

theorem joins_literal (ht : t ∈ symbols ∨ t = key (.operation .nthRoot)) (hright : t ≠ right)
    (h : (key (.literal text)).Typeable) : t.Joins (key (.literal text)) := by
  have hall : ∀ t ∈ symbols ++ [key (.operation .nthRoot)], t.isLiteral = false ∧ t.isOpen = false ∧
      (t ≠ right → t.text.toList.getLast?.all fun c => c ≠ ')') := by decide
  obtain ⟨hliteral, hopen, hlast⟩ := hall t (by simpa using ht)
  refine ⟨by simp [hliteral], by simp [hopen], fun c hc d hd => ?_⟩
  refine Lexer.permits_literal (isMark_of_head? h hd) ?_
  have hnot := hlast hright
  rw [Option.mem_def.1 hc] at hnot
  simpa using hnot

end Token

namespace Lexer

variable {names : List String} {ts : List Token}

section Names

variable (hnames : ∀ name ∈ names, ConstantTable.checkName name = .ok ())
include hnames

/-- Joined tokens are cut apart again. -/
theorem isCut_joined (hts : ∀ t ∈ ts, t.Typeable) (hchain : ts.IsChain Token.Joins) :
    IsCut names (Token.joined ts) ts := by
  induction ts with
  | nil => exact .nil names
  | cons t ts ih =>
    have hcut := ih (fun u hu => hts u (List.mem_cons_of_mem _ hu)) hchain.tail
    rw [Token.joined_cons]
    rcases (hts t List.mem_cons_self).eq_literal_or with
      ⟨text, rfl, hliteral⟩ | ⟨hfixed, hliteral⟩
    · have hne : text ≠ "" := by
        rintro rfl
        exact (hts _ List.mem_cons_self).text_ne_nil rfl
      have hhead : ∀ u ∈ ts.head?, ¬u.isLiteral := fun u hu hu' =>
        (hchain.rel_head? hu).separate ⟨rfl, hu'⟩
      refine hcut.literal_cons hne hhead ?_
      rcases hliteral with hparts | ⟨base, htext, hmarks⟩
      · exact inert_of_parts? hnames hparts _
      · rw [Token.text, Key.text, htext]
        refine inert_open hnames hmarks fun d hd => ?_
        cases ts with
        | nil => cases hd
        | cons u ts =>
          obtain rfl := hchain.rel.closed (by simp [Token.isOpen, htext])
          obtain rfl : '(' = d := Option.some.inj hd
          rfl
    · refine hcut.token_cons (by simp [hliteral]) ?_
      rcases hfixed with hsymbol | rfl
      · exact isLongest_symbol hnames hsymbol _
      · exact isLongest_nthRoot hnames _

end Names

theorem isChain_permits_text {t : Token} (h : t.Typeable) : t.text.toList.IsChain Permits := by
  rcases h.eq_literal_or with ⟨text, rfl, -⟩ | ⟨hfixed, -⟩
  · refine (List.pairwise_of_forall_mem_list fun c hc d hd => ?_).isChain
    have hminus : ∀ d, Literal.IsMark d ∨ d = 'E' → Permits '-' d := fun d hd =>
      permits_literal hd (by decide)
    rcases Token.of_mem_literal h hc with hmark | rfl | rfl
    · exact permits_of_literal (.inl hmark) d
    · exact permits_of_literal (.inr rfl) d
    · rcases Token.of_mem_literal h hd with hmark | rfl | rfl
      · exact hminus d (.inl hmark)
      · exact hminus _ (.inr rfl)
      · decide
  · have hall : ∀ t ∈ Token.symbols ++ [.key (.operation .nthRoot)],
        t.text.toList.IsChain Permits := by decide
    exact hall t (by simpa using hfixed)

theorem isChain_permits_joined (hts : ∀ t ∈ ts, t.Typeable) (hchain : ts.IsChain Token.Joins) :
    (Token.joined ts).IsChain Permits := by
  induction ts with
  | nil => exact .nil
  | cons t ts ih =>
    have hrest : ∀ u ∈ ts, u.Typeable := fun u hu => hts u (List.mem_cons_of_mem _ hu)
    rw [Token.joined_cons]
    refine List.isChain_append.2
      ⟨isChain_permits_text (hts t List.mem_cons_self), ih hrest hchain.tail, fun c hc d hd => ?_⟩
    cases ts with
    | nil => cases hd
    | cons u ts =>
      rw [Token.joined_cons,
        List.head?_append_of_ne_nil _ (hrest u List.mem_cons_self).text_ne_nil] at hd
      exact hchain.rel.permitted c hc d hd

theorem isBlank_of_mem_joined (hts : ∀ t ∈ ts, t.Typeable) {c : Char}
    (hc : c ∈ Token.joined ts) : Text.isBlank c = false := by
  obtain ⟨t, ht, hmem⟩ := List.mem_flatMap.1 hc
  rcases (hts t ht).eq_literal_or with ⟨text, rfl, -⟩ | ⟨hfixed, -⟩
  · rcases Token.of_mem_literal (hts _ ht) hmem with (hdigit | rfl) | rfl | rfl
    · exact Text.isBlank_of_isDigit hdigit
    · decide
    · decide
    · decide
  · have hall : ∀ t ∈ Token.symbols ++ [.key (.operation .nthRoot)],
        t.text.toList.all fun c => !Text.isBlank c := by decide
    simpa using List.all_eq_true.1 (hall t (by simpa using hfixed)) c hmem

theorem forbiddenStarts_ne_of_start {t : Token} (ht : t.Typeable)
    (h : t ∈ [.left, .key .plus, .key .minus, .key (.operation .squareRoot)] ∨ t.isLiteral) :
    ∀ s ∈ forbiddenStarts, s.toList.head? ≠ t.text.toList.head? := by
  intro s hs hsame
  rcases h with hstart | hliteral
  · have hall : ∀ t ∈ [Token.left, .key .plus, .key .minus, .key (.operation .squareRoot)],
        ∀ s ∈ forbiddenStarts, s.toList.head? ≠ t.text.toList.head? := by decide
    exact hall t hstart s hs hsame
  · obtain ⟨text, rfl⟩ := Token.exists_of_isLiteral hliteral
    have hall : ∀ s ∈ forbiddenStarts, s.toList.head?.any fun c =>
        decide ¬(Literal.IsMark c ∨ c = 'E') := by decide
    have hnot := hall s hs
    rw [hsame] at hnot
    obtain ⟨c, rest, htext⟩ := List.exists_cons_of_ne_nil ht.text_ne_nil
    rw [htext] at hnot
    exact of_decide_eq_true hnot (Token.isMark_of_head? ht (by
      rw [Token.text, Key.text] at htext
      rw [htext]
      rfl))

theorem forbiddenEnds_ne_of_end {t : Token} (h : t ∈ [.right, .key .square, .key .bang] ∨
      ∃ text, t = .key (.literal text) ∧ (Literal.parts? text.toList).isSome) :
    ∀ s ∈ forbiddenEnds, s.toList.getLast? ≠ t.text.toList.getLast? := by
  intro s hs hsame
  rcases h with hend | ⟨text, rfl, hparts⟩
  · have hall : ∀ t ∈ [Token.right, .key .square, .key .bang], ∀ s ∈ forbiddenEnds,
        s.toList.getLast? ≠ t.text.toList.getLast? := by decide
    exact hall t hend s hs hsame
  · exact forbiddenEnds_ne_literal hparts s hs hsame

theorem isChain_isOpen (h : ts.IsChain Token.Joins) :
    ts.IsChain fun t u => t.isOpen → u ≠ .key .minus :=
  h.imp fun t u hjoins hopen => by simp [hjoins.closed hopen]

/-- A text that is not refused has the tokens of its cut by longest match. -/
theorem tokenize_of_isCut (hnames : ∀ name ∈ names, ConstantTable.checkName name = .ok ())
    {cs : List Char} (hcut : IsCut names cs ts) (hne : cs ≠ [])
    (hopen : ts.IsChain fun t u => t.isOpen → u ≠ .key .minus)
    (hblank : ∀ c ∈ cs, Text.isBlank c = false)
    (hstart : ∀ s ∈ forbiddenStarts, s.toList.head? ≠ cs.head?)
    (hend : ∀ s ∈ forbiddenEnds, s.toList.getLast? ≠ cs.getLast?)
    (hpermits : cs.IsChain Permits) : tokenize names (String.ofList cs) = .ok ts := by
  have hsqueeze : Text.squeeze cs = cs :=
    List.filter_eq_self.2 fun c hc => by simp [hblank c hc]
  have hnonempty : cs.isEmpty = false := by simp [hne]
  unfold tokenize
  rw [String.toList_ofList, hsqueeze]
  dsimp only
  rw [hnonempty, refusal?_eq_none hstart hend hpermits, cut_eq_of_isCut hnames hcut hopen]
  rfl

/-- The joined text of tokens is cut into them, unless it starts or ends as none may. -/
theorem tokenize_joined_of_joins (hnames : ∀ name ∈ names, ConstantTable.checkName name = .ok ())
    (hne : ts ≠ []) (hts : ∀ t ∈ ts, t.Typeable) (hchain : ts.IsChain Token.Joins)
    (hstart : ∀ t ∈ ts.head?, t ∈ [.left, .key .plus, .key .minus, .key (.operation .squareRoot)] ∨
      t.isLiteral)
    (hend : ∀ t ∈ ts.getLast?, t ∈ [.right, .key .square, .key .bang] ∨
      ∃ text, t = .key (.literal text) ∧ (Literal.parts? text.toList).isSome) :
    tokenize names (String.ofList (Token.joined ts)) = .ok ts := by
  refine tokenize_of_isCut hnames (isCut_joined hnames hts hchain) ?_ (isChain_isOpen hchain)
    (fun c hc => isBlank_of_mem_joined hts hc) (fun s hs hsame => ?_) (fun s hs hsame => ?_)
    (isChain_permits_joined hts hchain)
  · obtain ⟨t, rest, rfl⟩ := List.exists_cons_of_ne_nil hne
    simp [(hts t List.mem_cons_self).text_ne_nil]
  · obtain ⟨t, rest, rfl⟩ := List.exists_cons_of_ne_nil hne
    have ht := hts t List.mem_cons_self
    rw [Token.joined_cons, List.head?_append_of_ne_nil _ ht.text_ne_nil] at hsame
    exact forbiddenStarts_ne_of_start ht (hstart t rfl) s hs hsame
  · obtain ⟨rest, t, rfl⟩ := (List.eq_nil_or_concat' ts).resolve_left hne
    have hjoined : Token.joined (rest ++ [t]) = Token.joined rest ++ t.text.toList := by
      simp [Token.joined]
    rw [hjoined, List.getLast?_append_of_ne_nil _ (hts t (by simp)).text_ne_nil] at hsame
    exact forbiddenEnds_ne_of_end (hend t (by simp)) s hs hsame

/-! ## Canonical lines -/

variable {a b : Token} {line : Line}

theorem joins_of_fits (h : a.Fits b) (ha : a.Typeable) (hb : b.Typeable)
    (hplain : ∀ text, a = .key (.literal text) ∨ b = .key (.literal text) →
      (Literal.parts? text.toList).isSome) : a.Joins b := by
  rcases ha.eq_literal_or with ⟨text, rfl, -⟩ | ⟨hfixed, hliteral⟩
  · have htext := hplain text (.inl rfl)
    refine Token.joins_of_literal htext (Bool.eq_false_iff.2 fun hb' => ?_)
    obtain ⟨other, rfl⟩ := Token.exists_of_isLiteral hb'
    have hopen := h.separate rfl
    rw [Token.completes_literal htext] at hopen
    cases hopen
  · rcases hb.eq_literal_or with ⟨text, rfl, -⟩ | ⟨hfixed', hliteral'⟩
    · refine Token.joins_literal hfixed ?_ hb
      rintro rfl
      exact absurd (h.separate rfl) (by decide)
    · have hall : ∀ a ∈ Token.symbols ++ [.key (.operation .nthRoot)],
          a.isOpen = false ∧ ∀ b ∈ Token.symbols ++ [.key (.operation .nthRoot)], a.Fits b →
          a.text.toList.getLast?.all fun c =>
            b.text.toList.head?.all fun d => decide (Permits c d) := by decide
      obtain ⟨hopen, hpermits⟩ := hall a (by simpa using hfixed)
      refine ⟨by simp [hliteral], by simp [hopen], fun c hc d hd => ?_⟩
      have hlast := (Option.all_eq_true _ _).1 (hpermits b (by simpa using hfixed') h) c hc
      exact of_decide_eq_true ((Option.all_eq_true _ _).1 hlast d hd)

theorem typeable_group (hts : ∀ t ∈ line.toTokens, t.Typeable) :
    ∀ t ∈ Token.left :: (line.toTokens ++ [.right]), t.Typeable := by
  intro t ht
  simp only [List.mem_cons, List.mem_append, List.not_mem_nil, or_false] at ht
  rcases ht with rfl | ht | rfl
  · exact .inl (by decide)
  · exact hts t ht
  · exact .inl (by decide)

/-- The tokens of a canonical line, between the parentheses around it, may be typed side by side. -/
theorem isChain_joins_of_shaped (hline : line.Shaped .left 0)
    (hts : ∀ t ∈ line.toTokens, t.Typeable) :
    (Token.left :: (line.toTokens ++ [.right])).IsChain Token.Joins := by
  have hliteral {text : String}
      (h : .key (.literal text) ∈ Token.left :: (line.toTokens ++ [.right])) :
      (Literal.parts? text.toList).isSome := by
    have hmem : .key (.literal text) ∈ line.toTokens := by simpa using h
    exact hline.plain hmem
  refine (hline.chain [] (.singleton _)).imp_of_mem_imp fun a b ha hb hfit => ?_
  refine joins_of_fits hfit (typeable_group hts a ha) (typeable_group hts b hb) ?_
  rintro text (rfl | rfl)
  · exact hliteral ha
  · exact hliteral hb

/-- A canonical line that is typed out is cut into its tokens. -/
theorem tokenize_of_shaped (hnames : ∀ name ∈ names, ConstantTable.checkName name = .ok ())
    (hline : line.Shaped .left 0) (hts : ∀ t ∈ line.toTokens, t.Typeable) :
    tokenize names (String.ofList (Token.joined line.toTokens)) = .ok line.toTokens := by
  have hplain {k : Key} (hk : .key k ∈ line.toTokens) : k.Plain := hline.plain hk
  have hchain := hline.chain [] (.singleton _)
  have hlast := (List.isChain_append.1 hchain.tail).2.2
  have hne : line.toTokens ≠ [] := by
    intro hnil
    rw [hnil] at hchain
    exact absurd (hchain.rel.operand rfl) (by decide)
  have hjoins := (List.isChain_append.1 (isChain_joins_of_shaped hline hts).tail).1
  refine tokenize_joined_of_joins hnames hne hts hjoins (fun t ht => ?_) (fun t ht => ?_)
  · have hmem := List.mem_of_mem_head? ht
    have hfit : Token.left.Fits t := by
      obtain ⟨u, rest, hu⟩ := List.exists_cons_of_ne_nil hne
      rw [hu] at ht hchain
      obtain rfl : u = t := Option.some.inj ht
      exact hchain.rel
    rcases (hts t hmem).eq_literal_or with ⟨text, rfl, -⟩ | ⟨hfixed, -⟩
    · exact .inr rfl
    · have hall : ∀ t ∈ Token.symbols ++ [.key (.operation .nthRoot)], Token.left.Fits t →
          t = .key .percent ∨
            t ∈ [.left, .key .plus, .key .minus, .key (.operation .squareRoot)] := by decide
      rcases hall t (by simpa using hfixed) hfit with rfl | hstart
      · exact (hplain hmem).elim
      · exact .inl hstart
  · have hmem := List.mem_of_mem_getLast? ht
    have hcompletes := (hlast t ht .right rfl).operand rfl
    rcases (hts t hmem).eq_literal_or with ⟨text, rfl, -⟩ | ⟨hfixed, -⟩
    · exact .inr ⟨text, rfl, hplain hmem⟩
    · have hall : ∀ t ∈ Token.symbols ++ [.key (.operation .nthRoot)], t.completes →
          t = .key .percent ∨ t ∈ [.right, .key .square, .key .bang] := by decide
      rcases hall t (by simpa using hfixed) hcompletes with rfl | hend
      · exact (hplain hmem).elim
      · exact .inl hend

end Lexer

end Keypad
