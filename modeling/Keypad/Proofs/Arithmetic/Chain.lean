import Keypad.Proofs.Application
import Keypad.Proofs.Arithmetic.Decimal

/-!
# Chains of additions and subtractions

A chain of literals as it is typed, and with some of its first terms in parentheses. The second
form is evaluated from the left as far as the parentheses reach, the first one is not: its last
term comes first. Where sums are rounded or too large, the two may end differently.
-/

namespace Keypad.Arithmetic

/-- A literal and those behind it with their signs, `true` for a minus. -/
structure Chain where
  head : String
  tail : List (Bool × String)

namespace Chain

def literals (s : Chain) : List String := s.head :: s.tail.map Prod.snd

/-- Every literal can be read. -/
def Readable (s : Chain) : Prop := ∀ text ∈ s.literals, (Literal.parts? text.toList).isSome

instance (s : Chain) : Decidable s.Readable :=
  inferInstanceAs (Decidable (∀ text ∈ s.literals, (Literal.parts? text.toList).isSome = true))

/-- The first literal and `i` more. -/
def take (s : Chain) (i : Nat) : Chain := { s with tail := s.tail.take i }

def tailText (tail : List (Bool × String)) : String :=
  String.join (tail.map fun p => (if p.1 then "-" else "+") ++ p.2)

def text (s : Chain) : String := s.head ++ tailText s.tail

/-- The chain with its first literal and `i` more in parentheses. -/
def grouped (s : Chain) (i : Nat) : String :=
  "(" ++ (s.take i).text ++ ")" ++ tailText (s.tail.drop i)

/-! ## Decimals -/

def termDecimal (p : Bool × String) : Except Failure Decimal := do
  let d ← Literal.decimal p.2
  return if p.1 then -d else d

def tailDecimals (tail : List (Bool × String)) : Except Failure (List Decimal) :=
  tail.mapM termDecimal

/-- The decimals of the literals with their signs. -/
def decimals (s : Chain) : Except Failure (List Decimal) := do
  let d ← Literal.decimal s.head
  let ds ← tailDecimals s.tail
  return d :: ds

/-! ## Trees -/

def literal (text : String) : Factors := .one (.one (.literal none text))

def extend (s : Terms) (tail : List (Bool × String)) : Terms :=
  tail.foldl (fun s p => .more s p.1 (literal p.2)) s

def terms (s : Chain) : Terms := extend (.one (literal s.head)) s.tail

def groupedTerms (s : Chain) (i : Nat) : Terms :=
  extend (.one (.one (.one (.group none (s.take i).terms)))) (s.tail.drop i)

def tailLine : List (Bool × String) → Line
  | [] => .nil
  | p :: rest => .key (signKey p.1) (.key (.literal p.2) (tailLine rest))

variable {s : Chain} {tail : List (Bool × String)}

theorem toLine_extend (s : Terms) (tail : List (Bool × String)) :
    (extend s tail).toLine = s.toLine ++ tailLine tail := by
  induction tail generalizing s with
  | nil => exact (Line.append_nil _).symm
  | cons p rest ih =>
    have hmore := ih (.more s p.1 (literal p.2))
    rw [extend, List.foldl_cons]
    rw [extend] at hmore
    rw [hmore, Terms.toLine, Line.append_assoc]
    rfl

theorem toLine_terms (s : Chain) : s.terms.toLine = .key (.literal s.head) (tailLine s.tail) :=
  toLine_extend _ _

theorem toLine_groupedTerms (s : Chain) (i : Nat) :
    (s.groupedTerms i).toLine = .group (s.take i).terms.toLine (tailLine (s.tail.drop i)) :=
  toLine_extend _ _

theorem joined_tailLine (tail : List (Bool × String)) :
    Token.joined (tailLine tail).toTokens = (tailText tail).toList := by
  induction tail with
  | nil => rfl
  | cons p rest ih =>
    have hsign : (Token.key (signKey p.1)).text = if p.1 then "-" else "+" := by
      cases p.1 <;> rfl
    rw [tailLine, Line.toTokens, Line.toTokens, Token.joined_cons, Token.joined_cons, ih, hsign]
    simp only [tailText, List.map_cons, String.join_cons, String.toList_append, List.append_assoc]
    rfl

theorem joined_terms (s : Chain) : Token.joined s.terms.toLine.toTokens = s.text.toList := by
  rw [toLine_terms, Line.toTokens, Token.joined_cons, joined_tailLine, text, String.toList_append]
  rfl

theorem joined_groupedTerms (s : Chain) (i : Nat) :
    Token.joined (s.groupedTerms i).toLine.toTokens = (s.grouped i).toList := by
  have hinner := joined_terms (s.take i)
  have hrest := joined_tailLine (s.tail.drop i)
  rw [toLine_groupedTerms, Line.toTokens, grouped]
  simp only [Token.joined, List.flatMap_cons, List.flatMap_append] at hinner hrest ⊢
  rw [hinner, hrest]
  simp [String.toList_append, Token.text]

/-! ## Canonical lines -/

theorem typeable_tailLine (htail : ∀ p ∈ tail, (Literal.parts? p.2.toList).isSome) :
    ∀ t ∈ (tailLine tail).toTokens, t.Typeable := by
  induction tail with
  | nil => simp [tailLine, Line.toTokens]
  | cons p rest ih =>
    have hsign : (Token.key (signKey p.1)).Typeable := by cases p.1 <;> exact .inl (by decide)
    rw [tailLine, Line.toTokens, Line.toTokens]
    intro t ht
    rcases List.mem_cons.1 ht with rfl | ht
    · exact hsign
    · rcases List.mem_cons.1 ht with rfl | ht
      · exact .inl (htail p List.mem_cons_self)
      · exact ih (fun q hq => htail q (List.mem_cons_of_mem _ hq)) t ht

theorem commas_tailLine (tail : List (Bool × String)) : (tailLine tail).commas = 0 := by
  induction tail with
  | nil => rfl
  | cons p rest ih =>
    have hsign : signKey p.1 ≠ .comma := by cases p.1 <;> decide
    simp [tailLine, Line.commas, ih, hsign]

/-- Behind a complete operand a tail is canonical. -/
theorem shaped_tailLine (htail : ∀ p ∈ tail, (Literal.parts? p.2.toList).isSome) {a : Token}
    (ha : a.completes) (bars : Nat) : (tailLine tail).Shaped a bars := by
  induction tail generalizing a bars with
  | nil => exact Token.fits_of_completes ha rfl
  | cons p rest ih =>
    have hp := htail p List.mem_cons_self
    have hsign : a.Fits (.key (signKey p.1)) := by
      cases p.1 <;> exact Token.fits_of_completes ha rfl
    have hsigned : (Token.key (signKey p.1)).Fits (.key (.literal p.2)) := by
      cases p.1 <;> exact Token.fits_of_begins rfl rfl rfl
    have hplain : (signKey p.1).Plain := by cases p.1 <;> trivial
    have hbar : signKey p.1 ≠ .bar := by cases p.1 <;> decide
    have hrest (n : Nat) := ih (fun q hq => htail q (List.mem_cons_of_mem _ hq))
      (Token.completes_literal hp) n
    exact ⟨hsign, hplain, fun h => absurd h hbar, hsigned, hp, by simp, hrest _⟩

theorem Readable.head (h : s.Readable) : (Literal.parts? s.head.toList).isSome :=
  h s.head List.mem_cons_self

theorem Readable.of_mem_tail (h : s.Readable) : ∀ p ∈ s.tail, (Literal.parts? p.2.toList).isSome :=
  fun _ hp => h _ (List.mem_cons_of_mem _ (List.mem_map_of_mem hp))

theorem Readable.take (h : s.Readable) (i : Nat) : (s.take i).Readable := by
  intro text htext
  rcases List.mem_cons.1 htext with rfl | hmem
  · exact h.head
  · obtain ⟨p, hp, rfl⟩ := List.mem_map.1 hmem
    exact h.of_mem_tail p (List.mem_of_mem_take hp)

theorem shaped_terms (h : s.Readable) : s.terms.toLine.Shaped .left 0 := by
  have hfit : Token.left.Fits (.key (.literal s.head)) := Token.fits_of_begins rfl rfl rfl
  rw [toLine_terms]
  exact ⟨hfit, h.head, by simp, shaped_tailLine h.of_mem_tail (Token.completes_literal h.head) _⟩

theorem commas_terms (s : Chain) : s.terms.toLine.commas = 0 := by
  rw [toLine_terms]
  simpa [Line.commas] using commas_tailLine s.tail

theorem typeable_terms (h : s.Readable) : ∀ t ∈ s.terms.toLine.toTokens, t.Typeable := by
  rw [toLine_terms]
  intro t ht
  rcases List.mem_cons.1 ht with rfl | ht
  · exact .inl h.head
  · exact typeable_tailLine h.of_mem_tail t ht

theorem typed_terms (h : s.Readable) : s.terms.toLine.Typed where
  shaped := shaped_terms h
  undivided := commas_terms s
  typeable := typeable_terms h

theorem shaped_groupedTerms (h : s.Readable) (i : Nat) :
    (s.groupedTerms i).toLine.Shaped .left 0 := by
  have hrest : ∀ p ∈ s.tail.drop i, (Literal.parts? p.2.toList).isSome :=
    fun p hp => h.of_mem_tail p (List.mem_of_mem_drop hp)
  rw [toLine_groupedTerms]
  exact ⟨by decide, .inl (commas_terms _), shaped_terms (h.take i), shaped_tailLine hrest rfl 0⟩

theorem commas_groupedTerms (s : Chain) (i : Nat) : (s.groupedTerms i).toLine.commas = 0 := by
  rw [toLine_groupedTerms]
  exact commas_tailLine _

theorem typeable_groupedTerms (h : s.Readable) (i : Nat) :
    ∀ t ∈ (s.groupedTerms i).toLine.toTokens, t.Typeable := by
  rw [toLine_groupedTerms]
  intro t ht
  rcases List.mem_cons.1 ht with rfl | ht
  · exact .inl (by decide)
  · rcases List.mem_append.1 ht with ht | ht
    · exact typeable_terms (h.take i) t ht
    · rcases List.mem_cons.1 ht with rfl | ht
      · exact .inl (by decide)
      · exact typeable_tailLine (fun p hp => h.of_mem_tail p (List.mem_of_mem_drop hp)) t ht

theorem typed_groupedTerms (h : s.Readable) (i : Nat) : (s.groupedTerms i).toLine.Typed where
  shaped := shaped_groupedTerms h i
  undivided := commas_groupedTerms s i
  typeable := typeable_groupedTerms h i

/-! ## Evaluation -/

section Evaluation

variable {M : Type → Type} [Monad M] {V : Type} (ops : Operations M V)

/-- Reads the literals of a tail behind the terms `g`, of which the last one comes first. -/
def collect (g : V × List V) (tail : List (Bool × String)) : M (V × List V) :=
  tail.foldlM (fun g p => do
    let v ← ops.literal p.2
    return (if p.1 then ops.neg v else v, g.1 :: g.2)) g

variable [LawfulMonad M]

theorem eval_literal (text : String) : (literal text).eval ops = ops.literal text := by
  simp [literal, Factors.eval, Factors.gather, Row.gather, Operand.eval, Operations.close,
    Operations.product, signed]

theorem gather_extend (s : Terms) (tail : List (Bool × String)) :
    (extend s tail).gather ops = s.gather ops >>= fun g => collect ops g tail := by
  induction tail generalizing s with
  | nil => simp [extend, collect]
  | cons p rest ih =>
    have hmore := ih (.more s p.1 (literal p.2))
    rw [Terms.gather_more, eval_literal] at hmore
    simpa [extend, collect] using hmore

theorem eval_terms (s : Chain) : s.terms.eval ops
    = ops.literal s.head >>= fun v => collect ops (v, []) s.tail >>= ops.sum := by
  rw [Terms.eval, terms, gather_extend, Terms.gather_one, eval_literal]
  simp only [bind_assoc, pure_bind]

theorem eval_groupedTerms (s : Chain) (i : Nat) : (s.groupedTerms i).eval ops
    = (s.take i).terms.eval ops >>= fun v => collect ops (v, []) (s.tail.drop i) >>= ops.sum := by
  rw [Terms.eval, groupedTerms, gather_extend, Terms.gather_one, Factors.eval_group]
  simp only [bind_assoc, pure_bind]

end Evaluation

open Run (Agrees Denotes)

/-- The terms that are collected have the decimals of the literals. -/
theorem agrees_collect {t : Trail} {g : Quantity × List Quantity} {es : List Decimal}
    (hg : List.Forall₂ (Denotes t.exact) (g.1 :: g.2) es) (tail : List (Bool × String)) :
    Agrees t (collect Run.operations g tail) (tailDecimals tail) fun e g ds =>
      List.Forall₂ (Denotes e) (g.1 :: g.2) (ds.reverse ++ es) := by
  induction tail generalizing t g es with
  | nil => exact Run.agrees_pure (by simpa using hg)
  | cons p rest ih =>
    have hfirst : Agrees t
        (Run.operations.literal p.2 >>= fun v =>
          pure (if p.1 then Run.operations.neg v else v, g.1 :: g.2))
        (termDecimal p) fun e g d => List.Forall₂ (Denotes e) (g.1 :: g.2) (d :: es) := by
      refine (Run.agrees_literal p.2).bind fun u v d hkept hv => Run.agrees_pure ?_
      have hearlier : List.Forall₂ (Denotes u.exact) (g.1 :: g.2) es :=
        hg.imp fun _ _ h => h.mono hkept
      refine .cons ?_ hearlier
      cases p.1 with
      | false => exact hv
      | true => exact Run.denotes_neg hv
    rw [collect, List.foldlM_cons, tailDecimals, List.mapM_cons]
    refine hfirst.bind fun u g d _ hg => (ih hg).map (d :: ·) fun e g ds h => ?_
    simpa using h

/-- What follows a first term is drained as its decimals are. -/
theorem agrees_collect_sum {t : Trail} {v : Quantity} {d : Decimal} (hv : Denotes t.exact v d)
    (tail : List (Bool × String)) :
    Agrees t (collect Run.operations (v, []) tail >>= Run.operations.sum)
      (tailDecimals tail >>= fun ds => Decimal.drain (d :: ds)) Denotes := by
  have hcollect := agrees_collect (g := (v, [])) (.cons hv .nil) tail
  refine hcollect.bind fun u g ds _ hg => Run.agrees_sum ?_
  simpa using hg

/-- The drained sum of the chain. -/
def sum (s : Chain) : Except Failure Decimal := s.decimals >>= Decimal.drain

/-- The drained sum of the chain with its first literal and `i` more in parentheses. -/
def groupedSum (s : Chain) (i : Nat) : Except Failure Decimal := do
  let d ← (s.take i).sum
  let ds ← tailDecimals (s.tail.drop i)
  Decimal.drain (d :: ds)

theorem sum_eq (s : Chain) : s.sum = Literal.decimal s.head >>= fun d =>
    tailDecimals s.tail >>= fun ds => Decimal.drain (d :: ds) := by
  simp only [sum, decimals, bind_assoc, pure_bind]

theorem agrees_terms (t : Trail) (s : Chain) :
    Agrees t (s.terms.eval Run.operations) s.sum Denotes := by
  rw [eval_terms, sum_eq]
  exact (Run.agrees_literal s.head).bind fun u v d _ hv => agrees_collect_sum hv s.tail

theorem agrees_groupedTerms (t : Trail) (s : Chain) (i : Nat) :
    Agrees t ((s.groupedTerms i).eval Run.operations) (s.groupedSum i) Denotes := by
  rw [eval_groupedTerms]
  exact (agrees_terms t (s.take i)).bind fun u v d _ hv => agrees_collect_sum hv (s.tail.drop i)

/-! ## Outcomes -/

theorem toDecimal_of_agrees {m : Run Quantity} {x : Except Failure Decimal}
    (h : Agrees {} m x Denotes) :
    (((m >>= Run.settle).run {}).map Prod.fst).map Quantity.toDecimal = x := by
  have hsettle : Agrees {} (m >>= Run.settle) (x >>= pure) fun _ v d => v.toDecimal = d :=
    h.bind fun u v d _ hv => Run.agrees_settle hv
  rw [bind_pure] at hsettle
  rw [Agrees, Run.Ends] at hsettle
  cases hrun : (m >>= Run.settle).run {} with
  | error f =>
    rw [hrun] at hsettle
    exact hsettle.symm
  | ok r =>
    rw [hrun] at hsettle
    obtain ⟨d, rfl, -, hd⟩ := hsettle
    exact congrArg Except.ok hd

theorem value_text (c : Calculator) (hconstants : c.constants.Valid) (hs : s.Readable) :
    (c.value s.text).map Quantity.toDecimal = s.sum := by
  have hvalue := c.value_typed hconstants (typed_terms hs)
  rw [joined_terms, String.ofList_toList, Terms.value_toLine] at hvalue
  rw [hvalue]
  exact toDecimal_of_agrees (agrees_terms {} s)

theorem value_grouped (c : Calculator) (hconstants : c.constants.Valid) (hs : s.Readable)
    (i : Nat) : (c.value (s.grouped i)).map Quantity.toDecimal = s.groupedSum i := by
  have hvalue := c.value_typed hconstants (typed_groupedTerms hs i)
  rw [joined_groupedTerms, String.ofList_toList, Terms.value_toLine] at hvalue
  rw [hvalue]
  exact toDecimal_of_agrees (agrees_groupedTerms {} s i)

/-! ## The order of the sum -/

theorem onlyTooLarge_tailDecimals (htail : ∀ p ∈ tail, (Literal.parts? p.2.toList).isSome) :
    OnlyTooLarge (tailDecimals tail) := by
  induction tail with
  | nil => exact failsIn_ok _
  | cons p rest ih =>
    have hp := Literal.onlyTooLarge_decimal (htail p List.mem_cons_self)
    have hrest := ih fun q hq => htail q (List.mem_cons_of_mem _ hq)
    rw [tailDecimals, List.mapM_cons]
    apply (hp.bind fun d => failsIn_ok _).bind
    intro d
    exact hrest.bind fun ds => failsIn_ok _

theorem length_of_tailDecimals {ds : List Decimal} (h : tailDecimals tail = .ok ds) :
    ds.length = tail.length := by
  induction tail generalizing ds with
  | nil =>
    cases h
    rfl
  | cons p rest ih =>
    rw [tailDecimals, List.mapM_cons] at h
    obtain ⟨d, -, h⟩ := Except.exists_of_bind h
    obtain ⟨es, hes, h⟩ := Except.exists_of_bind h
    cases h
    exact congrArg (· + 1) (ih hes)

theorem tailDecimals_eq (tail : List (Bool × String)) (i : Nat) :
    tailDecimals tail = tailDecimals (tail.take i) >>= fun ds =>
      tailDecimals (tail.drop i) >>= fun es => pure (ds ++ es) := by
  have happend : (tail.take i ++ tail.drop i).mapM termDecimal
      = tailDecimals (tail.take i) >>= fun ds =>
        tailDecimals (tail.drop i) >>= fun es => pure (ds ++ es) := List.mapM_append
  rwa [List.take_append_drop] at happend

theorem drainGrouped_cons {ds es : List Decimal} {i : Nat} (d : Decimal)
    (hds : tailDecimals (tail.take i) = .ok ds) (hes : tailDecimals (tail.drop i) = .ok es) :
    Decimal.drainGrouped i (d :: (ds ++ es))
      = Decimal.drain (d :: ds) >>= fun e => Decimal.drain (e :: es) := by
  have hlength := length_of_tailDecimals hds
  have hlength' := length_of_tailDecimals hes
  rw [List.length_take] at hlength
  rw [List.length_drop] at hlength'
  have hsplit : (ds ++ es).take i = ds ∧ (ds ++ es).drop i = es := by
    rcases Nat.le_total i tail.length with hi | hi
    · have hi' : ds.length = i := by omega
      exact ⟨List.take_left' hi', List.drop_left' hi'⟩
    · obtain rfl : es = [] := List.eq_nil_of_length_eq_zero (by omega)
      rw [List.append_nil]
      exact ⟨List.take_of_length_le (by omega), List.drop_of_length_le (by omega)⟩
  rw [Decimal.drainGrouped]
  rw [List.take_succ_cons, List.drop_succ_cons, hsplit.1, hsplit.2]

/-- The parentheses only change the order in which the decimals are drained. -/
theorem groupedSum_eq (hs : s.Readable) (i : Nat) :
    s.groupedSum i = s.decimals >>= Decimal.drainGrouped i := by
  have hlast : OnlyTooLarge (tailDecimals (s.tail.drop i)) :=
    onlyTooLarge_tailDecimals fun p hp => hs.of_mem_tail p (List.mem_of_mem_drop hp)
  rw [groupedSum, sum_eq, decimals, tailDecimals_eq s.tail i]
  simp only [bind_assoc, pure_bind]
  apply bind_congr
  intro d
  show (tailDecimals (s.tail.take i) >>= fun ds => Decimal.drain (d :: ds) >>= _) = _
  cases hds : tailDecimals (s.tail.take i) with
  | error f => rfl
  | ok ds =>
    show (Decimal.drain (d :: ds) >>= fun e => tailDecimals (s.tail.drop i) >>= fun es =>
      Decimal.drain (e :: es)) = tailDecimals (s.tail.drop i) >>= fun es =>
        Decimal.drainGrouped i (d :: (ds ++ es))
    rw [(Decimal.onlyTooLarge_drain (d :: ds)).comm hlast]
    cases hes : tailDecimals (s.tail.drop i) with
    | error f => rfl
    | ok es => exact (drainGrouped_cons d hds hes).symm

/-- A chain is worth what its drained decimals are worth, and so is the chain with its first terms
in parentheses. Thus the two end alike exactly if a literal is too large, or if both ways to drain
the decimals do. -/
theorem value_text_eq_value_grouped_iff (c : Calculator) (hconstants : c.constants.Valid)
    {s : Chain} (hs : s.Readable) (i : Nat) :
    (c.value s.text).map Quantity.toDecimal = s.decimals >>= Decimal.drain ∧
    (c.value (s.grouped i)).map Quantity.toDecimal = s.decimals >>= Decimal.drainGrouped i ∧
    ((c.value s.text).map Quantity.toDecimal = (c.value (s.grouped i)).map Quantity.toDecimal ↔
      ∀ ds, s.decimals = .ok ds → Decimal.drain ds = Decimal.drainGrouped i ds) := by
  have htext := value_text c hconstants hs
  have hgrouped := (value_grouped c hconstants hs i).trans (groupedSum_eq hs i)
  refine ⟨htext, hgrouped, ?_⟩
  rw [htext, hgrouped, sum]
  cases s.decimals with
  | error f => exact ⟨fun _ ds h => (by cases h), fun _ => rfl⟩
  | ok ds =>
    constructor
    · intro h es hes
      cases hes
      exact h
    · intro h
      exact h ds rfl

/-- The chain `1E60-1E60+1`. -/
def cancelling : Chain := ⟨"1E60", [(true, "1E60"), (false, "1")]⟩

theorem value_text_ne_value_grouped_cancelling :
    (({} : Calculator).value "1E60-1E60+1").map Quantity.toDecimal = .ok .zero ∧
    (({} : Calculator).value "(1E60-1E60)+1").map Quantity.toDecimal = .ok .one := by
  have hread : cancelling.Readable := by decide
  obtain ⟨htext, hgrouped, -⟩ :=
    value_text_eq_value_grouped_iff {} ConstantTable.valid_empty hread 1
  have hdrain : cancelling.decimals >>= Decimal.drain = .ok .zero := by decide +kernel
  have hdrainGrouped : cancelling.decimals >>= Decimal.drainGrouped 1 = .ok .one := by
    decide +kernel
  exact ⟨htext.trans hdrain, hgrouped.trans hdrainGrouped⟩

end Chain

end Keypad.Arithmetic
