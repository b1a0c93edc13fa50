import Keypad.Proofs.Evaluation.Regrouping
import Keypad.Proofs.Percent.Reading

/-!
# An operand and its hundredth

An operand that is divided by a hundred is evaluated once as part of its level and once in a group
of its own. The two states share the operand read last and what waits inside the group; the level
has the factors before it besides, and it may have changed the sign of the first factor. Where the
operand is no divisor and no part of a fraction, the products are the same, and they go on alike if
nothing follows that takes the operand read last.
-/

namespace Keypad

open Canonical Run Quantity

variable {unit : AngleUnit} {table : ConstantTable} {answer : Except Failure Line}
variable {c c₀ d : Frame} {v w : Quantity}

namespace Frame

/-- What waits in the group `d` waits in the level `c`, which has read the same from `c₀` on. The
first factor has the sign that waited in `c₀`. -/
inductive Shares (c₀ : Frame) : Frame → Frame → Prop where
  | mk (vs : List Quantity) (v w : Quantity) (divides : Bool) :
    Shares c₀
      { c₀ with
        factors := vs ++ v.negIf c₀.negative :: c₀.factors, last := some w, divides
        negative := false }
      { factors := vs ++ [v], last := some w, divides }

/-- The value of a factor, inverted if it is a divisor. -/
def factorOf (divides : Bool) (v : Quantity) : Run Quantity := if divides then Run.inv v else pure v

theorem closeFactor_of_last (hl : c.last = some v) (hp : c.parts = []) :
    c.closeFactor = factorOf c.divides v >>= fun w =>
      pure (w, { c with last := none, divides := false }) := by
  simp only [closeFactor_eq, closeParts, takeLast, hl, hp, closeFraction, pure_bind]
  simp [factorOf]

theorem factor_of_last (hl : c.last = some v) (hp : c.parts = []) (divides : Bool) :
    c.factor divides = factorOf c.divides v >>= fun w =>
      pure { c with factors := w :: c.factors, last := none, divides, negative := false } := by
  simp only [factor, closeFactor_of_last hl hp, bind_assoc, pure_bind]

theorem closeSigned_of_last (hl : c.last = some v) (hp : c.parts = []) :
    c.closeSigned = factorOf c.divides v >>= fun w => c.factors.foldrM Run.mul w >>= fun w =>
      pure (w.negIf c.subtracts,
        { terms := c.terms, pending := c.pending, negative := c.negative }) := by
  simp only [closeSigned, closeTerm, closeFactor_of_last hl hp, bind_assoc, pure_bind, hp, negIf]

theorem update_of_last (hl : c.last = some v) (f : Quantity → Run Quantity) :
    c.update f = f v >>= fun w => pure { c with last := some w } := by
  simp only [update, takeLast, hl, pure_bind]

theorem advance_hundredth (c : Frame) : hundredth.advance unit table c
    = c.factor true >>= fun c => Run.literal "100" >>= fun v => pure (c.put v) := by
  simp only [hundredth, Line.advance, key, bind_pure]

theorem finish_of_pending_none (h : c.pending = none) :
    c.finish = c.closeSigned >>= fun r => r.2.terms.foldrM Run.add r.1 := by
  rw [finish, h]
  rfl

/-- The operand has been read in both, in the level with the sign that waited there. -/
inductive Begins (c₀ : Frame) : Frame → Frame → Prop where
  | mk (v : Quantity) :
    Begins c₀ { c₀ with last := some (v.negIf c₀.negative), negative := false } { last := some v }

theorem Begins.agree_update (h : c₀.Begins c d) (hsign : c₀.negative = false)
    (f : Quantity → Run Quantity) : Agree c₀.Begins (c.update f) (d.update f) := by
  obtain ⟨v⟩ := h
  rw [update_of_last rfl, update_of_last rfl]
  simp only [hsign, negIf, if_neg Bool.false_ne_true]
  refine agree_bind_left fun w => agree_pure ?_
  have hw : c₀.Begins _ _ := .mk w
  simpa only [hsign, negIf, if_neg Bool.false_ne_true] using hw

theorem Shares.agree_update (h : c₀.Shares c d) (f : Quantity → Run Quantity) :
    Agree c₀.Shares (c.update f) (d.update f) := by
  obtain ⟨vs, v, w, divides⟩ := h
  rw [update_of_last rfl, update_of_last rfl]
  exact agree_bind_left fun x => agree_pure (.mk vs v x divides)

section Ready

variable (hready : c₀.Ready)
include hready

/-- The percent sign makes the operand a factor, with its sign. -/
theorem Begins.agree_hundredth (h : c₀.Begins c d) :
    Agree c₀.Shares (hundredth.advance unit table c) (hundredth.advance unit table d) := by
  obtain ⟨v⟩ := h
  have hc := factor_of_last (c := { c₀ with last := some (v.negIf c₀.negative), negative := false })
    rfl hready.parts true
  have hd := factor_of_last (c := { last := some v }) rfl rfl true
  rw [advance_hundredth, advance_hundredth, hc, hd]
  simp only [hready.divides, factorOf, if_neg Bool.false_ne_true, pure_bind]
  exact agree_bind_left fun x => agree_pure (.mk [] v x true)

theorem Shares.agree_hundredth (h : c₀.Shares c d) :
    Agree c₀.Shares (hundredth.advance unit table c) (hundredth.advance unit table d) := by
  obtain ⟨vs, v, w, divides⟩ := h
  have hc := factor_of_last (c := { c₀ with
    factors := vs ++ v.negIf c₀.negative :: c₀.factors, last := some w, divides
    negative := false }) rfl hready.parts true
  have hd := factor_of_last (c := { factors := vs ++ [v], last := some w, divides }) rfl rfl true
  rw [advance_hundredth, advance_hundredth, hc, hd, bind_assoc, bind_assoc]
  refine agree_bind_left fun u => ?_
  rw [pure_bind, pure_bind]
  exact agree_bind_left fun x => agree_pure (.mk (u :: vs) v x true)

theorem Shares.agree_suffix (h : c₀.Shares c d) {s : Suffix} {own : Line}
    (hown : s.form answer = .ok own) :
    Agree c₀.Shares (own.advance unit table c) (own.advance unit table d) := by
  cases hs : s.isPercent with
  | true =>
    obtain rfl := s.eq_percent_of_isPercent hs
    cases hown
    exact h.agree_hundredth hready
  | false =>
    obtain ⟨f, hf⟩ := exists_update_of_form unit table hown hs
    have hpending : c.pending = none ∧ d.pending = none := by
      cases h
      exact ⟨hready.pending, rfl⟩
    rw [hf c hpending.1, hf d hpending.2]
    exact h.agree_update f

/-- Whatever stands behind the operand keeps what the states share. -/
theorem Shares.agree_suffixes (h : c₀.Shares c d) (hc : c.All Bounded) (hd : d.All Bounded)
    {suffixes : List Suffix} {own : Line} (hown : Suffix.forms answer suffixes = .ok own) :
    Agree c₀.Shares (own.advance unit table c) (own.advance unit table d) := by
  induction suffixes generalizing c d own with
  | nil =>
    cases hown
    exact agree_pure h
  | cons s suffixes ih =>
    obtain ⟨first, hfirst, hown⟩ := Except.exists_of_bind hown
    obtain ⟨others, hothers, hown⟩ := Except.exists_of_bind hown
    cases hown
    exact Line.agree_advance_append hc hd (h.agree_suffix hready hfirst) fun c d hc hd h =>
      ih h hc hd hothers

/-- The first percent sign behind the operand makes it a factor. Before that it is replaced only if
no sign has been given to it. -/
theorem Begins.agree_suffixes (h : c₀.Begins c d) (hc : c.All Bounded) (hd : d.All Bounded)
    {suffixes : List Suffix} {own : Line} (hown : Suffix.forms answer suffixes = .ok own)
    (hsign : c₀.negative → suffixes.head?.all Suffix.isPercent) :
    Agree c₀.Shares ((own ++ hundredth).advance unit table c)
      ((own ++ hundredth).advance unit table d) := by
  induction suffixes generalizing c d own with
  | nil =>
    cases hown
    exact h.agree_hundredth hready
  | cons s suffixes ih =>
    obtain ⟨first, hfirst, hown⟩ := Except.exists_of_bind hown
    obtain ⟨others, hothers, hown⟩ := Except.exists_of_bind hown
    cases hown
    rw [Line.append_assoc]
    cases hs : s.isPercent with
    | true =>
      obtain rfl := s.eq_percent_of_isPercent hs
      cases hfirst
      exact Line.agree_advance_append hc hd (h.agree_hundredth hready) fun c d hc hd h =>
        h.agree_suffixes hready hc hd (Suffix.forms_concat hothers)
    | false =>
      have hunsigned : c₀.negative = false := by
        by_contra hn
        have hhead := hsign (by simpa using hn)
        simp [hs] at hhead
      have hpending : c.pending = none ∧ d.pending = none := by
        cases h
        exact ⟨hready.pending, rfl⟩
      obtain ⟨f, hf⟩ := exists_update_of_form unit table hfirst hs
      refine Line.agree_advance_append hc hd ?_ fun c d hc hd h =>
        ih h hc hd hothers (by simp [hunsigned])
      rw [hf c hpending.1, hf d hpending.2]
      exact h.agree_update hunsigned f

/-- An operand with a percent sign, read in the level and in a group. -/
theorem agree_operand (unit : AngleUnit) (table : ConstantTable) (hc : c₀.All Bounded)
    {x : TypedOperand} {own : Line} (hown : x.form answer = .ok own)
    (hsign : c₀.negative → x.takesSign) :
    Agree c₀.Shares ((own ++ hundredth).advance unit table c₀)
      ((own ++ hundredth).advance unit table {}) := by
  obtain ⟨first, hfirst, hown⟩ := Except.exists_of_bind hown
  obtain ⟨others, hothers, hown⟩ := Except.exists_of_bind hown
  cases hown
  obtain ⟨r, hread⟩ := exists_isRead_of_form unit table hfirst
  have hagree : Agree c₀.Begins (first.advance unit table c₀) (first.advance unit table {}) := by
    have hsame : Agree (fun v w => v = w.negIf c₀.negative) (r c₀.negative) (r false) := by
      cases c₀.negative with
      | false => exact (agree_refl fun t => ends_true t _).imp fun _ _ h => h.1
      | true => exact hread.signed.symm
    rw [hread.advance c₀ hready.pending, hread.advance {} rfl]
    refine hsame.map fun v w hvw => ?_
    rw [hvw]
    exact .mk w
  rw [Line.append_assoc]
  exact Line.agree_advance_append hc (all_start _) hagree fun c d hc hd h =>
    h.agree_suffixes hready hc hd hothers hsign

end Ready

/-! ## What follows -/

theorem negIf_exact (q : Rat) (negative : Bool) :
    (Quantity.exact q).negIf negative = .exact (if negative then -q else q) := by
  cases negative <;> rfl

/-- The product that waits in the group, with the sign of its first factor. -/
theorem exists_of_product {vs : List Quantity} {t u : Trail} {x q : Quantity}
    (h : Arrives ((vs ++ [v]).foldrM Run.mul x) t q u) (negative : Bool) :
    ∃ (ps : List Rat) (r : Rat), ps ≠ [] ∧ vs ++ [v.negIf negative] = ps.map .exact ∧
      x = .exact r ∧ q.negIf negative = .exact (ps.prod * r) ∧ u = t := by
  obtain ⟨qs, hqs, rfl, ⟨hnil, -⟩ | ⟨r, rfl, rfl⟩⟩ := h.of_product
  · simp at hnil
  obtain ⟨ps, p, rfl, rfl, hp⟩ := List.map_eq_append_iff.1 hqs.symm
  obtain ⟨p, rfl, rfl⟩ := List.map_eq_singleton_iff.1 hp
  refine ⟨ps ++ [if negative then -p else p], r, by simp, ?_, rfl, ?_, rfl⟩
  · rw [negIf_exact]
    simp
  · rw [negIf_exact]
    cases negative <;> simp [List.prod_append]

/-- The factors of the group may be multiplied before those of the level. -/
theorem agree_waiting (vs fs : List Quantity) (v x : Quantity) (negative : Bool) :
    Agree Eq ((vs ++ v.negIf negative :: fs).foldrM Run.mul x)
      ((vs ++ [v]).foldrM Run.mul x >>= fun q => fs.foldrM Run.mul (q.negIf negative)) := by
  intro t a u b w ha hb
  obtain ⟨q, s, -, hq, hfs⟩ := hb.of_bind (Arithmetic.KeepsLoss.foldrM keepsLoss_mul x _)
    fun q _ => Arithmetic.KeepsLoss.foldrM keepsLoss_mul (q.negIf negative) fs
  obtain ⟨ps, r, -, hps, rfl, hproduct, rfl⟩ := exists_of_product hq negative
  rw [← List.singleton_append, ← List.append_assoc, hps] at ha
  rw [hproduct] at hfs
  exact agree_product_exact ps fs r s a u b w ha hfs

/-- The value of the group. -/
theorem finish_group (vs : List Quantity) (w : Quantity) (divides : Bool) :
    finish { factors := vs, last := some w, divides }
      = factorOf divides w >>= fun x => vs.foldrM Run.mul x := by
  have hclosed := closeSigned_of_last (c := { factors := vs, last := some w, divides }) rfl rfl
  rw [finish_of_pending_none rfl, hclosed]
  simp only [bind_assoc, pure_bind]
  exact congrArg _ (funext fun x => bind_pure _)

section Closing

variable (hready : c₀.Ready)
include hready

theorem factor_put (q : Quantity) (divides : Bool) :
    (c₀.put q).factor divides = pure { c₀ with
      factors := q.negIf c₀.negative :: c₀.factors, divides, negative := false } := by
  have hlast := hready.last
  have hfactor := factor_of_last (c := c₀.put q) rfl hready.parts divides
  rw [hfactor]
  simp only [put, hready.divides, hlast, factorOf, if_neg Bool.false_ne_true, pure_bind]
  rfl

theorem closeSigned_put (q : Quantity) : (c₀.put q).closeSigned
    = c₀.factors.foldrM Run.mul (q.negIf c₀.negative) >>= fun w =>
      pure (w.negIf c₀.subtracts, { terms := c₀.terms, pending := c₀.pending }) := by
  have hclosed := closeSigned_of_last (c := c₀.put q) rfl hready.parts
  rw [hclosed]
  simp only [put, hready.divides, factorOf, if_neg Bool.false_ne_true, pure_bind]
  rfl

/-- The term is the same if it ends behind the operand. -/
theorem Shares.agree_closeSigned (h : c₀.Shares c d) :
    Agree Eq c.closeSigned (d.finish >>= fun q => (c₀.put q).closeSigned) := by
  obtain ⟨vs, v, w, divides⟩ := h
  have hclosed := closeSigned_of_last (c := { c₀ with
    factors := vs ++ v.negIf c₀.negative :: c₀.factors, last := some w, divides
    negative := false }) rfl hready.parts
  rw [hclosed, finish_group, bind_assoc]
  refine agree_bind_left fun x => ?_
  simp only [closeSigned_put hready, ← bind_assoc]
  refine (agree_waiting vs c₀.factors v x c₀.negative).map ?_
  rintro y _ rfl
  rfl

/-- If the term goes on, the same factors wait but for how they are grouped. -/
theorem Shares.agree_factor (h : c₀.Shares c d) (divides : Bool) :
    Agree Regroups (c.factor divides) (d.finish >>= fun q => (c₀.put q).factor divides) := by
  obtain ⟨vs, v, w, divided⟩ := h
  have hfactor := factor_of_last (c := { c₀ with
    factors := vs ++ v.negIf c₀.negative :: c₀.factors, last := some w, divides := divided,
    negative := false }) rfl hready.parts divides
  rw [hfactor, finish_group, bind_assoc]
  refine agree_bind_left fun x => ?_
  intro t a u b s ha hb
  obtain ⟨rfl, rfl⟩ := arrives_pure ha
  simp only [factor_put hready] at hb
  obtain ⟨q, s', -, hq, hput⟩ := hb.of_bind (Arithmetic.KeepsLoss.foldrM keepsLoss_mul x _)
    fun _ _ => keepsLoss_pure _
  obtain ⟨ps, r, -, hps, rfl, hproduct, rfl⟩ := exists_of_product hq c₀.negative
  rw [hproduct] at hput
  obtain ⟨rfl, rfl⟩ := arrives_pure hput
  have hwaiting : vs ++ v.negIf c₀.negative :: c₀.factors
      = ps.map Quantity.exact ++ c₀.factors := by
    rw [← hps, List.append_assoc]
    rfl
  refine ⟨⟨by rw [hready.last], fun y => ?_⟩, rfl⟩
  dsimp only
  rw [hwaiting, ← List.cons_append, ← List.map_cons]
  have hprod : (r :: ps).prod = [ps.prod * r].prod := by
    rw [List.prod_cons, List.prod_singleton, mul_comm]
  exact agree_product_append (List.cons_ne_nil r ps) hprod c₀.factors y

end Closing

end Frame

/-- Does the key leave the operand before it as it is? -/
def Key.separates : Key → Bool
  | plus | minus | times | obelus | comma => true
  | _ => false

/-- Does the rest of a level leave the operand before it as it is? -/
def Line.separated : Line → Bool
  | nil => true
  | key k _ => k.separates
  | group _ _ => false

theorem Line.separated_append {line : Line} (h : line.separated) (hne : line ≠ nil) (rest : Line) :
    (line ++ rest).separated := by
  cases line with
  | nil => exact absurd rfl hne
  | key k line => exact h
  | group inner line => cases h

open Keypad.Frame

/-- What ends a term goes on from the term alone. -/
theorem Line.exists_values_of_closes (unit : AngleUnit) (table : ConstantTable) {tail : Line}
    (htail : tail.separated)
    (hfactor : ∀ rest, tail ≠ .key .times rest ∧ tail ≠ .key .obelus rest) :
    ∃ next : Quantity × Frame → Run (List Quantity),
      (∀ r, Reduced Bounded r → KeepsLoss (next r)) ∧
      ∀ c : Frame, c.last.isSome → c.pending = none →
        tail.values unit table c = c.closeSigned >>= next := by
  have hsum (r : Quantity × Frame) : KeepsLoss (r.2.terms.foldrM Run.add r.1) :=
    Arithmetic.KeepsLoss.foldrM keepsLoss_add _ _
  have hsign (minus : Bool) (rest : Line) : ∃ next : Quantity × Frame → Run (List Quantity),
      (∀ r, Reduced Bounded r → KeepsLoss (next r)) ∧
      ∀ c : Frame, c.last.isSome → (c.sign minus >>= fun c => rest.values unit table c)
        = c.closeSigned >>= next := by
    refine ⟨fun r =>
        rest.values unit table { r.2 with terms := r.1 :: r.2.terms, subtracts := minus },
      fun r hr => Line.keepsLoss_values unit table rest
        ⟨List.forall_mem_cons.2 ⟨hr.1, hr.2.terms⟩, hr.2.factors, hr.2.parts, hr.2.last⟩,
      fun c hlast => ?_⟩
    rw [Frame.sign, if_neg (by simpa using Option.isSome_iff_ne_none.1 hlast), bind_assoc]
    rfl
  cases tail with
  | nil =>
    refine ⟨fun r => r.2.terms.foldrM Run.add r.1 >>= fun v => pure [v],
      fun r _ => (hsum r).bind fun _ => keepsLoss_pure _, fun c _ hpending => ?_⟩
    rw [Line.values, finish_of_pending_none hpending, bind_assoc]
  | group inner rest => cases htail
  | key k rest =>
    cases k with
    | plus =>
      obtain ⟨next, hnext, hvalues⟩ := hsign false rest
      exact ⟨next, hnext, fun c hlast _ => hvalues c hlast⟩
    | minus =>
      obtain ⟨next, hnext, hvalues⟩ := hsign true rest
      exact ⟨next, hnext, fun c hlast _ => hvalues c hlast⟩
    | comma =>
      have hrest := Line.keepsLoss_values unit table rest (all_start _)
      refine ⟨fun r => r.2.terms.foldrM Run.add r.1 >>= fun v =>
        rest.values unit table {} >>= fun vs => pure (v :: vs),
        fun r _ => (hsum r).bind fun _ => hrest.bind fun _ => keepsLoss_pure _,
        fun c _ hpending => ?_⟩
      rw [Line.values, finish_of_pending_none hpending, bind_assoc]
    | times => exact absurd rfl (hfactor rest).1
    | obelus => exact absurd rfl (hfactor rest).2
    | _ => cases htail

theorem Frame.Shares.agree_values (hready : c₀.Ready) (hc₀ : c₀.All Bounded) (h : c₀.Shares c d)
    (hc : c.All Bounded) (hd : d.All Bounded) {tail : Line} (htail : tail.separated) :
    Agree Eq (tail.values unit table c)
      (d.finish >>= fun q => tail.values unit table (c₀.put q)) := by
  have hD := Decimal.invariant_true table
  have hput (q : Quantity) (hq : Bounded q) : (c₀.put q).All Bounded :=
    hc₀.put (fun _ _ => trivial) hq
  have hfactor (divides : Bool) (rest : Line) :
      Agree Eq (c.factor divides >>= fun c => rest.values unit table c)
        (d.finish >>= fun q => (c₀.put q).factor divides >>= fun c =>
          rest.values unit table c) := by
    rw [← bind_assoc]
    exact (h.agree_factor hready divides).bind (keeps_factor hD hc divides)
      ((keeps_finish hD hd).bind fun q hq => keeps_factor hD (hput q hq) divides)
      (fun c hc => Line.keepsLoss_values unit table rest hc)
      (fun c hc => Line.keepsLoss_values unit table rest hc) fun c d hc hd h => h.values hc hd rest
  by_cases hclosed : ∀ rest, tail ≠ .key .times rest ∧ tail ≠ .key .obelus rest
  · obtain ⟨next, hnext, hvalues⟩ :=
      Line.exists_values_of_closes unit table htail hclosed
    have hlast : c.last.isSome ∧ c.pending = none := by
      cases h
      exact ⟨rfl, hready.pending⟩
    simp only [hvalues c hlast.1 hlast.2, fun q => hvalues (c₀.put q) rfl hready.pending]
    rw [← bind_assoc]
    refine (h.agree_closeSigned hready).bind (keeps_closeSigned hD hc)
      ((keeps_finish hD hd).bind fun q hq => keeps_closeSigned hD (hput q hq)) hnext hnext ?_
    rintro r _ - - rfl
    exact (agree_refl fun t => ends_true t _).imp fun _ _ h => h.1
  · push Not at hclosed
    obtain ⟨rest, hrest⟩ := hclosed
    by_cases htimes : tail = .key .times rest
    · rw [htimes]
      exact hfactor false rest
    · rw [hrest htimes]
      exact hfactor true rest

/-- An operand with a percent sign has the value of the group in which it is divided by a hundred,
as far as the rest of the level is concerned. -/
theorem Frame.Ready.agree_group (hready : c₀.Ready) (hc₀ : c₀.All Bounded) {x : TypedOperand}
    {own tail : Line} (hown : x.form answer = .ok own) (hsign : c₀.negative → x.takesSign)
    (htail : tail.separated) :
    Agree Eq ((own ++ (hundredth ++ tail)).values unit table c₀)
      ((Line.group (own ++ hundredth) tail).values unit table c₀) := by
  have hagree := Frame.agree_operand hready unit table hc₀ hown hsign
  have hundivided : (own ++ hundredth).commas = 0 := by
    rw [Line.commas_append, x.commas_of_form hown]
    rfl
  have hinner : (own ++ hundredth).values unit table {}
      = (own ++ hundredth).advance unit table {} >>= fun d => d.finish >>= fun v => pure [v] := by
    conv_lhs => rw [← Line.append_nil (own ++ hundredth)]
    exact Line.values_append hundivided .nil {}
  have hgroup : (Line.group (own ++ hundredth) tail).values unit table c₀
      = (own ++ hundredth).advance unit table {} >>= fun d => d.finish >>= fun q =>
        tail.values unit table (c₀.put q) := by
    rw [Line.values, group_of_pending_none hready.pending, hinner]
    simp only [bind_assoc, pure_bind, only]
  have hD := Decimal.invariant_true table
  rw [← Line.append_assoc, Line.values_append hundivided, hgroup]
  refine hagree.bind (Line.keeps_advance unit table _ hc₀)
    (Line.keeps_advance unit table _ (all_start _))
    (fun c hc => Line.keepsLoss_values unit table tail hc) (fun d hd => ?_)
    fun c d hc hd h => h.agree_values hready hc₀ hc hd htail
  exact ((keeps_finish hD hd).bind fun q hq => Line.keeps_values hD unit tail
    (hc₀.put (fun _ _ => trivial) hq)).mono fun _ _ => trivial

/-! ## Factorials -/

/-- The factorial of a hundred is too long to be exact. -/
theorem lost_factorial_hundred (t : Trail) : Lost t (Run.factorial (.exact 100)) := by
  have hrational : rational? (Decimal.factorial 100) = none := by decide +kernel
  have hbounded : exceedsMaximum (Decimal.factorial 100) = false := by decide +kernel
  have hinteger : (Quantity.exact 100).toInt? = some 100 := by decide
  have hrun : Run.factorial (.exact 100) = ofFunction (Decimal.factorial 100) := by
    rw [Run.factorial, hinteger]
    dsimp only
    rw [if_neg (by decide), if_neg (by decide), signed]
    show (bounded (Decimal.factorial 100) >>= fun m => ofFunction m) = _
    rw [bounded, hbounded]
    rfl
  rw [hrun, Lost, ofFunction, ends_bind, ends_get]
  cases ht : t.exact with
  | true => simp [hrational]
  | false => simp [ht]

theorem run_hundred {t : Trail} (ht : t.exact) :
    (Run.literal "100").run t = .ok (.exact 100, t) := by
  have hparts : Literal.parts? "100".toList = some (100, 0) := by decide +kernel
  exact Arithmetic.run_literal_of_exact ht hparts (by decide +kernel)

theorem lost_factorial_minus_hundred (t : Trail) : Lost t (Run.factorial (.exact (-100))) := by
  have hinteger : (Quantity.exact (-100)).toInt? = some (-100) := by decide
  rw [Run.factorial, hinteger]
  exact lost_throw _

/-- With a factorial behind it, the percent sign leads to no exact value. -/
theorem Line.lost_hundredth_bang (unit : AngleUnit) (table : ConstantTable) (hc : c.All Bounded)
    (tail : Line) (t : Trail) :
    Lost t ((hundredth ++ .key .bang tail).values unit table c) := by
  have hD := Decimal.invariant_true table
  have hfactorial (negative : Bool) (u : Trail) :
      Lost u (Run.factorial ((Quantity.exact 100).negIf negative)) := by
    cases negative with
    | false => exact lost_factorial_hundred u
    | true => exact lost_factorial_minus_hundred u
  rw [hundredth, Line.key_append, Line.values_key _ _ _ (by simp)]
  refine (keeps_factor hD hc true).bind_lost fun c u hc => ?_
  cases hu : u.exact with
  | false => exact (Line.keeps_values hD unit _ hc).lost hu
  | true =>
    have hrun : (c.key table (.literal "100")).run u = .ok (c.put (.exact 100), u) := by
      rw [Frame.key, StateT.run_bind, run_hundred hu]
      rfl
    have hbounds : inBounds 100 := by decide
    have hput : (c.put (.exact 100)).All Bounded := hc.put (fun _ _ => trivial) hbounds
    rw [Line.key_append, Line.values_key _ _ _ (by simp)]
    refine lost_bind_of_run hrun ?_
    rw [Line.nil_append, Line.values_key _ _ _ (by simp), Frame.key]
    have hupdate : (c.put (.exact 100)).update Run.factorial
        = Run.factorial ((Quantity.exact 100).negIf c.negative) >>= fun w =>
          pure { c.put (.exact 100) with last := some w } := update_of_last rfl _
    have hkept : Keeps (All Bounded) ((c.put (.exact 100)).update Run.factorial) :=
      keeps_update hput fun v _ => keeps_factorial hD v
    refine Lost.bind ?_ hkept fun c hc => Line.keeps_values hD unit tail hc
    rw [hupdate]
    exact (hfactorial c.negative u).bind (keeps_factorial hD _) fun w hw =>
      keeps_pure (P := All Bounded) (hput.setLast hw)

/-- An operand with a percent sign and a factorial behind it agrees with anything. -/
theorem Frame.agree_bang {α : Type} {R : List Quantity → α → Prop} (hc : c.All Bounded)
    {x : TypedOperand} {own : Line} (hown : x.form answer = .ok own) (tail : Line) (n : Run α) :
    Agree R ((own ++ (hundredth ++ .key .bang tail)).values unit table c) n := by
  intro t a u b w ha hb
  have hlost : Lost t ((own ++ (hundredth ++ .key .bang tail)).values unit table c) := by
    rw [Line.values_append (x.commas_of_form hown)]
    exact (Line.keeps_advance unit table own hc).bind_lost fun c u hc =>
      Line.lost_hundredth_bang unit table hc tail u
  have hinexact := ha.of_ends hlost
  simp [ha.2] at hinexact

end Keypad
