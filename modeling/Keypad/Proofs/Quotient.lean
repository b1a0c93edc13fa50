import Keypad.Proofs.Algebraic
import Keypad.Proofs.Arithmetic.Decimal
import Keypad.Proofs.Decimal.Accuracy
import Keypad.Proofs.Evaluation.Exactness

/-!
# Two ways to type a quotient

The formula `a/b` divides the two literals, the formula `a÷b` multiplies the first one by the
inverse of the second. As long as both are fractions this is the same. Among decimals the first is
rounded once and the second twice, and each rounding may find its number too large; the two results
then differ in their last digits, if both are given.
-/

namespace Keypad

open Digits

namespace Decimal

/-- The decimal that an operation gives, unless it gives none or it is too large. -/
def checked : Option Decimal → Except Failure Decimal
  | none => .error .divisionByZero
  | some d => if Quantity.exceedsMaximum d then .error .tooLarge else .ok d

/-- The rounded quotient. -/
def checkedDiv (a b : Decimal) : Except Failure Decimal := checked (a.div? b)

/-- The rounded product with the rounded inverse. -/
def checkedMulInv (a b : Decimal) : Except Failure Decimal := do
  checked (some (a.mul (← checkedDiv one b)))

variable {a b d i p : Decimal} {c k : Nat} {x y : Rat}

theorem eq_some_of_checked {o : Option Decimal} (h : checked o = .ok d) : o = some d := by
  cases o with
  | none => cases h
  | some e =>
    rw [checked] at h
    split at h
    · cases h
    · cases h
      rfl

theorem near_of_checkedDiv (ha : Sized c a.value) (hb : Sized k b.value) (hsize : c + k < 2 ^ 51)
    (h : checkedDiv a b = .ok d) : Near (1 / (2 * 10 ^ 47)) (a.value / b.value) d.value := by
  have hdiv := eq_some_of_checked h
  have hzero : b.isZero = false := by
    rw [Bool.eq_false_iff]
    intro hzero
    rw [div?, if_pos hzero] at hdiv
    cases hdiv
  obtain ⟨e, he, hround⟩ := roundsTo_div? a hzero
  obtain rfl := Option.some.inj (he.symm.trans hdiv)
  have hinv := ha.mul hb.inv
  rw [← div_eq_mul_inv] at hinv
  exact near_of_roundsTo hround hinv hsize

/-- Two numbers near to the same one are near to each other. -/
theorem near_of_near_both {q : Rat} (h : Near (1 / (2 * 10 ^ 47)) q x)
    (h' : Near (11 / 10 ^ 48) q y) : Near (2 / 10 ^ 47) x y := by
  have htriangle := abs_sub_le y q x
  have hsize := abs_sub_abs_le_abs_sub q x
  rw [Near] at *
  rw [abs_sub_comm q x] at htriangle hsize
  norm_num at h h' ⊢
  linarith [abs_nonneg q]

/-- The quotient rounded once and rounded twice differ in their last digits only. -/
theorem near_checkedDiv_checkedMulInv (ha : Sized c a.value) (hb : Sized c b.value)
    (hc : c < 2 ^ 40) (hd : checkedDiv a b = .ok d) (hp : checkedMulInv a b = .ok p) :
    Near (2 / 10 ^ 47) d.value p.value := by
  have hone : one.value = 1 := by simp [one, value, fraction_eq]
  obtain ⟨i, hi, hproduct⟩ := Except.exists_of_bind hp
  obtain rfl := Option.some.inj (eq_some_of_checked hproduct)
  have hinverse := near_of_checkedDiv (c := 1) (by rw [hone]; intro _; norm_num) hb (by omega) hi
  rw [hone, one_div b.value] at hinverse
  have hsized := hb.inv.of_near hinverse (by norm_num)
  have hmul := near_mul ha hsized (by omega)
  have hscaled : Near (1 / (2 * 10 ^ 47)) (a.value / b.value) (a.value * i.value) := by
    rw [Near, div_eq_mul_inv, ← mul_sub, abs_mul, abs_mul]
    calc |a.value| * |i.value - b.value⁻¹| ≤ |a.value| * (1 / (2 * 10 ^ 47) * |b.value⁻¹|) :=
          mul_le_mul_of_nonneg_left hinverse (abs_nonneg _)
      _ = 1 / (2 * 10 ^ 47) * (|a.value| * |b.value⁻¹|) := by ring
  exact near_of_near_both (near_of_checkedDiv ha hb (by omega) hd)
    ((hscaled.trans hmul (by norm_num)).mono (by norm_num))

end Decimal

/-! ## Runs -/

namespace Run

variable {v : Quantity} {b : Decimal} {x y : Rat} {t : Trail}

/-- An operation with a decimal operand is one on decimals. -/
theorem run_combine_approx (onRat : Rat → Rat → Rat)
    (onDecimal : Decimal → Decimal → Option Decimal) (v : Quantity) (b : Decimal) (t : Trail) :
    (combine onRat onDecimal v (.approx b)).run t =
      (Decimal.checked (onDecimal v.toDecimal b)).map
        fun d => (.approx d, { t with exact := false }) := by
  have hdecimal : (combine onRat onDecimal v (.approx b)).run t =
      (match onDecimal v.toDecimal b with
        | none => (throw Failure.divisionByZero : Run Quantity)
        | some d => bounded d >>= fun d => settle (.approx d)).run t := by
    rw [combine, StateT.run_bind, StateT.run_get, pure_bind]
    cases t.exact <;> cases v <;> rfl
  rw [hdecimal]
  cases onDecimal v.toDecimal b with
  | none => rfl
  | some d =>
    dsimp only
    rw [bounded, Decimal.checked]
    split <;> rfl

theorem run_div_approx (v : Quantity) (b : Decimal) (t : Trail) :
    (div v (.approx b)).run t =
      (Decimal.checkedDiv v.toDecimal b).map fun d => (.approx d, { t with exact := false }) := by
  rw [div]
  split
  · next hzero =>
    have hb : b.isZero := by
      rw [← Decimal.sign_eq_zero_iff]
      simpa [Quantity.isZero, Quantity.sign] using hzero
    rw [Decimal.checkedDiv, Decimal.div?, if_pos hb]
    rfl
  · exact run_combine_approx _ _ v b t

theorem run_inv_approx (b : Decimal) (t : Trail) :
    (inv (.approx b)).run t =
      (Decimal.checkedDiv .one b).map fun d => (.approx d, { t with exact := false }) := by
  have hone : (Quantity.ofInt 1).toDecimal = .one := Decimal.ofRat_one
  rw [inv, run_div_approx, hone]

theorem run_combine_exact (onRat : Rat → Rat → Rat)
    (onDecimal : Decimal → Decimal → Option Decimal) (ht : t.exact) :
    (combine onRat onDecimal (.exact x) (.exact y)).run t =
      (settle (.exact (onRat x y))).run t := by
  rw [combine, StateT.run_bind, StateT.run_get, pure_bind]
  simp only [ht]

theorem run_inv_exact (hy : Quantity.inBounds y) (hzero : (Quantity.exact y).isZero = false)
    (ht : t.exact) : (inv (.exact y)).run t = .ok (.exact y⁻¹, t) := by
  have hy0 : y.num ≠ 0 := by
    rintro h
    simp [Quantity.isZero, Quantity.sign, h] at hzero
  have hvalue : Rat.div (mkRat 1 1) y = y⁻¹ := by
    show mkRat 1 1 / y = y⁻¹
    rw [Rat.mkRat_one, Int.cast_one, one_div]
  have hparts : y⁻¹ = ((y.den : Int) : Rat) / y.num := by
    conv_lhs => rw [← Rat.num_div_den y]
    rw [inv_div, Int.cast_natCast]
  have hbounds : Quantity.inBounds y⁻¹ := by
    rw [hparts]
    exact Arithmetic.inBounds_div (Quantity.den_le hy) (Quantity.natAbs_num_le hy) hy0
  rw [inv, div, hzero, if_neg Bool.false_ne_true, Quantity.ofInt, run_combine_exact _ _ ht, hvalue]
  simp only [settle, StateT.run_bind, StateT.run_get, pure_bind, ht, hbounds, Bool.and_self,
    if_true]
  rfl

/-- Two fractions are divided alike in both ways. -/
theorem run_div_exact (hy : Quantity.inBounds y) (ht : t.exact) :
    (div (.exact x) (.exact y)).run t = (inv (.exact y) >>= fun w => mul (.exact x) w).run t := by
  cases hzero : (Quantity.exact y).isZero with
  | true =>
    rw [div, hzero, inv, div, hzero]
    rfl
  | false =>
    rw [run_bind_of_ok (run_inv_exact hy hzero ht), div, hzero, if_neg Bool.false_ne_true, mul,
      run_combine_exact _ _ ht, run_combine_exact _ _ ht]
    have hvalue : Rat.div x y = Rat.mul x y⁻¹ := div_eq_mul_inv x y
    rw [hvalue]

theorem map_run_div_settle (v : Quantity) (b : Decimal) (t : Trail) :
    ((div v (.approx b) >>= settle).run t).map Prod.fst
      = (Decimal.checkedDiv v.toDecimal b).map .approx := by
  rw [StateT.run_bind, run_div_approx]
  cases Decimal.checkedDiv v.toDecimal b <;> rfl

theorem map_run_mulInv_settle (v : Quantity) (b : Decimal) (t : Trail) :
    (((inv (.approx b) >>= fun w => mul v w) >>= settle).run t).map Prod.fst
      = (Decimal.checkedMulInv v.toDecimal b).map .approx := by
  rw [bind_assoc, Decimal.checkedMulInv]
  cases hdiv : Decimal.checkedDiv .one b with
  | error f =>
    have hinv : (inv (.approx b)).run t = .error f := by
      rw [run_inv_approx, hdiv]
      rfl
    rw [run_bind_of_error hinv]
    rfl
  | ok i =>
    have hinv : (inv (.approx b)).run t = .ok (.approx i, { t with exact := false }) := by
      rw [run_inv_approx, hdiv]
      rfl
    rw [run_bind_of_ok hinv, StateT.run_bind, mul, run_combine_approx]
    show _ = Except.map _ (Decimal.checked (some (v.toDecimal.mul i)))
    cases Decimal.checked (some (v.toDecimal.mul i)) <;> rfl

variable {a b : String} {d e : Decimal}

/-- Two literals of which one is not a fraction: the second one is read as a decimal. -/
theorem exists_run_literals (ha : Literal.decimal a = .ok d) (hb : Literal.decimal b = .ok e)
    (hexact : ¬((Literal.exactRat? a).isSome ∧ (Literal.exactRat? b).isSome)) :
    ∃ v u u', (literal a).run {} = .ok (v, u) ∧ (literal b).run u = .ok (.approx e, u') ∧
      v.toDecimal = d := by
  have hfirst := run_literal_eq a {}
  have hsecond (u : Trail) := run_literal_eq b u
  simp only [ha] at hfirst
  simp only [hb] at hsecond
  cases hrat : Literal.exactRat? a with
  | none =>
    rw [hrat] at hfirst
    exact ⟨_, _, _, hfirst, hsecond _, rfl⟩
  | some q =>
    have hnone : Literal.exactRat? b = none := by
      rw [hrat] at hexact
      simpa using hexact
    rw [hrat] at hfirst
    refine ⟨_, _, _, hfirst, (hsecond _).trans (by rw [hnone, ite_self]; rfl), ?_⟩
    obtain ⟨⟨m, k⟩, hparts, hq⟩ := Option.bind_eq_some_iff.1 hrat
    have hdecimal := toDecimal_of_run_literal hparts hfirst
    rw [Literal.decimal, hparts] at ha
    dsimp only at ha
    split at ha
    · cases ha
    · exact hdecimal.trans (Except.ok.inj ha)

end Run

namespace Arithmetic

open Run (operations)

/-- The formula `a/b`. -/
def Terms.bar (a b : String) : Terms :=
  .one (.one (.more (.one (.literal none a)) (.literal none b)))

/-- The formula `a÷b`. -/
def Terms.obelus (a b : String) : Terms :=
  .one (.more (.one (.one (.literal none a))) true (.one (.literal none b)))

theorem Terms.eval_bar (a b : String) :
    (bar a b).eval operations = Run.literal a >>= fun v =>
      Run.literal b >>= fun w => Run.div v w := by
  rw [bar, eval_one, Factors.eval_row, Row.eval]
  simp [Row.gather, Operations.bar, Operations.close, operations, Operand.eval, signed]

theorem Terms.eval_obelus (a b : String) :
    (obelus a b).eval operations = Run.literal a >>= fun v => Run.literal b >>= fun w =>
      Run.inv w >>= fun i => Run.mul v i := by
  rw [obelus, eval_one, Factors.eval, Factors.gather_more, Factors.gather_one]
  simp [Row.eval, Row.gather, Operations.close, Operations.product, operations, Operand.eval,
    signed]

section Typed

variable {a b : String} (ha : (Literal.parts? a.toList).isSome)
  (hb : (Literal.parts? b.toList).isSome)
include ha hb

/-- Two literals with a bar or a division sign between them. -/
theorem typed_between {k : Key} (hk : k = .bar ∨ k = .obelus) :
    (Line.key (.literal a) (.key k (.key (.literal b) .nil))).Typed where
  shaped := by
    have hlast (bars : Nat) : (Line.key (.literal b) .nil).Shaped (.key k) bars := by
      rcases hk with rfl | rfl
      · exact shaped_last_literal rfl rfl rfl hb none bars
      · exact shaped_last_literal rfl rfl rfl hb none bars
    have hkey : (Line.key k (.key (.literal b) .nil)).Shaped (.key (.literal a)) 0 := by
      rcases hk with rfl | rfl
      · exact ⟨Token.fits_of_completes (Token.completes_literal ha) rfl, trivial,
          fun _ => by decide, hlast _⟩
      · exact ⟨Token.fits_of_completes (Token.completes_literal ha) rfl, trivial, nofun, hlast _⟩
    exact shaped_literal rfl rfl rfl ha hkey none
  undivided := by rcases hk with rfl | rfl <;> rfl
  typeable u hu := by
    simp only [Line.toTokens, List.mem_cons, List.not_mem_nil, or_false] at hu
    rcases hu with rfl | rfl | rfl
    · exact .inl ha
    · rcases hk with rfl | rfl <;> exact .inl (by decide)
    · exact .inl hb

/-- The formula is worth its line. -/
theorem value_between (c : Calculator) (hconstants : c.constants.Valid) {k : Key}
    (hk : k = .bar ∨ k = .obelus) {s : Terms}
    (hs : s.toLine = .key (.literal a) (.key k (.key (.literal b) .nil))) :
    c.value (a ++ k.text ++ b) = ((s.eval operations >>= Run.settle).run {}).map Prod.fst := by
  have hvalue := c.value_typed hconstants (typed_between ha hb hk)
  have htext : String.ofList (Token.joined
      (Line.key (.literal a) (.key k (.key (.literal b) .nil))).toTokens) = a ++ k.text ++ b := by
    apply String.toList_inj.1
    rw [String.toList_ofList]
    simp [Line.toTokens, Token.text, Key.text]
  rwa [htext, ← hs, Terms.value_toLine] at hvalue

end Typed

end Arithmetic

namespace Run

variable {a b : String} {d : Decimal} {f : Failure}

theorem exists_run_literal_of_decimal (ha : Literal.decimal a = .ok d) (t : Trail) :
    ∃ v u, (literal a).run t = .ok (v, u) := by
  rw [run_literal_eq, ha]
  show ∃ v u, Except.ok _ = Except.ok (v, u)
  split <;> exact ⟨_, _, rfl⟩

theorem run_literal_error (ha : Literal.decimal a = .error f) (t : Trail) :
    (literal a).run t = .error f := by
  rw [run_literal_eq, ha]
  rfl

/-- An operation on two literals fails with the first one that is refused. -/
theorem run_literals_error
    (h : Literal.decimal a = .error f ∨
      (∃ d, Literal.decimal a = .ok d) ∧ Literal.decimal b = .error f)
    (k : Quantity → Quantity → Run Quantity) :
    (literal a >>= fun v => literal b >>= k v).run {} = .error f := by
  rcases h with ha | ⟨⟨d, ha⟩, hb⟩
  · exact run_bind_of_error (run_literal_error ha _) _
  · obtain ⟨v, u, hrun⟩ := exists_run_literal_of_decimal ha {}
    rw [run_bind_of_ok hrun]
    exact run_bind_of_error (run_literal_error hb _) _

/-- Two literals of which one is refused, or both of which are read. -/
theorem decimal_error_or_ok (a b : String) :
    (∃ f, Literal.decimal a = .error f ∨
      (∃ d, Literal.decimal a = .ok d) ∧ Literal.decimal b = .error f) ∨
    ∃ d e, Literal.decimal a = .ok d ∧ Literal.decimal b = .ok e := by
  cases Literal.decimal a with
  | error f => exact .inl ⟨f, .inl rfl⟩
  | ok d =>
    cases Literal.decimal b with
    | error f => exact .inl ⟨f, .inr ⟨⟨d, rfl⟩, rfl⟩⟩
    | ok e => exact .inr ⟨d, e, rfl, rfl⟩

end Run

namespace Arithmetic

open Run (operations)

variable (a b : String)

/-- On two fractions both formulas end alike. -/
theorem Terms.run_bar_eq_obelus
    (h : (Literal.exactRat? a).isSome ∧ (Literal.exactRat? b).isSome) :
    ((bar a b).eval operations).run {} = ((obelus a b).eval operations).run {} := by
  rw [eval_bar, eval_obelus]
  rcases Run.decimal_error_or_ok a b with ⟨f, hf⟩ | ⟨d, e, hd, he⟩
  · rw [Run.run_literals_error hf, Run.run_literals_error hf]
  · obtain ⟨x, hx⟩ := Option.isSome_iff_exists.1 h.1
    obtain ⟨y, hy⟩ := Option.isSome_iff_exists.1 h.2
    have hfirst : (Run.literal a).run {} = .ok (.exact x, {}) := by
      rw [Run.run_literal_eq, hd, hx]
      rfl
    have hsecond : (Run.literal b).run {} = .ok (.exact y, {}) := by
      rw [Run.run_literal_eq, he, hy]
      rfl
    obtain ⟨⟨m, k⟩, -, hliteral⟩ := Option.bind_eq_some_iff.1 hy
    rw [Run.run_bind_of_ok hfirst, Run.run_bind_of_ok hfirst, Run.run_bind_of_ok hsecond,
      Run.run_bind_of_ok hsecond]
    exact Run.run_div_exact (Quantity.literalRat?_eq_some hliteral).2.1 rfl

/-- On two literals that are not both fractions the formulas are worth decimals, formed from those
of the literals. -/
theorem Terms.map_run_bar_obelus
    (h : ¬((Literal.exactRat? a).isSome ∧ (Literal.exactRat? b).isSome)) :
    (((bar a b).eval operations >>= Run.settle).run {}).map Prod.fst =
      Except.map .approx (do Decimal.checkedDiv (← Literal.decimal a) (← Literal.decimal b)) ∧
    (((obelus a b).eval operations >>= Run.settle).run {}).map Prod.fst =
      Except.map .approx
        (do Decimal.checkedMulInv (← Literal.decimal a) (← Literal.decimal b)) := by
  rw [eval_bar, eval_obelus]
  rcases Run.decimal_error_or_ok a b with ⟨f, hf⟩ | ⟨d, e, hd, he⟩
  · rw [Run.run_bind_of_error (Run.run_literals_error hf _),
      Run.run_bind_of_error (Run.run_literals_error hf _)]
    rcases hf with ha | ⟨⟨d, ha⟩, hb⟩
    · rw [ha]
      exact ⟨rfl, rfl⟩
    · rw [ha, hb]
      exact ⟨rfl, rfl⟩
  · obtain ⟨v, u, u', hfirst, hsecond, rfl⟩ := Run.exists_run_literals hd he h
    simp only [bind_assoc]
    rw [Run.run_bind_of_ok hfirst, Run.run_bind_of_ok hfirst, Run.run_bind_of_ok hsecond,
      Run.run_bind_of_ok hsecond, hd, he, Run.map_run_div_settle, ← bind_assoc,
      Run.map_run_mulInv_settle]
    exact ⟨rfl, rfl⟩

end Arithmetic

theorem map_approx_injective {x y : Except Failure Decimal}
    (h : x.map Quantity.approx = y.map Quantity.approx) : x = y := by
  cases x <;> cases y <;> cases h <;> rfl

open Arithmetic in
/-- The bar and the division sign agree on two fractions, and wherever a literal is refused or the
divisor is read as zero. Otherwise `a/b` is the quotient rounded once and `a÷b` the product with the
rounded inverse, so they agree exactly if these do, and are near to each other if both are given. -/
theorem value_bar_obelus (c : Calculator) (hconstants : c.constants.Valid) {a b : String}
    (ha : (Literal.parts? a.toList).isSome) (hb : (Literal.parts? b.toList).isSome) :
    let exact := (Literal.exactRat? a).isSome ∧ (Literal.exactRat? b).isSome
    let once := do Decimal.checkedDiv (← Literal.decimal a) (← Literal.decimal b)
    let twice := do Decimal.checkedMulInv (← Literal.decimal a) (← Literal.decimal b)
    (c.value (a ++ "/" ++ b) = c.value (a ++ "÷" ++ b) ↔ exact ∨ once = twice) ∧
    (¬exact → c.value (a ++ "/" ++ b) = once.map .approx ∧
      c.value (a ++ "÷" ++ b) = twice.map .approx) ∧
    ((∀ d, Literal.decimal a ≠ .ok d) ∨ (∀ d, Literal.decimal b = .ok d → d.isZero) →
      once = twice) ∧
    ∀ d p, once = .ok d → twice = .ok p → Near (2 / 10 ^ 47) d.value p.value := by
  intro exact once twice
  have hbar := value_between ha hb c hconstants (.inl rfl) (s := Terms.bar a b) rfl
  have hobelus := value_between ha hb c hconstants (.inr rfl) (s := Terms.obelus a b) rfl
  have hexact (h : exact) : c.value (a ++ "/" ++ b) = c.value (a ++ "÷" ++ b) := by
    refine hbar.trans (Eq.trans ?_ hobelus.symm)
    rw [StateT.run_bind, Terms.run_bar_eq_obelus a b h, StateT.run_bind]
  have hinexact (h : ¬exact) : c.value (a ++ "/" ++ b) = once.map .approx ∧
      c.value (a ++ "÷" ++ b) = twice.map .approx :=
    ⟨hbar.trans (Terms.map_run_bar_obelus a b h).1,
      hobelus.trans (Terms.map_run_bar_obelus a b h).2⟩
  refine ⟨⟨fun h => ?_, ?_⟩, hinexact, ?_, ?_⟩
  · by_contra hnot
    rw [not_or] at hnot
    obtain ⟨hone, htwo⟩ := hinexact hnot.1
    rw [hone, htwo] at h
    exact hnot.2 (map_approx_injective h)
  · rintro (h | h)
    · exact hexact h
    · by_cases hboth : exact
      · exact hexact hboth
      · obtain ⟨hone, htwo⟩ := hinexact hboth
        rw [hone, htwo, h]
  · intro h
    rcases Run.decimal_error_or_ok a b with ⟨f, ha' | ⟨⟨d, ha'⟩, hb'⟩⟩ | ⟨d, e, ha', hb'⟩
    · simp only [once, twice, ha']
      rfl
    · simp only [once, twice, ha', hb']
      rfl
    · have hzero : e.isZero := (h.resolve_left fun hnone => hnone d ha') e hb'
      have hdiv (x : Decimal) : Decimal.checkedDiv x e = .error .divisionByZero := by
        rw [Decimal.checkedDiv, Decimal.div?, if_pos hzero]
        rfl
      show _ = Literal.decimal a >>= fun x => Literal.decimal b >>= Decimal.checkedMulInv x
      simp only [once, ha', hb']
      show Decimal.checkedDiv d e = Decimal.checkedMulInv d e
      rw [Decimal.checkedMulInv, hdiv, hdiv]
      rfl
  · intro d p hone htwo
    obtain ⟨x, hx, hone⟩ := Except.exists_of_bind hone
    obtain ⟨y, hy, hone⟩ := Except.exists_of_bind hone
    have htwo' : Decimal.checkedMulInv x y = .ok p := by
      simp only [twice, hx, hy] at htwo
      exact htwo
    obtain ⟨k, hk⟩ : ∃ k : Nat, k = 20000000 := ⟨_, rfl⟩
    have hsized {text : String} {z : Decimal} (hz : Literal.decimal text = .ok z) :
        Sized k z.value := by
      refine Decimal.sized_value fun hzero => ?_
      have hleading := Literal.leading_of_decimal hz hzero
      rw [maxExponent] at hleading
      omega
    exact Decimal.near_checkedDiv_checkedMulInv (hsized hx) (hsized hy) (by omega) hone htwo'

theorem value_bar_obelus_third :
    ({} : Calculator).value ("2" ++ "/" ++ "6") = ({} : Calculator).value ("2" ++ "÷" ++ "6") :=
  (value_bar_obelus {} ConstantTable.valid_empty (a := "2") (b := "6") (by decide +kernel)
    (by decide +kernel)).1.2 (.inl (by decide +kernel))

/-- The quotient is `1E9`, but the inverse of three is rounded down and its multiple is not rounded
up again. -/
theorem value_bar_obelus_differ :
    (Literal.parts? "3000000000".toList).isSome ∧ (Literal.parts? "3".toList).isSome ∧
      ({} : Calculator).value ("3000000000" ++ "/" ++ "3")
        ≠ ({} : Calculator).value ("3000000000" ++ "÷" ++ "3") := by
  decide +kernel

end Keypad
