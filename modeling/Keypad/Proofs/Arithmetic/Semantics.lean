import Keypad.Proofs.Arithmetic.Syntax
import Keypad.Quantity
import Mathlib.Algebra.BigOperators.Group.List.Basic
import Mathlib.Algebra.Field.Rat
import Mathlib.Tactic.Ring

/-!
# The meaning of arithmetic

The value of a tree over the rationals, which is not defined when a divisor is zero, and the
evaluation of a tree by given operations: the terms of a sum and the factors of a term are first
gathered and then drained from the first one on. Over the rationals the evaluation forms one number
after another and ends with the value of the tree.
-/

namespace Keypad

/-- The number that a literal writes. -/
def Literal.rat (text : String) : Rat :=
  match parts? text.toList with
  | some (m, e) => Decimal.fraction m e
  | none => 0

namespace Arithmetic

/-- The operands of a row of fractions, as far as it has been read: `x`, `x/y` or `x/y/z`. -/
inductive Parts (V : Type) where
  | whole (x : V)
  | fraction (x y : V)
  | mixed (x y z : V)

def signed {V : Type} (neg : V → V) (sign : Option Bool) (v : V) : V :=
  if sign = some true then neg v else v

/-! ## The value over the rationals -/

def divide? (x y : Rat) : Option Rat := if y = 0 then none else some (x / y)

def Parts.value? : Parts Rat → Option Rat
  | .whole x => some x
  | .fraction x y => divide? x y
  | .mixed x y z => do return x + (← divide? y z)

/-- A further operand. Behind three of them a row starts anew with their value. -/
def Parts.push? (v : Rat) : Parts Rat → Option (Parts Rat)
  | .whole x => some (.fraction x v)
  | .fraction x y => some (.mixed x y v)
  | .mixed x y z => do return .fraction (← (Parts.mixed x y z).value?) v

mutual

/-- The value of a tree; none if a divisor is zero. -/
def Terms.value? : Terms → Option Rat
  | .one p => p.value?
  | .more s minus p => do
    let x ← s.value?
    let y ← p.value?
    return if minus then x - y else x + y

def Factors.value? : Factors → Option Rat
  | .one r => do (← r.parts?).value?
  | .more p divides r => do
    let x ← p.value?
    let y ← (← r.parts?).value?
    if divides then divide? x y else return x * y

def Row.parts? : Row → Option (Parts Rat)
  | .one x => do return .whole (← x.value?)
  | .more r x => do
    let parts ← r.parts?
    let v ← x.value?
    parts.push? v

def Operand.value? : Operand → Option Rat
  | .literal sign text => some (signed (- ·) sign (Literal.rat text))
  | .group sign s => do return signed (- ·) sign (← s.value?)
  | .square x => do
    let v ← x.value?
    return v ^ 2

end

/-! ## Evaluation -/

/-- The operations by which a tree is evaluated. -/
structure Operations (M : Type → Type) (V : Type) where
  literal : String → M V
  neg : V → V
  add : V → V → M V
  mul : V → V → M V
  div : V → V → M V
  inv : V → M V
  square : V → M V

namespace Operations

variable {M : Type → Type} [Monad M] {V : Type} (ops : Operations M V)

def close : Parts V → M V
  | .whole x => pure x
  | .fraction x y => ops.div x y
  | .mixed x y z => do ops.add x (← ops.div y z)

/-- The row behind a bar, which waits for an operand. -/
def bar : Parts V → M (V → Parts V)
  | .whole x => pure (.fraction x)
  | .fraction x y => pure (.mixed x y)
  | .mixed x y z => do return .fraction (← ops.close (.mixed x y z))

/-- The sum of a last term and those before it, of which the first comes last. -/
def sum (terms : V × List V) : M V := terms.2.foldrM ops.add terms.1

def product (factors : V × List V) : M V := factors.2.foldrM ops.mul factors.1

end Operations

variable {M : Type → Type} [Monad M] {V : Type}

mutual

/-- The last term of a level, and those before it. -/
def Terms.gather (ops : Operations M V) : Terms → M (V × List V)
  | .one p => do return (← ops.product (← p.gather ops), [])
  | .more s minus p => do
    let (v, vs) ← s.gather ops
    let w ← ops.product (← p.gather ops)
    return (if minus then ops.neg w else w, v :: vs)

/-- The last factor of a term, and those before it. A divisor is inverted. -/
def Factors.gather (ops : Operations M V) : Factors → M (V × List V)
  | .one r => do return (← ops.close (← r.gather ops), [])
  | .more p divides r => do
    let (v, vs) ← p.gather ops
    let w ← ops.close (← r.gather ops)
    let w ← if divides then ops.inv w else pure w
    return (w, v :: vs)

def Row.gather (ops : Operations M V) : Row → M (Parts V)
  | .one x => do return .whole (← x.eval ops)
  | .more r x => do
    let parts ← ops.bar (← r.gather ops)
    return parts (← x.eval ops)

def Operand.eval (ops : Operations M V) : Operand → M V
  | .literal sign text => do return signed ops.neg sign (← ops.literal text)
  | .group sign s => do return signed ops.neg sign (← ops.sum (← s.gather ops))
  | .square x => do ops.square (← x.eval ops)

end

def Row.eval (ops : Operations M V) (r : Row) : M V := r.gather ops >>= ops.close

def Factors.eval (ops : Operations M V) (p : Factors) : M V := p.gather ops >>= ops.product

def Terms.eval (ops : Operations M V) (s : Terms) : M V := s.gather ops >>= ops.sum

section Equations

variable [LawfulMonad M] (ops : Operations M V)

theorem Terms.gather_one (p : Factors) :
    (Terms.one p).gather ops = p.eval ops >>= fun v => pure (v, []) := by
  simp [Terms.gather, Factors.eval]

theorem Terms.gather_more (s : Terms) (minus : Bool) (p : Factors) :
    (Terms.more s minus p).gather ops = s.gather ops >>= fun g => p.eval ops >>= fun w =>
      pure (if minus then ops.neg w else w, g.1 :: g.2) := by
  simp [Terms.gather, Factors.eval]

theorem Factors.gather_one (r : Row) :
    (Factors.one r).gather ops = r.eval ops >>= fun v => pure (v, []) := by
  simp [Factors.gather, Row.eval]

theorem Factors.gather_more (p : Factors) (divides : Bool) (r : Row) :
    (Factors.more p divides r).gather ops = p.gather ops >>= fun g => r.eval ops >>= fun v =>
      (if divides then ops.inv v else pure v) >>= fun w => pure (w, g.1 :: g.2) := by
  cases divides <;> simp [Factors.gather, Row.eval]

theorem Operand.eval_group (sign : Option Bool) (s : Terms) :
    (Operand.group sign s).eval ops = s.eval ops >>= fun v => pure (signed ops.neg sign v) := by
  simp [Operand.eval, Terms.eval]

/-- A term that is one row of fractions. -/
theorem Factors.eval_row (r : Row) : (Factors.one r).eval ops = r.eval ops := by
  simp [Factors.eval, Factors.gather_one, Operations.product]

/-- A term that is one operand. -/
theorem Factors.eval_one (x : Operand) : (Factors.one (.one x)).eval ops = x.eval ops := by
  simp [Factors.eval_row, Row.eval, Row.gather, Operations.close]

/-- A group alone is evaluated like its content. -/
theorem Factors.eval_group (s : Terms) :
    (Factors.one (.one (.group none s))).eval ops = s.eval ops := by
  simp [Factors.eval_one, Operand.eval_group, signed]

theorem Terms.eval_one (p : Factors) : (Terms.one p).eval ops = p.eval ops := by
  simp [Terms.eval, Terms.gather_one, Operations.sum]

end Equations

/-! ## Numbers formed one after another -/

/-- A literal that is read, or a number that an operation forms. -/
inductive Formed where
  | literal (text : String)
  | value (q : Rat)

/-- A literal that is accepted as exact, or a number within the bounds for exact values. -/
def Formed.isExact : Formed → Bool
  | .literal text =>
    ((Literal.parts? text.toList).bind fun p => Quantity.literalRat? p.1 p.2).isSome
  | .value q => Quantity.inBounds q

/-- An evaluation over the rationals, which ends early at a division by zero. -/
structure Formation (α : Type) where
  formed : List Formed
  result : Option α

namespace Formation

def bind {α β : Type} (m : Formation α) (k : α → Formation β) : Formation β :=
  match m.result with
  | none => ⟨m.formed, none⟩
  | some a => ⟨m.formed ++ (k a).formed, (k a).result⟩

instance : Monad Formation where
  pure a := ⟨[], some a⟩
  bind := bind

variable {α β : Type}

@[simp] theorem formed_pure (a : α) : (pure a : Formation α).formed = [] := rfl

@[simp] theorem result_pure (a : α) : (pure a : Formation α).result = some a := rfl

@[simp] theorem result_bind (m : Formation α) (k : α → Formation β) :
    (m >>= k).result = m.result.bind fun a => (k a).result := by
  show (m.bind k).result = _
  rw [bind]
  cases m.result <;> rfl

theorem bind_of_none {m : Formation α} (h : m.result = none) (k : α → Formation β) :
    m >>= k = ⟨m.formed, none⟩ := by
  show m.bind k = _
  rw [bind, h]

theorem bind_of_some {m : Formation α} {a : α} (h : m.result = some a) (k : α → Formation β) :
    m >>= k = ⟨m.formed ++ (k a).formed, (k a).result⟩ := by
  show m.bind k = _
  rw [bind, h]

instance : LawfulMonad Formation := by
  refine LawfulMonad.mk' Formation ?_ (fun _ _ => rfl) ?_
  · intro α m
    obtain ⟨formed, result⟩ := m
    cases result <;> simp [Functor.map, bind]
  · intro α β γ m k l
    cases hm : m.result with
    | none => rw [bind_of_none hm, bind_of_none hm, bind_of_none rfl]
    | some a =>
      rw [bind_of_some hm (fun x => k x >>= l)]
      cases hk : (k a).result with
      | none =>
        have hbind : (m >>= k).result = none := by simp [hm, hk]
        rw [bind_of_none hbind, bind_of_none hk, bind_of_some hm]
      | some b =>
        have hbind : (m >>= k).result = some b := by simp [hm, hk]
        rw [bind_of_some hbind, bind_of_some hk, bind_of_some hm]
        simp

def value (q : Rat) : Formation Rat := ⟨[.value q], some q⟩

def div (x y : Rat) : Formation Rat := if y = 0 then ⟨[], none⟩ else value (x / y)

def operations : Operations Formation Rat where
  literal text := ⟨[.literal text], some (Literal.rat text)⟩
  neg := (- ·)
  add x y := value (x + y)
  mul x y := value (x * y)
  div := div
  inv := div 1
  square x := value (x * x)

theorem result_sum (v : Rat) (vs : List Rat) :
    (operations.sum (v, vs)).result = some (v + vs.sum) := by
  show (vs.foldrM operations.add v).result = _
  induction vs with
  | nil => simp
  | cons w vs ih =>
    rw [List.foldrM_cons, result_bind, ih]
    simp only [operations, value, Option.bind_some, List.sum_cons, Option.some.injEq]
    ring

theorem result_product (v : Rat) (vs : List Rat) :
    (operations.product (v, vs)).result = some (v * vs.prod) := by
  show (vs.foldrM operations.mul v).result = _
  induction vs with
  | nil => simp
  | cons w vs ih =>
    rw [List.foldrM_cons, result_bind, ih]
    simp only [operations, value, Option.bind_some, List.prod_cons, Option.some.injEq]
    ring

theorem result_div (x y : Rat) : (div x y).result = divide? x y := by
  rw [div, divide?]
  split <;> rfl

theorem result_close (parts : Parts Rat) : (operations.close parts).result = parts.value? := by
  cases parts with
  | whole x => rfl
  | fraction x y => exact result_div x y
  | mixed x y z =>
    show (operations.div y z >>= operations.add x).result = _
    rw [result_bind]
    simp only [operations, result_div, Parts.value?]
    cases divide? y z <;> rfl

theorem result_bar (parts : Parts Rat) (v : Rat) :
    (operations.bar parts).result.map (fun k => k v) = parts.push? v := by
  cases parts with
  | whole x => rfl
  | fraction x y => rfl
  | mixed x y z =>
    simp only [Operations.bar, result_bind, result_close, Parts.push?]
    cases (Parts.mixed x y z).value? <;> rfl

end Formation

/-! ## The numbers formed end with the value -/

open Formation (operations)

theorem Terms.result_eval_of_gather {s : Terms}
    (h : (s.gather operations).result.map (fun g => g.1 + g.2.sum) = s.value?) :
    (s.eval operations).result = s.value? := by
  rw [← h, Terms.eval, Formation.result_bind]
  cases (s.gather operations).result with
  | none => rfl
  | some g => exact Formation.result_sum g.1 g.2

theorem Factors.result_eval_of_gather {p : Factors}
    (h : (p.gather operations).result.map (fun g => g.1 * g.2.prod) = p.value?) :
    (p.eval operations).result = p.value? := by
  rw [← h, Factors.eval, Formation.result_bind]
  cases (p.gather operations).result with
  | none => rfl
  | some g => exact Formation.result_product g.1 g.2

/-- A further factor, inverted if it is a divisor, changes the product as it should. -/
theorem result_factor (divides : Bool) (g : Rat × List Rat) (y : Rat) :
    ((if divides then operations.inv y else pure y).result.bind fun w =>
        some (w, g.1 :: g.2)).map (fun g => g.1 * g.2.prod)
      = if divides then divide? (g.1 * g.2.prod) y else some (g.1 * g.2.prod * y) := by
  cases divides with
  | false =>
    simp only [Bool.false_eq_true, if_false, Formation.result_pure, Option.bind_some,
      Option.map_some, List.prod_cons, Option.some.injEq]
    ring
  | true =>
    simp only [if_true, operations, Formation.result_div, divide?]
    split
    · rfl
    · simp only [Option.bind_some, Option.map_some, List.prod_cons, Option.some.injEq]
      ring

mutual

theorem Terms.result_gather : (s : Terms) →
    (s.gather operations).result.map (fun g => g.1 + g.2.sum) = s.value?
  | .one p => by
    have hp := Factors.result_eval_of_gather p.result_gather
    rw [Terms.gather_one, Formation.result_bind, hp, Terms.value?]
    cases p.value? <;> simp
  | .more s minus p => by
    have hs := s.result_gather
    have hp := Factors.result_eval_of_gather p.result_gather
    simp only [Terms.gather_more, Formation.result_bind, hp, Terms.value?, ← hs]
    cases (s.gather operations).result with
    | none => rfl
    | some g =>
      cases p.value? with
      | none => rfl
      | some y =>
        have hsum : (if minus then -y else y) + (g.1 + g.2.sum)
            = if minus then g.1 + g.2.sum - y else g.1 + g.2.sum + y := by
          split <;> ring
        exact congrArg some hsum

theorem Factors.result_gather : (p : Factors) →
    (p.gather operations).result.map (fun g => g.1 * g.2.prod) = p.value?
  | .one r => by
    have hr := r.result_gather
    simp only [Factors.gather_one, Row.eval, Formation.result_bind, Formation.result_close,
      Factors.value?, hr]
    cases r.parts? with
    | none => rfl
    | some parts => simp
  | .more p divides r => by
    have hp := p.result_gather
    have hr := r.result_gather
    simp only [Factors.gather_more, Row.eval, Formation.result_bind, Formation.result_close,
      Factors.value?, hr, ← hp]
    cases (p.gather operations).result with
    | none => rfl
    | some g =>
      cases r.parts? with
      | none => rfl
      | some parts =>
        cases hv : parts.value? with
        | none => simp [hv]
        | some y => simpa [hv] using result_factor divides g y

theorem Row.result_gather : (r : Row) → (r.gather operations).result = r.parts?
  | .one x => by
    have hx := x.result_eval
    rw [Row.gather, Formation.result_bind, hx, Row.parts?]
    rfl
  | .more r x => by
    have hr := r.result_gather
    have hx := x.result_eval
    simp only [Row.gather, Formation.result_bind, hr, hx, Row.parts?]
    cases r.parts? with
    | none => rfl
    | some parts =>
      cases x.value? with
      | none => simp
      | some v =>
        have hbar := Formation.result_bar parts v
        simpa [Option.map_eq_bind] using hbar

theorem Operand.result_eval : (x : Operand) → (x.eval operations).result = x.value?
  | .literal sign text => rfl
  | .group sign s => by
    have hs := Terms.result_eval_of_gather s.result_gather
    rw [Operand.eval_group, Formation.result_bind, hs, Operand.value?]
    rfl
  | .square x => by
    have hx := x.result_eval
    rw [Operand.eval, Formation.result_bind, hx, Operand.value?]
    cases x.value? with
    | none => rfl
    | some v => exact congrArg some (sq v).symm

end

end Arithmetic

end Keypad
