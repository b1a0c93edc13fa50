import Keypad.SpecialAngle
import Mathlib.Algebra.Field.Rat
import Mathlib.Tactic.Linarith
import Mathlib.Tactic.Ring

/-!
# The trigonometric laws of the table

A table of the six ratios at angles in degrees knows some of them as fractions, knows others to be
undefined and knows nothing of the rest. The laws say how its entries belong together: their
periods, their parity, the cosine as a sine a right angle further on, and the quotients by what they
divide by. The table of special angles obeys them at every angle, of any size and either sign.
-/

namespace Keypad

/-- The opposite value, where there is one. -/
def SpecialValue.neg : SpecialValue → SpecialValue
  | rational q => rational (-q)
  | undefined => undefined

/-- The ratio that a quotient divides by. -/
def Ratio.divisor (r : Ratio) : Ratio := if r.dividesByCosine then cos else sin

namespace SpecialAngle

/-- What a table of ratios has to satisfy. An angle that is not known to the table is known neither
after a turn, nor at its opposite, nor to the other ratio that a law names. -/
structure IsTrigonometric (value : Ratio → Rat → Option SpecialValue) : Prop where
  turn (r : Ratio) (a : Rat) (n : Int) : value r (a + 360 * n) = value r a
  half_turn (r : Ratio) (hr : r ∈ [.tan, .cot]) (a : Rat) (n : Int) :
    value r (a + 180 * n) = value r a
  odd (r : Ratio) (hr : r ∈ [.sin, .tan, .csc, .cot]) (a : Rat) :
    value r (-a) = (value r a).map .neg
  even (r : Ratio) (hr : r ∈ [.cos, .sec]) (a : Rat) : value r (-a) = value r a
  right_angle (a : Rat) : value .cos a = value .sin (a + 90)
  defined (r : Ratio) (hr : r ∈ [.sin, .cos]) (a : Rat) : value r a ≠ some .undefined
  undefined (r : Ratio) (hr : r ∈ [.tan, .sec, .csc, .cot]) (a : Rat) :
    value r a = some .undefined ↔ value r.divisor a = some (.rational 0)
  inverse (r : Ratio) (hr : r ∈ [.sec, .csc]) (a q : Rat) :
    value r a = some (.rational q) ↔ q ≠ 0 ∧ value r.divisor a = some (.rational q⁻¹)

variable {a : Rat} {k : Nat} {r : Ratio}

/-! ## Steps of fifteen degrees -/

theorem inWord_tmod (n : Int) : Literal.InWord (n.tmod 24) := by
  have hlt : (n.tmod 24).natAbs < 24 := by
    rw [Int.natAbs_tmod]
    exact Nat.mod_lt _ (by decide)
  exact ⟨by omega, by omega⟩

/-- The two remainders, of which only the second is between zero and a turn, are one. -/
theorem tmod_emod (n : Int) : n.tmod 24 % 24 = n % 24 := by
  have hsplit := Int.tmod_add_mul_tdiv n 24
  omega

theorem step?_eq_some_iff : step? a = some k ↔ ∃ n : Int, a = 15 * n ∧ (k : Int) = n % 24 := by
  rw [step?]
  simp only [inWord_tmod, if_true, tmod_emod]
  constructor
  · intro h
    split at h
    · next hden =>
      refine ⟨(a / 15).num, ?_, ?_⟩
      · rw [(Rat.den_eq_one_iff _).1 hden]
        ring
      · have hk := Option.some.inj h
        omega
    · cases h
  · rintro ⟨n, rfl, hk⟩
    have hquotient : 15 * (n : Rat) / 15 = n := mul_div_cancel_left₀ _ (by norm_num)
    rw [hquotient, Rat.den_intCast, Rat.num_intCast, if_pos rfl, ← hk]
    rfl

theorem step?_eq_none_iff : step? a = none ↔ ¬∃ n : Int, a = 15 * n := by
  constructor
  · rintro h ⟨n, ha⟩
    have hk : ((n % 24).toNat : Int) = n % 24 := by omega
    rw [step?_eq_some_iff.2 ⟨n, ha, hk⟩] at h
    cases h
  · intro h
    cases hstep : step? a with
    | none => rfl
    | some k =>
      obtain ⟨n, ha, -⟩ := step?_eq_some_iff.1 hstep
      exact absurd ⟨n, ha⟩ h

theorem lt_of_step? (h : step? a = some k) : k < 24 := by
  obtain ⟨n, -, hk⟩ := step?_eq_some_iff.1 h
  omega

/-- An angle that is moved or mirrored by whole steps: `f` says where its steps go. -/
theorem step?_of_moved {b : Rat} {f : Int → Int} (hto : ∀ n : Int, a = 15 * n → b = 15 * f n)
    (hback : ∀ n : Int, b = 15 * n → ∃ m : Int, a = 15 * m)
    (hmod : ∀ n : Int, f n % 24 = f (n % 24) % 24) :
    step? b = (step? a).map fun k : Nat => (f k % 24).toNat := by
  cases h : step? a with
  | none =>
    apply step?_eq_none_iff.2
    rintro ⟨n, hb⟩
    exact step?_eq_none_iff.1 h (hback n hb)
  | some k =>
    obtain ⟨n, ha, hk⟩ := step?_eq_some_iff.1 h
    apply step?_eq_some_iff.2
    refine ⟨f n, hto n ha, ?_⟩
    rw [hmod n, ← hk]
    exact Int.toNat_of_nonneg (Int.emod_nonneg _ (by decide))

theorem step?_add (a : Rat) (m : Int) :
    step? (a + 15 * m) = (step? a).map fun k : Nat => (((k : Int) + m) % 24).toNat := by
  apply step?_of_moved (f := (· + m))
  · rintro n rfl
    push_cast
    ring
  · intro n hn
    refine ⟨n - m, ?_⟩
    push_cast
    linarith
  · intro n
    exact (Int.emod_add_emod n 24 m).symm

theorem step?_neg (a : Rat) :
    step? (-a) = (step? a).map fun k : Nat => (-(k : Int) % 24).toNat := by
  apply step?_of_moved (f := fun n => -n)
  · rintro n rfl
    push_cast
    ring
  · intro n hn
    refine ⟨-n, ?_⟩
    push_cast
    linarith
  · intro n
    omega

/-! ## The laws at one step -/

theorem value?_eq (r : Ratio) (a : Rat) : value? r a = (step? a).bind fun k => atStep? k r := rfl

theorem value?_add (r : Ratio) (a : Rat) (m : Int) :
    value? r (a + 15 * m)
      = (step? a).bind fun k : Nat => atStep? (((k : Int) + m) % 24).toNat r := by
  rw [value?_eq, step?_add, Option.bind_map]
  rfl

theorem value?_neg (r : Ratio) (a : Rat) :
    value? r (-a) = (step? a).bind fun k : Nat => atStep? (-(k : Int) % 24).toNat r := by
  rw [value?_eq, step?_neg, Option.bind_map]
  rfl

/-- Two entries belong together at every angle if they do at every step of a turn. -/
theorem bind_step?_congr {α : Type} {f g : Nat → Option α} (a : Rat) (h : ∀ k < 24, f k = g k) :
    (step? a).bind f = (step? a).bind g := by
  cases hstep : step? a with
  | none => rfl
  | some k => exact h k (lt_of_step? hstep)

theorem sine?_congr {j : Nat} (h : j % 24 = k % 24) : sine? j = sine? k := by
  simp only [sine?, h]

theorem sine?_opposite : ∀ k : Nat, k < 24 →
    sine? (-(k : Int) % 24).toNat = (sine? k).map (-·) := by
  decide

theorem cosine?_opposite : ∀ k : Nat, k < 24 →
    cosine? (-(k : Int) % 24).toNat = cosine? k := by
  decide

theorem tangent?_opposite : ∀ k : Nat, k < 24 →
    tangent? (-(k : Int) % 24).toNat = (tangent? k).map .neg := by
  decide

theorem cotangent?_opposite : ∀ k : Nat, k < 24 →
    cotangent? (-(k : Int) % 24).toNat = (cotangent? k).map .neg := by
  decide

/-- The tangent and the cotangent are looked up in tables of their own, which leave the same places
undefined as a division would. -/
theorem tangent?_eq_undefined_iff : ∀ k : Nat, k < 24 →
    (tangent? k = some .undefined ↔ cosine? k = some 0) := by
  decide

theorem cotangent?_eq_undefined_iff : ∀ k : Nat, k < 24 →
    (cotangent? k = some .undefined ↔ sine? k = some 0) := by
  decide

theorem inverse_eq_undefined_iff (q : Rat) : inverse q = .undefined ↔ q = 0 := by
  rw [inverse]
  split
  · next hzero => exact ⟨fun _ => Rat.num_eq_zero.1 hzero, fun _ => rfl⟩
  · next hne => exact ⟨fun h => (by cases h), fun h => absurd (Rat.num_eq_zero.2 h) hne⟩

theorem inverse_eq_rational_iff (p q : Rat) : inverse p = .rational q ↔ q ≠ 0 ∧ p = q⁻¹ := by
  rw [inverse]
  split
  · next hzero =>
    have hp : p = 0 := Rat.num_eq_zero.1 hzero
    constructor
    · intro h
      cases h
    · rintro ⟨hq, rfl⟩
      exact absurd hp (inv_ne_zero hq)
  · next hne =>
    have hp : p ≠ 0 := fun h => hne (Rat.num_eq_zero.2 h)
    constructor
    · intro h
      obtain rfl : p⁻¹ = q := SpecialValue.rational.inj h
      exact ⟨inv_ne_zero hp, (inv_inv p).symm⟩
    · rintro ⟨-, rfl⟩
      exact congrArg SpecialValue.rational (inv_inv q)

theorem inverse_neg (q : Rat) : inverse (-q) = (inverse q).neg := by
  by_cases hq : q = 0
  · simp [hq, inverse, SpecialValue.neg]
  · have hneg : inverse q = .rational q⁻¹ := (inverse_eq_rational_iff _ _).2 ⟨by simpa, by simp⟩
    rw [hneg]
    exact (inverse_eq_rational_iff _ _).2 ⟨by simpa, by simp⟩

/-- Half a turn on, the tables of the tangent and the cotangent have the same entries. -/
theorem tangent?_half_turn : ∀ k : Nat, k < 24 → tangent? ((k + 12) % 24) = tangent? k := by
  decide

theorem cotangent?_half_turn : ∀ k : Nat, k < 24 → cotangent? ((k + 12) % 24) = cotangent? k := by
  decide

theorem atStep?_half_turn (hr : r ∈ [Ratio.tan, .cot]) (hk : k < 24) :
    atStep? ((k + 12) % 24) r = atStep? k r := by
  rcases List.mem_cons.1 hr with rfl | hr
  · exact tangent?_half_turn k hk
  · obtain rfl := List.mem_singleton.1 hr
    exact cotangent?_half_turn k hk

/-- The secant and the cosecant have the parity of what they divide by. -/
theorem atStep?_odd (hr : r ∈ [Ratio.sin, .tan, .csc, .cot]) (hk : k < 24) :
    atStep? (-(k : Int) % 24).toNat r = (atStep? k r).map .neg := by
  cases r with
  | sin =>
    rw [atStep?, atStep?, sine?_opposite k hk, Option.map_map, Option.map_map]
    rfl
  | csc =>
    rw [atStep?, atStep?, sine?_opposite k hk, Option.map_map, Option.map_map]
    exact congrArg (Option.map · _) (funext inverse_neg)
  | tan => exact tangent?_opposite k hk
  | cot => exact cotangent?_opposite k hk
  | cos | sec => simp at hr

theorem atStep?_even (hr : r ∈ [Ratio.cos, .sec]) (hk : k < 24) :
    atStep? (-(k : Int) % 24).toNat r = atStep? k r := by
  cases r with
  | cos | sec => exact congrArg (Option.map _) (cosine?_opposite k hk)
  | sin | tan | csc | cot => simp at hr

/-- Where it is not a quotient, a ratio is always defined. -/
theorem atStep?_defined (hr : r ∈ [Ratio.sin, .cos]) (k : Nat) : atStep? k r ≠ some .undefined := by
  cases r with
  | sin | cos => simp [atStep?]
  | tan | sec | csc | cot => simp at hr

theorem atStep?_undefined (hr : r ∈ [Ratio.tan, .sec, .csc, .cot]) (hk : k < 24) :
    atStep? k r = some .undefined ↔ atStep? k r.divisor = some (.rational 0) := by
  cases r with
  | tan =>
    simpa [atStep?, Ratio.divisor, Ratio.dividesByCosine] using tangent?_eq_undefined_iff k hk
  | cot =>
    simpa [atStep?, Ratio.divisor, Ratio.dividesByCosine] using cotangent?_eq_undefined_iff k hk
  | sec | csc => simp [atStep?, Ratio.divisor, Ratio.dividesByCosine, inverse_eq_undefined_iff]
  | sin | cos => simp at hr

theorem atStep?_inverse (hr : r ∈ [Ratio.sec, .csc]) (k : Nat) (q : Rat) :
    atStep? k r = some (.rational q) ↔ q ≠ 0 ∧ atStep? k r.divisor = some (.rational q⁻¹) := by
  cases r with
  | sec | csc =>
    simp [atStep?, Ratio.divisor, Ratio.dividesByCosine, inverse_eq_rational_iff, and_comm]
  | sin | cos | tan | cot => simp at hr

/-! ## The laws at every angle -/

theorem value?_turn (r : Ratio) (a : Rat) (n : Int) : value? r (a + 360 * n) = value? r a := by
  have hsteps : a + 360 * n = a + 15 * (24 * n : Int) := by
    push_cast
    ring
  rw [hsteps, value?_add]
  apply bind_step?_congr
  intro k hk
  have hback : (((k : Int) + 24 * n) % 24).toNat = k := by omega
  rw [hback]

theorem value?_half_turn (hr : r ∈ [Ratio.tan, .cot]) (a : Rat) (n : Int) :
    value? r (a + 180 * n) = value? r a := by
  have hsteps : a + 180 * n = a + 15 * (12 * n : Int) := by
    push_cast
    ring
  rw [hsteps, value?_add]
  apply bind_step?_congr
  intro k hk
  rcases Int.emod_two_eq_zero_or_one n with heven | hodd
  · have hturns : (((k : Int) + (12 * n : Int)) % 24).toNat = k := by omega
    rw [hturns]
  · have hhalf : (((k : Int) + (12 * n : Int)) % 24).toNat = (k + 12) % 24 := by omega
    rw [hhalf, atStep?_half_turn hr hk]

theorem value?_odd (hr : r ∈ [Ratio.sin, .tan, .csc, .cot]) (a : Rat) :
    value? r (-a) = (value? r a).map .neg := by
  rw [value?_neg, value?_eq, Option.map_bind]
  apply bind_step?_congr
  intro k hk
  exact atStep?_odd hr hk

theorem value?_even (hr : r ∈ [Ratio.cos, .sec]) (a : Rat) : value? r (-a) = value? r a := by
  rw [value?_neg, value?_eq]
  apply bind_step?_congr
  intro k hk
  exact atStep?_even hr hk

theorem value?_right_angle (a : Rat) : value? .cos a = value? .sin (a + 90) := by
  have hsteps : a + 90 = a + 15 * (6 : Int) := by norm_num
  rw [hsteps, value?_add, value?_eq]
  apply bind_step?_congr
  intro k hk
  exact congrArg (Option.map _) (sine?_congr (by omega))

/-- The table of special angles obeys the trigonometric laws. -/
theorem isTrigonometric_value? : IsTrigonometric value? where
  turn := value?_turn
  half_turn r hr a n := value?_half_turn hr a n
  odd r hr a := value?_odd hr a
  even r hr a := value?_even hr a
  right_angle := value?_right_angle
  defined r hr a h := by
    obtain ⟨k, -, hk⟩ := Option.bind_eq_some_iff.1 h
    exact atStep?_defined hr k hk
  undefined r hr a := by
    rw [value?_eq, value?_eq]
    cases hstep : step? a with
    | none => simp
    | some k => exact atStep?_undefined hr (lt_of_step? hstep)
  inverse r hr a q := by
    rw [value?_eq, value?_eq]
    cases hstep : step? a with
    | none => simp
    | some k => exact atStep?_inverse hr k q

/-- Ten turns and a quarter of one, backwards. -/
example : value? .tan (-3690) = some .undefined := by cbv

end SpecialAngle

end Keypad
