import Keypad.Proofs.SpecialAngle.Laws
import Mathlib.Analysis.SpecialFunctions.Trigonometric.Bounds

/-!
# Special angles are right

The sines that the table gives as fractions, at multiples of fifteen degrees, are those of the real
sine. The cosine is looked up a right angle further on.
-/

namespace Keypad

/-- The two ratios that are no quotients, with their real functions. -/
inductive Ratio.IsCircular : Ratio → (ℝ → ℝ) → Prop
  | sin : IsCircular .sin Real.sin
  | cos : IsCircular .cos Real.cos

namespace Ratio.IsCircular

variable {r : Ratio} {f : ℝ → ℝ}

theorem abs_sub_le (h : r.IsCircular f) (x y : ℝ) : |f x - f y| ≤ |x - y| := by
  cases h with
  | sin => exact Real.abs_sin_sub_sin_le x y
  | cos => exact Real.abs_cos_sub_cos_le x y

theorem abs_le_one (h : r.IsCircular f) (x : ℝ) : |f x| ≤ 1 := by
  cases h with
  | sin => exact Real.abs_sin_le_one x
  | cos => exact Real.abs_cos_le_one x

theorem add_turns (h : r.IsCircular f) (x : ℝ) (k : Int) : f (x + k * (2 * Real.pi)) = f x := by
  cases h with
  | sin => exact Real.sin_add_int_mul_two_pi x k
  | cos => exact Real.cos_add_int_mul_two_pi x k

end Ratio.IsCircular

namespace SpecialAngle

variable {k : Nat} {a q : Rat} {r : Ratio} {f : ℝ → ℝ} {v : SpecialValue}

/-- Full turns do not count. -/
theorem sin_mod (k : Nat) :
    Real.sin (k * (Real.pi / 12)) = Real.sin ((k % 24 : Nat) * (Real.pi / 12)) := by
  have hk : (k : ℝ) = (k % 24 : Nat) + 24 * (k / 24 : Nat) := by
    exact_mod_cast (Nat.mod_add_div k 24).symm
  have hsplit : (k : ℝ) * (Real.pi / 12)
      = (k % 24 : Nat) * (Real.pi / 12) + (k / 24 : Nat) * (2 * Real.pi) := by
    rw [hk]
    ring
  rw [hsplit, Real.sin_add_nat_mul_two_pi]

theorem sin_of_sine? (h : sine? k = some q) : Real.sin (k * (Real.pi / 12)) = q := by
  have hhalf : ((mkRat 1 2 : Rat) : ℝ) = 1 / 2 := by norm_num [Rat.mkRat_eq_div]
  have hneg : ((mkRat (-1) 2 : Rat) : ℝ) = -(1 / 2) := by norm_num [Rat.mkRat_eq_div]
  rw [sin_mod]
  rw [sine?] at h
  generalize k % 24 = j at h
  split at h
  · obtain rfl := Option.some.inj h
    simp
  · obtain rfl := Option.some.inj h
    have hangle : ((12 : Nat) : ℝ) * (Real.pi / 12) = Real.pi := by push_cast; ring
    rw [hangle, Real.sin_pi, Rat.cast_zero]
  · obtain rfl := Option.some.inj h
    have hangle : ((2 : Nat) : ℝ) * (Real.pi / 12) = Real.pi / 6 := by push_cast; ring
    rw [hangle, Real.sin_pi_div_six, hhalf]
  · obtain rfl := Option.some.inj h
    have hangle : ((10 : Nat) : ℝ) * (Real.pi / 12) = Real.pi - Real.pi / 6 := by push_cast; ring
    rw [hangle, Real.sin_pi_sub, Real.sin_pi_div_six, hhalf]
  · obtain rfl := Option.some.inj h
    have hangle : ((6 : Nat) : ℝ) * (Real.pi / 12) = Real.pi / 2 := by push_cast; ring
    rw [hangle, Real.sin_pi_div_two, Rat.cast_one]
  · obtain rfl := Option.some.inj h
    have hangle : ((14 : Nat) : ℝ) * (Real.pi / 12) = Real.pi / 6 + Real.pi := by push_cast; ring
    rw [hangle, Real.sin_add_pi, Real.sin_pi_div_six, hneg]
  · obtain rfl := Option.some.inj h
    have hangle : ((22 : Nat) : ℝ) * (Real.pi / 12) = 2 * Real.pi - Real.pi / 6 := by
      push_cast; ring
    rw [hangle, Real.sin_two_pi_sub, Real.sin_pi_div_six, hneg]
  · obtain rfl := Option.some.inj h
    have hangle : ((18 : Nat) : ℝ) * (Real.pi / 12) = Real.pi / 2 + Real.pi := by push_cast; ring
    rw [hangle, Real.sin_add_pi, Real.sin_pi_div_two]
    norm_num
  · cases h

theorem cos_of_cosine? (h : cosine? k = some q) : Real.cos (k * (Real.pi / 12)) = q := by
  have hangle : (k : ℝ) * (Real.pi / 12) + Real.pi / 2 = (k + 6 : Nat) * (Real.pi / 12) := by
    push_cast
    ring
  rw [← Real.sin_add_pi_div_two, hangle]
  exact sin_of_sine? h

theorem exists_of_step? (h : step? a = some k) :
    ∃ n : Int, (a : ℝ) * (Real.pi / 180) = k * (Real.pi / 12) + n * (2 * Real.pi) := by
  obtain ⟨n, rfl, hk⟩ := step?_eq_some_iff.1 h
  have hsteps : n = k + 24 * (n / 24) := by omega
  refine ⟨n / 24, ?_⟩
  have hreal : (n : ℝ) = k + 24 * (n / 24 : Int) := by exact_mod_cast hsteps
  push_cast
  rw [hreal]
  ring

/-- At a special angle the sine and the cosine are the fractions of the table. -/
theorem exists_of_value? (hr : r.IsCircular f) (h : value? r a = some v) :
    ∃ q, v = .rational q ∧ f (a * (Real.pi / 180)) = q := by
  obtain ⟨k, hk, hv⟩ := Option.bind_eq_some_iff.1 h
  obtain ⟨n, hn⟩ := exists_of_step? hk
  rw [hn, hr.add_turns]
  cases hr with
  | sin =>
    obtain ⟨q, hq, rfl⟩ := Option.map_eq_some_iff.1 hv
    exact ⟨q, rfl, sin_of_sine? hq⟩
  | cos =>
    obtain ⟨q, hq, rfl⟩ := Option.map_eq_some_iff.1 hv
    exact ⟨q, rfl, cos_of_cosine? hq⟩

end SpecialAngle

end Keypad
