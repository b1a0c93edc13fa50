import Keypad.Calculator
import Keypad.Proofs.Quantity

/-!
# Which literals are exact

A literal is worth `m · 10 ^ e`. It is exact if that fraction is within bounds, unless its exponent
is out of reach. Above 40 that refuses nothing, for such a multiple of a power of ten is out of
bounds. Below -40 it refuses fractions within bounds too, those whose mantissa ends in nearly as
many zeros as the exponent says. So a number may be exact as it is written short, and not exact with
more zeros behind its point.
-/

namespace Keypad.Quantity

open Digits

variable {m e n f : Int} {q : Rat}

/-- A multiple of a large power of ten is out of bounds. -/
theorem not_inBounds_of_large (hm : m ≠ 0) (he : 40 < e) : ¬inBounds (m * (10 : Rat) ^ e) := by
  intro h
  have hlow : (1 : Rat) ≤ |(m : Rat)| := by exact_mod_cast Int.one_le_abs hm
  have hten : (10 : Rat) ^ (10 : Int) ≤ 10 ^ e := zpow_le_zpow_right₀ (by norm_num) (by omega)
  have hpos : (0 : Rat) < 10 ^ e := zpow_pos (by norm_num) e
  have hsmall := abs_lt_of_inBounds h
  rw [abs_mul, abs_of_pos hpos] at hsmall
  have hlarge : (10 : Rat) ^ e ≤ |(m : Rat)| * 10 ^ e := le_mul_of_one_le_left hpos.le hlow
  exact absurd (hten.trans hlarge) (not_le.2 (by exact_mod_cast hsmall))

/-- A literal is exact if its value is within bounds and its exponent is not below -40. -/
theorem literalRat?_eq_some_iff :
    literalRat? m e = some q ↔ q = m * 10 ^ e ∧ inBounds q ∧ (m = 0 ∨ -40 ≤ e) := by
  constructor
  · intro h
    obtain ⟨hq, hbounds, hsmall⟩ := literalRat?_eq_some h
    rw [Decimal.fraction_eq] at hq
    exact ⟨hq, hbounds, hsmall.imp_right fun he => by omega⟩
  · rintro ⟨rfl, hbounds, hsmall⟩
    by_cases hm : m = 0
    · simp [hm, literalRat?]
    · have hlow := hsmall.resolve_left hm
      have hhigh : e ≤ 40 := not_lt.1 fun he => not_inBounds_of_large hm he hbounds
      rw [literalRat?, if_neg hm, if_neg (by omega)]
      simp only [Decimal.fraction_eq, hbounds, if_true]

theorem literalRat?_eq_none_iff :
    literalRat? m e = none ↔ inBounds (m * (10 : Rat) ^ e) → m ≠ 0 ∧ e < -40 := by
  rw [Option.eq_none_iff_forall_ne_some]
  constructor
  · intro h hbounds
    by_contra hnot
    exact h _ (literalRat?_eq_some_iff.2 ⟨rfl, hbounds, by omega⟩)
  · intro h q hq
    obtain ⟨rfl, hbounds, hsmall⟩ := literalRat?_eq_some_iff.1 hq
    have hlow := h hbounds
    omega

/-- A fraction within bounds has at most thirty decimal places, so a mantissa that is written with
more of them ends in zeros. -/
theorem pow10_dvd_of_inBounds {k : Nat} (h : inBounds (m * (10 : Rat) ^ (-(30 + k : Nat) : Int))) :
    (pow10 k : Int) ∣ m := by
  rw [← Decimal.fraction_eq] at h
  obtain ⟨c, hc⟩ := terminates_fraction h
  generalize hq : Decimal.fraction m (-(30 + k : Nat)) = q at hc
  rw [Decimal.fraction_eq] at hq
  have hmantissa : (m : Rat) = (q.num * c * pow10 k : Int) := by
    have hten : (10 : Rat) ^ (-(30 + k : Nat) : Int) * (pow10 30 * pow10 k) = 1 := by
      rw [Decimal.pow10_cast, Decimal.pow10_cast, ← pow_add, zpow_neg, zpow_natCast]
      exact inv_mul_cancel₀ (by positivity)
    calc (m : Rat) = q * pow10 30 * pow10 k := by rw [← hq, mul_assoc, mul_assoc, hten, mul_one]
      _ = (q.num * c * pow10 k : Int) := by
        rw [hc]
        push_cast
        rw [← mul_assoc, Rat.mul_den_eq_num]
  exact ⟨q.num * c, by rw [mul_comm]; exact_mod_cast hmantissa⟩

/-- The fraction `m · 10 ^ e` is within bounds, but its exponent is out of reach. -/
def Overlooked (m e : Int) : Prop := m ≠ 0 ∧ e < -40 ∧ inBounds (m * (10 : Rat) ^ e)

theorem literalRat?_of_overlooked (h : Overlooked m e) : literalRat? m e = none :=
  literalRat?_eq_none_iff.2 fun _ => ⟨h.1, h.2.1⟩

theorem literalRat?_of_not_overlooked (h : ¬Overlooked m e) :
    literalRat? m e
      = if inBounds (m * (10 : Rat) ^ e) then some (m * (10 : Rat) ^ e) else none := by
  split
  · next hbounds =>
    refine literalRat?_eq_some_iff.2 ⟨rfl, hbounds, ?_⟩
    by_contra hnot
    exact h ⟨by omega, by omega, hbounds⟩
  · next hbounds => exact literalRat?_eq_none_iff.2 fun hin => absurd hin hbounds

/-- An overlooked mantissa ends in zeros, all but thirty of those that the exponent takes away. -/
theorem Overlooked.dvd (h : Overlooked m e) : (10 : Int) ^ (-e - 30).toNat ∣ m := by
  obtain ⟨-, he, hbounds⟩ := h
  have hexponent : e = -(30 + (-e - 30).toNat : Nat) := by omega
  rw [hexponent] at hbounds
  exact_mod_cast pow10_dvd_of_inBounds hbounds

/-- Two ways to write a number are read alike, unless one of them is overlooked. -/
theorem literalRat?_eq_literalRat?_iff (h : (m : Rat) * 10 ^ e = n * 10 ^ f) :
    literalRat? m e = literalRat? n f ↔ (Overlooked m e ↔ Overlooked n f) := by
  by_cases hme : Overlooked m e
  · by_cases hnf : Overlooked n f
    · simp [literalRat?_of_overlooked hme, literalRat?_of_overlooked hnf, hme, hnf]
    · have hbounds := hme.2.2
      rw [h] at hbounds
      simp [literalRat?_of_overlooked hme, literalRat?_of_not_overlooked hnf, hme, hnf, hbounds]
  · by_cases hnf : Overlooked n f
    · have hbounds := hnf.2.2
      rw [← h] at hbounds
      simp [literalRat?_of_not_overlooked hme, literalRat?_of_overlooked hnf, hme, hnf, hbounds]
    · simp [literalRat?_of_not_overlooked hme, literalRat?_of_not_overlooked hnf, hme, hnf, h]

/-- A literal starts exact according to its value and to nothing else, unless it is overlooked: then
it is not exact, though its value is within bounds, and most of its decimal places are final
zeros. -/
theorem literalRat?_by_value_iff (m e : Int) :
    (literalRat? m e
        = (if inBounds (m * (10 : Rat) ^ e) then some (m * (10 : Rat) ^ e) else none) ↔
      ¬Overlooked m e) ∧
    (Overlooked m e → literalRat? m e = none ∧ (10 : Int) ^ (-e - 30).toNat ∣ m) ∧
    ∀ n f : Int, (m : Rat) * 10 ^ e = n * 10 ^ f →
      (literalRat? m e = literalRat? n f ↔ (Overlooked m e ↔ Overlooked n f)) := by
  refine ⟨⟨fun heq hover => ?_, literalRat?_of_not_overlooked⟩,
    fun hover => ⟨literalRat?_of_overlooked hover, hover.dvd⟩,
    fun n f => literalRat?_eq_literalRat?_iff⟩
  rw [literalRat?_of_overlooked hover, if_pos hover.2.2] at heq
  cases heq

/-- With forty-one zeros behind its point the number one is no longer exact. -/
theorem literalRat?_by_value_iff_one :
    literalRat? 1 0 = some 1 ∧ literalRat? (10 ^ 41) (-41) = none ∧
      ({} : Calculator).value "1" = .ok (.exact 1) ∧
      ({} : Calculator).value "1.00000000000000000000000000000000000000000"
        = .ok (.approx .one) := by
  have hvalue : (((10 ^ 41 : Int) : Int) : Rat) * 10 ^ (-41 : Int) = 1 := by norm_num
  have hover : Overlooked (10 ^ 41) (-41) := by
    refine ⟨by decide, by decide, ?_⟩
    rw [hvalue]
    decide
  exact ⟨by decide +kernel, ((literalRat?_by_value_iff (10 ^ 41) (-41)).2.1 hover).1,
    by decide +kernel, by decide +kernel⟩

end Keypad.Quantity
