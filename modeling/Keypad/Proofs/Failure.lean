import Keypad.Failure

/-!
# Computations that may fail

The steps of a computation that ends well or fails, and the reasons for which it may fail.
-/

namespace Keypad

/-- Both steps of a successful computation succeed. -/
theorem Except.exists_of_bind {ε α β : Type} {x : Except ε α} {f : α → Except ε β} {b : β}
    (h : x >>= f = .ok b) : ∃ a, x = .ok a ∧ f a = .ok b := by
  cases x with
  | error e => cases h
  | ok a => exact ⟨a, rfl, h⟩

/-- The first step of a failed computation fails, or it succeeds and the second one fails. -/
theorem Except.of_bind_eq_error {ε α β : Type} {x : Except ε α} {f : α → Except ε β} {e : ε}
    (h : x >>= f = .error e) : x = .error e ∨ ∃ a, x = .ok a ∧ f a = .error e := by
  cases x with
  | error e' => exact .inl (congrArg Except.error (Except.error.inj h))
  | ok a => exact .inr ⟨a, rfl, h⟩

variable {α β : Type} {E : Failure → Prop}

/-- If the computation fails, then for a reason in `E`. -/
def FailsIn (E : Failure → Prop) (x : Except Failure α) : Prop := ∀ f, x = .error f → E f

theorem failsIn_ok (a : α) : FailsIn E (.ok a) := by
  intro f h
  cases h

theorem failsIn_error {f : Failure} (h : E f) : FailsIn E (.error f : Except Failure α) := by
  intro g hg
  cases hg
  exact h

theorem FailsIn.bind {x : Except Failure α} {k : α → Except Failure β} (hx : FailsIn E x)
    (hk : ∀ a, FailsIn E (k a)) : FailsIn E (x >>= k) := by
  intro f hf
  rcases Except.of_bind_eq_error hf with hfirst | ⟨a, -, hsecond⟩
  · exact hx f hfirst
  · exact hk a f hsecond

end Keypad
