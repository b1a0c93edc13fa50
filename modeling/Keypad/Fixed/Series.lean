import Keypad.Decimal.Digits

/-!
# Series in fixed-point arithmetic

A real `x` is held as the integer part of `x · s` for a scale `s`, a power of ten. Products are
divided by the scale and every division is cut towards zero. A series is summed up to its first
term that is cut to zero. All three series below end for every argument: in the first the divisor
outgrows the scale, in the second the index outgrows the ratio, in the third the powers do not
grow while the index does.
-/

namespace Keypad.Fixed

/-- The term of index `k` of `1/q ± 1/(3 q³) + 1/(5 q⁵) ± …`, without its sign. -/
def inverseTerm (q scale k : Nat) : Nat := scale / (Nat.pow q (2 * k + 1) * (2 * k + 1))

theorem lt_of_inverseTerm_ne_zero {q scale k : Nat} (h : inverseTerm q scale k ≠ 0) :
    k < scale := by
  unfold inverseTerm at h
  have hd : 0 < Nat.pow q (2 * k + 1) * (2 * k + 1) := by
    refine Nat.pos_of_ne_zero fun h0 => h ?_
    rw [h0, Nat.div_zero]
  have hle : Nat.pow q (2 * k + 1) * (2 * k + 1) ≤ scale :=
    Nat.le_of_not_lt fun hlt => h (Nat.div_eq_of_lt hlt)
  have h1 : 1 ≤ Nat.pow q (2 * k + 1) := Nat.pos_of_mul_pos_right hd
  have h2 : 1 * (2 * k + 1) ≤ Nat.pow q (2 * k + 1) * (2 * k + 1) := Nat.mul_le_mul_right _ h1
  omega

/-- The odd series in `1/q` from the index `k` on, times `scale`, with alternating signs or not:
the inverse tangent of `1/q`, or its inverse hyperbolic tangent. -/
def inverseSeries (alternating : Bool) (q scale k : Nat) : Int :=
  let term := inverseTerm q scale k
  if term = 0 then 0
  else
    (if alternating && k % 2 == 1 then -(term : Int) else term)
      + inverseSeries alternating q scale (k + 1)
termination_by scale - k
decreasing_by
  have h : inverseTerm q scale k ≠ 0 := ‹_›
  have := lt_of_inverseTerm_ne_zero h
  omega

/-- The next term of a series whose terms have the ratio `y / (n · cofactor n)`. -/
def factorialStep (y : Int) (s : Nat) (cofactor : Nat → Nat) (n : Nat) (t : Int) : Int :=
  ((t * y).tdiv s).tdiv ((n * cofactor n : Nat) : Int)

theorem natAbs_factorialStep (y : Int) (s : Nat) (cofactor : Nat → Nat) (n : Nat) (t : Int) :
    (factorialStep y s cofactor n t).natAbs = t.natAbs * y.natAbs / s / (n * cofactor n) := by
  rw [factorialStep, Int.natAbs_tdiv, Int.natAbs_tdiv, Int.natAbs_mul, Int.natAbs_natCast,
    Int.natAbs_natCast]
  rfl

/-- Once the index exceeds the ratio `y / s`, the terms shrink. -/
theorem natAbs_factorialStep_lt {y : Int} {s : Nat} {cofactor : Nat → Nat} {n : Nat} {t : Int}
    (h : factorialStep y s cofactor n t ≠ 0) (hn : y.natAbs / s < n) :
    (factorialStep y s cofactor n t).natAbs < t.natAbs := by
  have h0 : t.natAbs * y.natAbs / s / (n * cofactor n) ≠ 0 := by
    rw [← natAbs_factorialStep]; exact fun hz => h (Int.natAbs_eq_zero.1 hz)
  rw [natAbs_factorialStep, Nat.div_div_eq_div_mul]
  rw [Nat.div_div_eq_div_mul] at h0
  have ht : 0 < t.natAbs := Nat.pos_of_ne_zero fun hz => h0 (by simp [hz])
  have hs : 0 < s * (n * cofactor n) := Nat.pos_of_ne_zero fun hz => h0 (by simp [hz])
  have hs' : 0 < s := Nat.pos_of_mul_pos_right hs
  have hc : 1 ≤ cofactor n := Nat.pos_of_mul_pos_left (Nat.pos_of_mul_pos_left hs)
  have hy : y.natAbs < s * n := by rw [Nat.mul_comm]; exact (Nat.div_lt_iff_lt_mul hs').1 hn
  have hsn : s * n * 1 ≤ s * n * cofactor n := Nat.mul_le_mul_left _ hc
  rw [Nat.div_lt_iff_lt_mul hs, ← Nat.mul_assoc s]
  exact Nat.mul_lt_mul_of_pos_left (by omega) ht

/-- The terms that follow `t`, from the index `n` on. -/
def factorialSeries (y : Int) (s : Nat) (cofactor : Nat → Nat) (n : Nat) (t : Int) : Int :=
  let next := factorialStep y s cofactor n t
  if next = 0 then 0 else next + factorialSeries y s cofactor (n + 1) next
termination_by (y.natAbs / s + 1 - n, t.natAbs)
decreasing_by
  rename_i h
  by_cases hn : y.natAbs / s < n
  · have hlt := natAbs_factorialStep_lt h hn
    rw [show y.natAbs / s + 1 - (n + 1) = y.natAbs / s + 1 - n by omega]
    exact Prod.Lex.right _ hlt
  · exact Prod.Lex.left _ _ (by omega)

/-- The next power of `y` in a power series. -/
def powerStep (y : Int) (s : Nat) (p : Int) : Int := (p * y).tdiv s

theorem natAbs_powerStep_le {y : Int} {s : Nat} (h : y.natAbs ≤ s) (p : Int) :
    (powerStep y s p).natAbs ≤ p.natAbs := by
  simp only [powerStep, Int.natAbs_tdiv, Int.natAbs_mul, Int.natAbs_natCast]
  refine Nat.div_le_of_le_mul ?_
  rw [Nat.mul_comm s]
  exact Nat.mul_le_mul_left _ h

/-- The terms `p · yⁱ / (2 (k + i) + 1)` for `i` from one on. Of a ratio that is at most one the
powers do not grow. -/
def powerSeries (y : Int) (s : Nat) (hy : y.natAbs ≤ s) (k : Nat) (p : Int) : Int :=
  let power := powerStep y s p
  let term := power.tdiv ((2 * k + 1 : Nat) : Int)
  if term = 0 then 0 else term + powerSeries y s hy (k + 1) power
termination_by p.natAbs - k
decreasing_by
  rename_i h
  have hle := natAbs_powerStep_le hy p
  have hk : 2 * k + 1 ≤ (powerStep y s p).natAbs := by
    refine Nat.le_of_not_lt fun hlt => h ?_
    apply Int.natAbs_eq_zero.1
    rw [Int.natAbs_tdiv, Int.natAbs_natCast]
    exact Nat.div_eq_of_lt hlt
  omega

/-- The square of a number that is at most one is at most one. -/
theorem natAbs_square_tdiv_le {z : Int} {s : Nat} (hz : z.natAbs ≤ s) :
    ((z * z).tdiv s).natAbs ≤ s := by
  rw [Int.natAbs_tdiv, Int.natAbs_mul, Int.natAbs_natCast]
  exact Nat.div_le_of_le_mul (Nat.mul_le_mul hz hz)

end Keypad.Fixed
