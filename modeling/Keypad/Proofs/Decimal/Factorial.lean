import Keypad.Decimal.Factorial
import Keypad.Proofs.Decimal.Accuracy
import Mathlib.Data.Nat.Factorial.Basic

/-!
# How near a factorial is

The running product stays below the binary length at which it is rounded: a rounding leaves fewer
bits. Each factor adds the relative error of at most one rounding to the kept digits, so the errors
of all factors up to `10⁹` together stay below the last rounding. As long as the factorial itself is
below the length, nothing is rounded but the result.
-/

namespace Keypad.Decimal

open Digits

variable {n m : Nat} {p : Nat × Nat}

/-- The running product of the first `n` factors. -/
def runningProduct (n : Nat) : Nat × Nat := n.fold (fun i _ p => productStep p (i + 1)) (1, 0)

theorem runningProduct_succ (n : Nat) :
    runningProduct (n + 1) = productStep (runningProduct n) (n + 1) := Nat.fold_succ _ _ _

/-- A product that is rounded has more digits than are kept of it. -/
theorem productDigits_le_count (h : productBits ≤ m.log2) : productDigits ≤ count m := by
  have hm : m ≠ 0 := by
    rintro rfl
    exact absurd h (by decide)
  have hlarge : pow10 (productDigits - 1) < pow10 (count m) :=
    calc pow10 (productDigits - 1) ≤ 2 ^ productBits := by decide
      _ ≤ m := (Nat.le_log2 hm).1 h
      _ < pow10 (count m) := lt_pow10_count m
  have hlt := lt_of_pow10_lt hlarge
  omega

/-- What is known of the running product `p` after the first `n` factors. -/
structure Follows (n : Nat) (p : Nat × Nat) : Prop where
  pos : 1 ≤ p.1
  short : p.1 < 2 ^ productBits
  places : p.2 ≤ 20 * n
  near : Near (n / 10 ^ 57) n.factorial (fraction p.1 p.2)

/-- A rounding to the kept digits leaves a shorter product, which is near. -/
theorem near_roundDivNat (m : Nat) (e : Int) :
    Near (1 / (2 * 10 ^ 57)) (fraction m e)
      (fraction (roundDivNat m (pow10 (count m - productDigits)) : Nat)
        (e + (count m - productDigits : Nat))) :=
  (show IsNearest (57 + 1) _ _ from isNearest_roundDiv (by decide) m e).near

theorem roundDivNat_lt (m : Nat) :
    roundDivNat m (pow10 (count m - productDigits)) < 2 ^ productBits := by
  have hcount : count (roundDivNat m (pow10 (count m - productDigits))) ≤ productDigits + 1 :=
    count_roundDivNat_le (by omega)
  calc roundDivNat m (pow10 (count m - productDigits))
      < pow10 (count (roundDivNat m (pow10 (count m - productDigits)))) := lt_pow10_count _
    _ ≤ pow10 (productDigits + 1) := pow10_le_pow10 hcount
    _ < 2 ^ productBits := by decide

theorem Follows.step (h : Follows n p) (hn : n < 10 ^ 9) :
    Follows (n + 1) (productStep p (n + 1)) := by
  obtain ⟨m, e⟩ := p
  obtain ⟨hpos, hshort, hplaces, hnear⟩ := h
  dsimp only at hpos hshort hplaces hnear
  have hpos' : 1 ≤ m * (n + 1) := Nat.mul_pos hpos n.succ_pos
  have hexact : Near (n / 10 ^ 57) (n + 1).factorial (fraction (m * (n + 1) : Nat) e) := by
    have hproduct := hnear.mul_left (n + 1 : Nat)
    rw [fraction_eq] at hproduct ⊢
    rw [Nat.factorial_succ]
    push_cast at hproduct ⊢
    rwa [mul_comm (m : Rat), mul_assoc]
  rw [productStep]
  dsimp only
  split
  · next hkept =>
    refine ⟨hpos', (Nat.log2_lt (by omega)).1 hkept, by dsimp only; omega, hexact.mono ?_⟩
    exact div_le_div_of_nonneg_right (by push_cast; linarith) (by positivity)
  · next hlong =>
    have hdigits := productDigits_le_count (not_lt.1 hlong)
    have hcount : count (m * (n + 1)) ≤ 78 := by
      refine count_le (by decide) ?_
      calc m * (n + 1)
          < 2 ^ productBits * 10 ^ 9 := Nat.mul_lt_mul_of_lt_of_le hshort hn (by decide)
        _ ≤ pow10 78 := by decide
    have hround := near_roundDivNat (m * (n + 1)) e
    have hne : roundDiv (m * (n + 1) : Nat) (pow10 (count (m * (n + 1)) - productDigits)) ≠ 0 := by
      have hpower : pow10 (count (m * (n + 1)) - productDigits) ≤ m * (n + 1) :=
        (pow10_le_pow10 (Nat.sub_le_sub_left (show 1 ≤ productDigits by decide) _)).trans
          (pow10_pred_count_le (Nat.pos_iff_ne_zero.1 hpos'))
      exact roundDiv_ne_zero (pow10_pos _) hpower
    have hlt := roundDivNat_lt (m * (n + 1))
    refine ⟨Nat.pos_of_ne_zero fun hzero => hne ?_, hlt, ?_, ?_⟩
    · exact congrArg Nat.cast hzero
    · dsimp only
      rw [productDigits, precision]
      omega
    · refine (hexact.trans hround (by positivity)).mono ?_
      have hn' : (n : Rat) ≤ 10 ^ 9 := by exact_mod_cast hn.le
      push_cast
      linarith

theorem follows_runningProduct (hn : n ≤ 10 ^ 9) : Follows n (runningProduct n) := by
  induction n with
  | zero =>
    constructor
    · exact le_rfl
    · decide
    · exact le_rfl
    · simp [Near, runningProduct, fraction_eq]
  | succ n ih =>
    rw [runningProduct_succ]
    exact (ih (by omega)).step (by omega)

/-- Nothing is rounded while the product is short. -/
theorem runningProduct_eq (h : n.factorial < 2 ^ productBits) :
    runningProduct n = (n.factorial, 0) := by
  induction n with
  | zero => rfl
  | succ n ih =>
    have hle : n.factorial ≤ (n + 1).factorial := Nat.factorial_le n.le_succ
    have hkept : (n.factorial * (n + 1)).log2 < productBits := by
      rw [Nat.mul_comm, ← Nat.factorial_succ]
      exact (Nat.log2_lt (Nat.factorial_ne_zero _)).2 h
    rw [runningProduct_succ, ih (hle.trans_lt h), productStep]
    dsimp only
    rw [if_pos hkept, Nat.factorial_succ, Nat.mul_comm]

/-- The exponent of the product is far below its limit. -/
theorem Follows.isNearest_scaled (h : Follows n p) (hn : n ≤ 10 ^ 9) :
    IsNearest precision (fraction p.1 p.2) (scaled p.1 p.2).value := by
  obtain ⟨m, e⟩ := p
  obtain ⟨hpos, hshort, hplaces, -⟩ := h
  dsimp only at hpos hshort hplaces ⊢
  obtain ⟨y, hreduced, hnearest, hy⟩ := roundsTo_round (by decide : 0 < precision) m e
  have hsize : |fraction m e| = (m * 10 ^ e : Nat) := by
    rw [fraction_eq, zpow_natCast, Int.cast_natCast, abs_of_nonneg (by positivity)]
    push_cast
    rfl
  have hlarge : 1 ≤ m * 10 ^ e := Nat.mul_pos hpos (Nat.pow_pos (by decide))
  have hsmall : m * 10 ^ e < 10 ^ (69 + 20 * n) := by
    have hbits : 2 ^ productBits ≤ 10 ^ 69 := by decide
    rw [Nat.pow_add]
    exact Nat.mul_lt_mul_of_lt_of_le (hshort.trans_le hbits)
      (Nat.pow_le_pow_right (by decide) hplaces) (Nat.pow_pos (by decide))
  have hlimits : y.WithinLimits := by
    apply hreduced.withinLimits hnearest (c := 69 + 20 * n)
    · omega
    · rw [hsize]
      refine (zpow_le_one_of_nonpos₀ (by norm_num) (by omega)).trans ?_
      exact_mod_cast hlarge
    · rw [hsize, zpow_natCast]
      exact_mod_cast hsmall
  rwa [scaled, hy, hlimits.limited_eq]

/-- The factorial is near, is rounded only from more digits than are kept, and is correctly rounded
from a product that is never rounded before. -/
theorem factorial_near_and_nearest (hn : n ≤ 10 ^ 9) :
    |(factorial n).value - n.factorial| ≤ n.factorial / 10 ^ 47 ∧
    (∀ i < n, productBits ≤ ((runningProduct i).1 * (i + 1)).log2 →
      productDigits ≤ count ((runningProduct i).1 * (i + 1))) ∧
    (n.factorial < 2 ^ 226 → IsNearest precision n.factorial (factorial n).value) := by
  have hfollows := follows_runningProduct hn
  have hrounded : IsNearest precision _ (factorial n).value := hfollows.isNearest_scaled hn
  refine ⟨?_, fun i _ hlong => productDigits_le_count hlong, fun hshort => ?_⟩
  · have hn' : (n : Rat) ≤ 10 ^ 9 := by exact_mod_cast hn
    have hnear := (hfollows.near.trans (near_of_isNearest hrounded) (by norm_num)).mono
      (δ := 1 / 10 ^ 47) (by linarith)
    rw [Near, Nat.abs_cast, one_div_mul_eq_div] at hnear
    exact hnear
  · have hexact : fraction (runningProduct n).1 (runningProduct n).2 = n.factorial := by
      rw [runningProduct_eq hshort, fraction_eq]
      simp
    rwa [hexact] at hrounded

/-- The largest factorial that is not rounded before its end, and the largest argument the
calculator admits. -/
theorem factorial_near_and_nearest_largest :
    (52 ≤ 10 ^ 9 ∧ Nat.factorial 52 < 2 ^ 226 ∧
      IsNearest precision (Nat.factorial 52) (factorial 52).value) ∧
    maxFactorial ≤ 10 ^ 9 ∧
      |(factorial maxFactorial).value - maxFactorial.factorial| ≤
        maxFactorial.factorial / 10 ^ 47 := by
  have hshort : Nat.factorial 52 < 2 ^ 226 := by decide
  have hadmitted : maxFactorial ≤ 10 ^ 9 := by decide
  exact ⟨⟨by decide, hshort, (factorial_near_and_nearest (by decide)).2.2 hshort⟩, hadmitted,
    (factorial_near_and_nearest hadmitted).1⟩

end Keypad.Decimal
