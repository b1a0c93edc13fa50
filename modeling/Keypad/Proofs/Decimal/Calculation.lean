import Keypad.Proofs.Decimal.RoundingLaws
import Keypad.Proofs.Evaluation.Canonical

/-!
# Calculations with decimals

Whatever is computed from integers, fractions and texts by the operations on decimals is in
canonical form, so that equal values have equal parts and an integer is told by its exponent. No
exponent overflows 64 bits on the way.

A calculation is a tree of operations, carried out in machine words. What is given to it must not be
longer than a power of ten can be large: an integer with `2 ^ 32` digits more than a decimal has is
kept with all of them.
-/

namespace Keypad

open Digits Decimal Literal

/-- An operation on decimals and what it is applied to. -/
inductive Calculation where
  | zero
  | one
  | scaled (m : Int) (e : Int64)
  | ofInt (n : Int)
  | ofFixed (s : Int) (w : UInt64)
  | ofRat (q : Rat)
  | read (text : String)
  | neg (x : Calculation)
  | abs (x : Calculation)
  | significant (x : Calculation) (digits : Nat) (h : digits ≤ precision)
  | add (x y : Calculation)
  | sub (x y : Calculation)
  | mul (x y : Calculation)
  | div (x y : Calculation)
  | inv (x : Calculation)

namespace Calculation

/-- The decimal that is computed. There is none where an exponent overflows, a divisor is zero or a
text cannot be read. -/
def run : Calculation → Except Halt Decimal
  | zero => .ok .zero
  | one => .ok .one
  | scaled m e => .ok (Word.scaled m e.toInt)
  | ofInt n => .ok (Word.scaled n 0)
  | ofFixed s w => Word.ofFixed s w.toNat
  | ofRat q => .ok (Word.ofRat q)
  | read text => Word.settle (Word.read? text)
  | neg x => x.run >>= fun a => .ok (-a)
  | abs x => x.run >>= fun a => .ok a.abs
  | significant x digits _ => x.run >>= fun a => .ok (Word.significant a digits)
  | add x y => x.run >>= fun a => y.run >>= fun b => Word.add a b
  | sub x y => x.run >>= fun a => y.run >>= fun b => Word.sub a b
  | mul x y => x.run >>= fun a => y.run >>= fun b => .ok (Word.mul a b)
  | div x y => x.run >>= fun a => y.run >>= fun b => Word.div a b
  | inv x => x.run >>= fun a => Word.inv a

/-- No number or text that is given has too many digits. The numerator of a fraction may have more
than that, as long as the quotient has not. Of the widths, the least one whose exponent has no
opposite is left out; from there on they are taken for negative ones. -/
def Fits : Calculation → Prop
  | zero | one => True
  | scaled m _ | ofInt m => count m.natAbs < precision + Word.powerLimit
  | ofFixed s w => count s.natAbs < precision + Word.powerLimit ∧ w.toNat ≠ 2 ^ 63
  | ofRat q => count (q.num.tdiv q.den).natAbs < precision + Word.powerLimit
  | read text => text.length < precision + Word.powerLimit
  | neg x | abs x | significant x _ _ | inv x => x.Fits
  | add x y | sub x y | mul x y | div x y => x.Fits ∧ y.Fits

variable {c : Calculation} {d : Decimal}

/-- A result in canonical form, or none for a reason that is no overflow. -/
def Sound (r : Except Halt Decimal) : Prop := r ≠ .error .overflow ∧ ∀ d, r = .ok d → d.IsCanonical

theorem sound_ok (h : d.IsCanonical) : Sound (.ok d) :=
  ⟨nofun, fun _ hd => Except.ok.inj hd ▸ h⟩

theorem sound_settle {o : Option Decimal} (h : ∀ d, o = some d → d.IsCanonical) :
    Sound (Word.settle o) := by
  cases o with
  | none => exact ⟨nofun, nofun⟩
  | some d => exact sound_ok (h d rfl)

theorem Sound.bind {r : Except Halt Decimal} {f : Decimal → Except Halt Decimal} (h : Sound r)
    (hf : ∀ a, a.IsCanonical → Sound (f a)) : Sound (r >>= f) := by
  cases r with
  | error halt => exact ⟨h.1, nofun⟩
  | ok a => exact hf a (h.2 a rfl)

theorem sound_scaled {m e : Int} (he : InWord e)
    (h : count m.natAbs < precision + Word.powerLimit) : Sound (.ok (Word.scaled m e)) := by
  rw [Word.scaled_eq he h]
  exact sound_ok (isCanonical_scaled m e)

theorem sound_ofFixed {s : Int} {w : UInt64} (hw : w.toNat ≠ 2 ^ 63)
    (h : count s.natAbs < precision + Word.powerLimit) : Sound (Word.ofFixed s w.toNat) := by
  have hbound := w.toNat_lt
  have hword : InWord (-Int.bmod w.toNat Word.wordCount) := by
    rw [InWord, Int.bmod_def, Word.wordCount]
    omega
  rw [Word.ofFixed, Word.checked_eq hword]
  exact sound_scaled hword h

theorem sound_ofRat {q : Rat} (h : count (q.num.tdiv q.den).natAbs < precision + Word.powerLimit) :
    Sound (.ok (Word.ofRat q)) := by
  by_cases hlong : precision + 3 + count (q.den : Int).natAbs < count q.num.natAbs + Word.powerLimit
  · rw [Word.ofRat_eq ⟨hlong, h⟩]
    exact sound_ok (isCanonical_ofRat q)
  · have hden : (q.den : Int) ≠ 0 := by exact_mod_cast q.den_nz
    rw [Word.ofRat, Word.quotient_eq_zero hden (not_lt.1 hlong)]
    exact sound_ok isCanonical_zero

/-- What one operation makes of results in canonical form is in canonical form again. -/
theorem sound_run (h : c.Fits) : Sound c.run := by
  induction c with
  | zero => exact sound_ok isCanonical_zero
  | one => exact sound_ok isCanonical_one
  | scaled m e => exact sound_scaled (inWord_toInt e) h
  | ofInt n => exact sound_scaled (by decide) h
  | ofFixed s w => exact sound_ofFixed h.2 h.1
  | ofRat q => exact sound_ofRat h
  | read text =>
    rw [run, Word.read?_eq h]
    exact sound_settle fun d => ConstantTable.isCanonical_of_read?
  | neg x ih => exact (ih h).bind fun a ha => sound_ok ha.neg
  | abs x ih => exact (ih h).bind fun a ha => sound_ok ha.abs
  | significant x digits hdigits ih =>
    refine (ih h).bind fun a ha => ?_
    rw [Word.significant_eq ha]
    exact sound_ok (isCanonical_round _ _ hdigits)
  | add x y ihx ihy =>
    refine (ihx h.1).bind fun a ha => (ihy h.2).bind fun b hb => ?_
    rw [Word.add_eq ha hb]
    exact sound_ok (ha.add hb)
  | sub x y ihx ihy =>
    refine (ihx h.1).bind fun a ha => (ihy h.2).bind fun b hb => ?_
    rw [Word.sub_eq ha hb]
    exact sound_ok (ha.sub hb)
  | mul x y ihx ihy =>
    refine (ihx h.1).bind fun a ha => (ihy h.2).bind fun b hb => ?_
    rw [Word.mul_eq ha hb]
    exact sound_ok (isCanonical_mul a b)
  | div x y ihx ihy =>
    refine (ihx h.1).bind fun a ha => (ihy h.2).bind fun b hb => ?_
    rw [Word.div_eq ha hb]
    exact sound_settle fun d => isCanonical_of_div?
  | inv x ih =>
    refine (ih h).bind fun a ha => ?_
    rw [Word.inv, Word.div_eq isCanonical_one ha]
    exact sound_settle fun d => isCanonical_of_div?

/-- No calculation whose numbers are not too long overflows an exponent of 64 bits. What it gives is
in canonical form, has a leading exponent of 64 bits, equals another result exactly if the values
are equal, and has no negative exponent exactly if its value is an integer. -/
theorem run_isCanonical (h : c.Fits) :
    c.run ≠ .error .overflow ∧
      ∀ d, c.run = .ok d →
        d.IsCanonical ∧ Word.leading d = .ok d.leading ∧
        (d.isInteger ↔ ∃ n : Int, d.value = n) ∧
        ∀ (c' : Calculation) (d' : Decimal), c'.Fits → c'.run = .ok d' →
          (d = d' ↔ d.value = d'.value) := by
  obtain ⟨hsafe, hcanonical⟩ := sound_run h
  refine ⟨hsafe, fun d hd => ?_⟩
  have hform := hcanonical d hd
  have hshort := hform.count_le_precision
  rw [precision] at hshort
  refine ⟨hform, (Word.leading_eq hform.withinLimits (by omega)).1, hform.isInteger_iff,
    fun c' d' h' hd' => ?_⟩
  exact hform.eq_iff ((sound_run h').2 d' hd')

/-- The digits of `10 ^ 49 - 1` are rounded up to a power of ten, and its product with the largest
power keeps the largest exponent. That its value is an integer, and not one, is read off its parts.
An integer that does not fit is kept as long as it is. -/
theorem run_isCanonical_largest :
    ((mul (scaled (10 ^ 49 - 1) (-49)) (scaled 1 Int64.maxValue)).run
        = .ok ⟨1, exponentCeiling⟩ ∧
      IsCanonical ⟨1, exponentCeiling⟩ ∧
      (∃ n : Int, Decimal.value ⟨1, exponentCeiling⟩ = n) ∧
      Decimal.value ⟨1, exponentCeiling⟩ ≠ Decimal.value .one) ∧
    ((ofInt (Word.outlier precision)).run = .ok ⟨Word.outlier precision, Word.powerLimit⟩ ∧
      ¬ IsCanonical ⟨Word.outlier precision, Word.powerLimit⟩) := by
  constructor
  · have hcount {k : Nat} (hk : k < 10 ^ 49) : count k < precision + Word.powerLimit :=
      (count_le (c := 49) (by decide) hk).trans_lt (by decide)
    have hfits : (mul (scaled (10 ^ 49 - 1) (-49)) (scaled 1 Int64.maxValue)).Fits :=
      ⟨hcount (by decide), hcount (by decide)⟩
    have hresult : (mul (scaled (10 ^ 49 - 1) (-49)) (scaled 1 Int64.maxValue)).run
        = .ok ⟨1, exponentCeiling⟩ := by decide +kernel
    obtain ⟨hcanonical, -, hinteger, hequal⟩ := (run_isCanonical hfits).2 _ hresult
    have hone := (hequal one .one trivial rfl).not.1 (by decide)
    exact ⟨hresult, hcanonical, hinteger.1 (by decide), hone⟩
  · obtain ⟨hcount, hmod⟩ := Word.count_outlier (show 0 < precision by decide)
    obtain ⟨-, hround⟩ := Word.round_long hmod (e := 0) (by decide) hcount
    refine ⟨congrArg Except.ok hround, ?_⟩
    rintro (hzero | ⟨-, hshort, -⟩)
    · rw [Decimal.zero, Decimal.mk.injEq] at hzero
      omega
    · dsimp only at hshort
      rw [hcount] at hshort
      exact absurd hshort (by decide)

end Calculation

end Keypad
