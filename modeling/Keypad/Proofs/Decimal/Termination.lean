import Keypad.Proofs.Decimal.Functions
import Keypad.Proofs.Decimal.RoundingLaws
import Keypad.Proofs.Fixed.Index

/-!
# The loops of the transcendental functions

A series is summed until a part of it is cut to zero. Without a bound on the index that happens on
every argument of the sine, the cosine and the exponential, and on every argument below one of the
inverse hyperbolic tangent. An index of 64 bits gets there as long as its divisor is held. Angles
`2 ^ 32` times as large as the scale are beyond it.

The functions on decimals stay far from that. The logarithm and the inverse tangent prepare the
arguments of their loops: a positive decimal with its power of ten taken out is at least one, so
that its halves stay positive and the logarithm asks for the inverse hyperbolic tangent of a number
below one; half a tangent is at most one, whatever was halved. Nothing is asked of the decimals but
that they can be held. Even a mantissa of `2 ^ 32` digits, which is rounded by too small a power of
ten, does not lead below one.
-/

namespace Keypad.Word

open Digits Literal Fixed

variable {x d : Decimal} {m e t : Int} {n c r w k u j q : Nat}

/-! ## Decimals that are held -/

/-- Every operation answers an exponent within the limits, and no memory has room for a mantissa of
more digits. -/
structure IsHeld (x : Decimal) : Prop where
  withinLimits : x.WithinLimits
  count_le : count x.mantissa.natAbs ≤ 2 ^ 60

theorem exists_toFixed (h : d.WithinLimits) (hw : w ≤ 2 ^ 62) : ∃ t, toFixed d w = .ok t := by
  obtain ⟨hfloor, hceiling⟩ := h
  rw [exponentFloor] at hfloor
  rw [exponentCeiling] at hceiling
  have hword : InWord (d.exponent + w) := ⟨by omega, by omega⟩
  rw [toFixed, bmod_eq (by omega), checked_eq hword]
  simp only [bind, Except.bind]
  split
  · exact ⟨_, rfl⟩
  · have hword' : InWord (-(d.exponent + w)) := ⟨by omega, by omega⟩
    rw [checked_eq hword']
    dsimp only
    split
    · exact ⟨_, rfl⟩
    · exact ⟨_, rfl⟩

theorem toFixed_eq_mul (h : d.WithinLimits) (hw : w ≤ 2 ^ 62) (hlow : 0 ≤ d.exponent + w) :
    toFixed d w = .ok (d.mantissa * pow10 (d.exponent + w).toNat) := by
  obtain ⟨hfloor, hceiling⟩ := h
  rw [exponentCeiling] at hceiling
  have hword : InWord (d.exponent + w) := ⟨by omega, by omega⟩
  rw [toFixed, bmod_eq (by omega), checked_eq hword]
  simp only [bind, Except.bind, if_pos hlow]
  rfl

/-! ## The power of ten of a decimal -/

theorem pow10_le_roundDivNat (h : Keypad.pow10 (c + r) ≤ n) :
    Keypad.pow10 c ≤ roundDivNat n (Keypad.pow10 r) := by
  have hpos := Keypad.pow10_pos r
  rw [roundDivNat, Nat.le_div_iff_mul_le (by omega)]
  rw [Keypad.pow10_add] at h
  calc Keypad.pow10 c * (2 * Keypad.pow10 r) = 2 * (Keypad.pow10 c * Keypad.pow10 r) := by ring
    _ ≤ 2 * n + Keypad.pow10 r := by omega

/-- A mantissa that is rounded by a power of ten too small by `10 ^ (powerLimit * q)` is so much
longer. As long as it has no final zeros, that is more than is cut off the power it is multiplied
by. -/
theorem pow10_le_mul_pow10 (hk : k = u * Keypad.pow10 j) (hu : 0 < u)
    (hlow : Keypad.pow10 (c + powerLimit * q) ≤ k) (hcount : count k ≤ c + 2 + powerLimit * q)
    (hn : n + c = j + w) (hw : w + 1 < powerLimit) : Keypad.pow10 w ≤ u * pow10 n := by
  have hlimit : n / powerLimit ≤ q := by
    rw [hk, count_mul_pow10 hu.ne'] at hcount
    have hpos := count_pos u
    refine Nat.le_of_lt_succ (Nat.div_lt_of_lt_mul ?_)
    rw [Nat.mul_succ]
    omega
  refine Nat.le_of_mul_le_mul_right ?_ (Keypad.pow10_pos (c + powerLimit * q))
  calc Keypad.pow10 w * Keypad.pow10 (c + powerLimit * q)
      ≤ Keypad.pow10 w * k := Nat.mul_le_mul_left _ hlow
    _ = u * Keypad.pow10 (j + w) := by
        rw [hk, Keypad.pow10_add]
        ring
    _ = u * (pow10 n * Keypad.pow10 (powerLimit * (n / powerLimit))) * Keypad.pow10 c := by
        rw [pow10_mul_pow10, ← hn, Keypad.pow10_add, mul_assoc]
    _ = u * pow10 n * Keypad.pow10 (c + powerLimit * (n / powerLimit)) := by
        rw [Keypad.pow10_add c]
        ring
    _ ≤ u * pow10 n * Keypad.pow10 (c + powerLimit * q) :=
        Nat.mul_le_mul_left _
          (pow10_le_pow10 (Nat.add_le_add_left (Nat.mul_le_mul_left _ hlimit) c))

/-- The same where the exponent may saturate: the ceiling is a multiple of the limit, so that what
is added to it is not lost. -/
theorem pow10_le_mul_pow10_limited (hk : k = u * Keypad.pow10 j) (hu : 0 < u)
    (hlow : Keypad.pow10 (c + powerLimit * q) ≤ k) (hcount : count k ≤ c + 2 + powerLimit * q)
    (hc : c ≤ w) (hw : w + 1 < powerLimit) :
    Keypad.pow10 w ≤ u * pow10 (min (-(c : Int) + j) exponentCeiling + w).toNat := by
  rcases le_total (-(c : Int) + j) exponentCeiling with hkeeps | hends
  · rw [min_eq_left hkeeps]
    exact pow10_le_mul_pow10 hk hu hlow hcount (by omega) hw
  · have hplain : (exponentCeiling + w).toNat % powerLimit = w := by
      rw [exponentCeiling, powerLimit] at *
      omega
    rw [min_eq_right hends, pow10, hplain]
    exact Nat.le_mul_of_pos_left _ hu

theorem mul_pow10_lt (hk : k = u * Keypad.pow10 j) (hn : n ≤ j + w) (hcount : count k ≤ c) :
    u * pow10 n < Keypad.pow10 (c + w) := by
  have hmod := Nat.mod_le n powerLimit
  calc u * pow10 n ≤ u * Keypad.pow10 (j + w) :=
        Nat.mul_le_mul_left u (pow10_le_pow10 (hmod.trans hn))
    _ = k * Keypad.pow10 w := by rw [hk, Keypad.pow10_add, mul_assoc]
    _ < Keypad.pow10 (count k) * Keypad.pow10 w :=
        Nat.mul_lt_mul_of_pos_right (lt_pow10_count k) (Keypad.pow10_pos w)
    _ ≤ Keypad.pow10 (c + w) := by
        rw [← Keypad.pow10_add]
        exact pow10_le_pow10 (Nat.add_le_add_right hcount w)

/-- What is normalized loses its final zeros to an exponent that may saturate. -/
theorem exists_normalize (hk : 0 < k) (he : exponentFloor ≤ e) :
    ∃ u j : Nat, 0 < u ∧ k = u * Keypad.pow10 j ∧
      Decimal.normalize k e = ⟨u, min (e + j) exponentCeiling⟩ := by
  obtain ⟨y, j, -, hmantissa, hy, hnormalize⟩ := Decimal.normalize_eq_limited k e
  have hpos : 0 < y.mantissa := by
    have hpow : (0 : Int) < Keypad.pow10 j := by exact_mod_cast Keypad.pow10_pos j
    exact Int.pos_of_mul_pos_left (a := y.mantissa) (by rw [← hmantissa]; exact_mod_cast hk) hpow
  obtain ⟨u, hu⟩ := Int.eq_ofNat_of_zero_le hpos.le
  have hexponent : y.exponent = e + j := hy.resolve_left fun hzero => by
    rw [hzero] at hpos
    exact absurd hpos (by decide)
  refine ⟨u, j, by omega, ?_, ?_⟩
  · rw [hu] at hmantissa
    exact_mod_cast hmantissa
  · rw [hnormalize, Decimal.limited, if_neg (by omega), hu, hexponent]

/-- The mantissa that is kept of a positive one, with the exponent of one less than its digits. -/
theorem exists_scaled (hn : 0 < n) (hcount : count n ≤ 2 ^ 60) :
    ∃ k : Nat, scaled n (1 - count n)
        = Decimal.normalize k (1 - count n + ((count n - precision : Nat) : Int)) ∧
      Keypad.pow10 (count n - 1 - (count n - precision) % powerLimit) ≤ k ∧
      count k ≤ count n - (count n - precision) % powerLimit + 1 := by
  have hpos := count_pos n
  have hmod := Nat.mod_le (count n - precision) powerLimit
  have hword : InWord (1 - count n) := ⟨by omega, by omega⟩
  refine ⟨roundDivNat n (pow10 (count n - precision)), ?_, ?_, ?_⟩
  · have hnonneg : ¬(n : Int) < 0 := by omega
    have hround := round_eq_normalize n hword precision
    rwa [roundDiv, if_neg hnonneg, Int.natAbs_natCast] at hround
  · refine pow10_le_roundDivNat ((pow10_le_pow10 ?_).trans (pow10_pred_count_le hn.ne'))
    rw [precision] at *
    omega
  · exact count_roundDivNat_le (by omega)

theorem reduced_eq (h : IsHeld x) (hx : x.isZero = false) (w : Nat) :
    reduced x w = toFixed (scaled x.mantissa (1 - count x.mantissa.natAbs)) w := by
  have hpos := count_pos x.mantissa.natAbs
  have hcount := h.count_le
  have hword : InWord (1 - count x.mantissa.natAbs) := ⟨by omega, by omega⟩
  have hexponent : x.exponent - x.leading = 1 - count x.mantissa.natAbs := by
    rw [Decimal.leading_of_ne_zero hx]
    omega
  rw [reduced, (leading_eq h.withinLimits (hcount.trans (by decide))).1]
  simp only [bind, Except.bind, hexponent, checked_eq hword]

/-- A positive decimal with its power of ten taken out is at least one. -/
theorem exists_reduced (h : IsHeld x) (hx : 0 < x.mantissa) (hw : precision ≤ w)
    (hw' : w + 1 < powerLimit) :
    ∃ m : Nat, reduced x w = .ok m ∧ Keypad.pow10 w ≤ m ∧
      m < Keypad.pow10 (count x.mantissa.natAbs + 1 + w) := by
  have hcount := h.count_le
  rw [reduced_eq h (by simpa [Decimal.isZero] using hx.ne')]
  clear h
  generalize x.mantissa = m at *
  obtain ⟨n, rfl⟩ := Int.eq_ofNat_of_zero_le hx.le
  rw [Int.natAbs_natCast] at *
  have hpos := count_pos n
  obtain ⟨k, hscaled, hlow, hhigh⟩ := exists_scaled (Int.natCast_pos.1 hx) hcount
  -- One less than the digits that are kept.
  obtain ⟨c, hc, hkept⟩ : ∃ c, count n = c + 1 + (count n - precision) ∧ c < 48 := by
    refine ⟨count n - 1 - (count n - precision), ?_⟩
    rw [precision]
    omega
  have hexcess := Nat.mod_add_div (count n - precision) powerLimit
  generalize count n - precision = excess at *
  have hexponent : (1 : Int) - count n + excess = -c := by omega
  have hfloor : exponentFloor ≤ -c := by
    rw [exponentFloor]
    omega
  obtain ⟨u, j, hu, hk, hnormalize⟩ := exists_normalize ((Keypad.pow10_pos _).trans_le hlow) hfloor
  have hplace : c ≤ w := by
    rw [precision] at hw
    omega
  have hsum : 0 ≤ min (-(c : Int) + j) exponentCeiling + w := by
    rw [exponentCeiling]
    omega
  have hlimits : Decimal.WithinLimits ⟨u, min (-(c : Int) + j) exponentCeiling⟩ :=
    ⟨le_min (hfloor.trans (by omega)) (by decide), min_le_right _ _⟩
  have hplaces : w ≤ 2 ^ 62 := by
    rw [powerLimit] at hw'
    omega
  refine ⟨u * pow10 (min (-(c : Int) + j) exponentCeiling + w).toNat, ?_, ?_, ?_⟩
  · rw [hscaled, hexponent, hnormalize, toFixed_eq_mul hlimits hplaces hsum]
    rfl
  · have hlength : count n - 1 - excess % powerLimit = c + powerLimit * (excess / powerLimit) := by
      omega
    rw [hlength] at hlow
    exact pow10_le_mul_pow10_limited hk hu hlow (by omega) hplace hw'
  · exact mul_pow10_lt hk (by omega) (by omega)

/-! ## The logarithm -/

/-- The places of the logarithm and of the inverse tangent. -/
def seriesPlaces : Nat := workDigits + 4

theorem log2_scale_lt : (Keypad.pow10 seriesPlaces).log2 < 2 ^ 62 :=
  (log2_pow10_lt (by decide)).trans (by decide)

/-- Between two thirds and three halves the fraction `(t - 1) / (t + 1)` is at most a fifth. -/
theorem five_mul_natAbs_artanhArgument_le {t s : Nat} (hlow : 2 * s ≤ 3 * t)
    (hhigh : 2 * t ≤ 3 * s) : 5 * (artanhArgument t s).natAbs ≤ s := by
  have hsum : (t + s : Int).natAbs = t + s := Int.natAbs_natCast (t + s)
  have hdifference : 5 * (t - s : Int).natAbs ≤ t + s := by omega
  rw [artanhArgument, Int.natAbs_tdiv, Int.natAbs_mul, Int.natAbs_natCast, hsum]
  refine (Nat.mul_div_le_mul_div_assoc 5 _ _).trans (Nat.div_le_of_le_mul ?_)
  rw [← mul_assoc]
  exact Nat.mul_le_mul_right s hdifference

/-- How the logarithm of `x` runs: the halves of `m` end at a positive `t` after `j` steps, and the
loop of the series gets an argument well below one. -/
structure LogarithmRun (x : Decimal) (m t j : Nat) : Prop where
  reduced : Word.reduced x seriesPlaces = .ok m
  halves : Halves (Keypad.pow10 seriesPlaces * 3 / 2 : Nat) m 0 t j
  pos : 0 < t
  counter : j < 2 ^ 63
  argument : 5 * (artanhArgument t (Keypad.pow10 seriesPlaces)).natAbs ≤ Keypad.pow10 seriesPlaces
  result : ln x = ofFixed (lnNearOne t (Keypad.pow10 seriesPlaces) + ln2 seriesPlaces * j
    + ln10 seriesPlaces * x.leading) seriesPlaces

/-- The halves of what is at least one end between three quarters and three halves. -/
theorem exists_halves {s m b : Nat} (hs : 4 ∣ s) (hpos : 0 < s) (hlow : s ≤ m) (hbits : m < 2 ^ b) :
    ∃ t j, halve (s * 3 / 2) m 0 = (t, j) ∧ Halves (s * 3 / 2 : Nat) m 0 t j ∧
      2 * s ≤ 3 * t ∧ 2 * t ≤ 3 * s ∧ j ≤ b := by
  have hbound : 2 * (s * 3 / 4) ≤ s * 3 / 2 := by omega
  have hstart : s * 3 / 4 ≤ m := by omega
  obtain ⟨hhalves, hlast⟩ := halves_halve hbound (by omega) hstart 0
  have hend : (halve (s * 3 / 2) m 0).1 < s * 3 / 2 := halve_lt (by omega) m 0
  have hcounter : (halve (s * 3 / 2) m 0).2 ≤ 0 + b := halve_le_add hbits
  exact ⟨_, _, rfl, hhalves, by omega, by omega, by omega⟩

theorem exists_logarithmRun (h : IsHeld x) (hx : 0 < x.mantissa) :
    ∃ m t j, LogarithmRun x m t j := by
  obtain ⟨m, hm, hlow, hhigh⟩ := exists_reduced (w := seriesPlaces) h hx (by decide) (by decide)
  have hscale : pow10 seriesPlaces = Keypad.pow10 seriesPlaces := pow10_eq (by decide)
  have hpos := Keypad.pow10_pos seriesPlaces
  have hbits := hhigh.trans (pow10_lt_two_pow (Nat.add_one_ne_zero _ : _ + 1 + seriesPlaces ≠ 0))
  have hlength : 4 * (count x.mantissa.natAbs + 1 + seriesPlaces) < 2 ^ 63 := by
    have hcount := h.count_le
    rw [seriesPlaces, workDigits, precision]
    omega
  obtain ⟨t, j, hhalve, hhalves, hquarters, hhalf, hcounter⟩ :=
    exists_halves (s := Keypad.pow10 seriesPlaces) (by decide) hpos hlow hbits
  have hargument := five_mul_natAbs_artanhArgument_le hquarters hhalf
  have hartanh := artanh_eq (z := artanhArgument t (Keypad.pow10 seriesPlaces))
    (s := Keypad.pow10 seriesPlaces) (by omega) log2_scale_lt
  have hleading := (leading_eq h.withinLimits (h.count_le.trans (by decide))).1
  refine ⟨m, t, j, hm, hhalves, by omega, hcounter.trans_lt hlength, hargument, ?_⟩
  have hsign : ¬x.sign ≤ 0 := not_le.2 (Int.sign_pos_iff.2 hx)
  have hplaces : workDigits + 4 = seriesPlaces := rfl
  rw [ln, if_neg hsign]
  simp only [bind, Except.bind, hplaces, hleading, hm, hscale, Int.natAbs_natCast, hhalve, hartanh]
  rfl

/-! ## The inverse tangent -/

theorem withinLimits_normalize (m e : Int) : (normalize m e).WithinLimits := by
  rw [normalize]
  split
  · exact Decimal.isCanonical_zero.withinLimits
  · split
    · exact Decimal.isCanonical_zero.withinLimits
    · next hfloor => exact ⟨le_min (not_lt.1 hfloor) (by decide), min_le_right _ _⟩

theorem withinLimits_quotient (n d e : Int) : (quotient n d e).WithinLimits := by
  rw [quotient]
  split
  · exact Decimal.isCanonical_zero.withinLimits
  · dsimp only
    rw [scaled, round]
    split
    · exact withinLimits_normalize _ _
    · exact withinLimits_normalize _ _

theorem exists_isSteep (h : IsHeld x) : ∃ b, isSteep x = .ok b := by
  have hone := Decimal.isCanonical_one.neg
  have hsub := add_eq_ite (a := x.abs) h.withinLimits hone.withinLimits
    (h.count_le.trans (by decide)) (hone.count_le_precision.trans (by decide))
  rw [isSteep, compare, sub, hsub]
  exact ⟨_, rfl⟩

theorem exists_tangent (h : IsHeld x) (hw : w ≤ 2 ^ 62) : ∃ t, tangent x w = .ok t := by
  obtain ⟨b, hsteep⟩ := exists_isSteep h
  rw [tangent, hsteep]
  cases b with
  | false => exact exists_toFixed (d := x.abs) h.withinLimits hw
  | true =>
    simp only [bind, Except.bind, if_true]
    by_cases hzero : x.abs.isZero
    · rw [inv, div, if_pos hzero, orZero]
      exact exists_toFixed Decimal.isCanonical_zero.withinLimits hw
    · rw [inv, div, if_neg hzero, orZero]
      · exact exists_toFixed (withinLimits_quotient _ _ _) hw
      · intro h
        cases h

/-- How the inverse tangent of `x` runs: the loop over the powers of an eighth of its tangent ends
with `sum` at the index `K`. -/
structure ArctangentRun (x : Decimal) (steep : Bool) (t : Int) (K : Nat) (sum : Int) : Prop where
  isSteep : Word.isSteep x = .ok steep
  tangent : Word.tangent x seriesPlaces = .ok t
  loop : Sums (arctanStep (eighth (Keypad.pow10 seriesPlaces) t) (Keypad.pow10 seriesPlaces))
    oddPart 1 (eighth (Keypad.pow10 seriesPlaces) t) (eighth (Keypad.pow10 seriesPlaces) t) K sum
  index : K < 2 ^ 63
  result : atan x = if x.isZero then .ok .zero
    else ofFixed (unfoldAngle x steep seriesPlaces (8 * sum)) seriesPlaces

theorem exists_arctangentRun (h : IsHeld x) : ∃ steep t K sum, ArctangentRun x steep t K sum := by
  obtain ⟨steep, hsteep⟩ := exists_isSteep h
  obtain ⟨t, ht⟩ := exists_tangent (w := seriesPlaces) h (by decide)
  have hscale : pow10 seriesPlaces = Keypad.pow10 seriesPlaces := pow10_eq (by decide)
  have hplaces : workDigits + 4 = seriesPlaces := rfl
  obtain ⟨K, sum, hsums, hK, -, harctan⟩ :=
    exists_arctan_eq (s := Keypad.pow10 seriesPlaces) t log2_scale_lt
  refine ⟨steep, t, K, sum, hsteep, ht, hsums, hK, ?_⟩
  rw [atan]
  simp only [bind, Except.bind, hplaces, hscale, hsteep, ht, harctan]

/-! ## All loops -/

/-- The angle of every decimal is reduced to one whose sine and cosine are summed in time. -/
theorem sin_cos_eq_of_reducedAngle? {a : Int} (h : x.reducedAngle? workDigits = some a) :
    sin a (Keypad.pow10 workDigits) = .ok (Fixed.sin a (Keypad.pow10 workDigits)) ∧
    cos a (Keypad.pow10 workDigits) = .ok (Fixed.cos a (Keypad.pow10 workDigits)) := by
  have hangle := Decimal.natAbs_reducedAngle?_le h
  have hlog : (Keypad.pow10 workDigits).log2 < 2 ^ 30 :=
    (log2_pow10_lt (by decide)).trans (by decide)
  exact ⟨sin_eq (by omega) hlog, cos_eq (by omega) hlog⟩

/-- Without a bound on the index every loop of a series comes to a part that is zero. With an index
of 64 bits it ends with the same sum if that index is small enough, and halts on an overflow
otherwise. The loop of the sine ends so for every argument up to `2 ^ 24` times the scale, as that
of the cosine does, and no loop of theirs ends for an argument of `2 ^ 32` times the scale; the
exponential ends up to `2 ^ 64`, the inverse hyperbolic tangent for every argument that is at most a
half, or at any scale that 63 bits hold. The logarithm of a positive decimal calls it with an
argument of at most a fifth, for its halves end at a positive number; and the last loop of the
inverse tangent ends for every decimal, though the answer for zero is given without it. -/
theorem loops_end :
    (∀ (r : Int) (s : Nat), 0 < s →
      (∃ K, Sums (sinStep r s) wholePart 1 r r K (Fixed.sin r s) ∧
        sin r s = if K < 2 ^ 31 then .ok (Fixed.sin r s) else .error .overflow) ∧
      (∃ K, Sums (cosStep r s) wholePart 1 s s K (Fixed.cos r s) ∧
        cos r s = if K ≤ 2 ^ 31 then .ok (Fixed.cos r s) else .error .overflow) ∧
      (r.natAbs ≤ 2 ^ 24 * s → s.log2 < 2 ^ 30 →
        sin r s = .ok (Fixed.sin r s) ∧ cos r s = .ok (Fixed.cos r s)) ∧
      (2 ^ 32 * s ≤ r.natAbs → sin r s = .error .overflow ∧ cos r s = .error .overflow)) ∧
    (∀ (r : Int) (w : Nat), w + 8 < indexLimit →
      (∃ K sum, Sums (expStep r (pow10 (w + 8))) wholePart 1 (pow10 (w + 8)) (pow10 (w + 8)) K sum ∧
        exp r w = if K < 2 ^ 64 then .ok (squared (pow10 (w + 8)) sum) else .error .overflow) ∧
      (r.natAbs ≤ 2 ^ 64 * Keypad.pow10 w → w + 8 < powerLimit → exp r w = .ok (Fixed.exp r w))) ∧
    (∀ (z : Int) (s : Nat) (hz : z.natAbs < s),
      (∃ K, Sums (artanhStep z s) oddPart 1 z z K (Fixed.artanh z s hz.le) ∧
        artanh z s = if K < 2 ^ 63 then .ok (Fixed.artanh z s hz.le) else .error .overflow) ∧
      (2 * z.natAbs ≤ s ∧ s.log2 < 2 ^ 62 ∨ s ≤ 2 ^ 63 →
        artanh z s = .ok (Fixed.artanh z s hz.le))) ∧
    (∀ x : Decimal, IsHeld x → 0 < x.mantissa → ∃ m t j, LogarithmRun x m t j) ∧
    (∀ x : Decimal, IsHeld x → ∃ steep t K sum, ArctangentRun x steep t K sum) := by
  refine ⟨fun r s hs => ⟨exists_sin_eq r s, exists_cos_eq r s, ?_, ?_⟩, fun r w hw => ⟨?_, exp_eq⟩,
    fun z s hz => ⟨exists_artanh_eq hz.le, ?_⟩, fun x => exists_logarithmRun,
    fun x => exists_arctangentRun⟩
  · exact fun hr hlog => ⟨sin_eq hr hlog, cos_eq hr hlog⟩
  · exact fun hr => ⟨sin_eq_overflow hs hr, cos_eq_overflow hs hr⟩
  · obtain ⟨K, sum, hsums, -, hexp⟩ := exists_exp_eq r hw
    exact ⟨K, sum, hsums, hexp⟩
  · rintro (⟨hsmall, hlog⟩ | hscale)
    · exact artanh_eq hsmall hlog
    · exact artanh_eq_of_scale hz.le hscale

/-- An angle a hundred times the scale, whose terms grow at first, and one beyond what 64 bits
count; an exponential of a thousand; a tangent that is cut just below one; and a decimal with more
digits than are kept. -/
theorem loops_end_at_extremes :
    (0 < 100 ∧ Int.natAbs (-12345) ≤ 2 ^ 24 * 100 ∧ Nat.log2 100 < 2 ^ 30 ∧
      sin (-12345) 100 = .ok (Fixed.sin (-12345) 100)) ∧
    (0 < 1 ∧ 2 ^ 32 * 1 ≤ Int.natAbs (2 ^ 32) ∧ sin (2 ^ 32) 1 = .error .overflow) ∧
    (20 + 8 < indexLimit ∧ 20 + 8 < powerLimit ∧
      Int.natAbs (10 ^ 23) ≤ 2 ^ 64 * Keypad.pow10 20 ∧
      exp (10 ^ 23) 20 = .ok (Fixed.exp (10 ^ 23) 20)) ∧
    (∃ hz : Int.natAbs (-99) < 100, 100 ≤ 2 ^ 63 ∧
      artanh (-99) 100 = .ok (Fixed.artanh (-99) 100 hz.le)) ∧
    (IsHeld ⟨10 ^ 60 - 1, 5⟩ ∧ 0 < (10 : Int) ^ 60 - 1 ∧
      (∃ m t j, LogarithmRun ⟨10 ^ 60 - 1, 5⟩ m t j) ∧
      ∃ steep t K sum, ArctangentRun ⟨10 ^ 60 - 1, 5⟩ steep t K sum) := by
  obtain ⟨hcircular, hexp, hartanh, hln, hatan⟩ := loops_end
  have hsmall : Int.natAbs (-12345) ≤ 2 ^ 24 * 100 := by decide
  have hlog : Nat.log2 100 < 2 ^ 30 := by decide
  have hlarge : 2 ^ 32 * 1 ≤ Int.natAbs (2 ^ 32) := by decide
  have hthousand : Int.natAbs (10 ^ 23) ≤ 2 ^ 64 * Keypad.pow10 20 := by decide
  have hbelow : Int.natAbs (-99) < 100 := by decide
  have hcount : count ((10 : Int) ^ 60 - 1).natAbs ≤ 60 := count_le (by decide) (by decide)
  have hheld : IsHeld ⟨10 ^ 60 - 1, 5⟩ := ⟨⟨by decide, by decide⟩, hcount.trans (by decide)⟩
  refine ⟨⟨by decide, hsmall, hlog, ?_⟩, ⟨by decide, hlarge, ?_⟩,
    ⟨by decide, by decide, hthousand, ?_⟩, ⟨hbelow, by decide, ?_⟩, hheld, by decide, ?_, ?_⟩
  · exact ((hcircular (-12345) 100 (by decide)).2.2.1 hsmall hlog).1
  · exact ((hcircular (2 ^ 32) 1 (by decide)).2.2.2 hlarge).1
  · exact (hexp (10 ^ 23) 20 (by decide)).2 hthousand (by decide)
  · exact (hartanh (-99) 100 hbelow).2 (.inr (by decide))
  · exact hln ⟨10 ^ 60 - 1, 5⟩ hheld (by decide)
  · exact hatan ⟨10 ^ 60 - 1, 5⟩ hheld

/-- None of these loops comes to a part that is zero before 64 bits are too few for its index or for
the divisor made of it. -/
theorem loops_overflow :
    sin (2 ^ 32) 1 = .error .overflow ∧
    cos (2 ^ 32) 1 = .error .overflow ∧
    exp (2 ^ 74) 0 = .error .overflow ∧
    (Int.natAbs ((2 ^ 66 : Nat) - 1) < 2 ^ 66 ∧
      artanh ((2 ^ 66 : Nat) - 1) (2 ^ 66) = .error .overflow) := by
  have hlarge : 2 ^ 32 * 1 ≤ Int.natAbs (2 ^ 32) := by decide
  refine ⟨sin_eq_overflow (by decide) hlarge, cos_eq_overflow (by decide) hlarge, ?_, by decide, ?_⟩
  · exact exp_eq_overflow (by decide)
  · exact artanh_pred_eq_overflow le_rfl

end Keypad.Word
