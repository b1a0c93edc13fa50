import Keypad.Fixed.Stored
import Keypad.Proofs.Fixed.Series

/-!
# Stored constants are those computed anew

The odd series with more places differs, once these are cut off, from the series with fewer by less
than one unit for each term. The ten spare places take that up, unless they are so near to a row of
zeros or nines that a unit is carried into the places kept. They are nowhere so near for π with up
to 702 places and for the logarithms with up to 114. So what is cut out of a stored constant is what
computing it with so many places would give, and the answers do not depend on what was asked before.
-/

namespace Keypad.Fixed

open Digits

variable {alternating : Bool} {q s m k K : Nat}

/-! ## Series with more places -/

theorem inverseSeries_eq_zero (h : inverseTerm q s k = 0) :
    inverseSeries alternating q s k = 0 := by
  rw [inverseSeries]
  simp only [h, if_true]

/-- The term with its sign. -/
def signedTerm (alternating : Bool) (q s k : Nat) : Int :=
  if alternating && k % 2 == 1 then -(inverseTerm q s k : Int) else inverseTerm q s k

/-- Past the first term that is zero there are only such terms. -/
theorem inverseSeries_eq (hq : 0 < q) (alternating : Bool) (s k : Nat) :
    inverseSeries alternating q s k
      = signedTerm alternating q s k + inverseSeries alternating q s (k + 1) := by
  by_cases hzero : inverseTerm q s k = 0
  · have hnext : inverseTerm q s (k + 1) = 0 :=
      Nat.eq_zero_of_le_zero (hzero ▸ inverseTerm_succ_le hq s k)
    rw [inverseSeries_eq_zero hzero, inverseSeries_eq_zero hnext, signedTerm, hzero]
    split <;> rfl
  · rw [inverseSeries]
    simp only [hzero, if_false]
    rfl

theorem natAbs_signedTerm_mul_sub_le (hq : 0 < q) (hm : 0 < m) (alternating : Bool) (s k : Nat) :
    (signedTerm alternating q (s * m) k - m * signedTerm alternating q s k).natAbs ≤ m := by
  have hdivisor : 0 < Nat.pow q (2 * k + 1) * (2 * k + 1) :=
    Nat.mul_pos (Nat.pow_pos hq) (Nat.succ_pos _)
  have hlow : m * inverseTerm q s k ≤ inverseTerm q (s * m) k := by
    rw [Nat.mul_comm s]
    exact Nat.mul_div_le_mul_div_assoc m s _
  have hhigh : inverseTerm q (s * m) k < m * inverseTerm q s k + m := by
    rw [inverseTerm, Nat.div_lt_iff_lt_mul hdivisor, ← Nat.mul_succ, Nat.mul_comm s, Nat.mul_assoc]
    refine Nat.mul_lt_mul_of_pos_left ?_ hm
    exact (Nat.div_lt_iff_lt_mul hdivisor).1 (Nat.lt_succ_self _)
  have hterm : (m * inverseTerm q s k : Nat) = (m : Int) * inverseTerm q s k := by push_cast; rfl
  rw [signedTerm, signedTerm]
  split
  · rw [mul_neg]
    omega
  · omega

/-- A series with a scale `m` times as large, against the series that it refines. -/
theorem natAbs_inverseSeries_mul_sub_le (alternating : Bool) (hq : 0 < q) (hm : 0 < m)
    (hend : inverseTerm q (s * m) (k + K) = 0) :
    (inverseSeries alternating q (s * m) k - m * inverseSeries alternating q s k).natAbs
      ≤ m * K := by
  induction K generalizing k with
  | zero =>
    have hcoarse : inverseTerm q s k = 0 := by
      refine Nat.eq_zero_of_le_zero ((Nat.div_le_div_right ?_).trans hend.le)
      exact Nat.le_mul_of_pos_right s hm
    have hfine : inverseTerm q (s * m) k = 0 := hend
    rw [inverseSeries_eq_zero hfine, inverseSeries_eq_zero hcoarse]
    simp
  | succ K ih =>
    have hterm := natAbs_signedTerm_mul_sub_le hq hm alternating s k
    have hrest := ih (k := k + 1) (by rwa [Nat.add_right_comm])
    rw [inverseSeries_eq hq, inverseSeries_eq hq alternating s, mul_add, Nat.mul_succ]
    omega

/-! ## Constants with more places -/

/-- Of a constant with more places those that are cut off leave the constant with fewer. -/
def Truncates (compute : Nat → Int) (limit : Nat) : Prop :=
  ∀ p q, p ≤ q → q ≤ limit → (compute q).tdiv (pow10 (q - p)) = compute p

/-- Two series, each with a factor, before the spare places are cut off. -/
def combination (alternating : Bool) (a : Int) (q : Nat) (b : Int) (r p : Nat) : Int :=
  a * inverseSeries alternating q (pow10 (p + spare)) 0
    + b * inverseSeries alternating r (pow10 (p + spare)) 0

theorem natAbs_combination_sub_le {a b : Int} {r p limit K L : Nat} (hq : 0 < q) (hr : 0 < r)
    (hK : inverseTerm q (pow10 (limit + spare)) K = 0)
    (hL : inverseTerm r (pow10 (limit + spare)) L = 0) (hp : p ≤ limit) :
    (combination alternating a q b r limit
        - pow10 (limit - p) * combination alternating a q b r p).natAbs
      ≤ pow10 (limit - p) * (a.natAbs * K + b.natAbs * L) := by
  have hscale : pow10 (limit + spare) = pow10 (p + spare) * pow10 (limit - p) := by
    rw [← pow10_add]
    congr 1
    omega
  rw [hscale, ← Nat.zero_add K] at hK
  rw [hscale, ← Nat.zero_add L] at hL
  have hfirst := Nat.mul_le_mul_left a.natAbs (natAbs_inverseSeries_mul_sub_le
    alternating hq (pow10_pos _) hK)
  have hsecond := Nat.mul_le_mul_left b.natAbs (natAbs_inverseSeries_mul_sub_le
    alternating hr (pow10_pos _) hL)
  rw [← Int.natAbs_mul] at hfirst hsecond
  rw [combination, combination, hscale]
  generalize pow10 (limit - p) = m at *
  generalize inverseSeries alternating q (pow10 (p + spare) * m) 0 = A' at *
  generalize inverseSeries alternating r (pow10 (p + spare) * m) 0 = B' at *
  generalize inverseSeries alternating q (pow10 (p + spare)) 0 = A at *
  generalize inverseSeries alternating r (pow10 (p + spare)) 0 = B at *
  have hsplit : a * A' + b * B' - m * (a * A + b * B) = a * (A' - m * A) + b * (B' - m * B) := by
    ring
  rw [hsplit]
  refine ((Int.natAbs_add_le _ _).trans (Nat.add_le_add hfirst hsecond)).trans_eq ?_
  ring

/-- The spare digits of `n`, at every place, are farther than `error` from a row of zeros or
nines. -/
def Settled (error limit : Nat) (n : Int) : Prop :=
  0 ≤ n ∧ ∀ d < limit + 1, error ≤ n.toNat / pow10 d % pow10 spare ∧
    n.toNat / pow10 d % pow10 spare + error < pow10 spare

instance (error limit : Nat) (n : Int) : Decidable (Settled error limit n) :=
  inferInstanceAs (Decidable (_ ∧ ∀ d < limit + 1, _ ∧ _))

theorem tdiv_eq_of_near {x : Int} {n m error c : Nat}
    (hnear : ((n : Int) - m * x).natAbs ≤ m * error) (hm : 0 < m)
    (hlow : error ≤ n / m % c) (hhigh : n / m % c + error < c) : x.tdiv c = (n / m / c : Nat) := by
  have hcut := Nat.div_add_mod n m
  have hrest := Nat.mod_lt n hm
  have hdigits := Nat.div_add_mod (n / m) c
  generalize n / m = y at *
  have hbelow : (y : Int) - error ≤ x := by
    by_contra hless
    have hfactor := Int.mul_le_mul_of_nonneg_left (show x + 1 ≤ y - error by omega)
      (Int.natCast_nonneg m)
    rw [mul_add, mul_sub] at hfactor
    omega
  have habove : x ≤ y + error := by
    by_contra hmore
    have hfactor := Int.mul_le_mul_of_nonneg_left (show y + error + 1 ≤ x by omega)
      (Int.natCast_nonneg m)
    rw [mul_add, mul_add] at hfactor
    omega
  obtain ⟨x, rfl⟩ := Int.eq_ofNat_of_zero_le (show 0 ≤ x by omega)
  have hquotient : x / c = y / c := by
    refine Nat.div_eq_of_lt_le ?_ ?_
    · rw [Nat.mul_comm]
      omega
    · rw [Nat.succ_mul, Nat.mul_comm]
      omega
  exact congrArg Nat.cast hquotient

theorem truncates_of_settled {sum : Nat → Int} {error limit : Nat}
    (hsum : ∀ p ≤ limit, (sum limit - pow10 (limit - p) * sum p).natAbs ≤ pow10 (limit - p) * error)
    (hsettled : Settled error limit (sum limit)) :
    Truncates (fun p => (sum p).tdiv (pow10 spare)) limit := by
  obtain ⟨hnonneg, hdigits⟩ := hsettled
  obtain ⟨n, hn⟩ := Int.eq_ofNat_of_zero_le hnonneg
  rw [hn] at hsum hdigits
  rw [Int.toNat_natCast] at hdigits
  have hcut (p : Nat) (hp : p ≤ limit) :
      (sum p).tdiv (pow10 spare) = (n / pow10 (limit - p) / pow10 spare : Nat) := by
    obtain ⟨hlow, hhigh⟩ := hdigits (limit - p) (Nat.lt_succ_of_le (Nat.sub_le _ _))
    exact tdiv_eq_of_near (hsum p hp) (pow10_pos _) hlow hhigh
  intro p q hpq hq
  have hplaces : pow10 (limit - p) = pow10 (limit - q) * pow10 (q - p) := by
    rw [← pow10_add]
    congr 1
    omega
  dsimp only
  rw [hcut q hq, hcut p (hpq.trans hq), hplaces]
  refine congrArg Nat.cast (?_ : _ / pow10 (q - p) = _)
  rw [← Nat.div_div_eq_div_mul, Nat.div_div_eq_div_mul _ _ (pow10 (q - p)),
    Nat.mul_comm (pow10 spare), ← Nat.div_div_eq_div_mul]

theorem truncates_combination {a b : Int} {r limit K L : Nat} (hq : 0 < q) (hr : 0 < r)
    (h : inverseTerm q (pow10 (limit + spare)) K = 0 ∧ inverseTerm r (pow10 (limit + spare)) L = 0 ∧
      Settled (a.natAbs * K + b.natAbs * L) limit (combination alternating a q b r limit)) :
    Truncates (fun p => (combination alternating a q b r p).tdiv (pow10 spare)) limit :=
  truncates_of_settled (fun _ hp => natAbs_combination_sub_le hq hr h.1 h.2.1 hp) h.2.2

/-- The places up to which the constants are stored, and the numbers of terms of their series. -/
theorem constants_settled :
    (inverseTerm 5 (pow10 (702 + spare)) 507 = 0 ∧ inverseTerm 239 (pow10 (702 + spare)) 149 = 0 ∧
      Settled (16 * 507 + 4 * 149) 702 (combination true 16 5 (-4) 239 702)) ∧
    (inverseTerm 3 (pow10 (114 + spare)) 127 = 0 ∧ inverseTerm 9 (pow10 (114 + spare)) 64 = 0 ∧
      Settled (2 * 127 + 0 * 64) 114 (combination false 2 3 0 9 114) ∧
      Settled (6 * 127 + 2 * 64) 114 (combination false 6 3 2 9 114)) := by
  decide +kernel

theorem truncates_pi : Truncates pi 702 := by
  have hpi : pi = fun p => (combination true 16 5 (-4) 239 p).tdiv (pow10 spare) := by
    funext p
    rw [combination, neg_mul, ← sub_eq_add_neg]
    rfl
  rw [hpi]
  exact truncates_combination (by decide) (by decide) constants_settled.1

theorem truncates_ln2 : Truncates ln2 114 := by
  obtain ⟨hK, hL, hsettled, -⟩ := constants_settled.2
  have hln2 : ln2 = fun p => (combination false 2 3 0 9 p).tdiv (pow10 spare) := by
    funext p
    rw [combination, zero_mul, add_zero]
    rfl
  rw [hln2]
  exact truncates_combination (by decide) (by decide) ⟨hK, hL, hsettled⟩

theorem truncates_ln10 : Truncates ln10 114 := by
  obtain ⟨hK, hL, -, hsettled⟩ := constants_settled.2
  exact truncates_combination (by decide) (by decide) ⟨hK, hL, hsettled⟩

/-! ## Answers from what is stored -/

variable {compute : Nat → Int} {limit places : Nat} {stored : Option Entry}

/-- What is stored has been computed, with places up to the limit. -/
def Valid (compute : Nat → Int) (limit : Nat) (stored : Option Entry) : Prop :=
  ∀ e ∈ stored, e.value = compute e.places ∧ e.places ≤ limit

theorem valid_none (compute : Nat → Int) (limit : Nat) : Valid compute limit none := nofun

/-- One question: the answer is the constant computed anew, and what is stored stays valid. -/
theorem lookUp_run (h : Truncates compute limit) (hstored : Valid compute limit stored)
    (hplaces : places + places / 2 ≤ limit) :
    ∃ stored', (lookUp compute places).run stored = (compute places, stored') ∧
      Valid compute limit stored' := by
  cases hkept : stored.filter (places ≤ ·.places) with
  | some e =>
    obtain ⟨he, hle⟩ := Option.filter_eq_some_iff.1 hkept
    obtain ⟨hvalue, hlimit⟩ := hstored e he
    refine ⟨stored, ?_, hstored⟩
    have hanswer := h places e.places (of_decide_eq_true hle) hlimit
    rw [← hvalue] at hanswer
    simp only [lookUp, StateT.run_bind, StateT.run_get, pure_bind, hkept, hanswer]
    rfl
  | none =>
    have hknown : (stored.map Entry.places).getD 0 ≤ places := by
      cases stored with
      | none => exact Nat.zero_le _
      | some e =>
        have hless := Option.filter_eq_none_iff.1 hkept e rfl
        exact (Nat.not_le.1 fun hle => hless (decide_eq_true hle)).le
    have htarget : targetPlaces stored places ≤ limit := by
      rw [targetPlaces]
      omega
    have hanswer := h places (targetPlaces stored places) (Nat.le_max_left _ _) htarget
    refine ⟨some ⟨targetPlaces stored places, compute (targetPlaces stored places)⟩, ?_, ?_⟩
    · simp only [lookUp, StateT.run_bind, StateT.run_get, pure_bind, hkept]
      rw [← hanswer]
      rfl
    · intro e he
      cases he
      exact ⟨rfl, htarget⟩

/-- Any number of questions, one after the other, from an empty store on. -/
theorem mapM_lookUp (h : Truncates compute limit) {requests : List Nat}
    (hrequests : ∀ p ∈ requests, p + p / 2 ≤ limit) :
    ((requests.mapM (lookUp compute)).run none).1 = requests.map compute := by
  have hrun (stored : Option Entry) (hstored : Valid compute limit stored) :
      ((requests.mapM (lookUp compute)).run stored).1 = requests.map compute := by
    induction requests generalizing stored with
    | nil => rfl
    | cons p rest ih =>
      obtain ⟨hp, hrest⟩ := List.forall_mem_cons.1 hrequests
      obtain ⟨stored', hlookUp, hvalid⟩ := lookUp_run h hstored hp
      have hanswers := ih hrest stored' hvalid
      rw [List.mapM_cons, StateT.run_bind, hlookUp]
      exact congrArg (compute p :: ·) hanswers
  exact hrun none (valid_none _ _)

/-- The functions on decimals ask for π with at most as many places as the largest angle needs that
is reduced, and for the logarithms with at most twelve more than they work with. -/
theorem stored_constants_eq (requests : List Nat) :
    ((∀ p ∈ requests, p ≤ workDigits + maxAngleExponent.toNat + 4) →
      ((requests.mapM (lookUp pi)).run none).1 = requests.map pi) ∧
    ((∀ p ∈ requests, p ≤ workDigits + 12) →
      ((requests.mapM (lookUp ln2)).run none).1 = requests.map ln2 ∧
      ((requests.mapM (lookUp ln10)).run none).1 = requests.map ln10) := by
  have hangle : workDigits + maxAngleExponent.toNat + 4 = 468 := by decide
  have hlogarithm : workDigits + 12 = 76 := by decide
  rw [hangle, hlogarithm]
  refine ⟨fun h => mapM_lookUp truncates_pi fun p hp => ?_, fun h =>
    ⟨mapM_lookUp truncates_ln2 fun p hp => ?_, mapM_lookUp truncates_ln10 fun p hp => ?_⟩⟩
  · have hle := h p hp
    omega
  · have hle := h p hp
    omega
  · have hle := h p hp
    omega

end Keypad.Fixed
