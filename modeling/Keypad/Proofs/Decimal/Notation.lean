import Keypad.Decimal.Notation
import Keypad.Proofs.Literal
import Keypad.Proofs.Decimal.Canonical

/-!
# Displayed decimals are read back

The text of a decimal has its digits, possibly with zeros on one side and a point between them, and
in the exponential form an exponent. All of its forms are read to the same value: that of the
rounded decimal whose digits are written.
-/

namespace Keypad

open Digits

/-! ## Digits in a row -/

theorem length_toDigits (n : Nat) : (Nat.toDigits 10 n).length = count n := by
  apply le_antisymm
  · rw [Nat.length_toDigits_le_iff (by decide) (count_pos n)]
    exact lt_pow10_count n
  · apply count_le Nat.length_toDigits_pos
    exact (Nat.length_toDigits_le_iff (by decide) Nat.length_toDigits_pos).1 le_rfl

namespace Literal

theorem toDigits_eq (n : Nat) : Nat.toDigits 10 n = (toString n).toList := by
  rw [Nat.toString_eq_repr, Nat.toList_repr]

theorem value_eq (cs : List Char) : value cs = Nat.ofDigitChars 10 cs 0 :=
  Nat.ofDigitChars_eq_foldl.symm

theorem value_append_zeros (cs : List Char) (k : Nat) :
    value (cs ++ List.replicate k '0') = value cs * pow10 k := by
  rw [value_eq, value_eq, Nat.ofDigitChars_append, Nat.ofDigitChars_replicate_zero, Nat.mul_comm]
  rfl

theorem value_zeros_append (k : Nat) (cs : List Char) :
    value (List.replicate k '0' ++ cs) = value cs := by
  rw [value_eq, value_eq, Nat.ofDigitChars_append, Nat.ofDigitChars_replicate_zero, Nat.mul_zero]

theorem allDigits_toDigits (n : Nat) : allDigits (Nat.toDigits 10 n) := by
  rw [toDigits_eq]
  exact allDigits_toString n

theorem value_toDigits (n : Nat) : value (Nat.toDigits 10 n) = n := by
  rw [toDigits_eq, value_toString]

theorem allDigits_append {cs ds : List Char} (hcs : allDigits cs) (hds : allDigits ds) :
    allDigits (cs ++ ds) := by
  rw [allDigits, List.all_append, Bool.and_eq_true]
  exact ⟨hcs, hds⟩

theorem allDigits_replicate (k : Nat) : allDigits (List.replicate k '0') := by
  simp [allDigits]

end Literal

namespace Decimal

open Literal

variable {d : Decimal} {n : Nat} {e : Int}

/-! ## Positional texts -/

/-- Digits with a point, and with zeros in front if there are too few of them, are read as the
digits without the point. -/
theorem base?_positional_of_neg {digits : List Char} (hdigits : allDigits digits) (he : e < 0) :
    base? (positional digits e) = some (Literal.value digits, e.natAbs) := by
  rw [positional, if_neg (not_le.2 he)]
  dsimp only
  split
  · next hlt =>
    generalize hk : digits.length - e.natAbs = k
    have hlength : (digits.drop k).length = e.natAbs := by
      rw [List.length_drop]
      omega
    have hsplit := List.take_append_drop k digits
    have hboth : allDigits (digits.take k ++ digits.drop k) := by rwa [hsplit]
    rw [allDigits, List.all_append, Bool.and_eq_true] at hboth
    rw [base?_point hboth.1 hboth.2 _, hsplit, hlength]
    rw [hsplit]
    rintro rfl
    exact absurd hlt (Nat.not_lt_zero _)
  · next hge =>
    have hzeros := allDigits_append (allDigits_replicate (e.natAbs - digits.length)) hdigits
    have hlength : (List.replicate (e.natAbs - digits.length) '0' ++ digits).length = e.natAbs := by
      rw [List.length_append, List.length_replicate]
      omega
    have hwhole : allDigits ['0'] := rfl
    refine (base?_point hwhole hzeros (by simp)).trans ?_
    rw [hlength, ← List.append_assoc]
    have hone : ['0'] ++ List.replicate (e.natAbs - digits.length) '0'
        = List.replicate (e.natAbs - digits.length + 1) '0' := rfl
    rw [hone, value_zeros_append]

/-- Without an exponent, a text is digits with at most one point, for the value of the decimal. -/
theorem base?_positional (n : Nat) (e : Int) : ∃ (m : Nat) (places : Nat),
    base? (positional (Nat.toDigits 10 n) e) = some (m, places) ∧ places ≤ e.natAbs ∧
      fraction m (-places) = fraction n e := by
  have hdigits := allDigits_toDigits n
  have hvalue := value_toDigits n
  rcases lt_or_ge e 0 with he | he
  · have hexponent : -(e.natAbs : Int) = e := by omega
    refine ⟨n, e.natAbs, ?_, Nat.le_refl _, by rw [hexponent]⟩
    rw [base?_positional_of_neg hdigits he, hvalue]
  · have hzeros := allDigits_append hdigits (allDigits_replicate e.toNat)
    have hne : Nat.toDigits 10 n ≠ [] := Nat.toDigits_ne_nil
    refine ⟨n * pow10 e.toNat, 0, ?_, Nat.zero_le _, ?_⟩
    · rw [positional, if_pos he, base?_of_allDigits hzeros (by simp [hne]), value_append_zeros,
        hvalue]
    · have hexponent : -((0 : Nat) : Int) = e - e.toNat := by omega
      rw [hexponent, Nat.cast_mul, fraction_mul_pow10]

theorem isMark_of_mem_positional {c : Char} (hc : c ∈ positional (Nat.toDigits 10 n) e) :
    IsMark c := by
  obtain ⟨m, places, hbase, -⟩ := base?_positional n e
  exact (isBase_of_base? hbase).2.1 c hc

theorem parts?_positional (n : Nat) {e : Int} (he : InWord (-(e.natAbs : Int))) :
    ∃ (m : Nat) (f : Int), parts? (positional (Nat.toDigits 10 n) e) = some (m, f) ∧
      fraction m f = fraction n e := by
  obtain ⟨m, places, hbase, hle, hvalue⟩ := base?_positional n e
  refine ⟨m, -places, ?_, hvalue⟩
  have hno : 'E' ∉ positional (Nat.toDigits 10 n) e := fun hmem =>
    absurd (isMark_of_mem_positional hmem) (by decide)
  have hword : InWord (-places) := by
    rw [InWord] at he ⊢
    omega
  rw [parts?, cut_eq_none hno, hbase]
  simp only [Option.map_some, clampExponent_eq hword]

/-! ## Exponential texts -/

/-- The exponential text has one digit before its point, and the exponent with both signs. -/
theorem exists_exponential (n : Nat) (e : Int) : ∃ base : List Char,
    exponential (Nat.toDigits 10 n) e =
      base ++ 'e' :: (if e < 0 then '-' else '+') :: (toString e.natAbs).toList ∧
    base ≠ [] ∧ base? base = some (n, count n - 1) := by
  have hdigits := allDigits_toDigits n
  have hvalue := value_toDigits n
  have hlength := length_toDigits n
  have hne : Nat.toDigits 10 n ≠ [] := Nat.toDigits_ne_nil
  rw [exponential, toDigits_eq e.natAbs]
  generalize Nat.toDigits 10 n = digits at *
  cases digits with
  | nil => exact absurd rfl hne
  | cons c rest =>
    cases rest with
    | nil =>
      refine ⟨[c], rfl, by simp, ?_⟩
      rw [base?_of_allDigits hdigits hne, hvalue, ← hlength]
      rfl
    | cons c' rest =>
      obtain ⟨hc, hrest⟩ : allDigits [c] ∧ allDigits (c' :: rest) := by
        simpa [allDigits] using hdigits
      refine ⟨[c] ++ '.' :: c' :: rest, rfl, by simp, ?_⟩
      rw [base?_point hc hrest (by simp), List.singleton_append, hvalue, ← hlength]
      rfl

theorem exponent?_skip_plus (e : Int) :
    exponent? (skip '+' ((if e < 0 then '-' else '+') :: (toString e.natAbs).toList)) =
      some (clampExponent e) := by
  rw [← exponent?_toString, toList_toString_int]
  split <;> rfl

theorem ne_e_of_isMark {c : Char} (h : IsMark c) : (c != 'e' && c != 'E') = true := by
  rw [Bool.and_eq_true, bne_iff_ne, bne_iff_ne]
  constructor <;> rintro rfl <;> exact absurd h (by decide)

theorem unsignedParts?_of_isMark {cs : List Char} (h : ∀ c ∈ cs, IsMark c) :
    unsignedParts? cs = parts? cs := by
  have hall : ∀ c ∈ cs, (c != 'e' && c != 'E') = true := fun c hc => ne_e_of_isMark (h c hc)
  rw [unsignedParts?, List.takeWhile_eq_self_iff.2 hall, List.dropWhile_eq_nil_iff.2 hall]

theorem unsignedParts?_exponential (n : Nat) (e : Int) :
    unsignedParts? (exponential (Nat.toDigits 10 n) e) =
      some (n, clampExponent (clampExponent e - (count n - 1 : Nat))) := by
  obtain ⟨base, htext, hne, hbase⟩ := exists_exponential n e
  have hmark := (isBase_of_base? hbase).2.1
  have hall : ∀ c ∈ base, (c != 'e' && c != 'E') = true := fun c hc => ne_e_of_isMark (hmark c hc)
  have hno : 'E' ∉ base := fun hmem => absurd (hmark 'E' hmem) (by decide)
  have hexponent := exponent?_skip_plus e
  rw [htext, unsignedParts?, List.takeWhile_append_of_pos hall, List.dropWhile_append_of_pos hall]
  generalize (if e < 0 then '-' else '+') :: (toString e.natAbs).toList = tail at *
  have htake : ('e' :: tail).takeWhile (fun c => c != 'e' && c != 'E') = [] := rfl
  have hdrop : ('e' :: tail).dropWhile (fun c => c != 'e' && c != 'E') = 'e' :: tail := rfl
  rw [htake, hdrop, List.append_nil]
  cases base with
  | nil => exact absurd rfl hne
  | cons c rest =>
    simp only [List.isEmpty_cons, Bool.false_eq_true, if_false]
    rw [parts?, cut_append hno]
    simp only [hexponent, hbase]
    rfl

/-! ## Displayed texts -/

/-- The displayed text of a rounded decimal, without its sign. -/
def body (r : Decimal) : List Char :=
  let digits := Nat.toDigits 10 r.mantissa.natAbs
  if isPlain r.leading then positional digits r.exponent else exponential digits r.leading

theorem display_eq (hd : d.isZero = false) :
    let r := d.significant displayedDigits
    d.display = String.ofList (if r.isNegative then '-' :: r.body else r.body) := by
  simp only [display, hd, Bool.false_eq_true, if_false, body]

theorem mem_body {r : Decimal} {c : Char} (hc : c ∈ r.body) :
    IsMark c ∨ c ∈ ['e', '+', '-'] := by
  simp only [body] at hc
  split at hc
  · exact .inl (isMark_of_mem_positional hc)
  · obtain ⟨base, htext, -, hbase⟩ := exists_exponential r.mantissa.natAbs r.leading
    rw [htext, List.mem_append, List.mem_cons, List.mem_cons] at hc
    rcases hc with hc | rfl | rfl | hc
    · exact .inl ((isBase_of_base? hbase).2.1 c hc)
    · exact .inr (by simp)
    · right
      split <;> simp
    · exact .inl (.inl (isDigit_of_toString_nat hc))

theorem isMark_of_head?_body {r : Decimal} {c : Char} (hc : r.body.head? = some c) : IsMark c := by
  simp only [body] at hc
  split at hc
  · exact isMark_of_mem_positional (List.mem_of_mem_head? hc)
  · obtain ⟨base, htext, hne, hbase⟩ := exists_exponential r.mantissa.natAbs r.leading
    rw [htext, List.head?_append_of_ne_nil _ hne] at hc
    exact (isBase_of_base? hbase).2.1 c (List.mem_of_mem_head? hc)

theorem unsignedParts?_body {r : Decimal} (h : r.IsCanonical) : ∃ (n : Nat) (f : Int),
    unsignedParts? r.body = some (n, f) ∧ fraction n f = fraction r.mantissa.natAbs r.exponent := by
  have hexponent := h.natAbs_exponent_le
  have hleading := h.natAbs_leading_le
  simp only [body]
  split
  · obtain ⟨m, f, hparts, hvalue⟩ :=
      parts?_positional r.mantissa.natAbs (e := r.exponent) (by rw [InWord]; omega)
    refine ⟨m, f, ?_, hvalue⟩
    rw [unsignedParts?_of_isMark fun c hc => isMark_of_mem_positional hc, hparts]
  · next hplain =>
    have hzero : r.isZero = false := by
      by_contra hz
      rw [leading, if_pos (by simpa using hz)] at hplain
      exact hplain rfl
    have hpos := count_pos r.mantissa.natAbs
    have hlast : r.leading - (count r.mantissa.natAbs - 1 : Nat) = r.exponent := by
      rw [leading_of_ne_zero hzero]
      omega
    refine ⟨r.mantissa.natAbs, r.exponent, ?_, rfl⟩
    have hword : InWord r.leading := by
      rw [InWord]
      omega
    rw [unsignedParts?_exponential, clampExponent_eq hword, hlast, clampExponent_eq]
    rw [InWord]
    omega

theorem isBlank_of_displayed {c : Char} (hc : IsMark c ∨ c ∈ ['e', '+', '-']) :
    Text.isBlank c = false := by
  rcases hc with (hdigit | rfl) | hmark
  · exact Text.isBlank_of_isDigit hdigit
  · decide
  · have hmarks : ['e', '+', '-'].all fun c => !Text.isBlank c := by decide
    simpa using List.all_eq_true.1 hmarks c hmark

theorem neg_scaled_natAbs {m : Int} (h : m < 0) (e : Int) : -scaled m.natAbs e = scaled m e := by
  have hm : m = -(m.natAbs : Int) := by omega
  rw [scaled, scaled, ← round_neg, ← hm]

/-- A canonical decimal, with the sign that its text has, is read as itself. -/
theorem read?_body {r : Decimal} (h : r.IsCanonical) :
    read? (String.ofList (if r.isNegative then '-' :: r.body else r.body)) = some r := by
  obtain ⟨n, f, hparts, hvalue⟩ := unsignedParts?_body h
  have hscaled := scaled_congr hvalue
  have hhead (c : Char) (hc : ¬IsMark c) : r.body.head? ≠ some c := fun hhead =>
    hc (isMark_of_head?_body hhead)
  rw [read?, String.toList_ofList, isNegative]
  by_cases hneg : r.mantissa < 0
  · have hblank : ∀ c ∈ '-' :: r.body, Text.isBlank c = false :=
      List.forall_mem_cons.2 ⟨by decide, fun c hc => isBlank_of_displayed (mem_body hc)⟩
    rw [if_pos (by simpa using hneg), Text.trim_eq_self hblank]
    simp only [hparts, Option.map_some, hscaled, neg_scaled_natAbs hneg, h.scaled_eq]
  · have hmantissa : (r.mantissa.natAbs : Int) = r.mantissa := by omega
    rw [if_neg (by simpa using hneg),
      Text.trim_eq_self fun c hc => isBlank_of_displayed (mem_body hc)]
    split
    · next cs hcs => exact absurd (by rw [hcs]; rfl) (hhead '-' (by decide))
    · rw [skip_of_head?_ne (hhead '+' (by decide)), hparts]
      simp only [Option.map_some, hscaled, hmantissa, h.scaled_eq]

/-- Every canonical decimal is read back from its display, rounded to the displayed digits. -/
theorem read?_display (h : d.IsCanonical) :
    read? d.display = some (d.significant displayedDigits) := by
  cases hd : d.isZero with
  | true =>
    obtain rfl : d = zero := h.isReduced.eq_zero (Quantity.value_of_isZero hd)
    decide +kernel
  | false =>
    rw [display_eq hd]
    exact read?_body (isCanonical_round _ _ (by decide))

theorem mem_display {c : Char} (hc : c ∈ d.display.toList) : IsMark c ∨ c ∈ ['e', '+', '-'] := by
  cases hd : d.isZero with
  | true =>
    rw [display, if_pos hd] at hc
    exact .inl (.inl (isDigit_of_toString_nat (n := 0) hc))
  | false =>
    rw [display_eq hd, String.toList_ofList] at hc
    split at hc
    · rcases List.mem_cons.1 hc with rfl | hc
      · exact .inr (by simp)
      · exact mem_body hc
    · exact mem_body hc

end Decimal

end Keypad
