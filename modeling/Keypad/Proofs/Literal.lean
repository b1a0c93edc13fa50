import Keypad.Token.Adjacency
import Keypad.Proofs.Decimal.Rounding
import Keypad.Decimal.Literal
import Mathlib.Data.List.Basic
import Mathlib.Data.List.TakeWhile

/-!
# The shape of readable literals

A literal that can be read is digits and points, possibly followed by an `E`, a minus sign and
digits. In particular it does not end in `E`. The text of an integer is such a literal, and is read
back to it.
-/

namespace Keypad

theorem isDigit_of_toString_nat {n : Nat} {c : Char} (h : c ∈ (toString n).toList) :
    c.isDigit := by
  rw [Nat.toString_eq_repr, Nat.toList_repr] at h
  exact Nat.isDigit_of_mem_toDigits (by decide) (by decide) h

theorem toString_nat_ne_nil (n : Nat) : (toString n).toList ≠ [] := by
  rw [Nat.toString_eq_repr, Nat.toList_repr]
  exact Nat.toDigits_ne_nil

theorem Text.isBlank_of_isDigit {c : Char} (h : c.isDigit) : isBlank c = false := by
  obtain ⟨hlow, hhigh⟩ := Char.isDigit_iff_toNat.1 h
  have hlow' : 48 ≤ c.toNat := hlow
  have hhigh' : c.toNat ≤ 57 := hhigh
  simp only [isBlank, blankRanges, List.any_cons, List.any_nil, Bool.or_eq_false_iff,
    Bool.and_eq_false_iff, decide_eq_false_iff_not, and_true]
  omega

/-- A text without blanks keeps its two ends. -/
theorem Text.trim_eq_self {cs : List Char} (h : ∀ c ∈ cs, isBlank c = false) : trim cs = cs := by
  have hkeep (ds : List Char) (hds : ∀ c ∈ ds, isBlank c = false) : ds.dropWhile isBlank = ds := by
    cases ds with
    | nil => rfl
    | cons d ds => exact List.dropWhile_cons_of_neg (by simp [hds d (List.mem_cons_self)])
  rw [trim, hkeep cs h, hkeep cs.reverse fun c hc => h c (List.mem_reverse.1 hc),
    List.reverse_reverse]

namespace Literal

/-- A character of the part of a literal before its exponent. -/
def IsMark (c : Char) : Prop := c.isDigit ∨ c = '.'

instance : DecidablePred IsMark :=
  fun c => inferInstanceAs (Decidable (c.isDigit = true ∨ c = '.'))

theorem eq_append_of_cut {c : Char} {cs b e : List Char} (h : cut c cs = some (b, e)) :
    cs = b ++ c :: e := by
  rw [cut] at h
  have hsplit := List.takeWhile_append_dropWhile (p := (· != c)) (l := cs)
  have hhead := List.head?_dropWhile_not (· != c) cs
  cases hd : cs.dropWhile (· != c) with
  | nil => simp [hd] at h
  | cons d rest =>
    simp only [hd, Option.some.injEq, Prod.mk.injEq] at h
    obtain ⟨rfl, rfl⟩ := h
    have hc : d = c := by simpa [hd] using hhead
    rw [hd, hc] at hsplit
    exact hsplit.symm

theorem cut_eq_none {c : Char} {cs : List Char} (h : c ∉ cs) : cut c cs = none := by
  have hdrop : cs.dropWhile (· != c) = [] := by
    rw [List.dropWhile_eq_nil_iff]
    intro d hd
    simpa using fun hdc : d = c => h (hdc ▸ hd)
  rw [cut, hdrop]

theorem cut_append {c : Char} {b : List Char} (h : c ∉ b) (e : List Char) :
    cut c (b ++ c :: e) = some (b, e) := by
  have hall : ∀ d ∈ b, (d != c) = true := fun d hd => by
    simpa using fun hdc : d = c => h (hdc ▸ hd)
  rw [cut, List.dropWhile_append_of_pos hall, List.takeWhile_append_of_pos hall]
  simp

theorem exists_digits_of_exponent? {cs : List Char} {k : Int} (h : exponent? cs = some k) :
    ∃ sign digits, cs = sign ++ digits ∧ (sign = [] ∨ sign = ['-']) ∧ digits ≠ [] ∧
      ∀ c ∈ digits, c.isDigit := by
  unfold exponent? at h
  dsimp only at h
  split at h
  · cases h
  · next hd =>
    simp only [Bool.or_eq_true, not_or, allDigits, List.isEmpty_iff] at hd
    refine ⟨if cs.head? = some '-' then ['-'] else [], skip '-' cs, ?_, ?_, hd.1, ?_⟩
    · cases cs with
      | nil => rfl
      | cons c cs => by_cases hc : c = '-' <;> simp [skip, hc]
    · split <;> simp
    · simpa using hd.2

/-- Digits with at most one point. -/
def IsBase (cs : List Char) : Prop := (∀ c ∈ cs, IsMark c) ∧ cs.count '.' ≤ 1

theorem count_point_of_digits {cs : List Char} (h : ∀ c ∈ cs, c.isDigit) : cs.count '.' = 0 := by
  apply List.count_eq_zero.2
  intro hmem
  exact absurd (h '.' hmem) (by decide)

theorem isBase_of_base? {cs : List Char} {r : Nat × Nat} (h : base? cs = some r) :
    cs ≠ [] ∧ IsBase cs := by
  rw [base?] at h
  cases hcut : cut '.' cs with
  | none =>
    simp only [hcut, Option.getD_none] at h
    split at h
    · cases h
    · next hd =>
      simp only [allDigits, List.isEmpty_nil, Bool.and_true, List.all_nil, Bool.not_true,
        Bool.or_false, Bool.or_eq_true, List.isEmpty_iff, Bool.not_eq_true', not_or,
        Bool.not_eq_false, List.all_eq_true] at hd
      have hcount := count_point_of_digits hd.2
      exact ⟨hd.1, fun c hc => .inl (hd.2 c hc), by omega⟩
  | some parts =>
    obtain ⟨whole, decimals⟩ := parts
    simp only [hcut, Option.getD_some] at h
    split at h
    · cases h
    · next hd =>
      simp only [allDigits, Bool.or_eq_true, Bool.not_eq_true', not_or, Bool.not_eq_false,
        List.all_eq_true] at hd
      obtain ⟨⟨-, hwhole⟩, hdecimals⟩ := hd
      have hcs := eq_append_of_cut hcut
      have hcount : cs.count '.' = 1 := by
        rw [hcs, List.count_append, List.count_cons_self, count_point_of_digits hwhole,
          count_point_of_digits hdecimals]
      refine ⟨by simp [hcs], fun c hc => ?_, by omega⟩
      rw [hcs] at hc
      rcases List.mem_append.1 hc with hc | hc
      · exact .inl (hwhole c hc)
      · rcases List.mem_cons.1 hc with hc | hc
        · exact .inr hc
        · exact .inl (hdecimals c hc)

/-- A readable literal has marks, or possibly none, before an exponent. -/
theorem shape_of_parts? {cs : List Char} {r : Nat × Int} (h : parts? cs = some r) :
    (cs ≠ [] ∧ IsBase cs) ∨
      ∃ base sign digits, cs = base ++ 'E' :: (sign ++ digits) ∧ IsBase base ∧
        (sign = [] ∨ sign = ['-']) ∧ digits ≠ [] ∧ ∀ c ∈ digits, c.isDigit := by
  rw [parts?] at h
  split at h
  · obtain ⟨q, hq, -⟩ := Option.map_eq_some_iff.1 h
    exact .inl (isBase_of_base? hq)
  · next e hcut =>
    obtain ⟨k, hk, -⟩ := Option.map_eq_some_iff.1 h
    obtain ⟨sign, digits, rfl, hs, hd, hall⟩ := exists_digits_of_exponent? hk
    exact .inr ⟨[], sign, digits, eq_append_of_cut hcut, ⟨by simp, by simp⟩, hs, hd, hall⟩
  · next b e _ hcut =>
    simp only [Option.bind_eq_bind, Option.bind_eq_some_iff] at h
    obtain ⟨k, hk, q, hq, -⟩ := h
    obtain ⟨sign, digits, rfl, hs, hd, hall⟩ := exists_digits_of_exponent? hk
    exact .inr ⟨b, sign, digits, eq_append_of_cut hcut, (isBase_of_base? hq).2, hs, hd, hall⟩

theorem mem_of_parts? {cs : List Char} {r : Nat × Int} (h : parts? cs = some r) {c : Char}
    (hc : c ∈ cs) : IsMark c ∨ c = 'E' ∨ c = '-' := by
  rcases shape_of_parts? h with ⟨-, hmarks, -⟩ | ⟨base, sign, digits, rfl, hbase, hs, -, hall⟩
  · exact .inl (hmarks c hc)
  · rcases List.mem_append.1 hc with hc | hc
    · exact .inl (hbase.1 c hc)
    · rcases List.mem_cons.1 hc with hc | hc
      · exact .inr (.inl hc)
      · rcases List.mem_append.1 hc with hc | hc
        · rcases hs with rfl | rfl
          · cases hc
          · exact .inr (.inr (List.mem_singleton.1 hc))
        · exact .inl (.inl (hall c hc))

/-- The last character of a readable literal is a digit or a point. -/
theorem isMark_of_getLast? {cs : List Char} {r : Nat × Int} (h : parts? cs = some r) {c : Char}
    (hc : cs.getLast? = some c) : IsMark c := by
  rcases shape_of_parts? h with ⟨-, hmarks, -⟩ | ⟨base, sign, digits, rfl, -, -, hd, hall⟩
  · exact hmarks c (List.mem_of_getLast? hc)
  · have hlast : digits.getLast? = some c := by
      rw [List.getLast?_append_of_ne_nil _ (by simp), ← List.singleton_append,
        ← List.append_assoc, List.getLast?_append_of_ne_nil _ hd] at hc
      exact hc
    exact .inl (hall c (List.mem_of_getLast? hlast))

theorem exponentBase?_of_parts? {text : String} (h : (parts? text.toList).isSome) :
    Token.exponentBase? text = none := by
  obtain ⟨r, hr⟩ := Option.isSome_iff_exists.1 h
  rw [Token.exponentBase?]
  apply if_neg
  intro hlast
  rcases isMark_of_getLast? hr hlast with hdigit | hpoint
  · exact absurd hdigit (by decide)
  · exact absurd hpoint (by decide)

/-- A readable literal has at most one point, one `E`, and no point behind the `E`. -/
theorem counts_of_parts? {cs : List Char} {r : Nat × Int} (h : parts? cs = some r) :
    cs.count '.' ≤ 1 ∧ cs.count 'E' ≤ 1 ∧ ∀ b e, cut 'E' cs = some (b, e) → '.' ∉ e := by
  have hmark {base : List Char} (hbase : IsBase base) : 'E' ∉ base := fun hmem => by
    rcases hbase.1 'E' hmem with hdigit | hpoint
    · exact absurd hdigit (by decide)
    · exact absurd hpoint (by decide)
  rcases shape_of_parts? h with ⟨-, hbase⟩ | ⟨base, sign, digits, rfl, hbase, hs, -, hall⟩
  · have hnone := hmark hbase
    refine ⟨hbase.2, by rw [List.count_eq_zero.2 hnone]; omega, fun b e hcut => ?_⟩
    rw [cut_eq_none hnone] at hcut
    cases hcut
  · have hnone := hmark hbase
    have hpoint : '.' ∉ sign ++ digits := by
      intro hmem
      rcases List.mem_append.1 hmem with hmem | hmem
      · rcases hs with rfl | rfl <;> simp at hmem
      · exact absurd (hall '.' hmem) (by decide)
    have hexponent : 'E' ∉ sign ++ digits := by
      intro hmem
      rcases List.mem_append.1 hmem with hmem | hmem
      · rcases hs with rfl | rfl <;> simp at hmem
      · exact absurd (hall 'E' hmem) (by decide)
    have hcount := hbase.2
    refine ⟨?_, ?_, fun b e hcut => ?_⟩
    · rw [List.count_append, List.count_cons_of_ne (by decide), List.count_eq_zero.2 hpoint]
      omega
    · rw [List.count_append, List.count_cons_self, List.count_eq_zero.2 hnone,
        List.count_eq_zero.2 hexponent]
    · rw [cut_append hnone] at hcut
      cases hcut
      exact hpoint

/-! ## Exponents in 64 bits -/

theorem clampExponent_eq {e : Int} (h : InWord e) : clampExponent e = e := by
  rw [InWord] at h
  rw [clampExponent]
  omega

theorem inWord_clampExponent (e : Int) : InWord (clampExponent e) := by
  rw [InWord, clampExponent]
  omega

@[simp] theorem clampExponent_clampExponent (e : Int) :
    clampExponent (clampExponent e) = clampExponent e := clampExponent_eq (inWord_clampExponent e)

theorem inWord_of_exponent? {cs : List Char} {k : Int} (h : exponent? cs = some k) : InWord k := by
  simp only [exponent?] at h
  split at h
  · cases h
  · split at h <;> cases h <;> exact inWord_clampExponent _

theorem inWord_of_parts? {cs : List Char} {r : Nat × Int} (h : parts? cs = some r) :
    InWord r.2 := by
  rw [parts?] at h
  split at h
  · obtain ⟨b, -, rfl⟩ := Option.map_eq_some_iff.1 h
    exact inWord_clampExponent _
  · obtain ⟨k, hk, rfl⟩ := Option.map_eq_some_iff.1 h
    exact inWord_of_exponent? hk
  · obtain ⟨k, -, h⟩ := Option.bind_eq_some_iff.1 h
    obtain ⟨b, -, h⟩ := Option.bind_eq_some_iff.1 h
    cases h
    exact inWord_clampExponent _

/-! ## Numbers read back -/

theorem not_mem_of_allDigits {cs : List Char} {c : Char} (h : allDigits cs)
    (hc : c.isDigit = false) : c ∉ cs := fun hmem => by simp [List.all_eq_true.1 h c hmem] at hc

theorem base?_of_allDigits {cs : List Char} (h : allDigits cs) (hne : cs ≠ []) :
    base? cs = some (value cs, 0) := by
  rw [base?, cut_eq_none (not_mem_of_allDigits h (by decide))]
  have hnil : allDigits [] = true := rfl
  simp [h, hne, hnil]

theorem base?_point {whole decimals : List Char} (hwhole : allDigits whole)
    (hdecimals : allDigits decimals) (hne : whole ++ decimals ≠ []) :
    base? (whole ++ '.' :: decimals) = some (value (whole ++ decimals), decimals.length) := by
  rw [base?, cut_append (not_mem_of_allDigits hwhole (by decide))]
  simpa [hwhole, hdecimals] using hne

theorem value_toString (n : Nat) : value (toString n).toList = n := by
  have hread := Nat.ofDigitChars_ten_toDigits (n := n)
  rw [Nat.ofDigitChars_eq_foldl] at hread
  rw [Nat.toString_eq_repr, Nat.toList_repr]
  exact hread

theorem allDigits_toString (n : Nat) : allDigits (toString n).toList :=
  List.all_eq_true.2 fun _ hc => isDigit_of_toString_nat hc

theorem isEmpty_toString (n : Nat) : (toString n).toList.isEmpty = false :=
  List.isEmpty_eq_false_iff.2 (toString_nat_ne_nil n)

theorem not_mem_toString {c : Char} (hc : c.isDigit = false) (n : Nat) :
    c ∉ (toString n).toList := not_mem_of_allDigits (allDigits_toString n) hc

theorem base?_toString (n : Nat) : base? (toString n).toList = some (n, 0) := by
  rw [base?_of_allDigits (allDigits_toString n) (toString_nat_ne_nil n), value_toString]

theorem parts?_toString (n : Nat) : parts? (toString n).toList = some (n, 0) := by
  rw [parts?, cut_eq_none (not_mem_toString (by decide) n), base?_toString]
  rfl

/-- The text of an integer is that of its size, behind its sign. -/
theorem toList_toString_int (n : Int) :
    (toString n).toList = (if n < 0 then ['-'] else []) ++ (toString n.natAbs).toList := by
  rw [Int.toString_eq_repr, Int.repr_eq_if, Nat.toString_eq_repr]
  split
  · next h =>
    have hnot : ¬n < 0 := by omega
    have habs : n.toNat = n.natAbs := by omega
    rw [if_neg hnot, habs]
    rfl
  · next h =>
    have hneg : n < 0 := by omega
    have habs : (-n).toNat = n.natAbs := by omega
    rw [if_pos hneg, String.toList_append, habs]
    rfl

theorem skip_of_head?_ne {c : Char} {cs : List Char} (h : cs.head? ≠ some c) : skip c cs = cs := by
  cases cs with
  | nil => rfl
  | cons d cs => exact if_neg fun hd => h (by simp [hd])

theorem exponent?_toString (e : Int) : exponent? (toString e).toList = some (clampExponent e) := by
  rw [exponent?, toList_toString_int]
  by_cases hneg : e < 0
  · have hvalue : -(e.natAbs : Int) = e := by omega
    rw [if_pos hneg]
    simp only [List.singleton_append, skip, if_true, isEmpty_toString, allDigits_toString,
      value_toString, List.head?_cons, hvalue]
    rfl
  · have hvalue : (e.natAbs : Int) = e := by omega
    have hhead : (toString e.natAbs).toList.head? ≠ some '-' := fun hc =>
      not_mem_toString (by decide) e.natAbs (List.mem_of_mem_head? hc)
    rw [if_neg hneg]
    simp only [List.nil_append, skip_of_head?_ne hhead, isEmpty_toString, allDigits_toString,
      value_toString, if_neg hhead, hvalue]
    rfl

/-! ## Lengths -/

open Digits

theorem value_lt {cs : List Char} (h : allDigits cs) : value cs < pow10 cs.length := by
  have hfrom (v : Nat) :
      cs.foldl (fun v c => 10 * v + (c.toNat - '0'.toNat)) v < (v + 1) * pow10 cs.length := by
    induction cs generalizing v with
    | nil => simp
    | cons c cs ih =>
      obtain ⟨hc, hcs⟩ : c.isDigit ∧ allDigits cs := by simpa [allDigits] using h
      have hdigit := (Char.isDigit_iff_toNat.1 hc).2
      refine (ih hcs _).trans_le ?_
      rw [List.length_cons, pow10_succ, ← mul_assoc]
      refine Nat.mul_le_mul_right _ ?_
      change c.toNat ≤ 57 at hdigit
      change 10 * v + (c.toNat - 48) + 1 ≤ _
      omega
  have hzero := hfrom 0
  rwa [Nat.zero_add, Nat.one_mul] at hzero

theorem length_of_cut {c : Char} {cs b e : List Char} (h : cut c cs = some (b, e)) :
    cs.length = b.length + e.length + 1 := by
  rw [eq_append_of_cut h, List.length_append, List.length_cons, Nat.add_assoc]

theorem count_le_length_of_base? {cs : List Char} {r : Nat × Nat} (h : base? cs = some r) :
    count r.1 ≤ cs.length := by
  have hlength : (((cut '.' cs).getD (cs, [])).1 ++ ((cut '.' cs).getD (cs, [])).2).length
      ≤ cs.length := by
    cases hcut : cut '.' cs with
    | none => simp
    | some parts =>
      have hparts := length_of_cut hcut
      rw [Option.getD_some, List.length_append]
      omega
  rw [base?] at h
  generalize (cut '.' cs).getD (cs, []) = parts at h hlength
  obtain ⟨whole, decimals⟩ := parts
  dsimp only at h hlength
  split at h
  · cases h
  · next hdigits =>
    cases h
    simp only [Bool.or_eq_true, Bool.and_eq_true, List.isEmpty_iff, Bool.not_eq_true', not_or,
      Bool.not_eq_false] at hdigits
    obtain ⟨⟨hne, hwhole⟩, hdecimals⟩ := hdigits
    have hall : allDigits (whole ++ decimals) := by
      rw [allDigits, List.all_append, Bool.and_eq_true]
      exact ⟨hwhole, hdecimals⟩
    have hpos : 0 < (whole ++ decimals).length := by
      rw [List.length_pos_iff, ne_eq, List.append_eq_nil_iff]
      exact hne
    exact (count_le hpos (value_lt hall)).trans hlength

/-- The integer of a literal is written in it, or it is one. -/
theorem count_le_length_of_parts? {cs : List Char} {r : Nat × Int} (h : parts? cs = some r) :
    count r.1 ≤ cs.length := by
  rw [parts?] at h
  split at h
  · obtain ⟨b, hb, rfl⟩ := Option.map_eq_some_iff.1 h
    exact count_le_length_of_base? hb
  · next e hcut =>
    obtain ⟨k, -, rfl⟩ := Option.map_eq_some_iff.1 h
    have hlength := length_of_cut hcut
    rw [count_one]
    omega
  · next b e _ hcut =>
    have hlength := length_of_cut hcut
    obtain ⟨k, -, h⟩ := Option.bind_eq_some_iff.1 h
    obtain ⟨m, hm, h⟩ := Option.bind_eq_some_iff.1 h
    cases h
    have hcount := count_le_length_of_base? hm
    dsimp only
    omega

theorem length_skip_le (c : Char) (cs : List Char) : (skip c cs).length ≤ cs.length := by
  cases cs with
  | nil => rfl
  | cons d cs =>
    rw [skip]
    split <;> simp

end Literal

theorem Decimal.count_le_length_of_unsignedParts? {cs : List Char} {r : Nat × Int}
    (h : unsignedParts? cs = some r) : Digits.count r.1 ≤ cs.length := by
  have hsplit := congrArg List.length
    (List.takeWhile_append_dropWhile (p := fun c => c != 'e' && c != 'E') (l := cs))
  rw [List.length_append] at hsplit
  simp only [unsignedParts?] at h
  split at h
  · have hcount := Literal.count_le_length_of_parts? h
    omega
  · next d e hexponent =>
    rw [hexponent, List.length_cons] at hsplit
    split at h
    · cases h
    · have hcount := Literal.count_le_length_of_parts? h
      have hskip := Literal.length_skip_le '+' e
      rw [List.length_append, List.length_cons] at hcount
      omega

theorem Text.length_trim_le (cs : List Char) : (trim cs).length ≤ cs.length := by
  rw [trim, List.length_reverse]
  refine (List.dropWhile_sublist _).length_le.trans ?_
  rw [List.length_reverse]
  exact (List.dropWhile_sublist _).length_le

end Keypad
