import Keypad.Proofs.Answer.Tokens
import Keypad.Proofs.Decimal.Notation
import Keypad.Proofs.Decimal.Word

/-!
# Which texts are typed decimals

The grammar of typed decimals is stated apart from the reader, as relations between a text and what
it writes. The reader accepts exactly the texts of the grammar, with blanks around them, and answers
the decimal that they write. The raw text of a canonical decimal writes that decimal.
-/

namespace Keypad

/-! ## Blanks around a text -/

namespace Text

variable {cs left right : List Char}

/-- What is trimmed off is blank. -/
theorem exists_eq_append_trim (cs : List Char) : ∃ left right,
    cs = left ++ trim cs ++ right ∧ ∀ c ∈ left ++ right, isBlank c := by
  refine ⟨cs.takeWhile isBlank, ((cs.dropWhile isBlank).reverse.takeWhile isBlank).reverse, ?_, ?_⟩
  · have hback := List.takeWhile_append_dropWhile (p := isBlank)
      (l := (cs.dropWhile isBlank).reverse)
    have hrest := congrArg List.reverse hback
    rw [List.reverse_append, List.reverse_reverse] at hrest
    rw [trim, List.append_assoc, hrest, List.takeWhile_append_dropWhile]
  · intro c hc
    rcases List.mem_append.1 hc with hc | hc
    · exact List.mem_takeWhile_imp hc
    · exact List.mem_takeWhile_imp (List.mem_reverse.1 hc)

theorem dropWhile_blank_append (hleft : ∀ c ∈ left, isBlank c) (hcs : ∀ c ∈ cs, isBlank c = false)
    (hne : cs ≠ []) : (left ++ cs ++ right).dropWhile isBlank = cs ++ right := by
  rw [List.append_assoc, List.dropWhile_append_of_pos hleft]
  cases cs with
  | nil => exact absurd rfl hne
  | cons c cs => exact List.dropWhile_cons_of_neg (by simp [hcs c List.mem_cons_self])

/-- A text without blanks is what is left of it when blanks around it are trimmed. -/
theorem trim_append (hblank : ∀ c ∈ left ++ right, isBlank c) (hcs : ∀ c ∈ cs, isBlank c = false)
    (hne : cs ≠ []) : trim (left ++ cs ++ right) = cs := by
  have hleft : ∀ c ∈ left, isBlank c := fun c hc => hblank c (List.mem_append_left _ hc)
  have hright : ∀ c ∈ right.reverse, isBlank c := fun c hc =>
    hblank c (List.mem_append_right _ (List.mem_reverse.1 hc))
  have hback : (right.reverse ++ cs.reverse ++ []).dropWhile isBlank = cs.reverse ++ [] := by
    apply dropWhile_blank_append hright
    · exact fun c hc => hcs c (List.mem_reverse.1 hc)
    · simpa using hne
  rw [List.append_nil, List.append_nil] at hback
  rw [trim, dropWhile_blank_append hleft hcs hne, List.reverse_append, hback, List.reverse_reverse]

end Text

/-! ## The parts of a number -/

namespace Literal

variable {cs : List Char}

/-- Digits with at most one point and at least one digit. In a row the digits write `n`, and
`places` of them stand behind the point. -/
inductive WritesBase : List Char → Nat → Nat → Prop
  | whole {digits : List Char} (hne : digits ≠ []) (hdigits : ∀ c ∈ digits, c.isDigit) :
      WritesBase digits (Nat.ofDigitChars 10 digits 0) 0
  | point {whole decimals : List Char} (hne : whole ++ decimals ≠ [])
      (hdigits : ∀ c ∈ whole ++ decimals, c.isDigit) :
      WritesBase (whole ++ '.' :: decimals) (Nat.ofDigitChars 10 (whole ++ decimals) 0)
        decimals.length

/-- At least one digit, possibly behind a minus sign. -/
inductive WritesInteger : List Char → Int → Prop
  | nonneg {digits : List Char} (hne : digits ≠ []) (hdigits : ∀ c ∈ digits, c.isDigit) :
      WritesInteger digits (Nat.ofDigitChars 10 digits 0)
  | neg {digits : List Char} (hne : digits ≠ []) (hdigits : ∀ c ∈ digits, c.isDigit) :
      WritesInteger ('-' :: digits) (-(Nat.ofDigitChars 10 digits 0 : Int))

theorem allDigits_iff : allDigits cs ↔ ∀ c ∈ cs, c.isDigit := List.all_eq_true

theorem WritesBase.base?_eq {n places : Nat} (h : WritesBase cs n places) :
    base? cs = some (n, places) := by
  cases h with
  | whole hne hdigits => rw [base?_of_allDigits (allDigits_iff.2 hdigits) hne, value_eq]
  | point hne hdigits =>
    obtain ⟨hwhole, hdecimals⟩ := List.forall_mem_append.1 hdigits
    rw [base?_point (allDigits_iff.2 hwhole) (allDigits_iff.2 hdecimals) hne, value_eq]

theorem writesBase_of_base? {n places : Nat} (h : base? cs = some (n, places)) :
    WritesBase cs n places := by
  rw [base?] at h
  cases hcut : cut '.' cs with
  | none =>
    simp only [hcut, Option.getD_none] at h
    split at h
    · cases h
    · next hdigits =>
      obtain ⟨hne, hall⟩ : cs ≠ [] ∧ ∀ c ∈ cs, c.isDigit := by simpa [allDigits] using hdigits
      cases h
      rw [List.append_nil, value_eq]
      exact .whole hne hall
  | some parts =>
    obtain ⟨whole, decimals⟩ := parts
    simp only [hcut, Option.getD_some] at h
    split at h
    · cases h
    · next hdigits =>
      obtain ⟨⟨hne, hwhole⟩, hdecimals⟩ : (¬(whole = [] ∧ decimals = []) ∧
          ∀ c ∈ whole, c.isDigit) ∧ ∀ c ∈ decimals, c.isDigit := by
        simpa [allDigits] using hdigits
      cases h
      rw [eq_append_of_cut hcut, value_eq]
      exact .point (by simpa using hne) (List.forall_mem_append.2 ⟨hwhole, hdecimals⟩)

/-- A base begins with a digit or a point. -/
theorem WritesBase.head?_append_ne {n places : Nat} (h : WritesBase cs n places) {c : Char}
    (hc : ¬IsMark c) (exponent : List Char) : (cs ++ exponent).head? ≠ some c := by
  obtain ⟨hne, hmarks, -⟩ := isBase_of_base? h.base?_eq
  rw [List.head?_append_of_ne_nil _ hne]
  exact fun hhead => hc (hmarks c (List.mem_of_mem_head? hhead))

theorem head?_ne_of_digits {c : Char} (hdigits : ∀ d ∈ cs, d.isDigit) (hc : c.isDigit = false) :
    cs.head? ≠ some c := by
  intro hhead
  have hdigit := hdigits c (List.mem_of_mem_head? hhead)
  rw [hc] at hdigit
  cases hdigit

theorem exponent?_of_digits (hne : cs ≠ []) (hdigits : ∀ c ∈ cs, c.isDigit) :
    exponent? cs = some (clampExponent (Nat.ofDigitChars 10 cs 0)) ∧
      exponent? ('-' :: cs) = some (clampExponent (-(Nat.ofDigitChars 10 cs 0 : Int))) := by
  have hall : allDigits cs = true := allDigits_iff.2 hdigits
  have hempty : cs.isEmpty = false := List.isEmpty_eq_false_iff.2 hne
  have hhead : cs.head? ≠ some '-' := head?_ne_of_digits hdigits (by decide)
  constructor
  · simp [exponent?, skip_of_head?_ne hhead, hempty, hall, hhead, value_eq]
  · simp [exponent?, skip, hempty, hall, value_eq]

theorem exponent?_eq_some_iff {k : Int} :
    exponent? cs = some k ↔ ∃ n, WritesInteger cs n ∧ k = clampExponent n := by
  constructor
  · intro h
    obtain ⟨sign, digits, rfl, hsign, hne, hdigits⟩ := exists_digits_of_exponent? h
    obtain ⟨hnonneg, hneg⟩ := exponent?_of_digits hne hdigits
    rcases hsign with rfl | rfl
    · exact ⟨_, .nonneg hne hdigits, Option.some.inj (h.symm.trans hnonneg)⟩
    · exact ⟨_, .neg hne hdigits, Option.some.inj (h.symm.trans hneg)⟩
  · rintro ⟨n, hn, rfl⟩
    cases hn with
    | nonneg hne hdigits => exact (exponent?_of_digits hne hdigits).1
    | neg hne hdigits => exact (exponent?_of_digits hne hdigits).2

theorem WritesInteger.head?_ne_plus {n : Int} (h : WritesInteger cs n) :
    cs.head? ≠ some '+' := by
  cases h with
  | nonneg _ hdigits => exact head?_ne_of_digits hdigits (by decide)
  | neg => simp

theorem WritesInteger.isBlank {n : Int} (h : WritesInteger cs n) :
    ∀ c ∈ cs, Text.isBlank c = false := by
  cases h with
  | nonneg _ hdigits => exact fun c hc => Text.isBlank_of_isDigit (hdigits c hc)
  | neg _ hdigits =>
    exact List.forall_mem_cons.2 ⟨by decide, fun c hc => Text.isBlank_of_isDigit (hdigits c hc)⟩

/-- The text of an integer writes it. -/
theorem writesInteger_toString (n : Int) : WritesInteger (toString n).toList n := by
  have hne := toString_nat_ne_nil n.natAbs
  have hdigits := allDigits_iff.1 (allDigits_toString n.natAbs)
  have hvalue : Nat.ofDigitChars 10 (toString n.natAbs).toList 0 = n.natAbs := by
    rw [← value_eq, value_toString]
  rw [toList_toString_int]
  split
  · have hwrites := WritesInteger.neg hne hdigits
    have hneg : -(n.natAbs : Int) = n := by omega
    rwa [hvalue, hneg] at hwrites
  · have hwrites := WritesInteger.nonneg hne hdigits
    have hnonneg : (n.natAbs : Int) = n := by omega
    rwa [hvalue, hnonneg] at hwrites

theorem exists_eq_append_skip (c : Char) (cs : List Char) :
    ∃ front, cs = front ++ skip c cs ∧ (front = [] ∨ front = [c]) := by
  cases cs with
  | nil => exact ⟨[], rfl, .inl rfl⟩
  | cons d cs =>
    by_cases hd : d = c
    · exact ⟨[c], by simp [skip, hd], .inr rfl⟩
    · exact ⟨[], by simp [skip, hd], .inl rfl⟩

theorem skip_append {c : Char} {front : List Char} (hfront : front = [] ∨ front = [c])
    (hcs : cs.head? ≠ some c) : skip c (front ++ cs) = cs := by
  rcases hfront with rfl | rfl
  · exact skip_of_head?_ne hcs
  · exact if_pos rfl

theorem parts?_append {base : List Char} (hmark : 'E' ∉ base) (hne : base ≠ []) (cs : List Char) :
    parts? (base ++ 'E' :: cs) = (exponent? cs).bind fun k =>
      (base? base).map fun r => (r.1, clampExponent (k - r.2)) := by
  rw [parts?, cut_append hmark]
  cases base with
  | nil => exact absurd rfl hne
  | cons c base =>
    dsimp only
    cases exponent? cs with
    | none => rfl
    | some k => cases base? (c :: base) <;> rfl

end Literal

/-! ## Typed decimals -/

namespace Decimal

open Literal

variable {cs : List Char} {d : Decimal} {n places : Nat} {k : Int}

/-- A mark, possibly a plus sign, and an integer. An exponent that is left out is zero. -/
inductive WritesExponent : List Char → Int → Prop
  | none : WritesExponent [] 0
  | mark {c : Char} {plus cs : List Char} {k : Int} (hc : c = 'e' ∨ c = 'E')
      (hplus : plus = [] ∨ plus = ['+']) (hcs : WritesInteger cs k) :
      WritesExponent (c :: (plus ++ cs)) k

/-- A base and an exponent, possibly behind a sign. -/
inductive Writes : List Char → Decimal → Prop
  | plus {sign base exponent : List Char} {n places : Nat} {k : Int}
      (hsign : sign = [] ∨ sign = ['+']) (hbase : WritesBase base n places)
      (hexponent : WritesExponent exponent k) :
      Writes (sign ++ (base ++ exponent)) (scaled n (clampExponent (clampExponent k - places)))
  | minus {base exponent : List Char} {n places : Nat} {k : Int}
      (hbase : WritesBase base n places) (hexponent : WritesExponent exponent k) :
      Writes ('-' :: (base ++ exponent))
        (-scaled n (clampExponent (clampExponent k - places)))

/-- The exponent begins at the first mark. -/
theorem WritesExponent.takeWhile_dropWhile {base exponent : List Char}
    (h : WritesExponent exponent k) (hbase : ∀ c ∈ base, IsMark c) :
    (base ++ exponent).takeWhile (fun c => c != 'e' && c != 'E') = base ∧
      (base ++ exponent).dropWhile (fun c => c != 'e' && c != 'E') = exponent := by
  have hall : ∀ c ∈ base, (c != 'e' && c != 'E') = true := fun c hc => ne_e_of_isMark (hbase c hc)
  rw [List.takeWhile_append_of_pos hall, List.dropWhile_append_of_pos hall]
  cases h with
  | none => simp
  | mark hc => rcases hc with rfl | rfl <;> simp

theorem unsignedParts?_of_writes {base exponent : List Char} (hbase : WritesBase base n places)
    (hexponent : WritesExponent exponent k) :
    unsignedParts? (base ++ exponent) = some (n, clampExponent (clampExponent k - places)) := by
  have hread := hbase.base?_eq
  obtain ⟨hne, hmarks, -⟩ := isBase_of_base? hread
  have hno : 'E' ∉ base := fun hmem => absurd (hmarks 'E' hmem) (by decide)
  have hbegins := hexponent.takeWhile_dropWhile hmarks
  cases hexponent with
  | none =>
    have hzero : clampExponent 0 - (places : Int) = -places := by
      rw [clampExponent_eq (by decide), Int.zero_sub]
    rw [List.append_nil, unsignedParts?_of_isMark hmarks, parts?, cut_eq_none hno, hread, hzero]
    rfl
  | mark hc hplus hcs =>
    obtain ⟨htake, hdrop⟩ := hbegins
    have hinteger := exponent?_eq_some_iff.2 ⟨_, hcs, rfl⟩
    rw [unsignedParts?, htake, hdrop]
    dsimp only
    rw [if_neg (by simpa using hne), skip_append hplus hcs.head?_ne_plus, parts?_append hno hne,
      hinteger, hread]
    rfl

theorem writes_of_unsignedParts? {e : Int} (h : unsignedParts? cs = some (n, e)) :
    ∃ base exponent places k, cs = base ++ exponent ∧ WritesBase base n places ∧
      WritesExponent exponent k ∧ e = clampExponent (clampExponent k - places) := by
  rw [unsignedParts?] at h
  have hsplit := List.takeWhile_append_dropWhile (p := fun c => c != 'e' && c != 'E') (l := cs)
  have hno : 'E' ∉ cs.takeWhile fun c => c != 'e' && c != 'E' := fun hmem => by
    simpa using List.mem_takeWhile_imp hmem
  have hfirst := List.head?_dropWhile_not (fun c => c != 'e' && c != 'E') cs
  generalize cs.takeWhile (fun c => c != 'e' && c != 'E') = base at h hsplit hno
  generalize cs.dropWhile (fun c => c != 'e' && c != 'E') = rest at h hsplit hfirst
  cases rest with
  | nil =>
    rw [List.append_nil] at hsplit
    dsimp only at h
    rw [parts?, cut_eq_none hno] at h
    obtain ⟨⟨m, places⟩, hbase, heq⟩ := Option.map_eq_some_iff.1 h
    cases heq
    refine ⟨base, [], places, 0, by simp [hsplit], writesBase_of_base? hbase, .none, ?_⟩
    rw [clampExponent_eq (by decide : InWord 0), Int.zero_sub]
  | cons c tail =>
    dsimp only at h
    split at h
    · cases h
    · next hempty =>
      have hne : base ≠ [] := by simpa using hempty
      rw [parts?_append hno hne] at h
      obtain ⟨j, hj, h⟩ := Option.bind_eq_some_iff.1 h
      obtain ⟨⟨m, places⟩, hbase, heq⟩ := Option.map_eq_some_iff.1 h
      cases heq
      obtain ⟨k, hk, rfl⟩ := exponent?_eq_some_iff.1 hj
      obtain ⟨plus, htail, hplus⟩ := exists_eq_append_skip '+' tail
      refine ⟨base, c :: tail, places, k, hsplit.symm, writesBase_of_base? hbase, ?_, rfl⟩
      rw [htail]
      have hc : c = 'e' ∨ c = 'E' := by
        by_contra hnot
        simp [not_or.1 hnot] at hfirst
      exact .mark hc hplus hk

/-! ## Reading -/

theorem isBlank_of_plus {sign : List Char} (h : sign = [] ∨ sign = ['+']) :
    ∀ c ∈ sign, Text.isBlank c = false := by
  rcases h with rfl | rfl
  · exact List.forall_mem_nil _
  · exact List.forall_mem_singleton.2 (isBlank_of_displayed (.inr (by simp)))

theorem WritesExponent.isBlank {exponent : List Char} (h : WritesExponent exponent k) :
    ∀ c ∈ exponent, Text.isBlank c = false := by
  cases h with
  | none => simp
  | mark hc hplus hcs =>
    refine List.forall_mem_cons.2
      ⟨?_, List.forall_mem_append.2 ⟨isBlank_of_plus hplus, hcs.isBlank⟩⟩
    rcases hc with rfl | rfl <;> decide

/-- A typed decimal is not empty and has no blanks. -/
theorem Writes.isBlank (h : Writes cs d) : cs ≠ [] ∧ ∀ c ∈ cs, Text.isBlank c = false := by
  have hboth {base exponent : List Char} {n places : Nat} {k : Int}
      (hbase : WritesBase base n places) (hexponent : WritesExponent exponent k) :
      base ≠ [] ∧ ∀ c ∈ base ++ exponent, Text.isBlank c = false := by
    obtain ⟨hne, hmarks, -⟩ := isBase_of_base? hbase.base?_eq
    exact ⟨hne, List.forall_mem_append.2
      ⟨fun c hc => isBlank_of_displayed (.inl (hmarks c hc)), hexponent.isBlank⟩⟩
  cases h with
  | plus hsign hbase hexponent =>
    obtain ⟨hne, hblank⟩ := hboth hbase hexponent
    exact ⟨by simp [hne], List.forall_mem_append.2 ⟨isBlank_of_plus hsign, hblank⟩⟩
  | minus hbase hexponent =>
    exact ⟨by simp, List.forall_mem_cons.2 ⟨by decide, (hboth hbase hexponent).2⟩⟩

/-- The reader of trimmed texts accepts the grammar and nothing else. -/
theorem read?_eq_some_iff_writes (text : String) (d : Decimal) :
    read? text = some d ↔ Writes (Text.trim text.toList) d := by
  rw [read?]
  generalize Text.trim text.toList = cs
  constructor
  · intro h
    split at h
    · obtain ⟨⟨n, e⟩, hparts, rfl⟩ := Option.map_eq_some_iff.1 h
      obtain ⟨base, exponent, places, k, rfl, hbase, hexponent, rfl⟩ :=
        writes_of_unsignedParts? hparts
      exact .minus hbase hexponent
    · next hminus =>
      obtain ⟨⟨n, e⟩, hparts, rfl⟩ := Option.map_eq_some_iff.1 h
      obtain ⟨base, exponent, places, k, hrest, hbase, hexponent, rfl⟩ :=
        writes_of_unsignedParts? hparts
      obtain ⟨sign, hcs, hsign⟩ := exists_eq_append_skip '+' cs
      rw [hcs, hrest]
      exact .plus hsign hbase hexponent
  · intro h
    cases h with
    | plus hsign hbase hexponent =>
      have hparts := unsignedParts?_of_writes hbase hexponent
      split
      · next hcs =>
        rcases hsign with rfl | rfl
        · exact absurd (congrArg List.head? hcs) (hbase.head?_append_ne (by decide) _)
        · cases hcs
      · rw [skip_append hsign (hbase.head?_append_ne (by decide) _), hparts]
        rfl
    | minus hbase hexponent =>
      exact congrArg (Option.map _) (unsignedParts?_of_writes hbase hexponent)

/-! ## Raw texts -/

/-- The raw text of a canonical decimal writes it. -/
theorem IsCanonical.writes_raw (h : d.IsCanonical) : Writes d.raw.toList d := by
  have hbase : WritesBase (toString d.mantissa.natAbs).toList d.mantissa.natAbs 0 :=
    writesBase_of_base? (base?_toString _)
  obtain ⟨exponent, htext, hexponent⟩ : ∃ exponent,
      d.abs.raw.toList = (toString d.mantissa.natAbs).toList ++ exponent ∧
        WritesExponent exponent d.exponent := by
    by_cases hzero : d.exponent = 0
    · refine ⟨[], ?_, hzero ▸ .none⟩
      rw [raw, if_pos (show d.abs.exponent = 0 from hzero), List.append_nil]
      rfl
    · refine ⟨'E' :: ([] ++ (toString d.exponent).toList), ?_,
        .mark (.inr rfl) (.inl rfl) (writesInteger_toString _)⟩
      rw [toList_raw_of_ne (d := d.abs) hzero]
      rfl
  have hvalue : clampExponent (clampExponent d.exponent - (0 : Nat)) = d.exponent := by
    rw [clampExponent_eq h.inWord, Int.natCast_zero, Int.sub_zero, clampExponent_eq h.inWord]
  rw [toList_raw, htext]
  split
  · next hneg =>
    have hwrites := Writes.minus hbase hexponent
    rwa [hvalue, neg_scaled_natAbs hneg, h.scaled_eq] at hwrites
  · next hnonneg =>
    have hmantissa : (d.mantissa.natAbs : Int) = d.mantissa := by omega
    have hwrites := Writes.plus (.inl rfl) hbase hexponent
    rwa [hvalue, hmantissa, h.scaled_eq] at hwrites

/-- Typed decimals are the texts of the grammar, with blanks around them, and have the value that
they write. The raw text of a canonical decimal is read back to it. -/
theorem read?_eq_some_iff_and_read?_raw :
    (∀ (text : String) (d : Decimal), read? text = some d ↔
      ∃ left cs right, text.toList = left ++ cs ++ right ∧
        (∀ c ∈ left ++ right, Text.isBlank c) ∧ Writes cs d) ∧
    ∀ d : Decimal, d.IsCanonical → read? d.raw = some d := by
  constructor
  · intro text d
    rw [read?_eq_some_iff_writes]
    constructor
    · intro h
      obtain ⟨left, right, htext, hblank⟩ := Text.exists_eq_append_trim text.toList
      exact ⟨left, _, right, htext, hblank, h⟩
    · rintro ⟨left, cs, right, htext, hblank, h⟩
      rwa [htext, Text.trim_append hblank h.isBlank.2 h.isBlank.1]
  · intro d h
    have hwrites := h.writes_raw
    rwa [read?_eq_some_iff_writes, Text.trim_eq_self hwrites.isBlank.2]

/-- An exponent below those of 64 bits saturates, and once more when the places are taken from it.
The decimal of the smallest exponent is read back. -/
theorem read?_eq_some_iff_and_read?_raw_saturated :
    read? "\t+.05e+-99999999999999999999 " = some zero ∧
      IsCanonical ⟨-1, exponentFloor⟩ ∧
      read? (raw ⟨-1, exponentFloor⟩) = some ⟨-1, exponentFloor⟩ := by
  obtain ⟨hread, hraw⟩ := read?_eq_some_iff_and_read?_raw
  have hbase : WritesBase ['.', '0', '5'] 5 2 := writesBase_of_base? (by decide)
  have hexponent : WritesExponent ('e' :: (['+'] ++ '-' :: List.replicate 20 '9'))
      (-(Nat.ofDigitChars 10 (List.replicate 20 '9') 0 : Int)) :=
    .mark (.inl rfl) (.inr rfl)
      (.neg (by simp) fun c hc => by rw [List.eq_of_mem_replicate hc]; rfl)
  have hvalue : scaled (5 : Nat) (clampExponent (clampExponent
      (-(Nat.ofDigitChars 10 (List.replicate 20 '9') 0 : Int)) - (2 : Nat))) = zero := by
    decide +kernel
  have hsign : ['+'] = [] ∨ ['+'] = ['+'] := .inr rfl
  have hwrites := Writes.plus hsign hbase hexponent
  rw [hvalue] at hwrites
  have hcanonical : IsCanonical ⟨-1, exponentFloor⟩ := by decide +kernel
  have hblank : ∀ c ∈ ['\t'] ++ [' '], Text.isBlank c :=
    List.forall_mem_cons.2 ⟨by decide, List.forall_mem_singleton.2 (by decide)⟩
  exact ⟨(hread _ _).2 ⟨['\t'], _, [' '], by decide, hblank, hwrites⟩, hcanonical,
    hraw _ hcanonical⟩

end Decimal

end Keypad
