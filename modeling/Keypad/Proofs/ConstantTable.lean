import Keypad.ConstantTable
import Keypad.Quantity.Notation
import Keypad.Proofs.Decimal.Notation

/-!
# Displayed quantities are stored

The displayed text of a quantity may be typed as the value of a constant. A displayed fraction is
read as itself, in both styles, and a displayed decimal as the rounded decimal that it writes. So
the value that is stored does not depend on the style.
-/

namespace Keypad

open Digits Literal

namespace ConstantTable

/-! ## Fractions -/

theorem digits?_toString (n : Nat) : digits? (toString n).toList = some n := by
  rw [digits?, isEmpty_toString, allDigits_toString, value_toString]
  rfl

theorem slash_not_mem_toString (n : Nat) : '/' ∉ (toString n).toList :=
  not_mem_toString (by decide) n

theorem mixed?_two (a : Nat) {b : Nat} (hb : b ≠ 0) :
    mixed? ((toString a).toList ++ '/' :: (toString b).toList) = some (0, a, b) := by
  rw [mixed?, List.splitOn_append_cons_self_of_not_mem (slash_not_mem_toString a),
    List.splitOn_eq_singleton (slash_not_mem_toString b)]
  simp only [List.mapM_cons, List.mapM_nil, digits?_toString, Option.pure_def,
    Option.bind_eq_bind, Option.bind_some, if_neg hb]

theorem mixed?_three (a b : Nat) {c : Nat} (hc : c ≠ 0) :
    mixed? ((toString a).toList ++ '/' :: ((toString b).toList ++ '/' :: (toString c).toList))
      = some (a, b, c) := by
  rw [mixed?, List.splitOn_append_cons_self_of_not_mem (slash_not_mem_toString a),
    List.splitOn_append_cons_self_of_not_mem (slash_not_mem_toString b),
    List.splitOn_eq_singleton (slash_not_mem_toString c)]
  simp only [List.mapM_cons, List.mapM_nil, digits?_toString, Option.pure_def,
    Option.bind_eq_bind, Option.bind_some, if_neg hc]

theorem toList_bar (a b : Nat) :
    s!"{a}/{b}".toList = (toString a).toList ++ '/' :: (toString b).toList := by
  refine (String.toList_append (s := toString a ++ "/")).trans ?_
  rw [String.toList_append, List.append_assoc]
  rfl

theorem toList_bars (a b c : Nat) : s!"{a}/{b}/{c}".toList
    = (toString a).toList ++ '/' :: ((toString b).toList ++ '/' :: (toString c).toList) := by
  refine (String.toList_append (s := s!"{a}/{b}" ++ "/")).trans ?_
  rw [String.toList_append, toList_bar, List.append_assoc, List.append_assoc]
  rfl

/-- A displayed fraction has its own parts, the whole part apart in the mixed style. -/
theorem mixed?_fractionText (style : FractionStyle) (n : Nat) {d : Nat} (hd : d ≠ 0) :
    ∃ whole rest, mixed? (Quantity.fractionText style n d).toList = some (whole, rest, d) ∧
      whole * d + rest = n := by
  cases style with
  | improper =>
    rw [Quantity.fractionText, toList_bar]
    exact ⟨0, n, mixed?_two n hd, by omega⟩
  | mixed =>
    have hdiv : n / d * d + n % d = n := by
      rw [Nat.mul_comm]
      exact Nat.div_add_mod n d
    simp only [Quantity.fractionText]
    split
    · next hwhole =>
      rw [hwhole] at hdiv
      rw [toList_bar]
      exact ⟨0, n % d, mixed?_two (n % d) hd, hdiv⟩
    · rw [toList_bars]
      exact ⟨n / d, n % d, mixed?_three (n / d) (n % d) hd, hdiv⟩

theorem mem_fractionText {style : FractionStyle} {n d : Nat} {c : Char}
    (hc : c ∈ (Quantity.fractionText style n d).toList) : c.isDigit ∨ c = '/' := by
  have hnat {k : Nat} (h : c ∈ (toString k).toList) : c.isDigit := isDigit_of_toString_nat h
  have htwo {a b : Nat} (h : c ∈ (toString a).toList ++ '/' :: (toString b).toList) :
      c.isDigit ∨ c = '/' := by
    rcases List.mem_append.1 h with h | h
    · exact .inl (hnat h)
    · exact (List.mem_cons.1 h).symm.imp_left hnat
  cases style with
  | improper =>
    rw [Quantity.fractionText, toList_bar] at hc
    exact htwo hc
  | mixed =>
    simp only [Quantity.fractionText] at hc
    split at hc
    · rw [toList_bar] at hc
      exact htwo hc
    · rw [toList_bars] at hc
      rcases List.mem_append.1 hc with h | h
      · exact .inl (hnat h)
      · rcases List.mem_cons.1 h with h | h
        · exact .inr h
        · exact htwo h

theorem slash_mem_fractionText (style : FractionStyle) (n d : Nat) :
    '/' ∈ (Quantity.fractionText style n d).toList := by
  have hmem (a rest : List Char) : '/' ∈ a ++ '/' :: rest :=
    List.mem_append_right a List.mem_cons_self
  cases style with
  | improper =>
    rw [Quantity.fractionText, toList_bar]
    exact hmem _ _
  | mixed =>
    simp only [Quantity.fractionText]
    split
    · rw [toList_bar]
      exact hmem _ _
    · rw [toList_bars]
      exact hmem _ _

theorem mkRat_natAbs (q : Rat) :
    (if q.num < 0 then -Decimal.ofRat (mkRat q.num.natAbs q.den)
      else Decimal.ofRat (mkRat q.num.natAbs q.den)) = Decimal.ofRat q := by
  split
  · next hneg =>
    have hnum : (q.num.natAbs : Int) = -q.num := by omega
    rw [← Quantity.ofRat_neg, hnum, ← Rat.neg_mkRat, neg_neg, Rat.mkRat_self]
  · next hnonneg =>
    have hnum : (q.num.natAbs : Int) = q.num := by omega
    rw [hnum, Rat.mkRat_self]

/-- A fraction is read as the decimal of its value, from either style. -/
theorem readValue_fraction (style : FractionStyle) (q : Rat) :
    readValue (if q.num < 0 then "-" ++ Quantity.fractionText style q.num.natAbs q.den
      else Quantity.fractionText style q.num.natAbs q.den) = .ok (Decimal.ofRat q) := by
  obtain ⟨whole, rest, hmixed, hsum⟩ := mixed?_fractionText style q.num.natAbs q.den_nz
  have hslash := slash_mem_fractionText style q.num.natAbs q.den
  have hmem (c : Char) (hc : c ∈ (Quantity.fractionText style q.num.natAbs q.den).toList) :=
    mem_fractionText hc
  generalize Quantity.fractionText style q.num.natAbs q.den = text at *
  have hblank : ∀ c ∈ text.toList, Text.isBlank c = false := fun c hc => by
    rcases hmem c hc with hdigit | rfl
    · exact Text.isBlank_of_isDigit hdigit
    · decide
  have hhead : text.toList.head? ≠ some '-' := fun hc => by
    rcases hmem '-' (List.mem_of_mem_head? hc) with hdigit | hbar
    · exact absurd hdigit (by decide)
    · exact absurd hbar (by decide)
  rw [← mkRat_natAbs, ← hsum]
  split
  · have htext : ("-" ++ text).toList = '-' :: text.toList := String.toList_append
    rw [readValue, htext, Text.trim_eq_self (List.forall_mem_cons.2 ⟨by decide, hblank⟩)]
    have hskip : skip '-' ('-' :: text.toList) = text.toList := rfl
    simp [hslash, hskip, hmixed]
  · rw [readValue, Text.trim_eq_self hblank]
    simp [hslash, skip_of_head?_ne hhead, hhead, hmixed]

/-! ## Decimals -/

theorem slash_not_mem_display (d : Decimal) : '/' ∉ d.display.toList := fun hmem => by
  rcases Decimal.mem_display hmem with hmark | hmark
  · exact absurd hmark (by decide)
  · exact absurd hmark (by decide)

theorem readValue_display_decimal {d : Decimal} (h : d.IsCanonical) :
    readValue d.display = .ok (d.significant displayedDigits) := by
  have hblank : ∀ c ∈ d.display.toList, Text.isBlank c = false := fun c hc =>
    Decimal.isBlank_of_displayed (Decimal.mem_display hc)
  rw [readValue, Text.trim_eq_self hblank]
  simp [slash_not_mem_display d, Decimal.read?_display h]

/-! ## Quantities -/

/-- The quantity is displayed as a fraction, in either style. -/
def ShowsFraction : Quantity → Prop
  | .exact q => ¬(q.den = 1 ∨ Quantity.fractionDigits < count q.num.natAbs + count q.den)
  | .approx _ => False

theorem display_exact {q : Rat} (h : ShowsFraction (.exact q)) (style : FractionStyle) :
    (Quantity.exact q).display style =
      if q.num < 0 then "-" ++ Quantity.fractionText style q.num.natAbs q.den
      else Quantity.fractionText style q.num.natAbs q.den := by
  rw [Quantity.display, if_neg h]

theorem display_of_not {v : Quantity} (h : ¬ShowsFraction v) (style : FractionStyle) :
    v.display style = v.toDecimal.display := by
  cases v with
  | approx d => rfl
  | exact q => rw [Quantity.display, if_pos (not_not.1 h), Quantity.toDecimal]

/-- A fraction is recognized by its bar. -/
theorem slash_mem_display_iff (v : Quantity) (style : FractionStyle) :
    '/' ∈ (v.display style).toList ↔ ShowsFraction v := by
  constructor
  · intro hmem
    by_contra hnot
    rw [display_of_not hnot] at hmem
    exact slash_not_mem_display _ hmem
  · intro h
    cases v with
    | approx d => exact h.elim
    | exact q =>
      have hslash := slash_mem_fractionText style q.num.natAbs q.den
      rw [display_exact h]
      split
      · rw [String.toList_append]
        exact List.mem_append_right _ hslash
      · exact hslash

theorem readValue_of_showsFraction {v : Quantity} (h : ShowsFraction v) (style : FractionStyle) :
    readValue (v.display style) = .ok v.toDecimal := by
  cases v with
  | approx d => exact h.elim
  | exact q =>
    rw [display_exact h]
    exact readValue_fraction style q

theorem readValue_of_not_showsFraction {v : Quantity} (h : ¬ShowsFraction v)
    (hv : v.toDecimal.IsCanonical) (style : FractionStyle) :
    readValue (v.display style) = .ok (v.toDecimal.significant displayedDigits) := by
  rw [display_of_not h]
  exact readValue_display_decimal hv

/-- What is displayed can be defined as a constant, in either style of fractions with the same
result: the decimal of the quantity, which is rounded to the displayed digits unless the text is a
fraction. Other constants keep their values. The text of a decimal alone is read in the same way. -/
theorem define_display (t : ConstantTable) {name : String} (hname : checkName name = .ok ())
    {v : Quantity} (hv : ∀ d, v = .approx d → d.IsCanonical) :
    (∀ style, ∃ u, t.define name (v.display style) = .ok u ∧ ∀ other,
      u.value? other = if other = name then
          some (if '/' ∈ (v.display style).toList then v.toDecimal
            else v.toDecimal.significant displayedDigits)
        else t.value? other) ∧
    t.define name (v.display .improper) = t.define name (v.display .mixed) ∧
    ∀ d : Decimal, d.IsCanonical →
      Decimal.read? d.display = some (d.significant displayedDigits) := by
  have hcanonical : v.toDecimal.IsCanonical := by
    cases v with
    | approx d => exact hv d rfl
    | exact q => exact Decimal.isCanonical_ofRat q
  have hdefine {text : String} {d : Decimal} (h : readValue text = .ok d) :
      t.define name text = .ok (t.insert name d) := by
    rw [define, hname, h]
    rfl
  refine ⟨fun style => ?_, ?_, fun d hd => Decimal.read?_display hd⟩
  · by_cases h : ShowsFraction v
    · refine ⟨_, hdefine (readValue_of_showsFraction h style), fun other => ?_⟩
      rw [value?_insert, if_pos ((slash_mem_display_iff v style).2 h)]
    · refine ⟨_, hdefine (readValue_of_not_showsFraction h hcanonical style), fun other => ?_⟩
      rw [value?_insert, if_neg (mt (slash_mem_display_iff v style).1 h)]
  · by_cases h : ShowsFraction v
    · rw [hdefine (readValue_of_showsFraction h .improper),
        hdefine (readValue_of_showsFraction h .mixed)]
    · rw [hdefine (readValue_of_not_showsFraction h hcanonical .improper),
        hdefine (readValue_of_not_showsFraction h hcanonical .mixed)]

/-- A negative mixed number is stored as the fraction that it writes. -/
theorem define_display_mixed : ∃ u, empty.define "tiers" "-2/1/3" = .ok u ∧
    u.value? "tiers" = some (Decimal.ofRat (-7 / 3)) := by
  have htext : (Quantity.exact (-7 / 3)).display .mixed = "-2/1/3" := by decide +kernel
  have hname : checkName "tiers" = .ok () := by decide +kernel
  obtain ⟨hdefine, -, -⟩ := define_display empty hname (v := .exact (-7 / 3)) nofun
  obtain ⟨u, hu, hvalue⟩ := hdefine .mixed
  rw [htext] at hu hvalue
  refine ⟨u, hu, ?_⟩
  rw [hvalue "tiers", if_pos rfl, if_pos (by decide)]
  rfl

end ConstantTable

end Keypad
