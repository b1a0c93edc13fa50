import Keypad.Calculator
import Keypad.Proofs.Arithmetic.Syntax
import Keypad.Proofs.Canonical.Fixpoint
import Keypad.Proofs.Typing.Symbols

/-!
# The tokens of the previous answer

The text of a quantity is cut into a literal, or two with a bar between them, behind a minus sign
if the quantity is negative. The literals are read back to the numbers that they were written for,
and the tokens are their own canonical form.
-/

namespace Keypad

/-! ## Decimals read back -/

namespace Literal

theorem toList_raw_of_ne {d : Decimal} (h : d.exponent ≠ 0) :
    d.raw.toList = (toString d.mantissa).toList ++ 'E' :: (toString d.exponent).toList := by
  rw [Decimal.raw, if_neg h]
  refine (String.toList_append (s := toString d.mantissa ++ "E")).trans ?_
  rw [String.toList_append, List.append_assoc]
  rfl

/-- The raw text of a decimal is that of its size, behind its sign. -/
theorem toList_raw (d : Decimal) :
    d.raw.toList = (if d.mantissa < 0 then ['-'] else []) ++ d.abs.raw.toList := by
  have habs : (toString d.abs.mantissa).toList = (toString d.mantissa.natAbs).toList := by
    rw [toList_toString_int, if_neg (by simp [Decimal.abs])]
    rfl
  have hexponent : d.abs.exponent = d.exponent := rfl
  by_cases hzero : d.exponent = 0
  · rw [Decimal.raw, Decimal.raw, if_pos hzero, if_pos (hexponent.trans hzero),
      toList_toString_int, habs]
  · rw [toList_raw_of_ne hzero, toList_raw_of_ne (d := d.abs) hzero, toList_toString_int, habs,
      hexponent, List.append_assoc]

/-- The raw text of a decimal that is not negative is read back as its own parts. -/
theorem parts?_raw {d : Decimal} (hd : 0 ≤ d.mantissa) :
    parts? d.raw.toList = some (d.mantissa.natAbs, clampExponent d.exponent) := by
  have hmantissa : (toString d.mantissa).toList = (toString d.mantissa.natAbs).toList := by
    rw [toList_toString_int, if_neg (by omega), List.nil_append]
  by_cases hzero : d.exponent = 0
  · rw [Decimal.raw, if_pos hzero, hmantissa, parts?_toString, hzero]
    rfl
  · rw [toList_raw_of_ne hzero, hmantissa, parts?, cut_append (not_mem_toString (by decide) _)]
    cases hcs : (toString d.mantissa.natAbs).toList with
    | nil => exact absurd hcs (toString_nat_ne_nil _)
    | cons c cs =>
      dsimp only
      rw [← hcs, exponent?_toString, base?_toString]
      simp

theorem isSome_parts?_toString (n : Nat) : (parts? (toString n).toList).isSome := by
  rw [parts?_toString]
  rfl

theorem isSome_parts?_raw_abs (d : Decimal) : (parts? d.abs.raw.toList).isSome := by
  rw [parts?_raw (Int.natCast_nonneg _)]
  rfl

end Literal

/-! ## The tree of a quantity -/

open Arithmetic

namespace Quantity

/-- The sign in front of a negative number. -/
def signOf (n : Int) : Option Bool := if n < 0 then some true else none

/-- The row of fractions that writes a quantity. -/
def row : Quantity → Row
  | exact q =>
    let whole := Row.one (.literal (signOf q.num) (toString q.num.natAbs))
    if q.den = 1 then whole else .more whole (.literal none (toString q.den))
  | approx d => .one (.literal (signOf d.mantissa) d.abs.raw)

/-- The quantity as a sum of one term. -/
def terms (v : Quantity) : Terms := .one (.one v.row)

/-- The tokens that type the quantity. -/
def tokens (v : Quantity) : List Token := v.terms.toLine.toTokens

theorem of_mem_literal {sign : Option Bool} {text : String} {t : Token} (hsign : sign ≠ some false)
    (h : t ∈ (Operand.literal sign text).toLine.toTokens) :
    t = .key .minus ∨ t = .key (.literal text) := by
  match sign, hsign with
  | none, _ => exact .inr (by simpa [Operand.toLine, signLine, Line.toTokens] using h)
  | some true, _ => simpa [Operand.toLine, signLine, signKey, Line.toTokens] using h

theorem signOf_ne (n : Int) : signOf n ≠ some false := by
  rw [signOf]
  split <;> simp

/-- The tokens of a quantity are literals, with a sign and a bar. -/
theorem of_mem_tokens {v : Quantity} {t : Token} (h : t ∈ v.tokens) :
    t = .key .minus ∨ t = .key .bar ∨ ∃ text, t = .key (.literal text) := by
  have hliteral {sign : Option Bool} {text : String} (hsign : sign ≠ some false)
      (h : t ∈ (Operand.literal sign text).toLine.toTokens) :
      t = .key .minus ∨ t = .key .bar ∨ ∃ text, t = .key (.literal text) :=
    (of_mem_literal hsign h).imp_right fun heq => .inr ⟨text, heq⟩
  cases v with
  | approx d => exact hliteral (signOf_ne _) h
  | exact q =>
    simp only [tokens, terms, row, Terms.toLine, Factors.toLine] at h
    split at h
    · exact hliteral (signOf_ne _) h
    · simp only [Row.toLine, Line.toTokens_append, Line.toTokens, List.mem_append,
        List.mem_cons] at h
      rcases h with hnumerator | rfl | hdenominator
      · exact hliteral (signOf_ne _) hnumerator
      · exact .inr (.inl rfl)
      · exact hliteral (by simp) hdenominator

end Quantity

/-! ## Canonical form -/

namespace Arithmetic

variable {a : Token} {text : String} {rest : Line}

/-- A literal with its sign, where an operand may begin. -/
theorem shaped_literal (hcompletes : a.completes = false) (hoperation : a.operation? = none)
    (hsign : a.isSign = false) (htext : (Literal.parts? text.toList).isSome)
    (hrest : rest.Shaped (.key (.literal text)) 0) (sign : Option Bool) :
    (signLine sign ++ .key (.literal text) rest).Shaped a 0 := by
  have hliteral {b : Token} (hb : b.completes = false) (ho : b.operation? = none) :
      (Line.key (.literal text) rest).Shaped b 0 :=
    ⟨Token.fits_of_begins hb ho rfl, htext, by simp, hrest⟩
  cases sign with
  | none => exact hliteral hcompletes hoperation
  | some minus =>
    cases minus with
    | true =>
      exact ⟨Token.fits_sign rfl hsign hoperation, trivial, nofun, hliteral rfl rfl⟩
    | false =>
      exact ⟨Token.fits_sign rfl hsign hoperation, trivial, nofun, hliteral rfl rfl⟩

end Arithmetic

namespace Quantity

theorem shaped_terms (v : Quantity) : v.terms.toLine.Shaped .left 0 := by
  have hend {text : String} (h : (Literal.parts? text.toList).isSome) (bars : Nat) :
      Line.nil.Shaped (.key (.literal text)) bars :=
    Token.fits_of_completes (Token.completes_literal h) rfl
  cases v with
  | exact q =>
    have hnum := Literal.isSome_parts?_toString q.num.natAbs
    have hden := Literal.isSome_parts?_toString q.den
    rw [terms, row]
    split
    · exact shaped_literal rfl rfl rfl hnum (hend hnum 0) _
    · have hbar : (Line.key .bar (.key (.literal (toString q.den)) .nil)).Shaped
          (.key (.literal (toString q.num.natAbs))) 0 :=
        ⟨Token.fits_of_completes (Token.completes_literal hnum) rfl, trivial, by decide,
          Token.fits_of_begins rfl rfl rfl, hden, by simp, hend hden _⟩
      have hline := shaped_literal (a := .left) rfl rfl rfl hnum hbar (signOf q.num)
      simpa [Terms.toLine, Factors.toLine, Row.toLine, Operand.toLine, signLine,
        Line.append_assoc] using hline
  | approx d =>
    have hraw := Literal.isSome_parts?_raw_abs d
    exact shaped_literal rfl rfl rfl hraw (hend hraw 0) _

theorem commas_terms (v : Quantity) : v.terms.toLine.commas = 0 := by
  cases v with
  | exact q =>
    rw [terms, row, signOf]
    split <;> split <;> rfl
  | approx d =>
    rw [terms, row, signOf]
    split <;> rfl

/-- The answer is the canonical line of its tokens. -/
theorem ofAnswer_tokens (v : Quantity) : Canonical.ofAnswer v.tokens = .ok v.terms.toLine :=
  Canonical.fill_toTokens v.shaped_terms v.commas_terms

/-! ## Text -/

theorem typeable_tokens (v : Quantity) : ∀ t ∈ v.tokens, t.Typeable := by
  intro t ht
  rcases of_mem_tokens ht with rfl | rfl | ⟨text, rfl⟩
  · exact .inl (by decide)
  · exact .inl (by decide)
  · exact .inl (v.shaped_terms.plain ht)

theorem joined_literal (n : Int) (text : String) :
    Token.joined (Operand.literal (signOf n) text).toLine.toTokens
      = (if n < 0 then ['-'] else []) ++ text.toList := by
  rw [signOf]
  split <;> simp [Operand.toLine, signLine, signKey, Line.toTokens, Token.text, Key.text]

theorem joined_tokens (v : Quantity) : Token.joined v.tokens = v.literal.toList := by
  cases v with
  | exact q =>
    have hnum := joined_literal q.num (toString q.num.natAbs)
    rw [← Literal.toList_toString_int] at hnum
    rw [tokens, terms, row, literal, ratText]
    split
    · exact hnum
    · have hbar : Token.joined (Line.key .bar (.key (.literal (toString q.den)) .nil)).toTokens
          = "/".toList ++ (toString q.den).toList := by
        simp [Line.toTokens, Token.text, Key.text]
      have hline : (Terms.one (.one (.more (.one (.literal (signOf q.num)
          (toString q.num.natAbs))) (.literal none (toString q.den))))).toLine
          = (Operand.literal (signOf q.num) (toString q.num.natAbs)).toLine
            ++ .key .bar (.key (.literal (toString q.den)) .nil) := rfl
      rw [hline, Line.toTokens_append, Token.joined_append, hnum, hbar, String.toList_append,
        String.toList_append, List.append_assoc]
      rfl
  | approx d =>
    rw [literal, Literal.toList_raw]
    exact joined_literal d.mantissa d.abs.raw

end Quantity

/-- The text of a quantity is cut into its tokens. -/
theorem Lexer.tokenize_literal (v : Quantity) : tokenize [] v.literal = .ok v.tokens := by
  -- No constant has a name here.
  have hnames : ∀ name ∈ ([] : List String), ConstantTable.checkName name = .ok () := nofun
  have htokens := tokenize_of_shaped hnames v.shaped_terms v.typeable_tokens
  rwa [← Quantity.tokens, v.joined_tokens, String.ofList_toList] at htokens

theorem Calculator.answerTokens_eq (c : Calculator) : c.answerTokens = .ok c.answer.tokens :=
  Lexer.tokenize_literal c.answer

end Keypad
