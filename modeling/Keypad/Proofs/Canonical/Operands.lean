import Keypad.Proofs.Canonical.Longhand

/-!
# Where operands must stand

A formula has a canonical form only if its tokens have operands where they need them: right before
whatever works on an operand or ends a level, and literals that can be read. The converse fails, as
a formula may also have too many bars or misplaced commas.
-/

namespace Keypad

namespace Token

/-- Does the token need an operand right before it? -/
def needsOperand (t : Token) : Bool := t.continues || t == key .percent

/-- May `b` stand right behind `a`, as far as it needs an operand? -/
abbrev Supports (a b : Token) : Prop := b.needsOperand → a.completes

theorem supports_of_needsOperand {b : Token} (hb : b.needsOperand = false) (a : Token) :
    Supports a b := by
  intro h
  rw [hb] at h
  cases h

/-- The tokens have operands where they need them, and those literals can be read that do not wait
for an exponent. -/
structure Supported (tokens : List Token) : Prop where
  /-- The ends of the formula count as parentheses around it. -/
  chain : (left :: (tokens ++ [right])).IsChain Supports
  readable : ∀ text, key (.literal text) ∈ tokens → (key (.literal text)).completes →
    (Literal.parts? text.toList).isSome

namespace Supported

variable {a b : Token} {before after : List Token}

theorem first (h : Supported (b :: after)) : b.needsOperand = false := by
  cases hb : b.needsOperand with
  | false => rfl
  | true => exact absurd (h.chain.rel hb) (by decide)

theorem last (h : Supported (before ++ [a])) : a.completes := by
  have hchain := h.chain.tail
  rw [List.append_assoc] at hchain
  have hpair : [a, right].IsChain Supports := (List.isChain_append.1 hchain).2.1
  exact hpair.rel rfl

theorem neighbours (h : Supported (before ++ a :: b :: after)) : Supports a b := by
  have hchain := h.chain.tail
  rw [List.append_assoc] at hchain
  exact (List.isChain_append.1 hchain).2.1.rel

end Supported

end Token

open Token

namespace Canonical

variable {answer : Except Failure Line} {place : Place} {p : Progress}

/-- A key that needs an operand is refused where there is none. -/
theorem Progress.hasOperand_of_emit {k : Key} {g : Bool} {own : Line}
    (hk : (Token.key k).needsOperand) (h : p.emit answer g k = .ok own) : p.hasOperand := by
  cases k with
  | operation op =>
    refine (emit_operation_eq_ok h).1 ?_
    simpa [needsOperand, continues] using hk
  | literal _ | constant _ | answer | plus | minus => cases hk
  | _ =>
    obtain ⟨⟨⟩, hrequire, -⟩ := Except.exists_of_bind h
    exact hasOperand_of_requireOperand hrequire

theorem Progress.check_of_emit {text : String} {g : Bool} {own : Line}
    (htext : (Token.key (.literal text)).completes)
    (h : p.emit answer g (.literal text) = .ok own) : Literal.check text = .ok () := by
  have hbase : exponentBase? text = none := Option.isNone_iff_eq_none.1 htext
  simp only [emit, hbase] at h
  obtain ⟨⟨⟩, hcheck, -⟩ := Except.exists_of_bind h
  exact hcheck

open Progress

/-- The tokens of an accepted level behind `a`, up to the parenthesis that ends it, have their
operands if those behind the level do. -/
theorem isChain_of_level {a : Token} {line out : Line} (ha : p.Reads a)
    (h : level answer place p line = .ok out) (tail : List Token)
    (htail : (Token.right :: tail).IsChain Supports) :
    (a :: (line.toTokens ++ .right :: tail)).IsChain Supports := by
  replace h := becomes_of_level h
  induction h generalizing a tail with
  | @nil place p hfinish =>
    have hoperand := ((p.finish_eq_ok_iff place).1 hfinish).2
    exact List.isChain_cons_cons.2 ⟨fun _ => ha.operand ▸ hoperand, htail⟩
  | @plus _ p _ _ _ ih =>
    exact List.isChain_cons_cons.2
      ⟨supports_of_needsOperand rfl a, ih (reads_addSign p false) tail htail⟩
  | @minus _ p _ _ _ ih =>
    exact List.isChain_cons_cons.2
      ⟨supports_of_needsOperand rfl a, ih (reads_addSign p true) tail htail⟩
  | @comma place p _ _ _ hfinish _ ih =>
    have hoperand := ((p.finish_eq_ok_iff place).1 hfinish).2
    exact List.isChain_cons_cons.2
      ⟨fun _ => ha.operand ▸ hoperand, ih (reads_start (.inr rfl)) tail htail⟩
  | @key _ p _ _ _ _ hk hown _ ih =>
    exact List.isChain_cons_cons.2 ⟨fun hbehind => ha.operand ▸ hasOperand_of_emit hbehind hown,
      ih (reads_after p hk) tail htail⟩
  | group _ _ _ ihi ih =>
    have hbehind := ih reads_afterGroup tail htail
    have hinside := ihi (reads_start (.inl rfl)) _ hbehind
    rw [Line.toTokens, List.cons_append, List.append_assoc]
    exact List.isChain_cons_cons.2 ⟨supports_of_needsOperand rfl a, hinside⟩

/-- A literal of an accepted level can be read, unless it waits for its exponent. -/
theorem readable_of_level {line out : Line} (h : level answer place p line = .ok out)
    {text : String} (hmem : .key (.literal text) ∈ line.toTokens)
    (htext : (Token.key (.literal text)).completes) : (Literal.parts? text.toList).isSome := by
  replace h := becomes_of_level h
  induction h with
  | nil => cases hmem
  | plus _ ih | minus _ ih | comma _ _ _ ih => exact ih (by simpa [Line.toTokens] using hmem)
  | key _ hown _ ih =>
    rcases List.mem_cons.1 hmem with heq | hmem
    · cases heq
      exact Literal.isSome_parts?_of_check (check_of_emit htext hown)
    · exact ih hmem
  | group _ _ _ ihi ih =>
    rcases Line.mem_toTokens_group.1 hmem with heq | hmem | heq | hmem
    · cases heq
    · exact ihi hmem
    · cases heq
    · exact ih hmem

/-- The grammar accepts a formula only if it is supported. -/
theorem supported_of_ofFormula {answer tokens : List Token} {out : Line} (hne : tokens ≠ [])
    (h : ofFormula answer tokens = .ok out) : Supported tokens := by
  rw [ofFormula, ofTokens, if_neg (by simp [hne]), fill] at h
  split at h
  · cases h
  · next line hline =>
    obtain ⟨n, hn⟩ := Line.exists_toTokens_of_ofTokens? hline
    constructor
    · have hchain := isChain_of_level (reads_start (.inl rfl)) h [] (.singleton _)
      -- The parentheses that were missing stand behind the one that the end counts as.
      have hclosed : .left :: (line.toTokens ++ [.right])
          = Token.left :: (tokens ++ [.right]) ++ List.replicate n .right := by
        rw [hn, List.append_assoc, ← List.replicate_succ', List.replicate_succ]
        simp
      rw [hclosed] at hchain
      exact (List.isChain_append.1 hchain).1
    · intro text hmem htext
      refine readable_of_level h ?_ htext
      rw [hn]
      exact List.mem_append_left _ hmem

end Canonical

end Keypad
