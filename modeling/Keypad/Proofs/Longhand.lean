import Keypad.Proofs.Arithmetic.Syntax
import Keypad.Proofs.Canonical.Content

/-!
# Longhand

A formula may be typed with parentheses left open, with multiplications understood and with several
signs in a row. In longhand every left parenthesis is closed, every multiplication is shown and
every run of signs is one sign. The tokens in longhand are those of a line, if the typed ones are,
and of none otherwise.
-/

namespace Keypad

namespace Token

/-- The number of left parentheses open behind the tokens, with `n` of them open before. -/
def opened (n : Nat) : List Token → Nat
  | [] => n
  | left :: ts => opened (n + 1) ts
  | right :: ts => opened (n - 1) ts
  | key _ :: ts => opened n ts

/-- One right parenthesis is added for each left one that stays open. -/
def close (tokens : List Token) : List Token := tokens ++ List.replicate (opened 0 tokens) right

/-- Is a multiplication understood between the two tokens? -/
def understood (a b : Token) : Bool := a.completes && b.begins

/-- The multiplications that are understood among the tokens behind `a` are shown. -/
def timesBehind (a : Token) : List Token → List Token
  | [] => []
  | t :: ts => (if a.understood t then [key .times] else []) ++ t :: timesBehind t ts

/-- A multiplication sign is put between any two neighbours where one is understood. -/
def showTimes : List Token → List Token
  | [] => []
  | t :: ts => t :: timesBehind t ts

/-- The sign that stands for a run of them. -/
def foldRun (run : List Token) : Token :=
  if run.count (key .minus) % 2 = 1 then key .minus else key .plus

/-- Every maximal run of signs is replaced by one sign. -/
def foldSigns : List Token → List Token
  | [] => []
  | t :: ts =>
    if t.isSign then foldRun (t :: ts.takeWhile isSign) :: foldSigns (ts.dropWhile isSign)
    else t :: foldSigns ts
termination_by ts => ts.length
decreasing_by
  · exact Nat.lt_succ_of_le (List.dropWhile_suffix isSign).length_le
  · simp

/-- The tokens in longhand. -/
def longhand (tokens : List Token) : List Token := foldSigns (showTimes (close tokens))

/-- The formula `2(3--1` is `2×(3+1)` in longhand. -/
example : longhand [key (.literal "2"), left, key (.literal "3"), key .minus, key .minus,
      key (.literal "1")]
    = [key (.literal "2"), key .times, left, key (.literal "3"), key .plus, key (.literal "1"),
      right] := by decide +kernel

theorem isEmpty_longhand (tokens : List Token) : (longhand tokens).isEmpty = tokens.isEmpty := by
  cases tokens with
  | nil =>
    rw [longhand, close, opened, List.replicate_zero, List.append_nil, showTimes, foldSigns]
  | cons t ts =>
    rw [longhand, close, List.cons_append, showTimes, foldSigns]
    split <;> rfl

/-! ## Parentheses -/

/-- The right parentheses among the tokens whose left ones are missing, with `n` of them behind. -/
def orphans (n : Nat) (tokens : List Token) : Nat :=
  tokens.foldr (fun t n => match t with
    | left => n - 1
    | right => n + 1
    | key _ => n) n

theorem orphans_mono {m n : Nat} (h : m ≤ n) (tokens : List Token) :
    orphans m tokens ≤ orphans n tokens := by
  induction tokens with
  | nil => exact h
  | cons t ts ih =>
    cases t with
    | key k => exact ih
    | left => exact Nat.sub_le_sub_right ih 1
    | right => exact Nat.succ_le_succ ih

theorem orphans_append (n : Nat) (ts us : List Token) :
    orphans n (ts ++ us) = orphans (orphans n us) ts := List.foldr_append

theorem orphans_timesBehind (n : Nat) (a : Token) (tokens : List Token) :
    orphans n (timesBehind a tokens) = orphans n tokens := by
  induction tokens generalizing a with
  | nil => rfl
  | cons t ts ih =>
    rw [timesBehind, orphans_append]
    have hshown : orphans n (t :: timesBehind t ts) = orphans n (t :: ts) := by
      simp only [orphans, List.foldr_cons] at ih ⊢
      rw [ih]
    rw [hshown]
    split <;> rfl

theorem orphans_showTimes (n : Nat) (tokens : List Token) :
    orphans n (showTimes tokens) = orphans n tokens := by
  cases tokens with
  | nil => rfl
  | cons t ts =>
    have hrest := orphans_timesBehind n t ts
    simp only [orphans, showTimes, List.foldr_cons] at hrest ⊢
    rw [hrest]

theorem orphans_of_signs {signs : List Token} (h : ∀ s ∈ signs, s.isSign) (n : Nat) :
    orphans n signs = n := by
  induction signs with
  | nil => rfl
  | cons s signs ih =>
    have hrest := ih fun t ht => h t (List.mem_cons_of_mem _ ht)
    rcases eq_of_isSign (h s List.mem_cons_self) with rfl | rfl <;> exact hrest

theorem isSign_foldRun (run : List Token) : (foldRun run).isSign := by
  rw [foldRun]
  split <;> rfl

theorem orphans_foldSigns (n : Nat) (tokens : List Token) :
    orphans n (foldSigns tokens) = orphans n tokens := by
  fun_induction foldSigns tokens with
  | case1 => rfl
  | case2 t ts hsign ih =>
    have hrun : ∀ s ∈ t :: ts.takeWhile isSign, s.isSign := by
      intro s hs
      rcases List.mem_cons.1 hs with rfl | hs
      · exact hsign
      · exact List.mem_takeWhile_imp hs
    have hone : ∀ s ∈ [foldRun (t :: ts.takeWhile isSign)], s.isSign := by
      intro s hs
      rw [List.mem_singleton.1 hs]
      exact isSign_foldRun _
    calc orphans n (foldRun (t :: ts.takeWhile isSign) :: foldSigns (ts.dropWhile isSign))
        = orphans n (foldSigns (ts.dropWhile isSign)) := by
          rw [← List.singleton_append, orphans_append, orphans_of_signs hone]
      _ = orphans n (ts.dropWhile isSign) := ih
      _ = orphans n (t :: ts.takeWhile isSign ++ ts.dropWhile isSign) := by
          rw [orphans_append, orphans_of_signs hrun]
      _ = orphans n (t :: ts) := by rw [List.cons_append, List.takeWhile_append_dropWhile]
  | case3 t ts _ ih =>
    simp only [orphans, List.foldr_cons] at ih ⊢
    rw [ih]

/-- A line leaves as many parentheses open as there were before it. -/
theorem opened_toTokens_append (line : Line) (n : Nat) (ts : List Token) :
    opened n (line.toTokens ++ ts) = opened n ts := by
  induction line generalizing n ts with
  | nil => rfl
  | key k rest ih => exact ih n ts
  | group inner rest ihi ihr =>
    rw [Line.toTokens, List.cons_append, List.append_assoc, opened, ihi]
    exact ihr n ts

theorem opened_append (n : Nat) (ts us : List Token) :
    opened n (ts ++ us) = opened (opened n ts) us := by
  induction ts generalizing n with
  | nil => rfl
  | cons t ts ih =>
    cases t with
    | key k => exact ih n
    | left => exact ih (n + 1)
    | right => exact ih (n - 1)

theorem opened_replicate (n k : Nat) : opened n (List.replicate k right) = n - k := by
  induction k generalizing n with
  | zero => rfl
  | succ k ih =>
    rw [List.replicate_succ, opened, ih]
    omega

/-- More parentheses open before the tokens leave at most as many more open behind them. -/
theorem opened_add_le (n k : Nat) (ts : List Token) : opened (n + k) ts ≤ opened n ts + k := by
  induction ts generalizing n k with
  | nil => exact Nat.le_refl _
  | cons t ts ih =>
    cases t with
    | key j => exact ih n k
    | left =>
      have hle := ih (n + 1) k
      rwa [Nat.add_right_comm] at hle
    | right =>
      rw [opened, opened]
      by_cases hn : n = 0
      · subst hn
        have hle := ih 0 (k - 1)
        rw [Nat.zero_add] at hle ⊢
        exact hle.trans (Nat.add_le_add_left (Nat.sub_le k 1) _)
      · have hle := ih (n - 1) k
        rwa [← Nat.sub_add_comm (Nat.pos_of_ne_zero hn)] at hle

end Token

open Token

namespace Line

theorem length_foldr_place (tokens : List Token) (line : Line) (outer : List Line) :
    (tokens.foldr place (line, outer)).2.length = orphans outer.length tokens := by
  induction tokens with
  | nil => rfl
  | cons t ts ih =>
    rw [List.foldr_cons]
    generalize ts.foldr place (line, outer) = state at ih ⊢
    obtain ⟨inner, rest⟩ := state
    cases t with
    | key k => exact ih
    | right => exact congrArg (· + 1) ih
    | left =>
      have hlength : (place .left (inner, rest)).2.length = rest.length - 1 := by
        cases rest <;> rfl
      rw [hlength]
      exact congrArg (· - 1) ih

/-- Tokens have a line if every right parenthesis among them has a left one. -/
theorem ofTokens?_eq_none_iff (tokens : List Token) :
    ofTokens? tokens = none ↔ orphans 0 tokens ≠ 0 := by
  have hlength := length_foldr_place tokens nil []
  rw [ofTokens?]
  generalize tokens.foldr place (nil, []) = state at hlength
  obtain ⟨line, outer⟩ := state
  rw [List.length_nil] at hlength
  rw [← hlength]
  cases outer with
  | nil => simp
  | cons m ms => simp

/-- Closed tokens are those of their line. -/
theorem close_eq_toTokens {tokens : List Token} {line : Line} (h : ofTokens? tokens = some line) :
    close tokens = line.toTokens := by
  obtain ⟨n, hn⟩ := exists_toTokens_of_ofTokens? h
  have hopened (k : Nat) : opened k tokens - n = k := by
    have hline := opened_toTokens_append line k []
    rw [List.append_nil] at hline
    rwa [hn, opened_append, opened_replicate] at hline
  have hzero := hopened 0
  have hmany := hopened n
  have hle := opened_add_le 0 n tokens
  rw [Nat.zero_add] at hle
  have hcount : opened 0 tokens = n := by omega
  rw [close, hcount, hn]

/-! ## Lines in longhand -/

/-- The line with the multiplications shown that are understood behind the token `a`. -/
def showTimes (a : Token) : Line → Line
  | nil => nil
  | key k rest =>
    if a.understood (.key k) then key .times (key k (rest.showTimes (.key k)))
    else key k (rest.showTimes (.key k))
  | group inner rest =>
    if a.understood .left then key .times (group (inner.showTimes .left) (rest.showTimes .right))
    else group (inner.showTimes .left) (rest.showTimes .right)

/-- The line with one sign for each run, behind a run that waits. -/
def foldSigns (run : Option Bool) : Line → Line
  | nil => Arithmetic.signLine run
  | key .plus rest => rest.foldSigns (some (run.getD false != false))
  | key .minus rest => rest.foldSigns (some (run.getD false != true))
  | key k rest => Arithmetic.signLine run ++ key k (rest.foldSigns none)
  | group inner rest =>
    Arithmetic.signLine run ++ group (inner.foldSigns none) (rest.foldSigns none)

def longhand (line : Line) : Line := (line.showTimes .left).foldSigns none

theorem timesBehind_append_right (a : Token) (ts us : List Token) :
    timesBehind a (ts ++ .right :: us) = timesBehind a ts ++ .right :: timesBehind .right us := by
  induction ts generalizing a with
  | nil => simp [timesBehind, understood]
  | cons t ts ih => simp [timesBehind, ih]

theorem timesBehind_toTokens (a : Token) (line : Line) :
    timesBehind a line.toTokens = (line.showTimes a).toTokens := by
  induction line generalizing a with
  | nil => rfl
  | key k rest ih =>
    rw [toTokens, timesBehind, ih, showTimes]
    split <;> rfl
  | group inner rest ihi ihr =>
    rw [toTokens, timesBehind, timesBehind_append_right, ihi, ihr, showTimes]
    split <;> rfl

theorem showTimes_toTokens (line : Line) :
    Token.showTimes line.toTokens = (line.showTimes .left).toTokens := by
  rw [← timesBehind_toTokens]
  cases line with
  | nil => rfl
  | key k rest => rfl
  | group inner rest => rfl

/-- What a run of signs comes to, if there is one. -/
def runSign (signs : List Token) : Option Bool :=
  if signs = [] then none else some (signs.count (.key .minus) % 2 = 1)

theorem getD_runSign (signs : List Token) :
    (runSign signs).getD false = decide (signs.count (.key .minus) % 2 = 1) := by
  rw [runSign]
  split
  · next h =>
    rw [h]
    rfl
  · rfl

theorem runSign_append_plus (signs : List Token) :
    runSign (signs ++ [.key .plus]) = some ((runSign signs).getD false != false) := by
  rw [getD_runSign, runSign, if_neg (by simp), List.count_append]
  simp

theorem runSign_append_minus (signs : List Token) :
    runSign (signs ++ [.key .minus]) = some ((runSign signs).getD false != true) := by
  have hparity (n : Nat) : decide ((n + 1) % 2 = 1) = (decide (n % 2 = 1) != true) := by
    rcases Nat.mod_two_eq_zero_or_one n with h | h
    · simp [h, Nat.add_mod]
    · simp [h, Nat.add_mod]
  rw [getD_runSign, runSign, if_neg (by simp), List.count_append]
  exact congrArg some (hparity _)

theorem toTokens_signLine_runSign {signs : List Token} (h : signs ≠ []) :
    (Arithmetic.signLine (runSign signs)).toTokens = [foldRun signs] := by
  rw [runSign, if_neg h, foldRun]
  split
  · next hodd => simp [hodd, Arithmetic.signLine, Arithmetic.signKey, toTokens]
  · next hodd => simp [hodd, Arithmetic.signLine, Arithmetic.signKey, toTokens]

section Run

variable {t : Token} (ht : t.isSign = false)
include ht

theorem takeWhile_isSign_append (ts us : List Token) :
    (ts ++ t :: us).takeWhile isSign = ts.takeWhile isSign := by
  induction ts with
  | nil => simp [ht]
  | cons u ts ih =>
    rw [List.cons_append, List.takeWhile_cons, List.takeWhile_cons, ih]

theorem dropWhile_isSign_append (ts us : List Token) :
    (ts ++ t :: us).dropWhile isSign = ts.dropWhile isSign ++ t :: us := by
  induction ts with
  | nil => simp [ht]
  | cons u ts ih =>
    rw [List.cons_append, List.dropWhile_cons, List.dropWhile_cons, ih]
    split <;> rfl

/-- A token that is no sign ends every run. -/
theorem foldSigns_append (ts us : List Token) :
    Token.foldSigns (ts ++ t :: us) = Token.foldSigns ts ++ t :: Token.foldSigns us := by
  fun_induction Token.foldSigns ts with
  | case1 => rw [List.nil_append, Token.foldSigns, ht]; rfl
  | case2 u ts hsign ih =>
    rw [List.cons_append, Token.foldSigns, if_pos hsign, takeWhile_isSign_append ht,
      dropWhile_isSign_append ht, ih]
    rfl
  | case3 u ts hsign ih =>
    rw [List.cons_append, Token.foldSigns, if_neg hsign, ih]
    rfl

end Run

theorem foldSigns_signs {signs : List Token} (hs : ∀ s ∈ signs, s.isSign) :
    Token.foldSigns signs = (Arithmetic.signLine (runSign signs)).toTokens := by
  cases signs with
  | nil => rw [Token.foldSigns]; rfl
  | cons s signs =>
    have hrest : ∀ u ∈ signs, u.isSign := fun u hu => hs u (List.mem_cons_of_mem _ hu)
    rw [toTokens_signLine_runSign (List.cons_ne_nil s signs), Token.foldSigns,
      if_pos (hs s List.mem_cons_self), List.takeWhile_eq_self_iff.2 hrest,
      List.dropWhile_eq_nil_iff.2 hrest, Token.foldSigns]

theorem foldSigns_key {k : Key} (hk : (Token.key k).isSign = false) (run : Option Bool)
    (rest : Line) : (key k rest).foldSigns run
      = Arithmetic.signLine run ++ key k (rest.foldSigns none) := by
  cases k with
  | plus => cases hk
  | minus => cases hk
  | _ => rfl

theorem isSign_of_mem_nil : ∀ s ∈ ([] : List Token), s.isSign := List.forall_mem_nil _

/-- The signs before a line belong to the run with which it starts. -/
theorem foldSigns_append_toTokens {signs : List Token} (hs : ∀ s ∈ signs, s.isSign)
    (line : Line) :
    Token.foldSigns (signs ++ line.toTokens) = (line.foldSigns (runSign signs)).toTokens := by
  induction line generalizing signs with
  | nil => rw [toTokens, List.append_nil, foldSigns_signs hs, foldSigns]
  | key k rest ih =>
    have hrest : Token.foldSigns rest.toTokens = (rest.foldSigns none).toTokens :=
      ih isSign_of_mem_nil
    have hmore (hk : (Token.key k).isSign) :
        Token.foldSigns (signs ++ (key k rest).toTokens)
          = (rest.foldSigns (runSign (signs ++ [.key k]))).toTokens := by
      have hsigns : ∀ s ∈ signs ++ [.key k], s.isSign := by
        intro s hmem
        rcases List.mem_append.1 hmem with hmem | hmem
        · exact hs s hmem
        · rwa [List.mem_singleton.1 hmem]
      rw [← ih hsigns, toTokens, List.append_cons]
    by_cases hk : (Token.key k).isSign
    · rcases eq_of_isSign hk with hplus | hminus
      · cases hplus
        rw [hmore hk, runSign_append_plus]
        rfl
      · cases hminus
        rw [hmore hk, runSign_append_minus]
        rfl
    · have hk' : (Token.key k).isSign = false := by simpa using hk
      rw [toTokens, foldSigns_append hk', foldSigns_signs hs, foldSigns_key hk', hrest,
        toTokens_append, toTokens]
  | group inner rest ihi ihr =>
    have hinner : Token.foldSigns inner.toTokens = (inner.foldSigns none).toTokens :=
      ihi isSign_of_mem_nil
    have hrest : Token.foldSigns rest.toTokens = (rest.foldSigns none).toTokens :=
      ihr isSign_of_mem_nil
    rw [toTokens, foldSigns_append rfl, foldSigns_signs hs, foldSigns_append rfl, hinner, hrest,
      foldSigns, toTokens_append, toTokens]

theorem foldSigns_toTokens (line : Line) :
    Token.foldSigns line.toTokens = (line.foldSigns none).toTokens :=
  foldSigns_append_toTokens isSign_of_mem_nil line

/-! ## Reading longhand -/

theorem longhand_eq_toTokens {tokens : List Token} {line : Line}
    (h : ofTokens? tokens = some line) : Token.longhand tokens = line.longhand.toTokens := by
  rw [Token.longhand, close_eq_toTokens h, showTimes_toTokens, foldSigns_toTokens, longhand]

/-- Tokens in longhand have the line of the typed tokens in longhand, or none if these have none. -/
theorem ofTokens?_longhand (tokens : List Token) :
    ofTokens? (Token.longhand tokens) = (ofTokens? tokens).map longhand := by
  cases h : ofTokens? tokens with
  | some line => rw [longhand_eq_toTokens h, ofTokens?_toTokens, Option.map_some]
  | none =>
    have horphans := (ofTokens?_eq_none_iff tokens).1 h
    have hmore : orphans 0 tokens ≤ orphans 0 (close tokens) := by
      rw [close, orphans_append]
      exact orphans_mono (Nat.zero_le _) tokens
    rw [Option.map_none, ofTokens?_eq_none_iff, Token.longhand, orphans_foldSigns,
      orphans_showTimes]
    omega

end Line

end Keypad
