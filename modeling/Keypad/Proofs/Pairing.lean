import Keypad.Token.Pairing
import Mathlib.Data.List.Basic
import Mathlib.Order.Bounds.Basic

/-!
# Which parentheses are paired

A sequence of tokens is measured by its depth, the number of left parentheses minus that of right
ones. The pairing fails at the first right parenthesis behind which the depth is negative. Otherwise
it closes as many parentheses behind the end as the depth of the sequence says, and in the sequence
extended by them each left parenthesis has its own right one, with balanced tokens between the two.

What carries the pairing is the shape of the tokens that were read: balanced stretches with a left
parenthesis between any two of them, whose positions are those still open.
-/

namespace Keypad.Pairing

variable {ts us done inner : List Token} {opened : List Nat} {o o' c c' i : Nat} {k : Key}
  {pairs : List (Nat × Nat)} {p : Pairing}

/-! ## Depth -/

/-- The number of left parentheses minus the number of right ones. -/
def depth (ts : List Token) : Int := ts.count .left - ts.count .right

@[simp] theorem depth_nil : depth [] = 0 := rfl

@[simp] theorem depth_append (ts us : List Token) : depth (ts ++ us) = depth ts + depth us := by
  simp only [depth, List.count_append]
  omega

@[simp] theorem depth_left_cons (ts : List Token) : depth (.left :: ts) = 1 + depth ts :=
  depth_append [.left] ts

@[simp] theorem depth_right_cons (ts : List Token) : depth (.right :: ts) = -1 + depth ts :=
  depth_append [.right] ts

@[simp] theorem depth_key_cons (k : Key) (ts : List Token) : depth (.key k :: ts) = depth ts := by
  simp [depth]

theorem neg_one_le_depth_take_right (n : Nat) : -1 ≤ depth ([Token.right].take n) := by
  cases n <;> simp

/-- The depth behind a left parenthesis. -/
theorem depth_take_succ_of_left (h : ts[i]? = some .left) :
    depth (ts.take (i + 1)) = depth (ts.take i) + 1 := by
  rw [List.take_add_one, h, depth_append]
  rfl

theorem depth_take_succ_of_right (h : ts[i]? = some .right) :
    depth (ts.take (i + 1)) = depth (ts.take i) - 1 := by
  rw [List.take_add_one, h, depth_append]
  rfl

/-! ## Balanced sequences -/

/-- There are as many right parentheses as left ones, and never more of them so far. -/
def Balanced (ts : List Token) : Prop := depth ts = 0 ∧ ∀ n, 0 ≤ depth (ts.take n)

theorem balanced_nil : Balanced [] := ⟨rfl, fun n => by simp⟩

theorem balanced_key (k : Key) : Balanced [.key k] :=
  ⟨by simp, fun n => by cases n <;> simp⟩

theorem Balanced.append (ht : Balanced ts) (hu : Balanced us) : Balanced (ts ++ us) := by
  refine ⟨by rw [depth_append, ht.1, hu.1, Int.add_zero], fun n => ?_⟩
  rw [List.take_append, depth_append]
  exact Int.add_nonneg (ht.2 n) (hu.2 _)

theorem Balanced.enclose (h : Balanced inner) : Balanced (.left :: (inner ++ [.right])) := by
  refine ⟨by simp [h.1], fun n => ?_⟩
  cases n with
  | zero => simp
  | succ n =>
    have hinner := h.2 n
    have hlast := neg_one_le_depth_take_right (n - inner.length)
    rw [List.take_succ_cons, depth_left_cons, List.take_append, depth_append]
    omega

/-! ## What was read -/

/-- The tokens `done` leave the parentheses at the given positions open, the innermost first. Each
is followed by balanced tokens up to the next one. -/
inductive Opened : List Token → List Nat → Prop
  | nil {done : List Token} (h : Balanced done) : Opened done []
  | cons {done inner : List Token} {opened : List Nat} (h : Opened done opened)
      (hinner : Balanced inner) : Opened (done ++ .left :: inner) (done.length :: opened)

theorem Opened.depth_eq (h : Opened done opened) : depth done = opened.length := by
  induction h with
  | nil h => exact h.1
  | cons _ hinner ih =>
    rw [depth_append, depth_left_cons, ih, hinner.1, List.length_cons]
    omega

theorem Opened.depth_take_nonneg (h : Opened done opened) (n : Nat) : 0 ≤ depth (done.take n) := by
  induction h with
  | nil h => exact h.2 n
  | @cons done inner _ _ hinner ih =>
    rw [List.take_append, depth_append]
    refine Int.add_nonneg ih ?_
    cases n - done.length with
    | zero => simp
    | succ k =>
      have hk := hinner.2 k
      rw [List.take_succ_cons, depth_left_cons]
      omega

theorem Opened.append (h : Opened done opened) (hts : Balanced ts) :
    Opened (done ++ ts) opened := by
  cases h with
  | nil h => exact .nil (h.append hts)
  | cons h hinner =>
    rw [List.append_assoc]
    exact .cons h (hinner.append hts)

theorem Opened.left (h : Opened done opened) : Opened (done ++ [.left]) (done.length :: opened) :=
  .cons h balanced_nil

/-- The left parenthesis at `o` and the right one at `c` belong together. -/
structure IsPair (ts : List Token) (o c : Nat) : Prop where
  left : ts[o]? = some .left
  right : ts[c]? = some .right
  lt : o < c
  balanced : Balanced ((ts.take c).drop (o + 1))

/-- A right parenthesis closes the innermost open one. -/
theorem Opened.right (h : Opened done (o :: opened)) (ts : List Token) :
    Opened (done ++ [.right]) opened ∧ IsPair (done ++ .right :: ts) o done.length := by
  generalize hpositions : o :: opened = positions at h
  cases h with
  | nil => cases hpositions
  | @cons done inner _ h hinner =>
    obtain ⟨rfl, rfl⟩ := List.cons.inj hpositions
    refine ⟨?_, ?_, ?_, ?_, ?_⟩
    · rw [List.append_assoc]
      exact h.append hinner.enclose
    · simp
    · simp
    · simp
    · have hstretch : ((done ++ Token.left :: inner ++ .right :: ts).take
          (done ++ Token.left :: inner).length).drop (done.length + 1) = inner := by
        rw [List.take_left, List.drop_append]
        simp
      rw [hstretch]
      exact hinner

/-! ## Reading on -/

/-- A right parenthesis that no left one is open for: more right ones than left ones were read. -/
def IsUnopened (ts : List Token) (i : Nat) : Prop :=
  ts[i]? = some .right ∧ depth (ts.take (i + 1)) < 0

/-- The first right parenthesis that is read while none is open is the first unopened one. -/
theorem Opened.isLeast_isUnopened (h : Opened done []) (ts : List Token) :
    IsLeast {i | IsUnopened (done ++ .right :: ts) i} done.length := by
  refine ⟨⟨by simp, ?_⟩, fun i hi => ?_⟩
  · have hread : (done ++ Token.right :: ts).take (done.length + 1) = done ++ [.right] := by
      rw [List.append_cons]
      exact List.take_left' (by simp)
    rw [hread, depth_append, h.depth_eq]
    decide
  · by_contra hlt
    have hdepth := hi.2
    rw [List.take_append_of_le_length (by omega)] at hdepth
    have hnonneg := h.depth_take_nonneg (i + 1)
    omega

/-- The pairs close the parentheses `opened` and all those from the position `i` on. -/
structure Pairs (ts : List Token) (opened : List Nat) (i : Nat) (pairs : List (Nat × Nat)) :
    Prop where
  isPair : ∀ o c, (o, c) ∈ pairs → IsPair ts o c
  left : ∀ o, o ∈ opened ∨ i ≤ o ∧ ts[o]? = some .left → ∃ c, (o, c) ∈ pairs
  right : ∀ c, i ≤ c → ts[c]? = some .right → ∃ o, (o, c) ∈ pairs

theorem pairs_nil (ts : List Token) : Pairs ts [] ts.length [] := by
  have hend {i : Nat} {t : Token} (hle : ts.length ≤ i) : ts[i]? ≠ some t := by
    rw [List.getElem?_eq_none hle]
    exact Option.some_ne_none t |>.symm
  constructor
  · intro o c h
    cases h
  · rintro o (h | ⟨hle, h⟩)
    · cases h
    · exact absurd h (hend hle)
  · intro c hle h
    exact absurd h (hend hle)

/-- A later position than that of another token. -/
theorem lt_of_getElem? {j : Nat} {t t' : Token} (hi : ts[i]? = some t) (hj : ts[j]? = some t')
    (hne : t ≠ t') (hle : i ≤ j) : i < j := by
  refine hle.lt_of_ne fun heq => hne ?_
  rw [heq, hj] at hi
  exact (Option.some.inj hi).symm

theorem Pairs.of_left (hi : ts[i]? = some .left) (h : Pairs ts (i :: opened) (i + 1) pairs) :
    Pairs ts opened i pairs := by
  constructor
  · exact h.isPair
  · rintro o (ho | ⟨hle, ho⟩)
    · exact h.left o (.inl (List.mem_cons_of_mem _ ho))
    · rcases hle.eq_or_lt with rfl | hlt
      · exact h.left i (.inl List.mem_cons_self)
      · exact h.left o (.inr ⟨hlt, ho⟩)
  · intro c hle hc
    exact h.right c (lt_of_getElem? hi hc (by simp) hle) hc

theorem Pairs.of_key (hi : ts[i]? = some (.key k)) (h : Pairs ts opened (i + 1) pairs) :
    Pairs ts opened i pairs := by
  constructor
  · exact h.isPair
  · rintro o (ho | ⟨hle, ho⟩)
    · exact h.left o (.inl ho)
    · exact h.left o (.inr ⟨lt_of_getElem? hi ho (by simp) hle, ho⟩)
  · intro c hle hc
    exact h.right c (lt_of_getElem? hi hc (by simp) hle) hc

theorem Pairs.of_right (hi : ts[i]? = some .right) (hpair : IsPair ts o i)
    (h : Pairs ts opened (i + 1) pairs) : Pairs ts (o :: opened) i ((o, i) :: pairs) := by
  have hlater {o' : Nat} (h' : ∃ c, (o', c) ∈ pairs) : ∃ c, (o', c) ∈ (o, i) :: pairs :=
    h'.imp fun _ => List.mem_cons_of_mem _
  constructor
  · intro o' c hmem
    rcases List.mem_cons.1 hmem with heq | hmem
    · cases heq
      exact hpair
    · exact h.isPair o' c hmem
  · rintro o' (ho | ⟨hle, ho⟩)
    · rcases List.mem_cons.1 ho with rfl | ho
      · exact ⟨i, List.mem_cons_self⟩
      · exact hlater (h.left o' (.inl ho))
    · exact hlater (h.left o' (.inr ⟨lt_of_getElem? hi ho (by simp) hle, ho⟩))
  · intro c hle hc
    rcases hle.eq_or_lt with rfl | hlt
    · exact ⟨o, List.mem_cons_self⟩
    · exact (h.right c hlt hc).imp fun _ => List.mem_cons_of_mem _

/-- What the pairing of `ts` says that is left with the parentheses `opened` at the position `i`. -/
def Describes (ts : List Token) (opened : List Nat) (i : Nat) : Except Nat Pairing → Prop
  | .error j => IsLeast {j | IsUnopened ts j} j
  | .ok p => p.missing = depth ts ∧ (∀ j, ¬IsUnopened ts j) ∧
      (p.missing = 0 → Pairs ts opened i p.pairs)

theorem Describes.map {opened' : List Nat} {i' : Nat} {r : Except Nat Pairing}
    {f : List (Nat × Nat) → List (Nat × Nat)} (h : Describes ts opened i r)
    (hf : ∀ pairs, Pairs ts opened i pairs → Pairs ts opened' i' (f pairs)) :
    Describes ts opened' i' (r.map fun p => { p with pairs := f p.pairs }) := by
  cases r with
  | error j => exact h
  | ok p => exact ⟨h.1, h.2.1, fun hmissing => hf _ (h.2.2 hmissing)⟩

theorem Describes.mono {opened' : List Nat} {i' : Nat} {r : Except Nat Pairing}
    (h : Describes ts opened i r)
    (hf : ∀ pairs, Pairs ts opened i pairs → Pairs ts opened' i' pairs) :
    Describes ts opened' i' r := by
  cases r with
  | error j => exact h
  | ok p => exact ⟨h.1, h.2.1, fun hmissing => hf _ (h.2.2 hmissing)⟩

theorem describes_pairFrom (h : Opened done opened) (ts : List Token) :
    Describes (done ++ ts) opened done.length (pairFrom opened done.length ts) := by
  induction ts generalizing done opened with
  | nil =>
    rw [List.append_nil]
    refine ⟨h.depth_eq.symm, fun j hj => ?_, fun hmissing => ?_⟩
    · exact absurd hj.2 (not_lt.2 (h.depth_take_nonneg _))
    · obtain rfl := List.eq_nil_of_length_eq_zero hmissing
      exact pairs_nil done
  | cons t ts ih =>
    have hget : (done ++ t :: ts)[done.length]? = some t := by simp
    have hnext {opened' : List Nat} (h : Opened (done ++ [t]) opened') :
        Describes (done ++ t :: ts) opened' (done.length + 1)
          (pairFrom opened' (done.length + 1) ts) := by
      have hrest := ih h
      rwa [← List.append_cons, List.length_append] at hrest
    cases t with
    | left => exact (hnext h.left).mono fun _ => Pairs.of_left hget
    | key k => exact (hnext (h.append (balanced_key k))).mono fun _ => Pairs.of_key hget
    | right =>
      cases opened with
      | nil => exact h.isLeast_isUnopened ts
      | cons o opened =>
        obtain ⟨hread, hpair⟩ := h.right ts
        exact (hnext hread).map fun _ => Pairs.of_right hget hpair

/-! ## Parentheses that stay open -/

theorem pairFrom_replicate_right (opened : List Nat) (i : Nat) :
    pairFrom opened i (List.replicate opened.length .right) = .ok ⟨opened.zipIdx i, 0⟩ := by
  induction opened generalizing i with
  | nil => rfl
  | cons o opened ih =>
    rw [List.length_cons, List.replicate_succ, pairFrom, ih]
    rfl

/-- To close parentheses behind the end is to read the right ones that are missing. -/
theorem pairFrom_append_replicate (h : pairFrom opened i ts = .ok p) :
    pairFrom opened i (ts ++ List.replicate p.missing .right) = .ok ⟨p.pairs, 0⟩ := by
  induction ts generalizing opened i p with
  | nil =>
    cases h
    exact pairFrom_replicate_right opened i
  | cons t ts ih =>
    cases t with
    | left => exact ih h
    | key k => exact ih h
    | right =>
      cases opened with
      | nil => cases h
      | cons o opened =>
        rw [pairFrom] at h
        cases hrest : pairFrom opened (i + 1) ts with
        | error j => simp [hrest, Except.map] at h
        | ok q =>
          rw [hrest] at h
          obtain rfl := Except.ok.inj h
          rw [List.cons_append, pairFrom, ih hrest]
          rfl

/-! ## One partner each -/

theorem IsPair.depth_take (h : IsPair ts o c) {k : Nat} (hk : o + 1 + k ≤ c) :
    depth (ts.take (o + 1 + k))
      = depth (ts.take (o + 1)) + depth (((ts.take c).drop (o + 1)).take k) := by
  have hsplit := List.take_add (l := ts.take c) (i := o + 1) (j := k)
  rw [List.take_take, List.take_take, min_eq_left hk, min_eq_left h.lt] at hsplit
  rw [hsplit, depth_append]

/-- Between two parentheses that belong together the depth is not below that behind the first. -/
theorem IsPair.depth_le (h : IsPair ts o c) (hlow : o < i) (hhigh : i ≤ c) :
    depth (ts.take (o + 1)) ≤ depth (ts.take i) := by
  obtain ⟨k, rfl⟩ := Nat.exists_eq_add_of_le (Nat.succ_le_of_lt hlow)
  rw [h.depth_take hhigh]
  exact Int.le_add_of_nonneg_right (h.balanced.2 k)

theorem IsPair.depth_eq (h : IsPair ts o c) : depth (ts.take c) = depth (ts.take (o + 1)) := by
  have hsplit := List.take_append_drop (o + 1) (ts.take c)
  rw [List.take_take, min_eq_left h.lt] at hsplit
  rw [← hsplit, depth_append, h.balanced.1, Int.add_zero]

theorem IsPair.right_le (h : IsPair ts o c) (h' : IsPair ts o c') : c' ≤ c := by
  by_contra hlt
  have hbehind := depth_take_succ_of_right h.right
  have hinside := h'.depth_le (i := c + 1) (by have := h.lt; omega) (by omega)
  have heq := h.depth_eq
  omega

theorem IsPair.right_unique (h : IsPair ts o c) (h' : IsPair ts o c') : c = c' :=
  le_antisymm (h'.right_le h) (h.right_le h')

theorem IsPair.left_le (h : IsPair ts o c) (h' : IsPair ts o' c) : o' ≤ o := by
  by_contra hlt
  have hbehind := depth_take_succ_of_left h'.left
  have hinside := h.depth_le (i := o') (by omega) h'.lt.le
  have heq := h.depth_eq
  have heq' := h'.depth_eq
  omega

theorem IsPair.left_unique (h : IsPair ts o c) (h' : IsPair ts o' c) : o = o' :=
  le_antisymm (h'.left_le h) (h.left_le h')

/-- Pairs do not cross. -/
theorem IsPair.lt_of_lt (h : IsPair ts o c) (h' : IsPair ts o' c') (hlow : o < o')
    (hhigh : o' < c) :
    c' < c := by
  have hbehind := depth_take_succ_of_left h'.left
  have hinside := h.depth_le (i := o') hlow hhigh.le
  have heq := h.depth_eq
  by_contra hle
  have houtside := h'.depth_le (i := c) hhigh (by omega)
  omega

/-! ## The pairing -/

/-- The pairing closes every left parenthesis of the sequence, and only those, by a right one of its
own behind it; every right one closes a left one; what stands between the two is balanced, so that
pairs do not cross. -/
structure Matches (p : Pairing) (ts : List Token) : Prop where
  isSome_iff : ∀ i, (p.closing? i).isSome ↔ ts[i]? = some .left
  right : ∀ i j, p.closing? i = some j → ts[j]? = some .right
  existsUnique : ∀ j, ts[j]? = some .right → ∃! i, p.closing? i = some j
  lt : ∀ i j, p.closing? i = some j → i < j
  balanced : ∀ i j, p.closing? i = some j → Balanced ((ts.take j).drop (i + 1))
  nested : ∀ i j i' j', p.closing? i = some j → p.closing? i' = some j' → i < i' → i' < j → j' < j

theorem Pairs.closing?_eq_some_iff (h : Pairs ts [] 0 p.pairs) :
    p.closing? o = some c ↔ (o, c) ∈ p.pairs := by
  have hmem {c : Nat} (hc : p.closing? o = some c) : (o, c) ∈ p.pairs := by
    obtain ⟨before, after, hpairs, -⟩ := List.lookup_eq_some_iff.1 hc
    simp [hpairs]
  refine ⟨hmem, fun hpair => ?_⟩
  cases hc : p.closing? o with
  | none => simpa using List.lookup_eq_none_iff.1 hc (o, c) hpair
  | some c' => rw [(h.isPair o c hpair).right_unique (h.isPair o c' (hmem hc))]

theorem Pairs.matches (h : Pairs ts [] 0 p.pairs) : Matches p ts := by
  have hpair {i j : Nat} (hij : p.closing? i = some j) : IsPair ts i j :=
    h.isPair i j (h.closing?_eq_some_iff.1 hij)
  constructor
  · intro i
    rw [Option.isSome_iff_exists]
    constructor
    · rintro ⟨j, hj⟩
      exact (hpair hj).left
    · intro hleft
      exact (h.left i (.inr ⟨Nat.zero_le i, hleft⟩)).imp fun _ => h.closing?_eq_some_iff.2
  · intro i j hij
    exact (hpair hij).right
  · intro j hright
    obtain ⟨i, hi⟩ := h.right j (Nat.zero_le j) hright
    have hij := h.closing?_eq_some_iff.2 hi
    exact ⟨i, hij, fun i' hi' => (hpair hi').left_unique (hpair hij)⟩
  · intro i j hij
    exact (hpair hij).lt
  · intro i j hij
    exact (hpair hij).balanced
  · intro i j i' j' hij hij'
    exact (hpair hij).lt_of_lt (hpair hij')

/-- The pairing fails at the first right parenthesis that is unopened, if there is one. Otherwise as
many parentheses are missing as the left ones outnumber the right ones, and the pairing matches the
sequence with those put behind it. -/
theorem ofTokens_error_iff_or_matches (ts : List Token) :
    (∀ i, ofTokens ts = .error i ↔ IsLeast {i | IsUnopened ts i} i) ∧
    ((∃ i, IsUnopened ts i) ∨ ∃ p, ofTokens ts = .ok p ∧
      p.missing = (ts.count .left : Int) - ts.count .right ∧
      p.Matches (ts ++ List.replicate p.missing .right)) := by
  have hdescribes : Describes ts [] 0 (ofTokens ts) := describes_pairFrom (.nil balanced_nil) ts
  cases hresult : ofTokens ts with
  | error j =>
    rw [hresult] at hdescribes
    refine ⟨fun i => ?_, .inl ⟨j, hdescribes.1⟩⟩
    rw [Except.error.injEq]
    exact ⟨fun heq => heq ▸ hdescribes, fun hleast => hdescribes.unique hleast⟩
  | ok p =>
    rw [hresult] at hdescribes
    obtain ⟨hmissing, hnone, -⟩ := hdescribes
    refine ⟨fun i => ?_, .inr ⟨p, rfl, hmissing, ?_⟩⟩
    · exact iff_of_false nofun fun hleast => hnone i hleast.1
    · have hextended := describes_pairFrom (.nil balanced_nil) (ts ++ .replicate p.missing .right)
      rw [List.nil_append, List.length_nil, pairFrom_append_replicate hresult] at hextended
      exact Pairs.matches (p := p) (hextended.2.2 rfl)

/-- Of two parentheses that stay open the inner one is closed first. -/
example : ofTokens [.left, .left, .key (.literal "1")] = .ok ⟨[(1, 3), (0, 4)], 2⟩ := by decide

end Keypad.Pairing
