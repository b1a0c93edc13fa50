import Keypad.Proofs.Arithmetic.Exactness

/-!
# Sums in decimals

A sum of literals can be followed in decimals alone. As long as the run is exact its values are
fractions of few decimal places, whose decimals are not rounded, and later they are decimals.
-/

namespace Keypad

/-- The decimal of a literal. -/
def Literal.decimal (text : String) : Except Failure Decimal :=
  match parts? text.toList with
  | none => .error (.unreadLiteral text)
  | some (m, e) =>
    let d := Decimal.scaled m e
    if Quantity.exceedsMaximum d then .error .tooLarge
    else .ok (if d.leading < -2 * maxExponent then .zero else d)

namespace Decimal

/-- The rounded sum, unless it is too large. -/
def checkedAdd (a b : Decimal) : Except Failure Decimal :=
  if Quantity.exceedsMaximum (a.add b) then .error .tooLarge else .ok (a.add b)

/-- The sum of decimals as the machine drains it: the first one is added to the last one, the
second one to that sum, and so on to the last but one. -/
def drain (ds : List Decimal) : Except Failure Decimal :=
  match ds.reverse with
  | [] => .ok .zero
  | last :: earlier => earlier.foldrM checkedAdd last

/-- The drained sum, with the first decimal and `i` more drained before the others. -/
def drainGrouped (i : Nat) (ds : List Decimal) : Except Failure Decimal := do
  let d ← drain (ds.take (i + 1))
  drain (d :: ds.drop (i + 1))

end Decimal

/-- A sum of fractions of few decimal places is not rounded. -/
theorem Decimal.checkedAdd_ofRat {x y : Rat} (hx : Quantity.Terminates x)
    (hy : Quantity.Terminates y) (hxs : |x| < 10 ^ 10) (hys : |y| < 10 ^ 10) :
    checkedAdd (.ofRat x) (.ofRat y) = .ok (.ofRat (x + y)) := by
  have hsize : |x + y| < 10 ^ 11 := by
    refine (abs_add_le x y).trans_lt ?_
    linarith
  rw [checkedAdd, Quantity.add_ofRat hx hy hxs hys,
    Quantity.exceedsMaximum_ofRat (hx.add hy) hsize]
  rfl

/-! ## Failures -/

/-- If it fails, then because a number is too large. -/
abbrev OnlyTooLarge {α : Type} (x : Except Failure α) : Prop := FailsIn (fun f => f = .tooLarge) x

/-- The order of two such computations does not matter. -/
theorem OnlyTooLarge.comm {α β γ : Type} {x : Except Failure α} {y : Except Failure β}
    (hx : OnlyTooLarge x) (hy : OnlyTooLarge y) (k : α → β → Except Failure γ) :
    (x >>= fun a => y >>= fun b => k a b) = y >>= fun b => x >>= fun a => k a b := by
  cases x with
  | ok a => rfl
  | error f =>
    cases y with
    | ok b => rfl
    | error g =>
      rw [hx f rfl, hy g rfl]
      rfl

theorem Decimal.onlyTooLarge_checkedAdd (a b : Decimal) : OnlyTooLarge (checkedAdd a b) := by
  intro f hf
  rw [checkedAdd] at hf
  split at hf
  · cases hf
    rfl
  · cases hf

theorem Decimal.onlyTooLarge_drain (ds : List Decimal) : OnlyTooLarge (drain ds) := by
  rw [drain]
  cases ds.reverse with
  | nil => exact failsIn_ok _
  | cons last earlier =>
    show OnlyTooLarge (earlier.foldrM checkedAdd last)
    induction earlier with
    | nil => exact failsIn_ok _
    | cons d earlier ih =>
      rw [List.foldrM_cons]
      exact ih.bind fun a => onlyTooLarge_checkedAdd d a

theorem Literal.onlyTooLarge_decimal {text : String} (h : (parts? text.toList).isSome) :
    OnlyTooLarge (decimal text) := by
  obtain ⟨r, hr⟩ := Option.isSome_iff_exists.1 h
  intro f hf
  rw [decimal] at hf
  rw [hr] at hf
  dsimp only at hf
  split at hf
  · cases hf
    rfl
  · cases hf

namespace Run

variable {α β γ δ : Type} {t u : Trail}

/-- The run fails as `x` does, or ends with a value related to that of `x`, given whether the run
is still exact. -/
def Agrees (t : Trail) (m : Run α) (x : Except Failure β) (R : Bool → α → β → Prop) : Prop :=
  Ends (fun f => x = .error f) t m fun a u =>
    ∃ b, x = .ok b ∧ (u.exact → t.exact) ∧ R u.exact a b

theorem agrees_pure {R : Bool → α → β → Prop} {a : α} {b : β} (h : R t.exact a b) :
    Agrees t (pure a) (pure b) R := ⟨b, rfl, id, h⟩

theorem Agrees.bind {m : Run α} {x : Except Failure β} {R : Bool → α → β → Prop}
    (h : Agrees t m x R) {k : α → Run γ} {l : β → Except Failure δ} {S : Bool → γ → δ → Prop}
    (hk : ∀ u a b, (u.exact → t.exact) → R u.exact a b → Agrees u (k a) (l b) S) :
    Agrees t (m >>= k) (x >>= l) S := by
  rw [Agrees, ends_bind]
  apply Ends.imp h
  · rintro f rfl
    rfl
  · rintro a u ⟨b, rfl, hkept, hr⟩
    apply (hk u a b hkept hr).mono
    rintro c v ⟨d, hd, hkept', hs⟩
    exact ⟨d, hd, fun hv => hkept (hkept' hv), hs⟩

/-- A step that is made on the side of the decimals alone. -/
theorem Agrees.map {m : Run α} {x : Except Failure β} {R : Bool → α → β → Prop}
    (h : Agrees t m x R) (g : β → γ) {S : Bool → α → γ → Prop}
    (hs : ∀ e a b, R e a b → S e a (g b)) : Agrees t m (x >>= fun b => pure (g b)) S := by
  have hbind := h.bind (k := pure) (l := fun b => pure (g b)) (S := S)
    fun u a b _ hr => agrees_pure (hs _ _ _ hr)
  rwa [bind_pure] at hbind

/-! ## Values and their decimals -/

/-- The quantity has the decimal `d`, and is a fraction of few decimal places in an exact run. -/
structure Denotes (exact : Bool) (v : Quantity) (d : Decimal) : Prop where
  decimal : v.toDecimal = d
  fraction : exact → ∃ q, v = .exact q ∧ Quantity.inBounds q ∧ Quantity.Terminates q

theorem Denotes.mono {e e' : Bool} {v : Quantity} {d : Decimal} (h : Denotes e v d)
    (he : e' → e) : Denotes e' v d := ⟨h.decimal, fun h' => h.fraction (he h')⟩

theorem denotes_approx (d : Decimal) : Denotes false (.approx d) d := ⟨rfl, fun h => by cases h⟩

theorem denotes_neg {e : Bool} {v : Quantity} {d : Decimal} (h : Denotes e v d) :
    Denotes e v.neg (-d) := by
  obtain ⟨hd, hfraction⟩ := h
  constructor
  · cases v with
    | exact q => exact (Quantity.ofRat_neg q).trans (congrArg _ hd)
    | approx a => exact congrArg (- ·) hd
  · intro he
    obtain ⟨q, rfl, hbounds, hq⟩ := hfraction he
    refine ⟨-q, rfl, ?_, hq.neg⟩
    simpa [Quantity.inBounds] using hbounds

theorem agrees_degrade (d : Decimal) :
    Agrees t (degrade >>= fun _ => pure (.approx d)) (.ok d) Denotes :=
  ⟨d, rfl, (fun h => by cases h), denotes_approx d⟩

/-- A fraction of few decimal places is settled as itself or as its decimal. -/
theorem agrees_settle_exact {q : Rat} (hq : Quantity.Terminates q) :
    Agrees t (settle (.exact q)) (.ok (.ofRat q)) Denotes := by
  rw [Agrees]
  simp only [settle, ends_bind, ends_get]
  split
  · next h =>
    obtain ⟨-, hbounds⟩ := Bool.and_eq_true_iff.1 h
    exact ⟨_, rfl, id, rfl, fun _ => ⟨q, rfl, hbounds, hq⟩⟩
  · exact ⟨_, rfl, (fun h => by cases h), denotes_approx _⟩

/-- A last settling changes no decimal. -/
theorem agrees_settle {v : Quantity} {d : Decimal} (h : Denotes t.exact v d) :
    Agrees t (settle v) (.ok d) fun _ v d => v.toDecimal = d := by
  obtain ⟨hd, -⟩ := h
  rw [Agrees]
  cases v with
  | exact q =>
    simp only [settle, ends_bind, ends_get]
    split
    · exact ⟨_, rfl, id, hd⟩
    · exact ⟨_, rfl, (fun h => by cases h), hd⟩
  | approx a => exact ⟨_, rfl, (fun h => by cases h), hd⟩

theorem agrees_literal (text : String) :
    Agrees t (literal text) (Literal.decimal text) Denotes := by
  rw [literal, Literal.decimal]
  cases hparts : Literal.parts? text.toList with
  | none => exact rfl
  | some p =>
    obtain ⟨m, e⟩ := p
    dsimp only
    rw [Agrees, bounded]
    split
    · next hlarge => simp only [ends_bind, ends_throw]
    · next hlarge =>
      simp only [pure_bind]
      split
      · exact agrees_degrade _
      · simp only [ends_bind, ends_get]
        split
        · next hexact =>
          split
          · next q hq =>
            have hbounds := (Quantity.literalRat?_eq_some hq).2.1
            have hterminates := Quantity.terminates_of_literalRat? hq
            exact ⟨_, rfl, id, Quantity.ofRat_eq_scaled hq, fun _ => ⟨q, rfl, hbounds, hterminates⟩⟩
          · exact agrees_degrade _
        · next hinexact => exact ⟨_, rfl, id, rfl, fun h => absurd h hinexact⟩

theorem agrees_add {v w : Quantity} {a b : Decimal} (hv : Denotes t.exact v a)
    (hw : Denotes t.exact w b) : Agrees t (add v w) (Decimal.checkedAdd a b) Denotes := by
  rw [Agrees, add, combine]
  simp only [ends_bind, ends_get]
  split
  · next x y hexact =>
    obtain ⟨p, ⟨⟩, hpb, hp⟩ := hv.fraction hexact
    obtain ⟨q, ⟨⟩, hqb, hq⟩ := hw.fraction hexact
    have ha : Decimal.ofRat x = a := hv.decimal
    have hb : Decimal.ofRat y = b := hw.decimal
    rw [← ha, ← hb, Decimal.checkedAdd_ofRat hp hq (Quantity.abs_lt_of_inBounds hpb)
      (Quantity.abs_lt_of_inBounds hqb)]
    exact agrees_settle_exact (hp.add hq)
  · next hother =>
    rw [hv.decimal, hw.decimal]
    rw [bounded, Decimal.checkedAdd]
    split
    · next hlarge => simp only [ends_bind, ends_throw]
    · exact ⟨_, rfl, (fun h => by cases h), denotes_approx _⟩

theorem agrees_foldrM {vs : List Quantity} {ds : List Decimal} {v : Quantity} {d : Decimal}
    (hvs : List.Forall₂ (Denotes t.exact) vs ds) (hv : Denotes t.exact v d) :
    Agrees t (vs.foldrM add v) (ds.foldrM Decimal.checkedAdd d) Denotes := by
  induction hvs with
  | nil => exact agrees_pure hv
  | cons hw _ ih =>
    rw [List.foldrM_cons, List.foldrM_cons]
    exact ih.bind fun u a b hkept hab => agrees_add (hw.mono hkept) hab

/-- A sum is drained as its decimals are. -/
theorem agrees_sum {g : Quantity × List Quantity} {ds : List Decimal}
    (h : List.Forall₂ (Denotes t.exact) (g.1 :: g.2) ds.reverse) :
    Agrees t (operations.sum g) (Decimal.drain ds) Denotes := by
  rw [Decimal.drain]
  cases hds : ds.reverse with
  | nil =>
    rw [hds] at h
    cases h
  | cons last earlier =>
    rw [hds] at h
    obtain ⟨hlast, hearlier⟩ := List.forall₂_cons.1 h
    exact agrees_foldrM hearlier hlast

end Run

end Keypad
