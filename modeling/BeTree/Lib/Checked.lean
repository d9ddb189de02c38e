import Mathlib.Algebra.Order.Ring.Int
import Mathlib.Tactic.Common

/-!
# Computations that may fail

A computation in `Except` with asserts in it. `Ensures` says that it succeeds, with
a result of which something holds; `Yields` says it only of the result, if there is
one; `Avoids` says that a certain assert does not fail. They follow the structure of
the computation.
-/

namespace Checked

variable {ε α β σ : Type}

/-- `assert(p)`. -/
def check (p : Bool) (e : ε) : Except ε Unit := if p then .ok () else .error e

/-- The value, which must be there. -/
def need (e : ε) : Option α → Except ε α
  | some a => .ok a
  | none => .error e

/-- It succeeds, and the result satisfies `Q`. -/
def Ensures (x : Except ε α) (Q : α → Prop) : Prop := ∃ a, x = .ok a ∧ Q a

/-- If it succeeds, the result satisfies `Q`. -/
def Yields (x : Except ε α) (Q : α → Prop) : Prop := ∀ a, x = .ok a → Q a

/-- It does not stop with `e`. -/
def Avoids (e : ε) (x : Except ε α) : Prop := x ≠ .error e

variable {Q R : α → Prop}

theorem bind_eq_ok {x : Except ε α} {f : α → Except ε β} {b : β} :
    x >>= f = .ok b ↔ ∃ a, x = .ok a ∧ f a = .ok b := by
  constructor
  · intro h
    cases x with
    | error e => cases h
    | ok a => exact ⟨a, rfl, h⟩
  · rintro ⟨a, rfl, h⟩
    exact h

theorem map_eq_error {x : Except ε α} {f : α → β} {e : ε} (h : x.map f = .error e) :
    x = .error e := by
  cases x with
  | ok a => cases h
  | error e' =>
      injection h with h
      rw [h]

theorem map_eq_ok {x : Except ε α} {f : α → β} {b : β} (h : x.map f = .ok b) :
    ∃ a, x = .ok a ∧ f a = b := by
  cases x with
  | ok a =>
      injection h with h
      exact ⟨a, rfl, h⟩
  | error e => cases h

/-! ## Success -/

theorem Ensures.imp {x : Except ε α} (h : Ensures x Q) (hq : ∀ a, Q a → R a) : Ensures x R := by
  obtain ⟨a, ha, hqa⟩ := h
  exact ⟨a, ha, hq a hqa⟩

theorem ensures_pure {a : α} (h : Q a) : Ensures (pure a : Except ε α) Q := ⟨a, rfl, h⟩

theorem Ensures.bind {x : Except ε α} {f : α → Except ε β} {S : β → Prop} (hx : Ensures x Q)
    (hf : ∀ a, Q a → Ensures (f a) S) : Ensures (x >>= f) S := by
  obtain ⟨a, rfl, ha⟩ := hx
  exact hf a ha

theorem ensures_check {p : Bool} {e : ε} {S : Unit → Prop} (hp : p = true) (hs : S ()) :
    Ensures (check p e) S := by
  subst hp
  exact ⟨(), rfl, hs⟩

theorem ensures_need {e : ε} {o : Option α} {a : α} (h : o = some a) (hq : Q a) :
    Ensures (need e o) Q := by
  subst h
  exact ⟨a, rfl, hq⟩

/-- A loop over a list, with what holds while some of it is left. -/
theorem ensures_foldlM {f : σ → α → Except ε σ} {I : List α → σ → Prop}
    (hf : ∀ a l s, I (a :: l) s → Ensures (f s a) (I l)) (l : List α) {s : σ} (hs : I l s) :
    Ensures (l.foldlM f s) (I []) := by
  induction l generalizing s with
  | nil => exact ensures_pure hs
  | cons a l ih =>
      rw [List.foldlM_cons]
      exact (hf a l s hs).bind (fun s' hs' => ih hs')

/-! ## The result, if there is one -/

theorem Yields.imp {x : Except ε α} (h : Yields x Q) (hq : ∀ a, Q a → R a) : Yields x R :=
  fun a ha => hq a (h a ha)

theorem yields_pure {a : α} (h : Q a) : Yields (pure a : Except ε α) Q := by
  intro b hb
  injection hb with hb
  exact hb ▸ h

theorem yields_error {e : ε} : Yields (.error e : Except ε α) Q := by
  intro a ha
  cases ha

theorem Yields.bind {x : Except ε α} {f : α → Except ε β} {S : β → Prop} (hx : Yields x Q)
    (hf : ∀ a, Q a → Yields (f a) S) : Yields (x >>= f) S := by
  intro b hb
  cases hxa : x with
  | error e => rw [hxa] at hb; cases hb
  | ok a =>
      rw [hxa] at hb
      exact hf a (hx a hxa) b hb

/-- The same when nothing needs to be known of the first result. -/
theorem yields_then {x : Except ε α} {f : α → Except ε β} {S : β → Prop}
    (hf : ∀ a, Yields (f a) S) : Yields (x >>= f) S := by
  intro b hb
  obtain ⟨a, _, hb⟩ := bind_eq_ok.mp hb
  exact hf a b hb

theorem yields_check {p : Bool} {e : ε} : Yields (check p e) (fun _ => p = true) := by
  unfold check
  split
  · rename_i hp
    exact yields_pure hp
  · exact yields_error

theorem yields_need {e : ε} {o : Option α} : Yields (need e o) (fun a => o = some a) := by
  cases o with
  | none => exact yields_error
  | some a => exact yields_pure rfl

/-- A loop over a list keeps what each round keeps. -/
theorem yields_foldlM {f : σ → α → Except ε σ} {I : σ → Prop}
    (hf : ∀ s a, I s → Yields (f s a) I) (l : List α) {s : σ} (hs : I s) :
    Yields (l.foldlM f s) I := by
  induction l generalizing s with
  | nil => exact yields_pure hs
  | cons a l ih =>
      rw [List.foldlM_cons]
      exact (hf s a hs).bind (fun s' hs' => ih hs')

theorem Yields.and {x : Except ε α} (h : Yields x Q) (h' : Yields x R) :
    Yields x (fun a => Q a ∧ R a) := fun a ha => ⟨h a ha, h' a ha⟩

/-- What a success yields, it ensures. -/
theorem Ensures.and {x : Except ε α} (h : Ensures x Q) (h' : Yields x R) :
    Ensures x (fun a => Q a ∧ R a) := by
  obtain ⟨a, ha, hq⟩ := h
  exact ⟨a, ha, hq, h' a ha⟩

/-! ## An error that does not happen -/

variable {e e' : ε}

theorem avoids_pure {a : α} : Avoids e (pure a : Except ε α) := fun h => by cases h

theorem avoids_error (h : e' ≠ e) : Avoids e (.error e' : Except ε α) := by
  intro he
  injection he with he
  exact h he

theorem avoids_check {p : Bool} (h : e' ≠ e) : Avoids e (check p e') := by
  unfold check
  split
  · exact avoids_pure
  · exact avoids_error h

theorem avoids_need {o : Option α} (h : e' ≠ e) : Avoids e (need e' o) := by
  cases o with
  | none => exact avoids_error h
  | some a => exact avoids_pure

theorem Avoids.bind {x : Except ε α} {f : α → Except ε β} (hx : Avoids e x) (hq : Yields x Q)
    (hf : ∀ a, Q a → Avoids e (f a)) : Avoids e (x >>= f) := by
  cases hxa : x with
  | error e' =>
      rw [hxa] at hx
      intro he
      injection he with he
      exact hx (he ▸ rfl)
  | ok a => exact hf a (hq a hxa)

/-- The same when nothing has to be known of the result. -/
theorem Avoids.then {x : Except ε α} {f : α → Except ε β} (hx : Avoids e x)
    (hf : ∀ a, Avoids e (f a)) : Avoids e (x >>= f) :=
  hx.bind (Q := fun _ => True) (fun _ _ => trivial) (fun a _ => hf a)

theorem avoids_foldlM {f : σ → α → Except ε σ} (hf : ∀ s a, Avoids e (f s a)) (l : List α) {s : σ} :
    Avoids e (l.foldlM f s) := by
  induction l generalizing s with
  | nil => exact avoids_pure
  | cons a l ih =>
      rw [List.foldlM_cons]
      exact (hf s a).then (fun s' => ih)

end Checked
