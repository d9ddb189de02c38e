import Mathlib.Algebra.Order.Ring.Int
import Mathlib.Tactic.Common

/-!
# Programs that ask their environment

A `Prog` is a computation that now and then performs an operation and goes on
with the answer. It either returns, or stops with a fault. What the operations
do is left to a handler, so one program can be run against any environment.

Two readings are used.

* `Prog.All Q E x` says what holds **whatever the answers are**: every value `x`
  can return satisfies `Q`, and every fault it can stop with satisfies `E`. It
  is a rule of pre- and postconditions with no state in it.
* `Prog.run h x s` runs `x` against one handler `h` from the environment's state
  `s`. `run_of_all` carries the first reading to the second, and `run_invariant`
  says that a property of the environment that no operation breaks is not broken
  by any program. `Prog.Meets` is the rule of pre- and postconditions with the state
  in it.
-/

/-- A computation over operations `Op`, where operation `o` is answered by an `Ans o`. -/
inductive Prog (Op : Type) (Ans : Op → Type) (ε α : Type) where
  | ret (a : α)
  | stop (e : ε)
  | ask (o : Op) (k : Ans o → Prog Op Ans ε α)

namespace Prog

variable {Op : Type} {Ans : Op → Type} {ε α β σ : Type}

/-- Sequencing: faults pass through. -/
def bind : Prog Op Ans ε α → (α → Prog Op Ans ε β) → Prog Op Ans ε β
  | ret a, f => f a
  | stop e, _ => stop e
  | ask o k, f => ask o (fun r => (k r).bind f)

instance : Monad (Prog Op Ans ε) where
  pure := ret
  bind := bind

/-- Perform one operation. -/
def perform (o : Op) : Prog Op Ans ε (Ans o) := ask o ret

/-- Stop with the fault of a pure computation, or go on with its value. -/
def ofExcept : Except ε α → Prog Op Ans ε α
  | .ok a => ret a
  | .error e => stop e

/-- Stop with `e` unless `p` holds. -/
def require (p : Bool) (e : ε) : Prog Op Ans ε Unit := if p then ret () else stop e

/-! ## Whatever the answers are -/

/-- Every value returned satisfies `Q` and every fault satisfies `E`, for all answers. -/
def All (Q : α → Prop) (E : ε → Prop) : Prog Op Ans ε α → Prop
  | ret a => Q a
  | stop e => E e
  | ask _ k => ∀ r, (k r).All Q E

variable {Q : α → Prop} {E : ε → Prop}

@[simp]
theorem all_pure {a : α} : All Q E (pure a : Prog Op Ans ε α) ↔ Q a := Iff.rfl

@[simp]
theorem all_ret {a : α} : All Q E (ret a : Prog Op Ans ε α) ↔ Q a := Iff.rfl

@[simp]
theorem all_stop {e : ε} : All Q E (stop e : Prog Op Ans ε α) ↔ E e := Iff.rfl

theorem all_bind_iff {x : Prog Op Ans ε α} {f : α → Prog Op Ans ε β} {R : β → Prop} :
    All R E (x >>= f) ↔ All (fun a => All R E (f a)) E x := by
  show All R E (x.bind f) ↔ _
  induction x with
  | ret a => exact Iff.rfl
  | stop e => exact Iff.rfl
  | ask o k ih => exact forall_congr' fun r => ih r

theorem All.imp {x : Prog Op Ans ε α} {Q' : α → Prop} {E' : ε → Prop} (h : All Q E x)
    (hq : ∀ a, Q a → Q' a) (he : ∀ e, E e → E' e) : All Q' E' x := by
  induction x with
  | ret a => exact hq a h
  | stop e => exact he e h
  | ask o k ih => exact fun r => ih r (h r)

theorem All.mono {x : Prog Op Ans ε α} {Q' : α → Prop} (h : All Q E x) (hq : ∀ a, Q a → Q' a) :
    All Q' E x :=
  h.imp hq (fun _ he => he)

/-- Sequencing: the postcondition of the first is the precondition of the second. -/
theorem All.bind {x : Prog Op Ans ε α} {f : α → Prog Op Ans ε β} {R : β → Prop}
    (hx : All Q E x) (hf : ∀ a, Q a → All R E (f a)) : All R E (x >>= f) :=
  all_bind_iff.mpr (hx.mono hf)

theorem all_require {p : Bool} {e : ε} {R : Unit → Prop} (h : p = true) (hr : R ()) :
    All R E (require p e : Prog Op Ans ε Unit) := by
  rw [require, if_pos h]
  exact hr

/-- After an assertion, what it asserts may be used. -/
theorem all_require_of (p : Bool) {e : ε} (he : E e) :
    All (fun _ => p = true) E (require p e : Prog Op Ans ε Unit) := by
  unfold require
  split
  · rename_i hp
    exact hp
  · exact he

/-- Nothing is claimed. -/
theorem all_true (x : Prog Op Ans ε α) : All (fun _ => True) (fun _ => True) x := by
  induction x with
  | ret a => trivial
  | stop e => trivial
  | ask o k ih => exact ih

theorem bind_assoc {γ : Type} {x : Prog Op Ans ε α} {f : α → Prog Op Ans ε β}
    {g : β → Prog Op Ans ε γ} : x >>= f >>= g = x >>= fun a => f a >>= g := by
  show (x.bind f).bind g = x.bind (fun a => (f a).bind g)
  induction x with
  | ret a => rfl
  | stop e => rfl
  | ask o k ih => exact congrArg (ask o) (funext ih)

theorem bind_pure {x : Prog Op Ans ε α} : x >>= pure = x := by
  show x.bind ret = x
  induction x with
  | ret a => rfl
  | stop e => rfl
  | ask o k ih => exact congrArg (ask o) (funext ih)

/-- Two facts about one program hold together. -/
theorem All.and_any {x : Prog Op Ans ε α} {Q' : α → Prop} {E' : ε → Prop} (h : All Q E x)
    (h' : All Q' E' x) : All (fun a => Q a ∧ Q' a) E x := by
  induction x with
  | ret a => exact ⟨h, h'⟩
  | stop e => exact h
  | ask o k ih => exact fun r => ih r (h r) (h' r)

theorem All.and {x : Prog Op Ans ε α} {Q' : α → Prop} (h : All Q E x) (h' : All Q' E x) :
    All (fun a => Q a ∧ Q' a) E x :=
  h.and_any h'

/-! ## Against one environment -/

/-- A handler answers every operation, or stops the program. -/
abbrev Handler (Op : Type) (Ans : Op → Type) (ε σ : Type) : Type :=
  (o : Op) → σ → Except ε (Ans o) × σ

/-- Run against a handler from state `s`. -/
def run (h : Handler Op Ans ε σ) : Prog Op Ans ε α → σ → Except ε α × σ
  | ret a, s => (.ok a, s)
  | stop e, s => (.error e, s)
  | ask o k, s =>
    match h o s with
    | (.ok r, s') => (k r).run h s'
    | (.error e, s') => (.error e, s')

variable {h : Handler Op Ans ε σ}

@[simp]
theorem run_ret {a : α} {s : σ} : (ret a : Prog Op Ans ε α).run h s = (.ok a, s) := rfl

@[simp]
theorem run_pure {a : α} {s : σ} : (pure a : Prog Op Ans ε α).run h s = (.ok a, s) := rfl

@[simp]
theorem run_stop {e : ε} {s : σ} : (stop e : Prog Op Ans ε α).run h s = (.error e, s) := rfl

theorem run_bind {x : Prog Op Ans ε α} {f : α → Prog Op Ans ε β} {s : σ} :
    (x >>= f).run h s = match x.run h s with
      | (.ok a, s') => (f a).run h s'
      | (.error e, s') => (.error e, s') := by
  show (x.bind f).run h s = _
  induction x generalizing s with
  | ret a => rfl
  | stop e => rfl
  | ask o k ih =>
      simp only [Prog.bind, run]
      rcases h o s with ⟨r | r, s'⟩
      · rfl
      · exact ih r

/-- The faults a handler can answer with. -/
def Throws (h : Handler Op Ans ε σ) (e : ε) : Prop := ∃ o s s', h o s = (.error e, s')

/-- What holds for all answers holds of the answers of any handler. -/
theorem run_of_all {x : Prog Op Ans ε α} (hx : All Q E x) (s : σ) :
    match x.run h s with
    | (.ok a, _) => Q a
    | (.error e, _) => E e ∨ Throws h e := by
  induction x generalizing s with
  | ret a => exact hx
  | stop e => exact Or.inl hx
  | ask o k ih =>
      simp only [run]
      rcases ho : h o s with ⟨r | r, s'⟩
      · exact Or.inr ⟨o, s, s', ho⟩
      · exact ih r (hx r) s'

theorem All.of_run {x : Prog Op Ans ε α} {a : α} {s s' : σ} (hx : All Q E x)
    (hrun : x.run h s = (.ok a, s')) : Q a := by
  have hall := run_of_all (h := h) hx s
  rw [hrun] at hall
  exact hall

/-- What no operation breaks, no program breaks. -/
theorem run_invariant {I : σ → Prop} (hI : ∀ o s, I s → I (h o s).2) (x : Prog Op Ans ε α)
    {s : σ} (hs : I s) : I (x.run h s).2 := by
  induction x generalizing s with
  | ret a => exact hs
  | stop e => exact hs
  | ask o k ih =>
      have hstep := hI o s hs
      simp only [run]
      rcases ho : h o s with ⟨r | r, s'⟩ <;> rw [ho] at hstep
      · exact hstep
      · exact ih r hstep

/-- The operations answered in a run, each with the state after it. -/
def trace (h : Handler Op Ans ε σ) : Prog Op Ans ε α → σ → List (Op × σ)
  | ret _, _ => []
  | stop _, _ => []
  | ask o k, s =>
    match h o s with
    | (.ok r, s') => (o, s') :: (k r).trace h s'
    | (.error _, _) => []

/-- What every answered operation keeps holds after each of them. -/
theorem trace_invariant {I : σ → Prop} {P : Op → σ → Prop}
    (hI : ∀ o s r s', I s → h o s = (.ok r, s') → I s' ∧ P o s') (x : Prog Op Ans ε α) {s : σ}
    (hs : I s) : ∀ e ∈ x.trace h s, I e.2 ∧ P e.1 e.2 := by
  induction x generalizing s with
  | ret a => exact fun e he => absurd he (by simp [trace])
  | stop e => exact fun e he => absurd he (by simp [trace])
  | ask o k ih =>
      intro e he
      simp only [trace] at he
      rcases ho : h o s with ⟨r | r, s'⟩ <;> rw [ho] at he
      · exact absurd he (by simp)
      · obtain ⟨hs', hp⟩ := hI o s r s' hs ho
        rcases List.mem_cons.mp he with rfl | he
        · exact ⟨hs', hp⟩
        · exact ih r hs' e he

/-! ## Against one environment, as long as it stays as it should be -/

/-- A run from `s` returns with `Q` or stops with `E`, unless it ends in a bad state. -/
def Meets (h : Handler Op Ans ε σ) (bad : σ → Prop) (Q : α → σ → Prop) (E : ε → Prop)
    (x : Prog Op Ans ε α) (s : σ) : Prop :=
  match x.run h s with
  | (.ok a, s') => bad s' ∨ Q a s'
  | (.error e, s') => bad s' ∨ E e

section Meets

variable {bad : σ → Prop} {s : σ} {Q R : α → σ → Prop}

theorem meets_pure {a : α} (hq : Q a s) : Meets h bad Q E (pure a : Prog Op Ans ε α) s := Or.inr hq

theorem meets_stop {e : ε} (he : E e) : Meets h bad Q E (stop e : Prog Op Ans ε α) s := Or.inr he

theorem Meets.imp {x : Prog Op Ans ε α} (hx : Meets h bad Q E x s) (hq : ∀ a s', Q a s' → R a s') :
    Meets h bad R E x s := by
  unfold Meets at hx ⊢
  split
  · rename_i a s' hrun
    rw [hrun] at hx
    exact hx.imp_right (hq a s')
  · rename_i e s' hrun
    rw [hrun] at hx
    exact hx

/-- What has gone wrong stays wrong. -/
theorem meets_of_bad (hbad : ∀ o s, bad s → bad (h o s).2) (x : Prog Op Ans ε α) (hs : bad s) :
    Meets h bad Q E x s := by
  have hrun := run_invariant hbad x hs
  unfold Meets
  split
  · rename_i a s' hr
    rw [hr] at hrun
    exact Or.inl hrun
  · rename_i e s' hr
    rw [hr] at hrun
    exact Or.inl hrun

theorem Meets.bind {x : Prog Op Ans ε α} {f : α → Prog Op Ans ε β} {S : β → σ → Prop}
    (hbad : ∀ o s, bad s → bad (h o s).2) (hx : Meets h bad Q E x s)
    (hf : ∀ a s', Q a s' → Meets h bad S E (f a) s') : Meets h bad S E (x >>= f) s := by
  unfold Meets at hx ⊢
  rw [run_bind]
  rcases hr : x.run h s with ⟨e | a, s'⟩
  · rw [hr] at hx
    exact hx
  · rw [hr] at hx
    rcases hx with hb | hq
    · exact meets_of_bad hbad (f a) hb
    · exact hf a s' hq

theorem meets_perform {o : Op} {Q : Ans o → σ → Prop}
    (hq : ∀ r s', h o s = (.ok r, s') → ¬ bad s' → Q r s')
    (he : ∀ e s', h o s = (.error e, s') → E e) :
    Meets h bad Q E (perform o : Prog Op Ans ε (Ans o)) s := by
  unfold Meets perform run
  rcases hr : h o s with ⟨e | r, s'⟩
  · exact Or.inr (he e s' hr)
  · by_cases hb : bad s'
    · exact Or.inl hb
    · exact Or.inr (hq r s' hr hb)

/-- What holds for all answers holds in the run. -/
theorem Meets.and_all {x : Prog Op Ans ε α} {P : α → Prop} {E' : ε → Prop}
    (hx : Meets h bad Q E x s) (hall : All P E' x) :
    Meets h bad (fun a s' => P a ∧ Q a s') E x s := by
  have hrun := run_of_all (h := h) hall s
  unfold Meets at hx ⊢
  split
  · rename_i a s' hr
    rw [hr] at hx hrun
    exact hx.imp_right (fun hq => ⟨hrun, hq⟩)
  · rename_i e s' hr
    rw [hr] at hx
    exact hx

end Meets

/-! ## Programs that keep to some operations -/

/-- For all answers only operations in `P` are performed, and `Q` or `E` holds at the end. -/
def Only (P : Op → Prop) (Q : α → Prop) (E : ε → Prop) : Prog Op Ans ε α → Prop
  | ret a => Q a
  | stop e => E e
  | ask o k => P o ∧ ∀ r, (k r).Only P Q E

section Only

variable {P : Op → Prop}

theorem Only.bind {x : Prog Op Ans ε α} {f : α → Prog Op Ans ε β} {R : β → Prop}
    (hx : Only P Q E x) (hf : ∀ a, Q a → Only P R E (f a)) : Only P R E (x >>= f) := by
  show Only P R E (x.bind f)
  induction x with
  | ret a => exact hf a hx
  | stop e => exact hx
  | ask o k ih => exact ⟨hx.1, fun r => ih r (hx.2 r)⟩

theorem Only.imp {x : Prog Op Ans ε α} {Q' : α → Prop} (hx : Only P Q E x)
    (hq : ∀ a, Q a → Q' a) : Only P Q' E x := by
  induction x with
  | ret a => exact hq a hx
  | stop e => exact hx
  | ask o k ih => exact ⟨hx.1, fun r => ih r (hx.2 r)⟩

/-- The same of fewer operations. -/
theorem Only.of_ops {P' : Op → Prop} {x : Prog Op Ans ε α} (hx : Only P Q E x)
    (hp : ∀ o, P o → P' o) : Only P' Q E x := by
  induction x with
  | ret a => exact hx
  | stop e => exact hx
  | ask o k ih => exact ⟨hp o hx.1, fun r => ih r (hx.2 r)⟩

theorem only_perform {o : Op} (ho : P o) :
    Only P (fun _ => True) E (perform o : Prog Op Ans ε (Ans o)) := ⟨ho, fun _ => trivial⟩

theorem only_require {p : Bool} {e : ε} (he : E e) :
    Only P (fun _ => True) E (require p e : Prog Op Ans ε Unit) := by
  unfold require
  split
  · exact trivial
  · exact he

/-- What the operations in `P` do not break holds at the end. -/
theorem Only.meets {bad I : σ → Prop} {x : Prog Op Ans ε α} {s : σ} (hx : Only P Q E x)
    (hbad : ∀ o s, bad s → bad (h o s).2)
    (hI : ∀ o s r s', P o → I s → h o s = (.ok r, s') → ¬ bad s' → I s')
    (he : ∀ o s e s', h o s = (.error e, s') → E e) (hs : I s) :
    Meets h bad (fun a s' => Q a ∧ I s') E x s := by
  induction x generalizing s with
  | ret a => exact Or.inr ⟨hx, hs⟩
  | stop e => exact Or.inr hx
  | ask o k ih =>
      unfold Meets run
      rcases ho : h o s with ⟨e | r, s'⟩
      · exact Or.inr (he o s e s' ho)
      · by_cases hb : bad s'
        · exact meets_of_bad hbad (k r) hb
        · exact ih r (hx.2 r) (hI o s r s' hx.1 hs ho hb)

end Only

/-! ## Programs with more assertions -/

/-- The first program does what the second does, up to where it stops with `e`. -/
inductive Restricts (e : ε) : Prog Op Ans ε α → Prog Op Ans ε α → Prop where
  | early (y : Prog Op Ans ε α) : Restricts e (stop e) y
  | ret (a : α) : Restricts e (ret a) (ret a)
  | stop (e' : ε) : Restricts e (stop e') (stop e')
  | ask (o : Op) {k k' : Ans o → Prog Op Ans ε α} (h : ∀ r, Restricts e (k r) (k' r)) :
      Restricts e (ask o k) (ask o k')

section Restricts

variable {e : ε} {x y x' y' : Prog Op Ans ε α}

theorem Restricts.refl (x : Prog Op Ans ε α) : Restricts e x x := by
  induction x with
  | ret a => exact Restricts.ret a
  | stop e' => exact Restricts.stop e'
  | ask o _ ih => exact Restricts.ask o ih

theorem Restricts.bind {f g : α → Prog Op Ans ε β} (hx : Restricts e x y)
    (hf : ∀ a, Restricts e (f a) (g a)) : Restricts e (x >>= f) (y >>= g) := by
  show Restricts e (x.bind f) (y.bind g)
  induction hx with
  | early y => exact Restricts.early _
  | ret a => exact hf a
  | stop e' => exact Restricts.stop e'
  | ask o _ ih => exact Restricts.ask o ih

theorem restricts_ite {p : Prop} [Decidable p] (hx : Restricts e x y) (hx' : Restricts e x' y') :
    Restricts e (if p then x else x') (if p then y else y') := by
  split
  · exact hx
  · exact hx'

/-- The assertion is one that only the first program makes. -/
theorem Restricts.require (hx : Restricts e x y) (p : Bool) :
    Restricts e (Prog.require p e >>= fun _ => x) y := by
  unfold Prog.require
  split
  · exact hx
  · exact Restricts.early y

/-- The first program stops as the second one does, or with `e`. -/
theorem Restricts.all (h : Restricts e x y) (hy : All Q E y) :
    All Q (fun e' => E e' ∨ e' = e) x := by
  induction h with
  | early y => exact Or.inr rfl
  | ret a => exact hy
  | stop e' => exact Or.inl hy
  | ask o _ ih => exact fun r => ih r (hy r)

/-- Whenever the first program returns, the second returns the same. -/
theorem Restricts.run {h : Handler Op Ans ε σ} {s s' : σ} {a : α} (hx : Restricts e x y)
    (hrun : x.run h s = (.ok a, s')) : y.run h s = (.ok a, s') := by
  induction hx generalizing s with
  | early y => exact absurd (congrArg Prod.fst hrun) (by simp)
  | ret a => exact hrun
  | stop e' => exact hrun
  | ask o _ ih =>
      unfold Prog.run at hrun ⊢
      rcases ho : h o s with ⟨e' | r, s₁⟩
      · rw [ho] at hrun
        exact hrun
      · rw [ho] at hrun
        exact ih r hrun

end Restricts

/-! ## Programs that differ in where they give up -/

/-- The two programs do the same, up to where one of them stops with `e`. -/
inductive SameBut (e : ε) : Prog Op Ans ε α → Prog Op Ans ε α → Prop where
  | left (y : Prog Op Ans ε α) : SameBut e (stop e) y
  | right (x : Prog Op Ans ε α) : SameBut e x (stop e)
  | ret (a : α) : SameBut e (ret a) (ret a)
  | stop (e' : ε) : SameBut e (stop e') (stop e')
  | ask (o : Op) {k k' : Ans o → Prog Op Ans ε α} (h : ∀ r, SameBut e (k r) (k' r)) :
      SameBut e (ask o k) (ask o k')

section SameBut

variable {e : ε} {x y x' y' : Prog Op Ans ε α}

theorem SameBut.refl (x : Prog Op Ans ε α) : SameBut e x x := by
  induction x with
  | ret a => exact SameBut.ret a
  | stop e' => exact SameBut.stop e'
  | ask o _ ih => exact SameBut.ask o ih

theorem SameBut.bind {f g : α → Prog Op Ans ε β} (hx : SameBut e x y)
    (hf : ∀ a, SameBut e (f a) (g a)) : SameBut e (x >>= f) (y >>= g) := by
  show SameBut e (x.bind f) (y.bind g)
  induction hx with
  | left y => exact SameBut.left _
  | right x => exact SameBut.right _
  | ret a => exact hf a
  | stop e' => exact SameBut.stop e'
  | ask o _ ih => exact SameBut.ask o ih

theorem sameBut_ite {p : Prop} [Decidable p] (hx : SameBut e x y) (hx' : SameBut e x' y') :
    SameBut e (if p then x else x') (if p then y else y') := by
  split
  · exact hx
  · exact hx'

/-- Programs that never stop with `e` are the same. -/
theorem SameBut.eq {Q' : α → Prop} (h : SameBut e x y) (hx : All Q E x) (hy : All Q' E y)
    (he : ¬ E e) : x = y := by
  induction h with
  | left y => exact absurd hx he
  | right x => exact absurd hy he
  | ret a => rfl
  | stop e' => rfl
  | ask o _ ih => exact congrArg (Prog.ask o) (funext (fun r => ih r (hx r) (hy r)))

end SameBut

/-! ## Programs that do the same -/

/--
The two programs perform the same operations, as long as the answers satisfy `ok`, and at the
end the second returns `g` of what the first returns.
-/
inductive Mirrors (ok : (o : Op) → Ans o → Prop) (g : α → β) :
    Prog Op Ans ε α → Prog Op Ans ε β → Prop where
  | ret (a : α) : Mirrors ok g (ret a) (ret (g a))
  | stop (e : ε) : Mirrors ok g (stop e) (stop e)
  | ask (o : Op) {k : Ans o → Prog Op Ans ε α} {k' : Ans o → Prog Op Ans ε β}
      (h : ∀ r, ok o r → Mirrors ok g (k r) (k' r)) : Mirrors ok g (ask o k) (ask o k')

section Mirrors

variable {γ δ : Type} {ok : (o : Op) → Ans o → Prop} {g : α → β}

theorem mirrors_pure {a : α} {b : β} (h : g a = b) :
    Mirrors ok g (pure a : Prog Op Ans ε α) (pure b) := h ▸ Mirrors.ret a

theorem mirrors_refl (x : Prog Op Ans ε α) : Mirrors ok id x x := by
  induction x with
  | ret a => exact Mirrors.ret a
  | stop e => exact Mirrors.stop e
  | ask o _ ih => exact Mirrors.ask o (fun r _ => ih r)

theorem Mirrors.bind {g' : γ → δ} {x : Prog Op Ans ε α} {y : Prog Op Ans ε β}
    {f : α → Prog Op Ans ε γ} {f' : β → Prog Op Ans ε δ} (hx : Mirrors ok g x y)
    (hf : ∀ a, Mirrors ok g' (f a) (f' (g a))) : Mirrors ok g' (x >>= f) (y >>= f') := by
  show Mirrors ok g' (x.bind f) (y.bind f')
  induction hx with
  | ret a => exact hf a
  | stop e => exact Mirrors.stop e
  | ask o _ ih => exact Mirrors.ask o (fun r hr => ih r hr)

/-- What the first program does at its end may be nothing to the second. -/
theorem Mirrors.bind_left {g' : γ → β} {x : Prog Op Ans ε α} {y : Prog Op Ans ε β}
    {f : α → Prog Op Ans ε γ} (hx : Mirrors ok g x y)
    (hf : ∀ a, Mirrors ok g' (f a) (Prog.ret (g a))) : Mirrors ok g' (x >>= f) y := by
  have h : Mirrors ok g' (x >>= f) (y >>= pure) := hx.bind hf
  rwa [bind_pure] at h

theorem mirrors_perform {g' : γ → δ} (o : Op) {f : Ans o → Prog Op Ans ε γ}
    {f' : Ans o → Prog Op Ans ε δ} (hf : ∀ r, ok o r → Mirrors ok g' (f r) (f' r)) :
    Mirrors ok g' (perform o >>= f) (perform o >>= f') := Mirrors.ask o hf

theorem mirrors_require {g' : γ → δ} {p p' : Bool} {e : ε} {f : Unit → Prog Op Ans ε γ}
    {f' : Unit → Prog Op Ans ε δ} (hp : p' = p) (hf : Mirrors ok g' (f ()) (f' ())) :
    Mirrors ok g' (require p e >>= f) (require p' e >>= f') := by
  subst hp
  unfold require
  split
  · exact hf
  · exact Mirrors.stop e

theorem mirrors_ite {p p' : Prop} [Decidable p] [Decidable p'] {x x' : Prog Op Ans ε α}
    {y y' : Prog Op Ans ε β} (hp : p' ↔ p) (hx : p → Mirrors ok g x y)
    (hx' : ¬ p → Mirrors ok g x' y') :
    Mirrors ok g (if p then x else x') (if p' then y else y') := by
  by_cases h : p
  · rw [if_pos h, if_pos (hp.mpr h)]
    exact hx h
  · rw [if_neg h, if_neg (fun h' => h (hp.mp h'))]
    exact hx' h

theorem mirrors_ofExcept {x : Except ε α} {y : Except ε β} (h : y = x.map g) :
    Mirrors ok g (ofExcept x : Prog Op Ans ε α) (ofExcept y) := by
  subst h
  cases x with
  | ok a => exact Mirrors.ret a
  | error e => exact Mirrors.stop e

/-- **The same run**, when no answer that is not `ok` goes unnoticed. -/
theorem Mirrors.run {h : Handler Op Ans ε σ} (bad : σ → Prop) {x : Prog Op Ans ε α}
    {y : Prog Op Ans ε β} (hx : Mirrors ok g x y) (hbad : ∀ o s, bad s → bad (h o s).2)
    (hok : ∀ o s r s', h o s = (.ok r, s') → ¬ bad s' → ok o r) {s : σ}
    (hend : ¬ bad (y.run h s).2) : y.run h s = ((x.run h s).1.map g, (x.run h s).2) := by
  induction hx generalizing s with
  | ret a => rfl
  | stop e => rfl
  | ask o _ ih =>
      unfold Prog.run at hend ⊢
      rcases ho : h o s with ⟨e | r, s'⟩
      · rfl
      · rw [ho] at hend
        have hs' : ¬ bad s' := fun hb => hend (run_invariant hbad _ hb)
        exact ih r (hok o s r s' ho hs') hend

/-- What is always so at the end of the second program is so of what the first one returns. -/
theorem Mirrors.all {Q : β → Prop} {E : ε → Prop} {x : Prog Op Ans ε α} {y : Prog Op Ans ε β}
    (hx : Mirrors (fun _ _ => True) g x y) (hy : All Q E y) : All (fun a => Q (g a)) E x := by
  induction hx with
  | ret a => exact hy
  | stop e => exact hy
  | ask o _ ih => exact fun r => ih r trivial (hy r)

/-- With `g` at its end the first program is the second. -/
theorem Mirrors.map_eq {x : Prog Op Ans ε α} {y : Prog Op Ans ε β}
    (hx : Mirrors (fun _ _ => True) g x y) : (x >>= fun a => pure (g a)) = y := by
  show x.bind (fun a => Prog.ret (g a)) = y
  induction hx with
  | ret a => rfl
  | stop e => rfl
  | ask o _ ih => exact congrArg (Prog.ask o) (funext (fun r => ih r trivial))

end Mirrors

end Prog
