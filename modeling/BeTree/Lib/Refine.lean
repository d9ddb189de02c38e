import BeTree.Lib.Prog

/-!
# Programs that follow other programs

A `Rule` says what an operation needs of a state, and in which states it may go on, with
which answers. `Prog.Wp` takes a rule through a program: from a state, every run that keeps
to the rule meets no operation that is not allowed, and ends as it should. `run_of_wp`
carries that to a run against a handler whose states are coupled to those of the rule, if the
run does not end outside the states in which the handler keeps to it.

`Prog.Ends` says how a program can end for some answers. A program **follows** another one,
which may have other operations, if however it ends, the other can end in the same way with
a related result. What has been proved of all ends of the one then holds of the other. Ends
that are known not to occur may be left out of the comparison.
-/

/-- What each operation needs, and what it may do. -/
structure Rule (Op : Type) (Ans : Op → Type) (σ : Type) where
  pre : Op → σ → Prop
  post : (o : Op) → σ → Ans o → σ → Prop

namespace Prog

variable {Op Op' : Type} {Ans : Op → Type} {Ans' : Op' → Type} {ε α β γ δ σ τ : Type}

/-! ## How a program can end -/

/-- Some answers lead the program to this end. -/
inductive Ends : Prog Op Ans ε α → Except ε α → Prop where
  | ret (a : α) : Ends (ret a) (.ok a)
  | stop (e : ε) : Ends (stop e) (.error e)
  | ask {o : Op} {k : Ans o → Prog Op Ans ε α} {res : Except ε α} (r : Ans o) :
      Ends (k r) res → Ends (ask o k) res

theorem Ends.bind {x : Prog Op Ans ε α} {f : α → Prog Op Ans ε β} {a : α} {res : Except ε β}
    (hx : Ends x (.ok a)) (hf : Ends (f a) res) : Ends (x >>= f) res := by
  show Ends (x.bind f) res
  induction x with
  | ret b =>
      cases hx
      exact hf
  | stop e => cases hx
  | ask o k ih =>
      cases hx with
      | ask r h => exact .ask r (ih r h)

theorem Ends.bind_error {x : Prog Op Ans ε α} {f : α → Prog Op Ans ε β} {e : ε}
    (hx : Ends x (.error e)) : Ends (x >>= f) (.error e) := by
  show Ends (x.bind f) (.error e)
  induction x with
  | ret b => cases hx
  | stop e' =>
      cases hx
      exact .stop e
  | ask o k ih =>
      cases hx with
      | ask r h => exact .ask r (ih r h)

/-- What holds whatever the answers are holds of every end. -/
theorem All.of_ends {Q : α → Prop} {E : ε → Prop} {x : Prog Op Ans ε α} {a : α} (h : All Q E x)
    (hx : Ends x (.ok a)) : Q a := by
  induction x with
  | ret b =>
      cases hx
      exact h
  | stop e => cases hx
  | ask o k ih =>
      cases hx with
      | ask r hr => exact ih r (h r) hr

theorem All.of_ends_error {Q : α → Prop} {E : ε → Prop} {x : Prog Op Ans ε α} {e : ε} (h : All Q E x)
    (hx : Ends x (.error e)) : E e := by
  induction x with
  | ret b => cases hx
  | stop e' =>
      cases hx
      exact h
  | ask o k ih =>
      cases hx with
      | ask r hr => exact ih r (h r) hr

/-! ## Runs that keep to a rule -/

/-- From `s` every operation is allowed, and what is returned or stopped with is as said. -/
def Wp (rule : Rule Op Ans σ) (Q : α → σ → Prop) (E : ε → Prop) : Prog Op Ans ε α → σ → Prop
  | ret a, s => Q a s
  | stop e, _ => E e
  | ask o k, s => rule.pre o s ∧ ∀ r s', rule.post o s r s' → (k r).Wp rule Q E s'

variable {rule : Rule Op Ans σ} {s : σ} {E : ε → Prop}

theorem Wp.imp {Q Q' : α → σ → Prop} {E' : ε → Prop} {x : Prog Op Ans ε α} (h : x.Wp rule Q E s)
    (hq : ∀ a s', Q a s' → Q' a s') (he : ∀ e, E e → E' e) : x.Wp rule Q' E' s := by
  induction x generalizing s with
  | ret a => exact hq a s h
  | stop e => exact he e h
  | ask o k ih => exact ⟨h.1, fun r s' hpost => ih r (h.2 r s' hpost)⟩

theorem Wp.bind {Q : α → σ → Prop} {R : β → σ → Prop} {x : Prog Op Ans ε α}
    {f : α → Prog Op Ans ε β} (hx : x.Wp rule Q E s)
    (hf : ∀ a s', Q a s' → (f a).Wp rule R E s') : (x >>= f).Wp rule R E s := by
  show (x.bind f).Wp rule R E s
  induction x generalizing s with
  | ret a => exact hf a s hx
  | stop e => exact hx
  | ask o k ih => exact ⟨hx.1, fun r s' hpost => ih r (hx.2 r s' hpost)⟩

/--
A handler that does what the rule says, in states coupled to those of the rule, from states
that are `ok`. What is not `ok` does not become so.
-/
structure Obeys (h : Handler Op Ans ε τ) (rule : Rule Op Ans σ) (C : σ → τ → Prop)
    (ok : τ → Prop) : Prop where
  step : ∀ o s t, rule.pre o s → C s t → ok t →
    ∃ r t', h o t = (.ok r, t') ∧ ∃ s', rule.post o s r s' ∧ C s' t'
  back : ∀ o t, ok (h o t).2 → ok t

theorem Obeys.of_run {h : Handler Op Ans ε τ} {C : σ → τ → Prop} {ok : τ → Prop}
    {x : Prog Op Ans ε α} {t : τ} (hobeys : Obeys h rule C ok) (hok : ok (x.run h t).2) : ok t := by
  induction x generalizing t with
  | ret a => exact hok
  | stop e => exact hok
  | ask o k ih =>
      refine hobeys.back o t ?_
      rw [run] at hok
      rcases hstep : h o t with ⟨e | r, t'⟩ <;> rw [hstep] at hok
      · exact hok
      · exact ih r hok

/-- **A run against such a handler** ends as the rule says. -/
theorem run_of_wp {h : Handler Op Ans ε τ} {C : σ → τ → Prop} {ok : τ → Prop} {Q : α → σ → Prop}
    {x : Prog Op Ans ε α} {t : τ} (hobeys : Obeys h rule C ok) (hx : x.Wp rule Q E s) (hc : C s t)
    (hok : ok (x.run h t).2) :
    match x.run h t with
    | (.ok a, t') => ∃ s', Q a s' ∧ C s' t'
    | (.error e, _) => E e := by
  induction x generalizing s t with
  | ret a => exact ⟨s, hx, hc⟩
  | stop e => exact hx
  | ask o k ih =>
      obtain ⟨r, t', ho, s', hpost, hc'⟩ := hobeys.step o s t hx.1 hc (hobeys.of_run hok)
      simp only [run, ho] at hok ⊢
      exact ih r (hx.2 r s' hpost) hc' hok

theorem Obeys.of_trace {h : Handler Op Ans ε τ} {C : σ → τ → Prop} {ok : τ → Prop}
    {x : Prog Op Ans ε α} {t : τ} (hobeys : Obeys h rule C ok) {y : Op × τ}
    (hy : y ∈ x.trace h t) (hok : ok y.2) : ok t := by
  induction x generalizing t with
  | ret a => cases hy
  | stop e => cases hy
  | ask o k ih =>
      refine hobeys.back o t ?_
      rw [trace] at hy
      rcases hstep : h o t with ⟨e | r, t'⟩ <;> rw [hstep] at hy
      · cases hy
      · rcases List.mem_cons.mp hy with rfl | hy
        · exact hok
        · exact ih r hy

/-- **Every state of such a run** is coupled to one of the rule. -/
theorem trace_of_wp {h : Handler Op Ans ε τ} {C : σ → τ → Prop} {ok : τ → Prop} {Q : α → σ → Prop}
    {x : Prog Op Ans ε α} {t : τ} (hobeys : Obeys h rule C ok) (hx : x.Wp rule Q E s) (hc : C s t)
    {y : Op × τ} (hy : y ∈ x.trace h t) (hok : ok y.2) : ∃ s', C s' y.2 := by
  induction x generalizing s t with
  | ret a => cases hy
  | stop e => cases hy
  | ask o k ih =>
      obtain ⟨r, t', ho, s', hpost, hc'⟩ := hobeys.step o s t hx.1 hc (hobeys.of_trace hy hok)
      rw [trace, ho] at hy
      rcases List.mem_cons.mp hy with rfl | hy
      · exact ⟨s', hc'⟩
      · exact ih r (hx.2 r s' hpost) hc' hy

/-- A run that does not stop has a result. -/
theorem exists_of_isOk {x : Except ε α × τ} (h : x.1.isOk = true) : ∃ a t, x = (.ok a, t) := by
  obtain ⟨_ | a, t⟩ := x
  · cases h
  · exact ⟨a, t, rfl⟩

/-! ## Following another program -/

/--
However `x` ends from `s` when it keeps to the rule, `y` can end so, with a result related
by `R`. This is claimed only if `y` cannot end in a fault that is left out.
-/
def Follows (rule : Rule Op Ans σ) (out : ε → Prop) (R : α → β → σ → Prop) (x : Prog Op Ans ε α)
    (y : Prog Op' Ans' ε β) (s : σ) : Prop :=
  (∀ e, out e → ¬ Ends y (.error e)) →
    x.Wp rule (fun a s' => ∃ b, Ends y (.ok b) ∧ R a b s') (fun e => Ends y (.error e)) s

variable {out : ε → Prop} {R : α → β → σ → Prop} {S : γ → δ → σ → Prop}
variable {x : Prog Op Ans ε α} {y : Prog Op' Ans' ε β}

theorem follows_pure {a : α} {b : β} (h : R a b s) :
    Follows rule out R (pure a : Prog Op Ans ε α) (pure b : Prog Op' Ans' ε β) s :=
  fun _ => ⟨b, .ret b, h⟩

theorem follows_stop (e : ε) :
    Follows rule out R (stop e : Prog Op Ans ε α) (stop e : Prog Op' Ans' ε β) s :=
  fun _ => .stop e

/-- Nothing is claimed of an end that is left out. -/
theorem follows_out {e : ε} (he : out e) : Follows rule out R x (stop e : Prog Op' Ans' ε β) s :=
  fun hout => absurd (.stop e) (hout e he)

theorem Follows.imp {R' : α → β → σ → Prop} (h : Follows rule out R x y s)
    (hr : ∀ a b s', Ends y (.ok b) → R a b s' → R' a b s') : Follows rule out R' x y s := by
  intro hout
  refine (h hout).imp (fun a s' ha => ?_) (fun _ he => he)
  obtain ⟨b, hb, hab⟩ := ha
  exact ⟨b, hb, hr a b s' hb hab⟩

theorem Follows.bind {f : α → Prog Op Ans ε γ} {g : β → Prog Op' Ans' ε δ}
    (h : Follows rule out R x y s)
    (hf : ∀ a b s', Ends y (.ok b) → R a b s' → Follows rule out S (f a) (g b) s') :
    Follows rule out S (x >>= f) (y >>= g) s := by
  intro hout
  have hx := h (fun e he hend => hout e he hend.bind_error)
  refine Wp.bind (hx.imp (fun _ _ ha => ha) (fun _ he => he.bind_error)) (fun a s' ha => ?_)
  obtain ⟨b, hb, hab⟩ := ha
  refine (hf a b s' hb hab (fun e he hend => hout e he (hb.bind hend))).imp (fun c s'' hc => ?_)
    (fun _ he => hb.bind he)
  obtain ⟨d, hd, hcd⟩ := hc
  exact ⟨d, hb.bind hd, hcd⟩

/-- The second program only takes its result apart. -/
theorem Follows.map_right {g : β → δ} {S : α → δ → σ → Prop}
    (h : Follows rule out (fun a b s' => S a (g b) s') x y s) :
    Follows rule out S x (y >>= fun b => pure (g b)) s := by
  intro hout
  refine (h (fun e he hend => hout e he hend.bind_error)).imp (fun a s' ha => ?_)
    (fun _ he => he.bind_error)
  obtain ⟨b, hb, hab⟩ := ha
  exact ⟨g b, hb.bind (.ret _), hab⟩

/-- The first program performs an operation of its own. -/
theorem follows_left {o : Op} {f : Ans o → Prog Op Ans ε α} (hpre : rule.pre o s)
    (h : ∀ r s', rule.post o s r s' → Follows rule out R (f r) y s') :
    Follows rule out R (perform o >>= f) y s :=
  fun hout => ⟨hpre, fun r s' hpost => h r s' hpost hout⟩

/-- The second one performs an operation, for which some answer will do. -/
theorem follows_right {o : Op'} {g : Ans' o → Prog Op' Ans' ε β} (r : Ans' o)
    (h : Follows rule out R x (g r) s) : Follows rule out R x (perform o >>= g) s := by
  intro hout
  refine (h (fun e he hend => hout e he (.ask r hend))).imp (fun a s' ha => ?_)
    (fun _ he => .ask r he)
  obtain ⟨b, hb, hab⟩ := ha
  exact ⟨b, .ask r hb, hab⟩

theorem follows_require {p : Bool} {e : ε} {f : Unit → Prog Op Ans ε γ}
    {g : Unit → Prog Op' Ans' ε δ} (h : p = true → Follows rule out S (f ()) (g ()) s) :
    Follows rule out S ((require p e : Prog Op Ans ε Unit) >>= f)
      ((require p e : Prog Op' Ans' ε Unit) >>= g) s := by
  cases p with
  | false => exact follows_stop e
  | true => exact h rfl

/-- The check is left to the second program. -/
theorem follows_require_right {p : Bool} {e : ε} {g : Unit → Prog Op' Ans' ε β} (he : out e)
    (h : p = true → Follows rule out R x (g ()) s) :
    Follows rule out R x ((require p e : Prog Op' Ans' ε Unit) >>= g) s := by
  cases p with
  | false => exact follows_out he
  | true => exact h rfl

theorem follows_ite {p : Prop} [Decidable p] {x' : Prog Op Ans ε α} {y' : Prog Op' Ans' ε β}
    (h : p → Follows rule out R x y s) (h' : ¬ p → Follows rule out R x' y' s) :
    Follows rule out R (if p then x else x') (if p then y else y') s := by
  by_cases hp : p
  · rw [if_pos hp, if_pos hp]
    exact h hp
  · rw [if_neg hp, if_neg hp]
    exact h' hp

/-- What is known of all ends of the second program. -/
theorem Follows.wp {Q : β → Prop} (h : Follows rule out R x y s) (hy : All Q E y)
    (hE : ∀ e, E e → ¬ out e) :
    x.Wp rule (fun a s' => ∃ b, Q b ∧ R a b s') E s := by
  refine (h (fun e he hend => hE e (hy.of_ends_error hend) he)).imp (fun a s' ha => ?_)
    (fun _ he => hy.of_ends_error he)
  obtain ⟨b, hb, hab⟩ := ha
  exact ⟨b, hy.of_ends hb, hab⟩

end Prog
