import BeTree.System.Accounting
import BeTree.Proof.Upsert

/-!
# What a program of the tree does to the dirty objects

Evictions only make objects clean. An object becomes dirty when it is allocated or
accessed for writing. So after a run the dirty objects are those that were dirty
before, those in the footprint of the run, and new ones; `Touches` says this, and
composes.

`Safely` is the rule of pre- and postconditions for programs of the tree over the swap
space. It is about runs in which ids do not wrap around and no clean node is accessed for
writing while it has a dirty child, and says beside the postcondition that the run does not
stop at the assertion that nothing is buffered for a dirty child.
-/

namespace BeTree

open Checked SwapSpace

/-- The object that an operation makes dirty. -/
def Op.writes : Op → Nat → Prop
  | .access id dirty _ _, i => dirty = true ∧ i = id
  | _, _ => False

/-- It makes nothing dirty. -/
def Op.Quiet (o : Op) : Prop := ∀ i, ¬ o.writes i

namespace Environment

variable {F F' : Nat → Prop} {b e e' e'' : Environment}

/-- The first id that has not been used. -/
def fresh (e : Environment) : Nat := e.ss.nextId

/-- An object is in memory and dirty. -/
def Dirty (e : Environment) (id : Nat) : Prop := e.ss.Dirty id

/-- What is dirty is in memory. -/
def DirtyResident (e : Environment) : Prop :=
  ∀ i o, e.ss.objects.get? i = some o → o.targetIsDirty = true → o.target.isSome = true

/-- What is dirty is in memory, and ids are positive and have been given out. -/
structure Tame (e : Environment) : Prop where
  resident : DirtyResident e
  ids : ∀ i o, e.ss.objects.get? i = some o → 0 < i ∧ i < e.fresh

theorem tame_create (n : Nat) : Tame (create n) := by
  refine ⟨fun i o ho => ?_, fun i o ho => ?_⟩
  · exact absurd ho (by simp [create, SwapSpace.create])
  · exact absurd ho (by simp [create, SwapSpace.create])

/-! ## What an operation does -/

/-- The work of an operation: a new object, or another state of one object. -/
inductive Works (o : Op) (s : SwapSpace Unit (Payload Unit)) : SwapSpace Unit (Payload Unit) → Prop where
  | same : Works o s s
  | entered (p : Payload Unit) : Works o s (s.entered p)
  | set {id : Nat} {x x' : Object Unit} {s' : SwapSpace Unit (Payload Unit)}
      (object : s.objects.get? id = some x) (objects : s'.objects = s.objects.set id x')
      (nextId : s'.nextId = s.nextId)
      (flag : x'.targetIsDirty = true → x.targetIsDirty = true ∨ o.writes id)
      (target : x.target.isSome = true → x'.target.isSome = true)
      (kept : x'.target.isSome = true ∨ x'.targetIsDirty = x.targetIsDirty) : Works o s s'

/-- **An operation** does its work, and then evicts or frees objects. -/
theorem works_step {o : Op} {r : o.Ans} (hstep : handler o e = (.ok r, e')) :
    ∃ s₁, Works o e.ss s₁ ∧ Settles s₁ e'.ss := by
  cases o with
  | allocate =>
      obtain ⟨ss, hss, rfl⟩ := allocate_eq hstep
      obtain ⟨_, _, hevict⟩ := yields_allocate_cases _ _ _ _ hss
      exact ⟨_, .entered _, (parks_of_evict hevict).toSettles⟩
  | pin id =>
      obtain ⟨ss, hss, rfl⟩ := update_eq hstep
      rcases yields_doPin ss hss with ⟨_, rfl⟩ | ⟨x, hx, rfl⟩
      · exact ⟨_, .same, Settles.refl _⟩
      · exact ⟨e.ss.repinned id x (x.pincount + 1),
          .set hx rfl rfl Or.inl (fun ht => ht) (Or.inr rfl), Settles.refl _⟩
  | access id dirty size children =>
      obtain ⟨ss, hss, _, rfl⟩ := access_eq hstep
      obtain ⟨s₁, hs₁, hevict⟩ := yields_access_cases _ _ _ _ _ hss
      obtain ⟨x, p, hx, hobj, _⟩ := hs₁.object
      rw [accessed_objects] at hobj
      refine ⟨s₁, .set hx hobj hs₁.nextId (fun hd => ?_) (fun _ => rfl) (Or.inl rfl),
        (parks_of_evict hevict).toSettles⟩
      exact (Bool.or_eq_true_iff.mp hd).imp_right (fun hd => ⟨hd, rfl⟩)
  | unpin id children =>
      obtain ⟨ss, hss, rfl⟩ := update_eq hstep
      obtain ⟨s₁, hs₁, hss⟩ := bind_eq_ok.mp hss
      obtain ⟨x, hx, _, rfl⟩ := yields_store s₁ hs₁
      rcases yields_unpin_cases _ _ _ _ hss with ⟨_, rfl⟩ | ⟨y, hy, _, hevict⟩
      · exact ⟨e.ss.written id x ⟨(), children⟩,
          .set hx rfl rfl Or.inl (fun _ => rfl) (Or.inl rfl), Settles.refl _⟩
      · -- the object is written first, and then its pin is removed
        have hy : y = { x with target := some ⟨(), children⟩ } := by
          rcases Dict.get?_set_eq_some.mp hy with ⟨_, hy⟩ | ⟨hne, _⟩
          · exact hy
          · exact absurd rfl hne
        subst hy
        have hworks : Works (.unpin id children) e.ss ((e.ss.written id x ⟨(), children⟩).repinned id
            { x with target := some ⟨(), children⟩ } (x.pincount - 1)) :=
          .set hx Dict.set_set rfl Or.inl (fun _ => rfl) (Or.inl rfl)
        exact ⟨_, hworks, (parks_of_evict hevict).toSettles⟩
  | depoint id =>
      obtain ⟨ss, hss, rfl⟩ := update_eq hstep
      exact ⟨_, .same, yields_release_settles _ _ _ ss hss⟩
  | isDirty id =>
      obtain ⟨_, rfl⟩ := answer_eq hstep
      exact ⟨_, .same, Settles.refl _⟩
  | isInMemory id =>
      obtain ⟨_, rfl⟩ := answer_eq hstep
      exact ⟨_, .same, Settles.refl _⟩
  | evictAll =>
      obtain ⟨ss, hss, rfl⟩ := update_eq hstep
      exact ⟨_, .same, (yields_evictLoop_parks _ _ _ _ ss hss).toSettles⟩

theorem fresh_step {o : Op} {r : o.Ans} (hstep : handler o e = (.ok r, e')) : e.fresh ≤ e'.fresh := by
  obtain ⟨s₁, hworks, hs⟩ := works_step hstep
  show e.ss.nextId ≤ e'.ss.nextId
  rw [hs.nextId]
  cases hworks with
  | same => exact Nat.le_refl _
  | entered p => exact Nat.le_add_right _ 2
  | set _ _ hid => exact Nat.le_of_eq hid.symm

/-- **What is dirty stays in memory**, whatever the clock shows. -/
theorem dirtyResident_step {o : Op} {r : o.Ans} (h : DirtyResident e)
    (hstep : handler o e = (.ok r, e')) : DirtyResident e' := by
  obtain ⟨s₁, hworks, hs⟩ := works_step hstep
  have hworked : ∀ i x, s₁.objects.get? i = some x → x.targetIsDirty = true →
      x.target.isSome = true := by
    intro i y hy hd
    cases hworks with
    | same => exact h i y hy hd
    | entered p =>
        rcases Dict.get?_set_eq_some.mp hy with ⟨_, rfl⟩ | ⟨_, hy⟩
        · rfl
        · exact h i y hy hd
    | @set id x x' _ hx hobj _ _ ht hkept =>
        rw [hobj] at hy
        rcases Dict.get?_set_eq_some.mp hy with ⟨_, rfl⟩ | ⟨_, hy⟩
        · rcases hkept with hkept | hkept
          · exact hkept
          · exact ht (h id x hx (hkept.symm.trans hd))
        · exact h i y hy hd
  intro i x hx hd
  obtain ⟨y, hy, _, _, hrests⟩ := hs.object i x hx
  rcases hrests with ⟨ht, hd'⟩ | ⟨_, _, hd'⟩
  · exact ht.trans (hworked i y hy (hd'.symm.trans hd))
  · rw [hd'] at hd
    cases hd

/-! ## Footprints -/

/-- Only objects in `F` and new ones have become dirty. -/
structure Touches (F : Nat → Prop) (b e : Environment) : Prop where
  tame : Tame e
  fresh : b.fresh ≤ e.fresh
  dirty : ∀ i, e.Dirty i → b.Dirty i ∨ F i ∨ b.fresh ≤ i

theorem Touches.refl (h : Tame e) : Touches F e e := ⟨h, Nat.le_refl _, fun _ hi => Or.inl hi⟩

theorem Touches.trans (h : Touches F b e) (h' : Touches F' e e')
    (hF : ∀ i, F' i → F i ∨ b.fresh ≤ i) : Touches F b e' := by
  refine ⟨h'.tame, Nat.le_trans h.fresh h'.fresh, fun i hi => ?_⟩
  rcases h'.dirty i hi with hi | hi | hi
  · exact h.dirty i hi
  · exact Or.inr (hF i hi)
  · exact Or.inr (Or.inr (Nat.le_trans h.fresh hi))

theorem Touches.mono (h : Touches F b e) (hF : ∀ i, F i → F' i) : Touches F' b e :=
  ⟨h.tame, h.fresh, fun i hi => (h.dirty i hi).imp_right (Or.imp_left (hF i))⟩

/-- What was not dirty and is not in the footprint is not dirty now. -/
theorem Touches.not_dirty {i : Nat} (h : Touches F b e) (hi : ¬ b.Dirty i) (hF : ¬ F i)
    (hfresh : i < b.fresh) : ¬ e.Dirty i := by
  intro hd
  rcases h.dirty i hd with hd | hd | hd
  · exact hi hd
  · exact hF hd
  · omega

/-- A new object has the next id, as long as ids have not wrapped around. -/
theorem newId_entered {s : SwapSpace Unit (Payload Unit)} {p : Payload Unit}
    (hs : Settles (s.entered p) e'.ss) (hids : e'.fresh < 2 ^ 64) : s.newId = s.nextId + 1 := by
  have hnext : e'.ss.nextId = s.nextId + 2 := hs.nextId
  have hlt : e'.ss.nextId < 2 ^ 64 := hids
  exact uint64_of_lt (by omega)

/-- **One operation** makes at most the object dirty that it writes, or a new one. -/
theorem touches_step {o : Op} {r : o.Ans} (h : Tame e) (hstep : handler o e = (.ok r, e'))
    (hids : e'.fresh < 2 ^ 64) : Touches o.writes e e' := by
  have hfresh := fresh_step hstep
  have hresident := dirtyResident_step h.resident hstep
  obtain ⟨s₁, hworks, hs⟩ := works_step hstep
  refine ⟨⟨hresident, fun i x hx => ?_⟩, hfresh, fun i hi => ?_⟩
  · obtain ⟨y, hy, _⟩ := hs.object i x hx
    cases hworks with
    | same =>
        have := h.ids i y hy
        omega
    | entered p =>
        rcases Dict.get?_set_eq_some.mp hy with ⟨rfl, _⟩ | ⟨_, hy⟩
        · have hnew := newId_entered hs hids
          have hnext : e'.fresh = e.fresh + 2 := hs.nextId
          have hcur : e.fresh = e.ss.nextId := rfl
          omega
        · have := h.ids i y hy
          omega
    | @set id x x' _ hx hobj _ _ _ _ =>
        rw [hobj] at hy
        rcases Dict.get?_set_eq_some.mp hy with ⟨rfl, _⟩ | ⟨_, hy⟩
        · have := h.ids i x hx
          omega
        · have := h.ids i y hy
          omega
  · obtain ⟨y, hy, ht, hd⟩ := hs.calm hi
    cases hworks with
    | same => exact Or.inl ⟨y, hy, ht, hd⟩
    | entered p =>
        rcases Dict.get?_set_eq_some.mp hy with ⟨rfl, _⟩ | ⟨_, hy⟩
        · refine Or.inr (Or.inr ?_)
          rw [newId_entered hs hids]
          exact Nat.le_succ _
        · exact Or.inl ⟨y, hy, ht, hd⟩
    | @set id x x' _ hx hobj _ hflag _ _ =>
        rw [hobj] at hy
        rcases Dict.get?_set_eq_some.mp hy with ⟨rfl, rfl⟩ | ⟨_, hy⟩
        · rcases hflag hd with hd | hw
          · exact Or.inl ⟨x, hx, h.resident i x hx hd, hd⟩
          · exact Or.inr (Or.inl hw)
        · exact Or.inl ⟨y, hy, ht, hd⟩

theorem allocate_fresh {id : Nat} (hstep : handler .allocate e = (.ok id, e'))
    (hids : e'.fresh < 2 ^ 64) : e.fresh ≤ id ∧ id < e'.fresh := by
  obtain ⟨ss, hss, rfl⟩ := allocate_eq hstep
  obtain ⟨hid, _, hevict⟩ := yields_allocate_cases _ _ _ _ hss
  have hs := (parks_of_evict hevict).toSettles
  have hs' : Settles (e.ss.entered _) ({ e with ss := ss } : Environment).ss := hs
  have hnew := newId_entered hs' hids
  have hid : id = e.ss.newId := hid
  have hnext : ss.nextId = e.ss.nextId + 2 := hs.nextId
  refine ⟨?_, ?_⟩
  · show e.ss.nextId ≤ id
    omega
  · show id < ss.nextId
    omega

/-- `is_dirty()` says whether an object is dirty. -/
theorem isDirty_iff {id : Nat} {d : Bool} (h : Tame e) (hd : e.ss.isDirty id = .ok d) :
    d = true ↔ e.Dirty id := by
  have hy : Yields (e.ss.isDirty id) (fun d => d = true ↔ e.Dirty id) := by
    refine yields_object.bind (fun o ho => yields_pure ?_)
    rw [Bool.and_eq_true_iff, Bool.and_eq_true_iff, decide_eq_true_eq]
    refine ⟨fun hd => ⟨o, ho, hd.1.2, hd.2⟩, fun ⟨x, hx, hxt, hxd⟩ => ?_⟩
    rw [ho] at hx
    injection hx with hx
    subst hx
    exact ⟨⟨(h.ids id o ho).1, hxt⟩, hxd⟩
  exact hy d hd

/-- The history's test for a dirty object finds every one. -/
theorem dirty_eq {id : Nat} (h : Tame e) (hd : e.Dirty id) : e.dirty id = true := by
  obtain ⟨o, ho, ht, hdirty⟩ := hd
  have hok : e.ss.isDirty id = .ok true := by
    unfold SwapSpace.isDirty
    rw [object_eq ho]
    show Except.ok (decide (0 < id) && o.target.isSome && o.targetIsDirty) = .ok true
    rw [decide_eq_true (h.ids id o ho).1, ht, hdirty]
    rfl
  unfold Environment.dirty
  rw [hok]

theorem not_dirty_eq {id : Nat} (h : Tame e) (hd : ¬ e.Dirty id) : e.dirty id = false := by
  unfold Environment.dirty
  cases hok : e.ss.isDirty id with
  | error _ => rfl
  | ok d =>
      cases d with
      | false => rfl
      | true => exact absurd ((isDirty_iff h hok).mp rfl) hd

/-- A clean node with a dirty child has been accessed for writing, or ids have wrapped around. -/
def Bad (e : Environment) : Prop := e.cleanOverDirty = true ∨ 2 ^ 64 ≤ e.fresh

/-- A clean object that is accessed for writing has no dirty child, or the history records it. -/
theorem children_clean {id size : Nat} {children : List Nat} {loaded : Bool} (h : Tame e)
    (hstep : handler (.access id true size children) e = (.ok loaded, e'))
    (hok : ¬ e'.Bad) (hclean : ¬ e.Dirty id) : ∀ i ∈ children, ¬ e.Dirty i := by
  obtain ⟨ss, _, _, rfl⟩ := access_eq hstep
  intro i hi hd
  refine hok (Or.inl ?_)
  show (e.cleanOverDirty || (true && !e.dirty id && children.any e.dirty)) = true
  have hany : children.any e.dirty = true := List.any_eq_true.mpr ⟨i, hi, dirty_eq h hd⟩
  rw [not_dirty_eq h hclean, hany]
  exact Bool.or_true _

theorem cleanOverDirty_mono (o : Op) (e : Environment) (h : e.cleanOverDirty = true) :
    (handler o e).2.cleanOverDirty = true := by
  have hupdate : ∀ r, (e.update r).2.cleanOverDirty = true := by
    intro r
    cases r with
    | ok ss => exact h
    | error _ => exact h
  cases o with
  | allocate =>
      unfold handler
      dsimp only
      split
      · exact h
      · exact h
  | pin id => exact hupdate _
  | access id dirty size children =>
      unfold handler access
      dsimp only
      split
      · -- the only place that sets the flag, by a disjunction with its old value
        dsimp only
        rw [h]
        rfl
      · exact h
  | unpin id children => exact hupdate _
  | depoint id => exact hupdate _
  | isDirty id =>
      unfold handler answer
      dsimp only
      split
      · exact h
      · exact h
  | isInMemory id =>
      unfold handler answer
      dsimp only
      split
      · exact h
      · exact h
  | evictAll => exact hupdate _

theorem stopped_eq {α : Type} {f : Fault}
    (h : (.error .environment, e) = ((.error f, e') : Except Fault α × Environment)) :
    f = .environment ∧ e' = e := by
  obtain ⟨hf, he⟩ := Prod.mk.inj h
  injection hf with hf
  exact ⟨hf.symm, he.symm⟩

theorem update_error {r : Except SwapFault (SwapSpace Unit (Payload Unit))} {f : Fault}
    (h : e.update r = (.error f, e')) : f = .environment ∧ e' = e := by
  cases r with
  | ok ss => exact absurd (congrArg Prod.fst h) (by simp [update])
  | error _ => exact stopped_eq h

theorem answer_error {α : Type} {r : Except SwapFault α} {g : α → Environment} {f : Fault}
    (h : e.answer r g = (.error f, e')) : f = .environment ∧ e' = e := by
  cases r with
  | ok a => exact absurd (congrArg Prod.fst h) (by simp [answer])
  | error _ => exact stopped_eq h

/-- An operation that fails changes nothing. -/
theorem error_eq {o : Op} {f : Fault} (h : handler o e = (.error f, e')) :
    f = .environment ∧ e' = e := by
  cases o with
  | allocate =>
      unfold handler at h
      dsimp only at h
      split at h
      · exact absurd (congrArg Prod.fst h) (by simp)
      · exact stopped_eq h
  | pin id => exact update_error h
  | access id dirty size children =>
      unfold handler access at h
      dsimp only at h
      split at h
      · exact absurd (congrArg Prod.fst h) (by simp)
      · exact stopped_eq h
  | unpin id children => exact update_error h
  | depoint id => exact update_error h
  | isDirty id => exact answer_error h
  | isInMemory id => exact answer_error h
  | evictAll => exact update_error h

end Environment

open Environment

/-! ## Programs -/

section Safely

variable {α β : Type} {F : Nat → Prop} {b e : Environment}

/-- A fault other than the assertion that nothing is buffered for a dirty child. -/
def Fault.Other (f : Fault) : Prop := f ≠ .assertion .dirtyChildBuffered

theorem bad_mono (o : Op) (e : Environment) (h : e.Bad) : (handler o e).2.Bad := by
  refine h.imp (cleanOverDirty_mono o e) (fun hids => ?_)
  rcases hstep : handler o e with ⟨f | r, e'⟩
  · rw [(error_eq hstep).2]
    exact hids
  · exact Nat.le_trans hids (fresh_step hstep)

/--
A run from `e` that accesses no clean node with a dirty child for writing, and in which ids do not
wrap around, returns with `Q`, or stops with a fault other than the assertion about dirty children.
-/
def Safely (Q : α → Environment → Prop) (x : BProg α) (e : Environment) : Prop :=
  Prog.Meets handler Environment.Bad Q Fault.Other x e

variable {Q R : α → Environment → Prop}

theorem safely_pure {a : α} (h : Q a e) : Safely Q (pure a : BProg α) e := Prog.meets_pure h

theorem safely_stop {f : Fault} (h : f.Other) : Safely Q (Prog.stop f : BProg α) e :=
  Prog.meets_stop h

theorem Safely.imp {x : BProg α} (h : Safely Q x e) (hq : ∀ a e', Q a e' → R a e') :
    Safely R x e := Prog.Meets.imp h hq

theorem Safely.bind {x : BProg α} {f : α → BProg β} {S : β → Environment → Prop}
    (hx : Safely Q x e) (hf : ∀ a e', Q a e' → Safely S (f a) e') :
    Safely S (x >>= f) e := Prog.Meets.bind bad_mono hx hf

theorem Safely.and_all {x : BProg α} {P : α → Prop} {E : Fault → Prop} (h : Safely Q x e)
    (hall : Prog.All P E x) : Safely (fun a e' => P a ∧ Q a e') x e := Prog.Meets.and_all h hall

/-- An operation, with what is known of every one of its kind. -/
theorem safely_perform {o : Op} {Q : o.Ans → Environment → Prop} (h : Tame e)
    (hq : ∀ r e', handler o e = (.ok r, e') → ¬ e'.Bad → Touches o.writes e e' → Q r e') :
    Safely Q (Prog.perform o : BProg o.Ans) e := by
  refine Prog.meets_perform (fun r e' hr hok => hq r e' hr hok (touches_step h hr ?_)) (fun f e' hf => ?_)
  · exact Nat.lt_of_not_le (fun hids => hok (Or.inr hids))
  · rw [(error_eq hf).1]
    exact fun hc => by cases hc

/-- After an assertion, what it asserts may be used. -/
theorem safely_require {p : Bool} {f : Fault} {k : Unit → BProg α} (hf : p = false → f.Other)
    (hk : p = true → Safely Q (k ()) e) : Safely Q (Prog.require p f >>= k) e := by
  unfold Prog.require
  split
  · rename_i hp
    exact hk hp
  · rename_i hp
    exact safely_stop (hf (by simpa using hp))

/-- An operation that makes nothing dirty. -/
theorem safely_quiet {o : Op} (h : Tame e) (ho : o.Quiet) :
    Safely (fun _ e' => Touches (fun _ => False) e e') (Prog.perform o : BProg o.Ans) e :=
  safely_perform h (fun _ _ _ _ ht => ht.mono (fun i hi => ho i hi))

/-- A program of such operations. -/
theorem Safely.of_only {x : BProg α} {P : α → Prop} (hx : Prog.Only Op.Quiet P Fault.Other x)
    (h : Tame e) :
    Safely (fun a e' => P a ∧ Touches (fun _ => False) e e') x e := by
  refine hx.meets bad_mono (fun o s r s' ho hs hstep hok => ?_) (fun o s f s' hf => ?_)
    (Touches.refl h)
  · have hids : s'.fresh < 2 ^ 64 := Nat.lt_of_not_le (fun hids => hok (Or.inr hids))
    exact hs.trans (touches_step hs.tame hstep hids) (fun i hi => absurd hi (ho i))
  · rw [(error_eq hf).1]
    exact fun hc => by cases hc

end Safely

namespace Node

variable {K V : Type} {α : Type} {F : Nat → Prop}
variable {b e : Environment} {bet : Params K V} {n : Node K V}

theorem safely_allocate (he : Tame e) :
    Safely (fun n e' => n = (⟨n.id, [], []⟩ : Node K V) ∧ (e.fresh ≤ n.id ∧ n.id < e'.fresh)
      ∧ Touches (fun _ => False) e e') (Node.allocate : BProg (Node K V)) e := by
  refine (safely_perform (Q := fun id e' => (e.fresh ≤ id ∧ id < e'.fresh)
    ∧ Touches (fun _ => False) e e') he (fun id e' hid hok ht => ?_)).bind
    (fun id e' hid => safely_pure ⟨rfl, hid⟩)
  exact ⟨allocate_fresh hid (Nat.lt_of_not_le (fun hids => hok (Or.inr hids))),
    ht.mono (fun i hi => hi.elim)⟩

/--
**Following a pointer for writing.** The node becomes dirty; and if it was clean before,
none of its children is dirty then.
-/
theorem safely_deref {body : Node K V → BProg (Node K V × α)}
    {Q S : Node K V × α → Environment → Prop} (hr : ∀ n, bet.reload n = some n) (he : Tame e)
    (hid : n.id < e.fresh)
    (hbody : ∀ e₁, Touches (· = n.id) e e₁ →
      (¬ e.Dirty n.id → ∀ i ∈ n.children, i ≠ n.id → i < e.fresh → ¬ e₁.Dirty i) →
      Safely S (body n) e₁)
    (hpost : ∀ r e₂, S r e₂ → Tame e₂ ∧
      ∀ e₃, Touches (fun _ => False) e₂ e₃ → Q r e₃) :
    Safely Q (n.deref bet true body) e := by
  unfold deref
  refine (safely_quiet (o := .pin n.id) he (fun _ hi => hi)).bind (fun _ e₀ h₀ => ?_)
  refine (safely_perform (o := .access n.id true n.size n.children)
    (Q := fun _ e₁ => Touches (· = n.id) e e₁
      ∧ (¬ e.Dirty n.id → ∀ i ∈ n.children, i ≠ n.id → i < e.fresh → ¬ e₁.Dirty i)) h₀.tame
    (fun loaded e₁ hstep hok ht => ⟨?_, ?_⟩)).bind (fun loaded e₁ h₁ => ?_)
  · exact (h₀.mono (fun i hi => hi.elim)).trans ht (fun i hi => Or.inl hi.2)
  · intro hclean i hi hne hfresh
    have hclean₀ : ¬ e₀.Dirty n.id := h₀.not_dirty hclean (fun hf => hf) hid
    have hkid := children_clean h₀.tame hstep hok hclean₀ i hi
    exact ht.not_dirty hkid (fun hw => hne hw.2) (Nat.lt_of_lt_of_le hfresh h₀.fresh)
  · rw [found_eq hr]
    refine (hbody e₁ h₁.1 h₁.2).bind (fun r e₂ h₂ => ?_)
    obtain ⟨hsound, hcalm⟩ := hpost r e₂ h₂
    exact (safely_quiet (o := .unpin r.1.id r.1.children) hsound (fun _ hi => hi)).bind
      (fun _ e₃ h₃ => safely_pure (hcalm e₃ h₃))

/-- Following a pointer to change the node and nothing else. -/
theorem safely_derefPure {f : Node K V → Node K V × α} (hr : ∀ n, bet.reload n = some n)
    (he : Tame e) (hid : n.id < e.fresh) :
    Safely (fun r e' => r = f n ∧ Touches (· = n.id) e e')
      (n.deref bet true (fun n => pure (f n))) e :=
  safely_deref (S := fun r e' => r = f n ∧ Touches (· = n.id) e e') hr he hid
    (fun _ ht _ => safely_pure ⟨rfl, ht⟩)
    (fun _ _ h => ⟨h.2.tame, fun _ ht => ⟨h.1, h.2.trans ht (fun _ hi => hi.elim)⟩⟩)

theorem safely_derefSize (hr : ∀ n, bet.reload n = some n) (he : Tame e) (hid : n.id < e.fresh) :
    Safely (fun r e' => r = (n, n.size) ∧ Touches (· = n.id) e e') (n.derefSize bet) e := by
  refine safely_deref (S := fun r e' => r = (n, n.size) ∧ Touches (· = n.id) e e') hr he hid
    (fun e₁ ht _ => ?_)
    (fun _ _ h => ⟨h.2.tame, fun _ ht => ⟨h.1, h.2.trans ht (fun _ hi => hi.elim)⟩⟩)
  refine (safely_derefPure (f := fun n => (n, n.size)) hr ht.tame
    (Nat.lt_of_lt_of_le hid ht.fresh)).imp (fun r e₂ h => ⟨h.1, ht.trans h.2 (fun _ hi => Or.inl hi)⟩)

end Node

end BeTree
