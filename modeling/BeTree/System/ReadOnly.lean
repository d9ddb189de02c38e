import BeTree.System.Reading

/-!
# Reads and the flags of the objects

A node is marked dirty by an access for writing. The iterator of a tree holds it as
`const`, so `begin`, `lower_bound`, `upper_bound` and the increment of an iterator only
access nodes for reading: `target_is_dirty` of an object changes only when the object is
evicted, and where nothing is dirty, nothing is written and nothing is sent.

`betree::query` calls `root->query` on a `root` that is not `const`. It accesses the root
for writing, so it leaves the flags alone only if the root is dirty already.
-/

namespace BeTree

open Checked SwapSpace Environment

/-! ## The swap space -/

namespace SwapSpace

variable {D B : Type} {s s₁ s' : SwapSpace D B} {id : Nat}

/-- The flag is as it was, or the object was dirty and is on disk now. -/
def FlagKept (o o' : Object D) : Prop :=
  o'.targetIsDirty = o.targetIsDirty ∨ (o.targetIsDirty = true ∧ o'.target = none)

/-- What reading a node may do to the objects. -/
structure Spares (s s' : SwapSpace D B) : Prop where
  object : ∀ i o, s.objects.get? i = some o → ∃ o', s'.objects.get? i = some o' ∧ FlagKept o o'
  clean : Clean s → Clean s' ∧ s'.backstore = s.backstore ∧ s'.requests = s.requests

theorem Parks.spares (h : Parks s s') : Spares s s' := by
  refine ⟨fun i o ho => ?_, fun hc => ⟨h.clean hc, h.written hc⟩⟩
  rcases h.parked i with heq | ⟨x, o', hx, ho', _, _, ht', hd, _⟩
  · exact ⟨o, heq.trans ho, Or.inl rfl⟩
  · rw [ho] at hx
    injection hx with hx
    subst hx
    cases hflag : o.targetIsDirty with
    | true => exact ⟨o', ho', Or.inr ⟨hflag, ht'⟩⟩
    | false => exact ⟨o', ho', Or.inl (hd.trans hflag.symm)⟩

/-- An object is rewritten with the flag it has, and some objects are evicted then. -/
theorem Spares.of_set {o₀ o₁ : Object D} (h : Spares s₁ s') (ho : s.objects.get? id = some o₀)
    (hobj : s₁.objects = s.objects.set id o₁) (hflag : o₁.targetIsDirty = o₀.targetIsDirty)
    (hback : s₁.backstore = s.backstore) (hsent : s₁.requests = s.requests) : Spares s s' := by
  refine ⟨fun i o hi => ?_, fun hc => ?_⟩
  · by_cases heq : i = id
    · subst heq
      rw [ho] at hi
      injection hi with hi
      subst hi
      have hnew : s₁.objects.get? i = some o₁ := by
        rw [hobj]
        exact Dict.get?_set_eq_some.mpr (Or.inl ⟨rfl, rfl⟩)
      obtain ⟨o', ho', hkept⟩ := h.object i o₁ hnew
      unfold FlagKept at hkept
      rw [hflag] at hkept
      exact ⟨o', ho', hkept⟩
    · have hold : s₁.objects.get? i = some o := by
        rw [hobj]
        exact Dict.get?_set_eq_some.mpr (Or.inr ⟨heq, hi⟩)
      exact h.object i o hold
  · have hclean : Clean s₁ := by
      intro i o hi
      rw [hobj] at hi
      rcases Dict.get?_set_eq_some.mp hi with ⟨_, rfl⟩ | ⟨_, hi⟩
      · exact hflag.trans (hc id o₀ ho)
      · exact hc i o hi
    obtain ⟨hc', hback', hsent'⟩ := h.clean hclean
    exact ⟨hc', hback'.trans hback, hsent'.trans hsent⟩

end SwapSpace

/-! ## One operation -/

/-- An operation that marks nothing: an access for writing is to an object that is dirty. -/
def Op.Calm (e : Environment) : Op → Prop
  | .pin _ => True
  | .access id dirty _ _ => dirty = true → e.Dirty id
  | .unpin _ _ => True
  | _ => False

theorem Op.Reader.calm {o : Op} (h : o.Reader) (e : Environment) : o.Calm e := by
  cases o with
  | access id dirty size children =>
      intro hd
      have hread : dirty = false := h
      rw [hread] at hd
      cases hd
  | _ => exact h

variable {e e' : Environment}

theorem spares_access {id : Nat} {dirty : Bool} {ss : SwapSpace Unit (Payload Unit)}
    (hcalm : dirty = true → e.Dirty id) (hss : e.ss.access pointerCodec id dirty = .ok ss) :
    Spares e.ss ss := by
  have hy : Yields (e.ss.access pointerCodec id dirty) (Spares e.ss) := by
    refine yields_object.bind (fun o ho => yields_load.bind (fun s₁ hs₁ => ?_))
    refine (yields_evictLoop_parks _ _ _ _).imp (fun s' hp => ?_)
    -- the flag of the object is left as it is
    have hflag : (o.targetIsDirty || dirty) = o.targetIsDirty := by
      cases hd : dirty with
      | false => exact Bool.or_false _
      | true =>
          obtain ⟨x, hx, _, hxd⟩ := hcalm hd
          rw [ho] at hx
          injection hx with hx
          rw [hx, hxd]
          rfl
    obtain ⟨x, hx, hload⟩ := hs₁
    have hx : x = { o with
        lastAccess := e.ss.now
        targetIsDirty := o.targetIsDirty || dirty } := by
      rcases Dict.get?_set_eq_some.mp hx with ⟨_, hx⟩ | ⟨hne, _⟩
      · exact hx
      · exact absurd rfl hne
    rcases hload with ⟨_, rfl⟩ | ⟨_, buffer, _, rfl⟩
    · exact hp.spares.of_set ho rfl hflag rfl rfl
    · have hobj : ((e.ss.touched id o dirty).loaded pointerCodec id x buffer).objects
          = e.ss.objects.set id { x with target := some (pointerCodec.deserialize buffer) } :=
        Dict.set_set
      refine hp.spares.of_set ho hobj ?_ rfl rfl
      rw [hx]
      exact hflag
  exact hy ss hss

theorem spares_unpin {id : Nat} {children : List Nat} {ss : SwapSpace Unit (Payload Unit)}
    (hss : (e.ss.store id ⟨(), children⟩ >>= fun ss => ss.unpin pointerCodec id) = .ok ss) :
    Spares e.ss ss := by
  have hy : Yields (e.ss.store id ⟨(), children⟩ >>= fun ss => ss.unpin pointerCodec id)
      (Spares e.ss) := by
    refine yields_store.bind (fun s₁ ⟨x, hx, _, hs₁⟩ => ?_)
    have hunpin : Yields (s₁.unpin pointerCodec id) (Spares s₁) := by
      unfold SwapSpace.unpin
      split
      · exact yields_pure (Parks.refl s₁).spares
      · refine yields_object.bind (fun o ho => yields_check.bind (fun _ _ => ?_))
        exact (yields_evictLoop_parks _ _ _ _).imp
          (fun s' hp => hp.spares.of_set ho rfl rfl rfl rfl)
    subst hs₁
    exact hunpin.imp (fun s' hs' => hs'.of_set hx rfl rfl rfl rfl)
  exact hy ss hss

/-- **One operation** of a reader changes a flag only by evicting the object. -/
theorem spares_step {o : Op} {r : o.Ans} (ho : o.Calm e)
    (hstep : handler o e = (.ok r, e')) : Spares e.ss e'.ss := by
  cases o with
  | pin id =>
      obtain ⟨ss, hss, rfl⟩ := update_eq hstep
      rcases yields_doPin ss hss with ⟨_, rfl⟩ | ⟨x, hx, rfl⟩
      · exact (Parks.refl _).spares
      · exact (Parks.refl _).spares.of_set hx rfl rfl rfl rfl
  | access id dirty size children =>
      obtain ⟨ss, hss, _, rfl⟩ := access_eq hstep
      exact spares_access ho hss
  | unpin id children =>
      obtain ⟨ss, hss, rfl⟩ := update_eq hstep
      exact spares_unpin hss
  | _ => exact ho.elim

/-! ## Runs -/

namespace Environment

/-- The object is on disk in some state of the run. -/
def OnDiskIn (l : List (Op × Environment)) (i : Nat) : Prop :=
  ∃ x ∈ l, ∃ o, x.2.ss.objects.get? i = some o ∧ o.target = none

/--
The flag of every object is left as it is, unless the object is evicted in the run: it is dirty
and in memory at first, and on disk in some later state.
-/
def FlagsKept {α : Type} (x : BProg α) (e : Environment) : Prop :=
  ∀ i o, e.ss.objects.get? i = some o →
    ∃ o', (x.run handler e).2.ss.objects.get? i = some o'
      ∧ (o'.targetIsDirty = o.targetIsDirty
        ∨ (o.targetIsDirty = true ∧ o.target.isSome = true
          ∧ OnDiskIn (x.trace handler e) i))

/-- In every state of the run nothing is dirty, and nothing has been written or sent. -/
def NothingWritten {α : Type} (x : BProg α) (e : Environment) : Prop :=
  ∀ y ∈ x.trace handler e,
    Clean y.2.ss ∧ y.2.ss.backstore = e.ss.backstore ∧ y.2.ss.requests = e.ss.requests

end Environment

section Runs

variable {α : Type}

theorem flagsKept_stay {x : BProg α} (hstay : (x.run handler e).2 = e) :
    FlagsKept x e := by
  intro i o ho
  rw [hstay]
  exact ⟨o, ho, Or.inl rfl⟩

/-- An operation first, and then the rest of the run. -/
theorem flagsKept_ask {o : Op} {k : o.Ans → BProg α} (he : DirtyResident e) (hcalm : o.Calm e)
    (hk : ∀ r e', handler o e = (.ok r, e') → FlagsKept (k r) e') :
    FlagsKept (Prog.ask o k) e := by
  rcases hstep : handler o e with ⟨f | r, e₁⟩
  · refine flagsKept_stay ?_
    rw [Prog.run, hstep]
    exact (error_eq hstep).2
  · intro i x hx
    obtain ⟨x₁, hx₁, hkept⟩ := (spares_step hcalm hstep).object i x hx
    obtain ⟨x', hx', hrest⟩ := hk r e₁ hstep i x₁ hx₁
    have hrun : (Prog.ask o k).run handler e = (k r).run handler e₁ := by
      rw [Prog.run, hstep]
    have htrace : (Prog.ask o k).trace handler e
        = (o, e₁) :: (k r).trace handler e₁ := by
      rw [Prog.trace, hstep]
    -- an object that is dirty is in memory
    have hmem := he i x hx
    rw [hrun, htrace]
    refine ⟨x', hx', ?_⟩
    rcases hkept with hsame | ⟨hd, hdisk⟩
    · rcases hrest with hsame' | ⟨hd, _, y, hy, hdisk⟩
      · exact Or.inl (hsame'.trans hsame)
      · rw [hsame] at hd
        exact Or.inr ⟨hd, hmem hd, y, List.mem_cons_of_mem _ hy, hdisk⟩
    · exact Or.inr ⟨hd, hmem hd, (o, e₁), List.mem_cons_self, x₁, hx₁, hdisk⟩

theorem flagsKept_of_only {x : BProg α} {Q : α → Prop} {E : Fault → Prop}
    (hx : Prog.Only Op.Reader Q E x) (he : DirtyResident e) : FlagsKept x e := by
  induction x generalizing e with
  | ret a => exact flagsKept_stay rfl
  | stop f => exact flagsKept_stay rfl
  | ask o k ih =>
      refine flagsKept_ask he (hx.1.calm e) (fun r e' hstep => ?_)
      exact ih r (hx.2 r) (dirtyResident_step he hstep)

theorem nothingWritten_of_only {x : BProg α} {Q : α → Prop} {E : Fault → Prop}
    (hx : Prog.Only Op.Reader Q E x) (hclean : Clean e.ss) : NothingWritten x e := by
  induction x generalizing e with
  | ret a => exact fun y hy => absurd hy (by simp [Prog.trace])
  | stop f => exact fun y hy => absurd hy (by simp [Prog.trace])
  | ask o k ih =>
      intro y hy
      rw [Prog.trace] at hy
      rcases hstep : handler o e with ⟨f | r, e₁⟩ <;> rw [hstep] at hy
      · exact absurd hy (by simp)
      · have h₁ := (spares_step (hx.1.calm e) hstep).clean hclean
        rcases List.mem_cons.mp hy with rfl | hy
        · exact h₁
        · obtain ⟨hc, hback, hsent⟩ := ih r (hx.2 r) h₁.1 y hy
          exact ⟨hc, hback.trans h₁.2.1, hsent.trans h₁.2.2⟩

end Runs

/-! ## The reads of a client -/

/-- A call that reads the tree. -/
inductive ReadCall (K V : Type) where
  | query (k : K)
  | start (s : Start K)
  /-- `++it`. -/
  | increment (it : Iterator K V)

/-- What it gives. -/
inductive Answer (K V : Type) where
  | value (v : Option V)
  | iterator (it : Iterator K V)

/-- A call of a client that may hold iterators. -/
inductive ClientCall (K V : Type) where
  | cmd (c : Cmd K V)
  | read (r : ReadCall K V)

section Clients

variable {K V : Type} [LT K] [DecidableLT K] [BEq K] [Add V] [Inhabited K] [Inhabited V]

namespace Betree

/-- Perform a read. -/
def read (bet : Params K V) (t : Betree K V) : ReadCall K V → BProg (Betree K V × Answer K V)
  | .query k => do
    let (t, v) ← t.query bet k
    return (t, .value v)
  | .start s => do
    let (t, it) ← Iterator.startAt bet t s
    return (t, .iterator it)
  | .increment it => do
    let (t, it) ← Iterator.setupNextElement bet t it
    return (t, .iterator it)

/-- Perform a sequence of reads. -/
def readAll (bet : Params K V) : Betree K V → List (ReadCall K V) →
    BProg (Betree K V × List (Answer K V))
  | t, [] => return (t, [])
  | t, r :: rs => do
    let (t, a) ← t.read bet r
    let (t, as) ← readAll bet t rs
    return (t, a :: as)

/-- Perform a sequence of calls. -/
def callAll [BEq V] (bet : Params K V) : Betree K V → List (ClientCall K V) → BProg (Betree K V)
  | t, [] => return t
  | t, .cmd c :: cs => do
    let (t, _) ← t.exec bet c
    callAll bet t cs
  | t, .read r :: cs => do
    let (t, _) ← t.read bet r
    callAll bet t cs

end Betree

/-- The calls on a fresh tree, over a swap space for `n` objects in memory. -/
def runCalls [BEq V] (bet : Params K V) (n : Nat)
    (cs : List (ClientCall K V)) : Except Fault (Betree K V) × Environment :=
  (do
    let t ← Betree.create
    t.callAll bet cs).run handler (Environment.create n)

variable {bet : Params K V} {t : Betree K V}

/-- The iterator only reads. -/
theorem only_read {r : ReadCall K V} (hr : ∀ k, r ≠ .query k) :
    Prog.Only Op.Reader (fun _ => True) Fault.Other (t.read bet r) := by
  cases r with
  | query k => exact absurd rfl (hr k)
  | start s => exact scans_startAt.bind (fun _ _ => trivial)
  | increment it => exact scans_setupLoop.bind (fun _ _ => trivial)

theorem only_readAll {rs : List (ReadCall K V)} (hrs : ∀ k, .query k ∉ rs) :
    Prog.Only Op.Reader (fun _ => True) Fault.Other (t.readAll bet rs) := by
  induction rs generalizing t with
  | nil => trivial
  | cons r rs ih =>
      have hr : ∀ k, r ≠ .query k := by
        intro k hk
        exact hrs k (hk ▸ List.mem_cons_self)
      have hrest : ∀ k, .query k ∉ rs := fun k hk => hrs k (List.mem_cons_of_mem _ hk)
      exact (only_read hr).bind (fun p _ => (ih hrest).bind (fun _ _ => trivial))

theorem dirty_of_pin {id i : Nat} {u : Unit} (hpin : handler (.pin id) e = (.ok u, e'))
    (hd : e.Dirty i) : e'.Dirty i := by
  obtain ⟨ss, hss, rfl⟩ := update_eq hpin
  rcases yields_doPin ss hss with ⟨_, rfl⟩ | ⟨x, hx, rfl⟩
  · exact hd
  · obtain ⟨o, ho, ht, hdirty⟩ := hd
    by_cases hi : i = id
    · subst hi
      rw [ho] at hx
      injection hx with hx
      subst hx
      exact ⟨_, Dict.get?_set_eq_some.mpr (Or.inl ⟨rfl, rfl⟩), ht, hdirty⟩
    · exact ⟨o, Dict.get?_set_eq_some.mpr (Or.inr ⟨hi, ho⟩), ht, hdirty⟩

/-- A query accesses the root for writing, and only reads below it. -/
theorem flagsKept_query {k : K} (he : DirtyResident e) (hroot : e.Dirty t.root.id) :
    FlagsKept (t.read bet (.query k)) e := by
  refine flagsKept_ask he trivial (fun u e₁ hpin => ?_)
  have h₁ := dirtyResident_step he hpin
  refine flagsKept_ask h₁ (fun _ => dirty_of_pin hpin hroot) (fun loaded e₂ hacc => ?_)
  have h₂ := dirtyResident_step h₁ hacc
  refine flagsKept_of_only (Q := fun _ => True) (E := Fault.Other) ?_ h₂
  -- the query of the root and the removal of the pin, and then the two results
  refine Prog.Only.bind (Q := fun _ => True) (Prog.Only.bind (Q := fun _ => True) ?_
    (fun _ _ => trivial)) (fun _ _ => trivial)
  show Prog.Only _ _ _ (t.root.found bet loaded >>= fun n => n.query bet _ k >>= _)
  exact only_found.bind (fun m _ => reads_query.bind (fun r _ => ⟨trivial, fun _ => trivial⟩))

theorem dirtyResident_handler (o : Op) (e : Environment) (he : DirtyResident e) :
    DirtyResident (handler o e).2 := by
  rcases hstep : handler o e with ⟨f | r, e'⟩
  · rw [(error_eq hstep).2]
    exact he
  · exact dirtyResident_step he hstep

theorem dirty_of_eq_true {id : Nat} (h : e.dirty id = true) : e.Dirty id := by
  have hy : Yields (e.ss.isDirty id) (fun d => d = true → e.Dirty id) := by
    refine yields_object.bind (fun o ho => yields_pure (fun hd => ?_))
    rw [Bool.and_eq_true_iff, Bool.and_eq_true_iff] at hd
    exact ⟨o, ho, hd.1.2, hd.2⟩
  unfold Environment.dirty at h
  split at h
  · rename_i d hd
    exact hy d hd h
  · cases h

theorem clean_of_entries (h : e.ss.objects.entries.all (fun x => !x.2.targetIsDirty) = true) :
    Clean e.ss := by
  intro i o ho
  have hmem := List.all_eq_true.mp h (i, o) (Dict.mem_entries.mpr ho)
  exact (Bool.not_eq_true' _).mp hmem

variable [BEq V]

/--
**Reads and flags.** In every state that a client can reach, `begin`, `lower_bound`,
`upper_bound`, the increment of any iterator, and a query if the root is dirty, change the flag
of an object only by evicting it. Where nothing is dirty, no sequence of reads by iterators
makes a node dirty, writes or allocates a file, or sends anything.
-/
theorem reads_leave_flags (bet : Params K V) (n : Nat)
    (cs : List (ClientCall K V)) {t : Betree K V} {e : Environment}
    (hrun : runCalls bet n cs = (.ok t, e)) :
    (∀ r : ReadCall K V, (∀ k, r = .query k → e.Dirty t.root.id) →
      FlagsKept (t.read bet r) e)
    ∧ ∀ rs : List (ReadCall K V), (∀ k, .query k ∉ rs) → Clean e.ss →
      NothingWritten (t.readAll bet rs) e := by
  have he : DirtyResident e := by
    have hinv := Prog.run_invariant dirtyResident_handler
      (do
        let t ← Betree.create
        t.callAll bet cs) (tame_create n).resident
    have hsnd : ((do
        let t ← Betree.create
        t.callAll bet cs : BProg (Betree K V)).run handler (Environment.create n)).2 = e :=
      congrArg Prod.snd hrun
    rw [hsnd] at hinv
    exact hinv
  refine ⟨fun r hr => ?_, fun rs hrs hclean => nothingWritten_of_only (only_readAll hrs) hclean⟩
  cases r with
  | query k => exact flagsKept_query he (hr k rfl)
  | start s => exact flagsKept_of_only (only_read (fun k => by exact nofun)) he
  | increment it => exact flagsKept_of_only (only_read (fun k => by exact nofun)) he

end Clients

/--
A query in a tree of three levels of which six nodes are in memory, and a scan of it after
everything has been put on disk.
-/
theorem reads_leave_flags_levels :
    let cs := [64, 27, 38, 70, 73, 58, 66, 18, 1, 4, 23, 73, 59].map
      (fun k => ClientCall.cmd (Cmd.upsert (.insert k 0)))
    (∃ t e, runCalls (⟨5, 1, 0, some⟩ : Params Nat Nat) 6 cs = (.ok t, e)
      ∧ t.root.height = 2 ∧ e.Dirty t.root.id
      ∧ FlagsKept (t.read (⟨5, 1, 0, some⟩ : Params Nat Nat) (.query 26)) e)
    ∧ ∃ t e, runCalls (⟨5, 1, 0, some⟩ : Params Nat Nat) 6 (cs ++ [.cmd .evictAll]) = (.ok t, e)
      ∧ Clean e.ss
      ∧ NothingWritten (t.readAll (⟨5, 1, 0, some⟩ : Params Nat Nat)
        [.start .first, .start (.upperBound 27)]) e := by
  have happly : ∀ cs t e, runCalls (⟨5, 1, 0, some⟩ : Params Nat Nat) 6 cs = (.ok t, e) → _ :=
    fun cs t e => reads_leave_flags _ 6 cs
  have hdirty : (match runCalls (⟨5, 1, 0, some⟩ : Params Nat Nat) 6
      ([64, 27, 38, 70, 73, 58, 66, 18, 1, 4, 23, 73, 59].map
        (fun k => ClientCall.cmd (Cmd.upsert (.insert k 0)))) with
    | (.ok t, e) => t.root.height == 2 && e.dirty t.root.id
    | (.error _, _) => false) = true := by decide +kernel
  have hclean : (match runCalls (⟨5, 1, 0, some⟩ : Params Nat Nat) 6
      ([64, 27, 38, 70, 73, 58, 66, 18, 1, 4, 23, 73, 59].map
        (fun k => ClientCall.cmd (Cmd.upsert (.insert k 0))) ++ [.cmd .evictAll]) with
    | (.ok _, e) => e.ss.objects.entries.all (fun x => !x.2.targetIsDirty)
    | (.error _, _) => false) = true := by decide +kernel
  refine ⟨?_, ?_⟩
  · split at hdirty
    · rename_i t e hrun
      rw [Bool.and_eq_true, beq_iff_eq] at hdirty
      have hroot := dirty_of_eq_true hdirty.2
      exact ⟨t, e, hrun, hdirty.1, hroot, (happly _ t e hrun).1 _ (fun _ _ => hroot)⟩
    · cases hdirty
  · split at hclean
    · rename_i t e hrun
      have hc := clean_of_entries hclean
      exact ⟨t, e, hrun, hc, (happly _ t e hrun).2 _ (by simp) hc⟩
    · cases hclean

/--
The root is on disk, `begin` loads it, and it is clean. A query that never evicts it leaves it
dirty, so it is sent to the server once more.
-/
theorem query_marks_root :
    (match runCalls (⟨3, 0, 0, some⟩ : Params Nat Nat) 100
      [.cmd (.upsert (.insert 1 10)), .cmd .evictAll, .read (.start .first)] with
    | (.ok t, e) =>
      let query := t.read (⟨3, 0, 0, some⟩ : Params Nat Nat) (.query 1)
      let e' := (query.run handler e).2
      let e'' := (handler .evictAll e').2
      e.inMemory t.root.id && !e.dirty t.root.id
        && (query.trace handler e).all (fun x => x.2.inMemory t.root.id)
        && e'.dirty t.root.id
        && decide (e''.ss.requests
          = e.ss.requests ++ [.evictNode t.root.id ⟨(), []⟩])
    | (.error _, _) => false) = true := by
  decide +kernel

end BeTree
