import BeTree.Swap.Consistent

/-!
# Runs of the swap space

The operations that pointers and pins call, in any order, with the pins that exist.

As long as ids and access times have not wrapped around, the queue holds exactly the
objects in memory in every reachable state, under different access times, and `pincount`
is the number of pins on an object. So an eviction loop takes the least recently accessed
of the objects that are in memory and have no pin, one after the other; `evictions` is the
list of what has been taken.

Access times wrap around after `2 ^ 64` accesses. An object then gets the time of another
one, and is not entered into the queue.
-/

namespace BeTree

open Checked SwapSpace

variable {D B : Type}

/-- The operations of pointers and pins on the swap space. -/
inductive Call (D : Type) where
  | allocate (p : Payload D)
  /-- The copy of a pointer, or the second half of an assignment. -/
  | copy (id : Nat)
  /-- The destruction of a pointer, or the first half of an assignment. -/
  | destroy (id : Nat)
  | pin (id : Nat)
  | unpin (id : Nat)
  | access (id : Nat) (dirty : Bool)
  /-- A write to the content of an object through a plain C++ pointer. -/
  | store (id : Nat) (p : Payload D)
  | evictAll

/-- The ids that an operation takes. -/
def Call.ids : Call D → Nat
  | .allocate _ => 2
  | _ => 0

/-- The access times that an operation takes. -/
def Call.times : Call D → Nat
  | .allocate _ => 1
  | .access _ _ => 1
  | _ => 0

theorem Call.ids_le (c : Call D) : c.ids ≤ 2 := by
  cases c <;> simp [Call.ids]

theorem Call.times_le (c : Call D) : c.times ≤ 1 := by
  cases c <;> simp [Call.times]

/-- A swap space, and the targets of the pins that exist. -/
structure Pinning (D B : Type) where
  ss : SwapSpace D B
  pins : List Nat

namespace Pinning

/-- A swap space for `n` objects in memory. -/
def create (n : Nat) : Pinning D B := ⟨SwapSpace.create n, []⟩

/-- One operation. An access or an unpin is made by a pin that exists. -/
def call (codec : Codec D B) (m : Pinning D B) : Call D → Except SwapFault (Pinning D B)
  | .allocate p => do
    let (_, ss) ← m.ss.allocate codec p
    return { m with ss := ss }
  | .copy id => do
    let ss ← m.ss.addRef id
    return { m with ss := ss }
  | .destroy id => do
    let ss ← m.ss.release codec id
    return { m with ss := ss }
  | .pin id => do
    let ss ← m.ss.doPin id
    return ⟨ss, id :: m.pins⟩
  | .unpin id => do
    check (decide (id ∈ m.pins)) .malformed
    let ss ← m.ss.unpin codec id
    return ⟨ss, m.pins.erase id⟩
  | .access id dirty => do
    check (decide (id ∈ m.pins)) .malformed
    let ss ← m.ss.access codec id dirty
    return { m with ss := ss }
  | .store id p => do
    let ss ← m.ss.store id p
    return { m with ss := ss }
  | .evictAll => do
    let ss ← m.ss.evictAll codec
    return { m with ss := ss }

/-- The states between operations. -/
inductive Reachable (codec : Codec D B) (n : Nat) : Pinning D B → Prop where
  | create : Reachable codec n (create n)
  | call {m m' : Pinning D B} {c : Call D} : Reachable codec n m → m.call codec c = .ok m' →
      Reachable codec n m'

variable {codec : Codec D B} {m m' : Pinning D B} {s s' : SwapSpace D B} {n : Nat}

theorem Reachable.of_calls (cs : List (Call D)) (h : Reachable codec n m)
    (hcs : cs.foldlM (Pinning.call codec) m = .ok m') : Reachable codec n m' := by
  induction cs generalizing m with
  | nil =>
      injection hcs with hcs
      exact hcs ▸ h
  | cons c cs ih =>
      obtain ⟨m₁, hc, hcs⟩ := bind_eq_ok.mp (List.foldlM_cons.symm.trans hcs)
      exact ih (.call h hc) hcs

/-- **An operation** takes its ids and access times. -/
theorem yields_call_advances (codec : Codec D B) (m : Pinning D B) (c : Call D) :
    Yields (m.call codec c) (fun m' => Advances c.ids c.times m.ss m'.ss) := by
  cases c with
  | allocate p => exact (yields_allocate_advances codec m.ss p).bind (fun _ hr => yields_pure hr)
  | copy id => exact yields_addRef_advances.bind (fun _ hs => yields_pure hs)
  | destroy id => exact (yields_release_advances codec m.ss id).bind (fun _ hs => yields_pure hs)
  | pin id => exact yields_doPin_advances.bind (fun _ hs => yields_pure hs)
  | unpin id =>
      exact yields_then (fun _ => (yields_unpin_advances codec m.ss id).bind
        (fun _ hs => yields_pure hs))
  | access id dirty =>
      exact yields_then (fun _ => (yields_access_advances codec m.ss id dirty).bind
        (fun _ hs => yields_pure hs))
  | store id p => exact yields_store_advances.bind (fun _ hs => yields_pure hs)
  | evictAll => exact (yields_evictAll_advances codec m.ss).bind (fun _ hs => yields_pure hs)

/-- The table, the queue and the pins fit together. -/
structure Orderly (m : Pinning D B) : Prop where
  consistent : Consistent m.ss
  counted : Counted 0 m.ss
  pincount : ∀ i o, m.ss.objects.get? i = some o → o.pincount = m.pins.count i
  bound : ∀ i ∈ m.pins, i ≤ m.ss.nextId

theorem orderly_create : Orderly (create n : Pinning D B) := by
  refine ⟨⟨fun t i => ?_, fun i o ho => ?_, fun i j o o' ho => ?_, fun i o ho => ?_,
    fun i o ho => ?_⟩, fun _ => rfl, fun i o ho => ?_, fun i hi => ?_⟩
  · refine ⟨fun ht => absurd ht (by simp [create, SwapSpace.create]), fun ⟨o, ho, _⟩ => ?_⟩
    exact absurd ho (by simp [create, SwapSpace.create])
  all_goals first
    | exact absurd ho (by simp [create, SwapSpace.create])
    | exact absurd hi (by simp [create])

/-- What an eviction or a release leaves is in order too. -/
theorem Orderly.of_upkeep (h : Orderly m) (hup : Upkeep 0 m.ss s) : Orderly ⟨s, m.pins⟩ := by
  refine ⟨hup.consistent, hup.counted, fun i o ho => ?_, fun i hi => ?_⟩
  · obtain ⟨o₀, ho₀, hpin, _⟩ := hup.object i o ho
    exact hpin.trans (h.pincount i o₀ ho₀)
  · rw [hup.nextId]
    exact h.bound i hi

/-- A new object has no pins, because its id is new. -/
theorem Orderly.entered {p : Payload D} (h : Orderly m) (hr : m.ss.InRange)
    (hfree : m.ss.objects.get? m.ss.newId = none) : Orderly ⟨m.ss.entered p, m.pins⟩ := by
  refine ⟨h.consistent.entered hr hfree, h.counted.countUp.of_resident rfl rfl (resident_entered hfree),
    fun i o ho => ?_, fun i hi => ?_⟩
  · rcases Dict.get?_set_eq_some.mp ho with ⟨rfl, rfl⟩ | ⟨_, ho⟩
    · refine (List.count_eq_zero.mpr (fun hi => ?_)).symm
      have := h.bound _ hi
      have := newId_eq hr
      omega
    · exact h.pincount i o ho
  · have := h.bound i hi
    show i ≤ m.ss.nextId + 2
    omega

/-- Another content or another access time makes no difference. -/
theorem Orderly.touched {id : Nat} {dirty : Bool} (h : Orderly m) (hr : m.ss.InRange)
    (hs : Touched m.ss id dirty s) : Orderly ⟨s, m.pins⟩ := by
  refine ⟨hs.consistent h.consistent hr, hs.counted h.counted, fun i x hx => ?_, fun i hi => ?_⟩
  · obtain ⟨o, p, ho, hobj, _⟩ := hs.object
    rw [hobj, accessed_objects] at hx
    rcases Dict.get?_set_eq_some.mp hx with ⟨rfl, rfl⟩ | ⟨_, hx⟩
    · exact h.pincount i o ho
    · exact h.pincount i x hx
  · rw [hs.nextId]
    exact h.bound i hi

/-- A pin that comes or goes. -/
theorem Orderly.repinned {id c : Nat} {o : Object D} {pins : List Nat} (h : Orderly m)
    (ho : m.ss.objects.get? id = some o) (hid : pins.count id = c)
    (hother : ∀ i, i ≠ id → pins.count i = m.pins.count i) :
    Orderly ⟨m.ss.repinned id o c, pins⟩ := by
  have hup := Upkeep.repinned h.consistent h.counted ho c
  refine ⟨hup.consistent, hup.counted, fun i x hx => ?_, fun i hi => ?_⟩
  · rcases Dict.get?_set_eq_some.mp hx with ⟨rfl, rfl⟩ | ⟨hne, hx⟩
    · exact hid.symm
    · rw [hother i hne]
      exact h.pincount i x hx
  · by_cases hi' : i = id
    · rw [hi']
      exact Nat.le_of_lt (h.consistent.ids id o ho).2
    · refine h.bound i (List.count_pos_iff.mp ?_)
      rw [← hother i hi']
      exact List.count_pos_iff.mpr hi

/-- A null pin that comes or goes counts nowhere, because ids are positive. -/
theorem Orderly.nullPin {pins : List Nat} (h : Orderly m)
    (hcount : ∀ i, i ≠ 0 → pins.count i = m.pins.count i) : Orderly ⟨m.ss, pins⟩ := by
  refine ⟨h.consistent, h.counted, fun i o ho => ?_, fun i hi => ?_⟩
  · have := (h.consistent.ids i o ho).1
    rw [hcount i (by omega)]
    exact h.pincount i o ho
  · by_cases hz : i = 0
    · rw [hz]
      exact Nat.zero_le _
    · refine h.bound i (List.count_pos_iff.mp ?_)
      rw [← hcount i hz]
      exact List.count_pos_iff.mpr hi

/-! ## An operation up to its eviction loop -/

/-- The work of an operation: nothing is evicted yet, and only an allocation has a new object. -/
structure Began (m : Pinning D B) (c : Call D) (m₁ : Pinning D B) : Prop where
  orderly : Orderly m₁
  evictions : m₁.ss.evictions = m.ss.evictions
  resident : ∀ i o, m₁.ss.objects.get? i = some o → o.target.isSome = true → o.pincount = 0 →
    (∃ p, c = .allocate p ∧ i = m.ss.newId)
      ∨ ∃ o₀, m.ss.objects.get? i = some o₀ ∧ o₀.target.isSome = true

/-- An operation that brings no object into memory. -/
theorem Began.of_upkeep {c : Call D} (h : Orderly m) (hup : Upkeep 0 m.ss s)
    (hlog : s.evictions = m.ss.evictions) : Began m c ⟨s, m.pins⟩ := by
  refine ⟨h.of_upkeep hup, hlog, fun i o ho ht _ => Or.inr ?_⟩
  obtain ⟨o₀, ho₀, _, _, hcase⟩ := hup.object i o ho
  rcases hcase with ⟨ht₀, _⟩ | ⟨_, hnone, _⟩
  · exact ⟨o₀, ho₀, ht₀.symm.trans ht⟩
  · rw [hnone] at ht
    cases ht

/-- A change of the pins. -/
theorem Began.repinned {c : Call D} {id k : Nat} {o : Object D} {pins : List Nat}
    (horderly : Orderly ⟨m.ss.repinned id o k, pins⟩) (ho : m.ss.objects.get? id = some o) :
    Began m c ⟨m.ss.repinned id o k, pins⟩ := by
  refine ⟨horderly, rfl, fun i x hx ht _ => Or.inr ?_⟩
  rcases Dict.get?_set_eq_some.mp hx with ⟨rfl, rfl⟩ | ⟨_, hx⟩
  · exact ⟨o, ho, ht⟩
  · exact ⟨x, hx, ht⟩

/-- An access brings an object into memory that is pinned. -/
theorem Began.touched {id : Nat} {dirty : Bool} (h : Orderly m) (hr : m.ss.InRange)
    (hid : id ∈ m.pins) (hs : Touched m.ss id dirty s) : Began m (.access id dirty) ⟨s, m.pins⟩ := by
  refine ⟨h.touched hr hs, hs.evictions, fun i x hx ht hpin => Or.inr ?_⟩
  obtain ⟨o, p, ho, hobj, _⟩ := hs.object
  have hx : s.objects.get? i = some x := hx
  rw [hobj, accessed_objects] at hx
  rcases Dict.get?_set_eq_some.mp hx with ⟨rfl, rfl⟩ | ⟨_, hx⟩
  · have hcount : o.pincount = m.pins.count i := h.pincount i o ho
    have := List.count_pos_iff.mpr hid
    have : o.pincount = 0 := hpin
    omega
  · exact ⟨x, hx, ht⟩

theorem Began.entered {p : Payload D} (h : Orderly m) (hr : m.ss.InRange)
    (hfree : m.ss.objects.get? m.ss.newId = none) :
    Began m (.allocate p) ⟨m.ss.entered p, m.pins⟩ := by
  refine ⟨h.entered hr hfree, rfl, fun i o ho ht _ => ?_⟩
  rcases Dict.get?_set_eq_some.mp ho with ⟨hi, _⟩ | ⟨_, ho⟩
  · exact Or.inl ⟨p, rfl, hi⟩
  · exact Or.inr ⟨o, ho, ht⟩

theorem evictions_discards (codec : Codec D B) (s₀ : SwapSpace D B) :
    Discards codec (fun _ s => s.evictions = s₀.evictions) where
  recount h _ := h
  erased h _ _ := h
  erasedLoaded h _ _ := h
  erasedUnloaded h _ := h
  countDown h := h
  backstore h := h

/-- **An operation** does its work, and then at most runs an eviction loop. -/
theorem yields_call_cases (h : Orderly m) (hr : m.ss.InRange) (c : Call D) :
    Yields (m.call codec c) (fun m' => ∃ m₁, Began m c m₁ ∧ m'.pins = m₁.pins
      ∧ (m'.ss = m₁.ss ∨ ∃ limit fuel, evictLoop codec limit fuel m₁.ss = .ok m'.ss)) := by
  have hup : Upkeep 0 m.ss m.ss := Upkeep.refl h.consistent h.counted
  cases c with
  | allocate p =>
      refine (yields_allocate_cases codec m.ss p).bind (fun r hcase => yields_pure ?_)
      obtain ⟨_, hfree, hevict⟩ := hcase
      exact ⟨_, .entered h hr hfree, rfl, Or.inr ⟨_, _, hevict⟩⟩
  | copy id =>
      refine ((yields_addRef_upkeep hup).and yields_addRef).bind (fun s hs => yields_pure ?_)
      refine ⟨_, .of_upkeep h hs.1 ?_, rfl, Or.inl rfl⟩
      rcases hs.2 with ⟨_, rfl⟩ | ⟨o, _, rfl⟩ <;> rfl
  | destroy id =>
      have hlog : Yields (m.ss.release codec id) (fun s => s.evictions = m.ss.evictions) :=
        (evictions_discards codec m.ss).yields_depoint 0 _ rfl
      refine ((yields_release hup).and hlog).bind (fun s hs => yields_pure ?_)
      exact ⟨_, .of_upkeep h hs.1 hs.2, rfl, Or.inl rfl⟩
  | pin id =>
      refine yields_doPin.bind (fun s hs => yields_pure ?_)
      rcases hs with ⟨rfl, rfl⟩ | ⟨o, ho, rfl⟩
      · have hpins : Orderly ⟨m.ss, 0 :: m.pins⟩ :=
          h.nullPin (fun i hi => List.count_cons_of_ne (Ne.symm hi))
        exact ⟨_, ⟨hpins, rfl, fun i o ho ht _ => Or.inr ⟨o, ho, ht⟩⟩, rfl, Or.inl rfl⟩
      · refine ⟨_, .repinned (h.repinned ho ?_ (fun i hi => ?_)) ho, rfl, Or.inl rfl⟩
        · rw [List.count_cons_self, h.pincount id o ho]
        · exact List.count_cons_of_ne (Ne.symm hi)
  | unpin id =>
      refine yields_check.bind (fun _ _ => (yields_unpin_cases codec m.ss id).bind
        (fun s hs => yields_pure ?_))
      rcases hs with ⟨rfl, rfl⟩ | ⟨o, ho, _, hevict⟩
      · have hpins : Orderly ⟨m.ss, m.pins.erase 0⟩ :=
          h.nullPin (fun i hi => List.count_erase_of_ne hi)
        exact ⟨_, ⟨hpins, rfl, fun i o ho ht _ => Or.inr ⟨o, ho, ht⟩⟩, rfl, Or.inl rfl⟩
      · have hpins : Orderly ⟨m.ss.repinned id o (o.pincount - 1), m.pins.erase id⟩ := by
          refine h.repinned ho ?_ (fun i hi => List.count_erase_of_ne hi)
          rw [List.count_erase_self, h.pincount id o ho]
        exact ⟨_, .repinned hpins ho, rfl, Or.inr ⟨_, _, hevict⟩⟩
  | access id dirty =>
      refine yields_check.bind (fun _ hid => (yields_access_cases codec m.ss id dirty).bind
        (fun s hs => yields_pure ?_))
      obtain ⟨s₁, hs₁, hevict⟩ := hs
      exact ⟨_, .touched h hr (of_decide_eq_true hid) hs₁, rfl, Or.inr ⟨_, _, hevict⟩⟩
  | store id p =>
      refine yields_store.bind (fun s hs => yields_pure ?_)
      obtain ⟨o, ho, ht, rfl⟩ := hs
      exact ⟨_, .of_upkeep h (hup.written ho ht) rfl, rfl, Or.inl rfl⟩
  | evictAll =>
      have hevict : Yields (m.ss.evictAll codec) (fun s => m.ss.evictAll codec = .ok s) := fun _ h => h
      refine hevict.bind (fun s hs => yields_pure ?_)
      exact ⟨_, .of_upkeep h hup rfl, rfl, Or.inr ⟨_, _, hs⟩⟩

/-- **An operation** keeps the invariant. -/
theorem yields_call (h : Orderly m) (hr : m.ss.InRange) (c : Call D) :
    Yields (m.call codec c) Orderly := by
  refine (yields_call_cases h hr c).imp (fun m' hcase => ?_)
  obtain ⟨m₁, hbegan, hpins, hloop⟩ := hcase
  obtain ⟨s', pins'⟩ := m'
  dsimp only at hpins hloop
  subst hpins
  rcases hloop with rfl | ⟨limit, fuel, hloop⟩
  · exact hbegan.orderly
  · have hup := Upkeep.refl hbegan.orderly.consistent hbegan.orderly.counted
    exact hbegan.orderly.of_upkeep (yields_evictLoop codec limit fuel hup s' hloop).1

theorem orderly_reachable (h : Reachable codec n m) (hr : m.ss.InRange) : Orderly m := by
  induction h with
  | create => exact orderly_create
  | @call m m' c _ hc ih =>
      have hrange := (yields_call_advances codec m c _ hc).inRange hr
      exact yields_call (ih hrange) hrange c _ hc

end Pinning

/-! ## What the loops take -/

namespace SwapSpace

variable {codec : Codec D B} {s s₁ s' : SwapSpace D B} {id : Nat}

/-- The object that has been accessed least recently, of those in memory without a pin. -/
structure Victim (s : SwapSpace D B) (id : Nat) (o : Object D) : Prop where
  object : s.objects.get? id = some o
  resident : o.target.isSome = true
  pincount : o.pincount = 0
  least : ∀ j x, s.objects.get? j = some x → x.target.isSome = true → x.pincount = 0 → j ≠ id →
    o.lastAccess < x.lastAccess

/-- The entries of the queue before the one that is taken are older, and pinned. -/
theorem victim_of_chosen (h : Consistent s) (hc : Chosen s s.lruPqueue.entries (some id)) :
    ∃ o, Victim s id o := by
  obtain ⟨before, t, after, o, hl, hbefore, ho, hpin⟩ := hc
  have hmem : (t, id) ∈ s.lruPqueue.entries := by
    rw [hl]
    exact List.mem_append_right _ List.mem_cons_self
  obtain ⟨o', ho', ht', hlast⟩ := (h.lru t id).mp (Dict.mem_entries.mp hmem)
  rw [ho] at ho'
  injection ho' with ho'
  subst ho'
  refine ⟨o, ho, ht', hpin, fun j x hx hxt hxpin hne => ?_⟩
  have hq := Dict.mem_entries.mpr ((h.lru x.lastAccess j).mpr ⟨x, hx, hxt, rfl⟩)
  have hsorted := s.lruPqueue.sorted
  rw [hl] at hq hsorted
  rcases List.mem_append.mp hq with hq | hq
  · obtain ⟨y, hy, hypin⟩ := hbefore _ hq
    rw [hx] at hy
    injection hy with hy
    rw [← hy] at hypin
    omega
  · rcases List.mem_cons.mp hq with hq | hq
    · exact absurd (congrArg Prod.snd hq) hne
    · have hlt := (OrdMap.sorted_cons.mp (OrdMap.sorted_append.mp hsorted).2.1).1 _ hq
      dsimp only at hlt
      omega

/-- What is in memory after an eviction loop was there before, as it is. -/
theorem Parks.resident {j : Nat} {x : Object D} (h : Parks s s') (hx : s'.objects.get? j = some x)
    (ht : x.target.isSome = true) : s.objects.get? j = some x := by
  rcases h.parked j with heq | ⟨_, o', _, ho', _, _, hnone, _⟩
  · exact heq.symm.trans hx
  · rw [hx] at ho'
    injection ho' with ho'
    rw [ho', hnone] at ht
    cases ht

/-- What is on disk stays as it is. -/
theorem Parks.absent {j : Nat} {x : Object D} (h : Parks s s') (hx : s.objects.get? j = some x)
    (ht : x.target = none) : s'.objects.get? j = some x := by
  rcases h.parked j with heq | ⟨o, _, ho, _, hsome, _⟩
  · exact heq.trans hx
  · rw [hx] at ho
    injection ho with ho
    rw [← ho, ht] at hsome
    cases hsome

/--
An eviction loop has taken the objects in `l`, in this order. Each was in memory without a pin,
is on disk now, and had been accessed less recently than those that are taken after it and than
those without a pin that are left in memory.
-/
structure Evicts (s : SwapSpace D B) (l : List Nat) (s' : SwapSpace D B) : Prop where
  log : s'.evictions = s.evictions ++ l
  object : ∀ i ∈ l, ∃ o, s.objects.get? i = some o ∧ o.target.isSome = true ∧ o.pincount = 0
    ∧ (∃ o', s'.objects.get? i = some o' ∧ o'.target = none ∧ Rests o o')
    ∧ ∀ j x, s'.objects.get? j = some x → x.target.isSome = true → x.pincount = 0 →
      o.lastAccess < x.lastAccess
  order : l.Pairwise (fun i j => ∀ o x, s.objects.get? i = some o → s.objects.get? j = some x →
    o.lastAccess < x.lastAccess)

theorem Evicts.refl (s : SwapSpace D B) : Evicts s [] s :=
  ⟨(List.append_nil _).symm, fun _ hi => absurd hi List.not_mem_nil, .nil⟩

/-- One more eviction before the others. -/
theorem Evicts.cons {l : List Nat} {o o₁ : Object D} (h : Evicts s₁ l s') (hv : Victim s id o)
    (hlog : s₁.evictions = s.evictions ++ [id]) (ho₁ : s₁.objects.get? id = some o₁)
    (ht₁ : o₁.target = none) (hr : Rests o o₁)
    (hother : ∀ j, j ≠ id → s₁.objects.get? j = s.objects.get? j) (hp : Parks s₁ s') :
    Evicts s (id :: l) s' := by
  -- what is in memory without a pin is another object, and has been accessed later
  have hold : ∀ j x, s₁.objects.get? j = some x → x.target.isSome = true →
      j ≠ id ∧ s.objects.get? j = some x := by
    intro j x hx ht
    have hne : j ≠ id := by
      rintro rfl
      rw [ho₁] at hx
      injection hx with hx
      rw [← hx, ht₁] at ht
      cases ht
    exact ⟨hne, (hother j hne).symm.trans hx⟩
  refine ⟨?_, fun i hi => ?_, List.pairwise_cons.mpr ⟨fun j hj o' x ho' hx => ?_, ?_⟩⟩
  · rw [h.log, hlog, List.append_assoc]
    rfl
  · rcases List.mem_cons.mp hi with rfl | hi
    · refine ⟨o, hv.object, hv.resident, hv.pincount, ⟨o₁, hp.absent ho₁ ht₁, ht₁, hr⟩, ?_⟩
      intro j x hx ht hpin
      obtain ⟨hne, hx⟩ := hold j x (hp.resident hx ht) ht
      exact hv.least j x hx ht hpin hne
    · obtain ⟨o', ho', ht', hrest⟩ := h.object i hi
      exact ⟨o', (hold i o' ho' ht').2, ht', hrest⟩
  · obtain ⟨y, hy, hyt, hypin, _⟩ := h.object j hj
    obtain ⟨hne, hy⟩ := hold j y hy hyt
    rw [hv.object] at ho'
    rw [hx] at hy
    injection ho' with ho'
    injection hy with hy
    subst ho' hy
    exact hv.least j _ hx hyt hypin hne
  · refine h.order.imp_of_mem (fun {i j} hi hj hlt o' x ho' hx => ?_)
    obtain ⟨y, hy, hyt, _⟩ := h.object i hi
    obtain ⟨z, hz, hzt, _⟩ := h.object j hj
    exact hlt o' x ((hother i (hold i y hy hyt).1).trans ho') ((hother j (hold j z hz hzt).1).trans hx)

/-- **The eviction loops** take the least recently accessed objects, by induction on the rounds. -/
theorem yields_evictLoop_evicts {extra : Nat} {s₀ : SwapSpace D B} (codec : Codec D B)
    (limit fuel : Nat) (h : Upkeep extra s₀ s) :
    Yields (evictLoop codec limit fuel s) (fun s' => ∃ l, Evicts s l s') := by
  induction fuel generalizing s with
  | zero => exact yields_error
  | succ fuel ih =>
      unfold evictLoop
      split
      swap
      · exact yields_pure ⟨[], .refl s⟩
      refine (yields_firstUnpinned _).bind (fun r hr => ?_)
      cases r with
      | none => exact yields_pure ⟨[], .refl s⟩
      | some id =>
          obtain ⟨o, hv⟩ := victim_of_chosen h.consistent hr
          refine (yields_evicted hv.object).bind (fun s₁ hs₁ => ?_)
          obtain ⟨p, r, ht, _, rfl⟩ := hs₁
          have hup : Upkeep extra s₀ (s.evicted codec id o p r) := h.evicted hv.object ht hv.pincount
          refine ((ih hup).and (yields_evictLoop_parks codec limit fuel _)).imp (fun s' hs' => ?_)
          obtain ⟨⟨l, hl⟩, hp⟩ := hs'
          have hself : (s.evicted codec id o p r).objects.get? id = some (parked o p r.1) :=
            Dict.get?_set_eq_some.mpr (Or.inl ⟨rfl, rfl⟩)
          refine ⟨id :: l, hl.cons hv rfl hself rfl ⟨rfl, rfl, Or.inr ⟨hv.pincount, rfl, rfl⟩⟩
            (fun j hj => ?_) hp⟩
          exact Dict.get?_set.trans (if_neg hj)

/-! ## A content that is not there is never written -/

theorem avoids_load : Avoids .nullTarget (s.load codec id) := by
  have hrevive : ∀ (s : SwapSpace D B) (i : Nat), Avoids .nullTarget (s.revive i) := fun s i =>
    (avoids_need (by decide)).then (fun _ => (avoids_need (by decide)).then (fun _ =>
      (avoids_check (by decide)).then (fun _ => avoids_pure)))
  refine (avoids_need (by decide)).then (fun o => ?_)
  cases o.target with
  | some p => exact avoids_pure
  | none =>
      exact (avoids_need (by decide)).then (fun _ => (avoids_foldlM hrevive _).then
        (fun _ => (avoids_need (by decide)).then (fun _ => avoids_pure)))

theorem avoids_discard {bs : BackingStore B} {b : Nat} : Avoids .nullTarget (bs.discard b) := by
  unfold BackingStore.discard
  split
  · exact (avoids_check (by decide)).then (fun _ => avoids_pure)
  · exact avoids_pure

theorem avoids_depoint (fuel : Nat) : Avoids .nullTarget (depoint codec fuel s id) := by
  induction fuel generalizing s id with
  | zero =>
      unfold depoint
      split
      · exact avoids_pure
      · exact avoids_error (by decide)
  | succ fuel ih =>
      unfold depoint
      split
      · exact avoids_pure
      · refine (avoids_need (by decide)).then (fun o => (avoids_check (by decide)).then (fun _ => ?_))
        dsimp only
        split
        swap
        · exact avoids_pure
        unfold free loadToFree deleteTarget
        refine Avoids.then ?_ (fun s₁ => (avoids_need (by decide)).then (fun o₁ => Avoids.then ?_
          (fun s₂ => avoids_discard.then (fun _ => avoids_pure))))
        · split
          · exact avoids_pure
          · refine (avoids_check (by decide)).then (fun _ => ?_)
            split
            · exact avoids_pure
            · exact avoids_load
        · split
          · exact avoids_foldlM (fun s i => ih) _
          · exact avoids_pure

/-- An object that is in memory is written. -/
theorem avoids_evict {o : Object D} (ho : s.objects.get? id = some o) (ht : o.target.isSome = true) :
    Avoids .nullTarget (s.evict codec id) := by
  obtain ⟨p, hp⟩ := Option.isSome_iff_exists.mp ht
  rw [evict_eq ho hp]
  have hpointers : ∀ ptrs : List Nat, Avoids .nullTarget (s.serializePointers ptrs) := by
    intro ptrs
    induction ptrs with
    | nil => exact avoids_pure
    | cons i is ih =>
        refine Avoids.then ?_ (fun _ => ih)
        exact (avoids_check (by decide)).then (fun _ => (avoids_need (by decide)).then (fun _ => avoids_pure))
  refine (hpointers p.ptrs).then (fun _ => Avoids.then ?_ (fun _ => avoids_pure))
  unfold image
  split
  · exact avoids_discard.then (fun _ => avoids_pure)
  · exact avoids_pure

theorem avoids_evictLoop {extra : Nat} {s₀ : SwapSpace D B} (codec : Codec D B) (limit fuel : Nat)
    (h : Upkeep extra s₀ s) : Avoids .nullTarget (evictLoop codec limit fuel s) := by
  have hfirst : ∀ (s : SwapSpace D B) (l : List (Nat × Nat)),
      Avoids .nullTarget (s.firstUnpinned l) := by
    intro s l
    induction l with
    | nil => exact avoids_pure
    | cons e l ih =>
        refine (avoids_need (by decide)).then (fun o => ?_)
        split
        · exact avoids_pure
        · exact ih
  induction fuel generalizing s with
  | zero => exact avoids_error (by decide)
  | succ fuel ih =>
      unfold evictLoop
      split
      swap
      · exact avoids_pure
      refine (hfirst s _).bind (yields_firstUnpinned _) (fun r hr => ?_)
      cases r with
      | none => exact avoids_pure
      | some id =>
          obtain ⟨o, hv⟩ := victim_of_chosen h.consistent hr
          exact (avoids_evict hv.object hv.resident).bind (yields_evict h hv.object hv.pincount)
            (fun s' hs' => ih hs')

end SwapSpace

namespace Pinning

variable {codec : Codec D B} {m m' : Pinning D B}

/-- Only a write through a plain pointer can meet a content that is not there. -/
theorem avoids_call (h : Orderly m) (hr : m.ss.InRange) (c : Call D) (hc : ∀ i p, c ≠ .store i p) :
    Avoids .nullTarget (m.call codec c) := by
  have hup : Upkeep 0 m.ss m.ss := Upkeep.refl h.consistent h.counted
  cases c with
  | allocate p =>
      refine Avoids.then ?_ (fun _ => avoids_pure)
      refine (avoids_check (by decide)).bind yields_check (fun _ hfree => ?_)
      have horderly := h.entered (p := p) hr (Option.isNone_iff_eq_none.mp hfree)
      exact (avoids_evictLoop codec _ _ (Upkeep.refl horderly.consistent horderly.counted)).then
        (fun _ => avoids_pure)
  | copy id =>
      refine Avoids.then ?_ (fun _ => avoids_pure)
      unfold addRef
      split
      · exact avoids_pure
      · exact (avoids_need (by decide)).then (fun _ => avoids_pure)
  | destroy id => exact (avoids_depoint _).then (fun _ => avoids_pure)
  | pin id =>
      refine Avoids.then ?_ (fun _ => avoids_pure)
      unfold doPin
      split
      · exact avoids_pure
      · exact (avoids_need (by decide)).then (fun _ => avoids_pure)
  | unpin id =>
      refine (avoids_check (by decide)).then (fun _ => Avoids.then ?_ (fun _ => avoids_pure))
      unfold unpin
      split
      · exact avoids_pure
      · refine (avoids_need (by decide)).bind yields_object
          (fun o ho => (avoids_check (by decide)).then (fun _ => ?_))
        exact avoids_evictLoop codec _ _ (Upkeep.repinned h.consistent h.counted ho _)
  | access id dirty =>
      refine (avoids_check (by decide)).then (fun _ => Avoids.then ?_ (fun _ => avoids_pure))
      refine (avoids_need (by decide)).bind yields_object (fun o ho => ?_)
      refine avoids_load.bind (yields_touched ho) (fun s₁ hs₁ => ?_)
      have horderly := h.touched hr hs₁
      exact avoids_evictLoop codec _ _ (Upkeep.refl horderly.consistent horderly.counted)
  | store id p => exact absurd rfl (hc id p)
  | evictAll => exact (avoids_evictLoop codec _ _ hup).then (fun _ => avoids_pure)

/--
What an operation has evicted, in this order: objects that were in memory before it, or the one
that it allocates. They have no pins and are on disk now; and each had been accessed less recently
than those evicted after it and than all objects without a pin that are left in memory.
-/
structure Evicted (m : Pinning D B) (c : Call D) (l : List Nat) (m' : Pinning D B) : Prop where
  log : m'.ss.evictions = m.ss.evictions ++ l
  resident : ∀ i ∈ l, (∃ p, c = .allocate p ∧ i = m.ss.newId)
    ∨ ∃ o, m.ss.objects.get? i = some o ∧ o.target.isSome = true
  unpinned : ∀ i ∈ l, i ∉ m'.pins
  least : ∀ i ∈ l, ∃ o, m'.ss.objects.get? i = some o ∧ o.target = none ∧ o.pincount = 0
    ∧ ∀ j x, m'.ss.objects.get? j = some x → x.target.isSome = true → x.pincount = 0 →
      o.lastAccess < x.lastAccess
  order : l.Pairwise (fun i j => ∀ o x, m'.ss.objects.get? i = some o →
    m'.ss.objects.get? j = some x → o.lastAccess < x.lastAccess)

/-- **The evictions of an operation.** -/
theorem yields_call_evicted (h : Orderly m) (hr : m.ss.InRange) (c : Call D) :
    Yields (m.call codec c) (fun m' => ∃ l, Evicted m c l m') := by
  refine ((yields_call_cases h hr c).and (yields_call h hr c)).imp (fun m' hcase => ?_)
  obtain ⟨⟨m₁, hbegan, hpins, hloop⟩, horderly⟩ := hcase
  have hevicts : ∃ l, Evicts m₁.ss l m'.ss := by
    rcases hloop with hss | ⟨limit, fuel, hloop⟩
    · exact ⟨[], hss ▸ .refl m₁.ss⟩
    · have hup := Upkeep.refl hbegan.orderly.consistent hbegan.orderly.counted
      exact yields_evictLoop_evicts codec limit fuel hup _ hloop
  obtain ⟨l, hl⟩ := hevicts
  -- the times of the objects that are taken stay as they were
  have hlast : ∀ i ∈ l, ∀ o', m'.ss.objects.get? i = some o' →
      ∃ o, m₁.ss.objects.get? i = some o ∧ o'.lastAccess = o.lastAccess := by
    intro i hi o' ho'
    obtain ⟨o, ho, _, _, ⟨x, hx, _, hrests⟩, _⟩ := hl.object i hi
    rw [ho'] at hx
    injection hx with hx
    exact ⟨o, ho, hx ▸ hrests.2.1⟩
  refine ⟨l, hbegan.evictions ▸ hl.log, fun i hi => ?_, fun i hi hmem => ?_, fun i hi => ?_, ?_⟩
  · obtain ⟨o, ho, ht, hpin, _⟩ := hl.object i hi
    exact hbegan.resident i o ho ht hpin
  · obtain ⟨o, ho, _, hpin, _⟩ := hl.object i hi
    rw [hbegan.orderly.pincount i o ho] at hpin
    exact List.count_eq_zero.mp hpin (hpins ▸ hmem)
  · obtain ⟨o, ho, _, hpin, ⟨o', ho', ht', hrests⟩, hleast⟩ := hl.object i hi
    exact ⟨o', ho', ht', hrests.1.trans hpin, fun j x hx ht hxpin => hrests.2.1 ▸ hleast j x hx ht hxpin⟩
  · refine hl.order.imp_of_mem (fun {i j} hi hj hlt o' x' ho' hx' => ?_)
    obtain ⟨o, ho, hol⟩ := hlast i hi o' ho'
    obtain ⟨x, hx, hxl⟩ := hlast j hj x' hx'
    rw [hol, hxl]
    exact hlt o x ho hx

end Pinning

/--
**The queue and the pins.** In every state between operations in which ids and access times have
not wrapped around, whatever operations led to it, the queue holds exactly the objects in memory,
ordered by access times that are all different. Every operation from there evicts objects that are
in memory and have no pin, always the least recently accessed of them; and none but a write through
a plain pointer meets a content that is not there.
-/
theorem reachable_lru (codec : Codec D B) (n : Nat) (m : Pinning D B)
    (h : Pinning.Reachable codec n m) (hr : m.ss.InRange) :
    (∀ t i, m.ss.lruPqueue.get? t = some i ↔
        ∃ o, m.ss.objects.get? i = some o ∧ o.target.isSome = true ∧ o.lastAccess = t)
      ∧ (∀ i j o o', m.ss.objects.get? i = some o → m.ss.objects.get? j = some o' →
        o.lastAccess = o'.lastAccess → i = j)
      ∧ m.ss.lruPqueue.entries.Pairwise (fun a b => a.1 < b.1)
      ∧ (∀ c m', m.call codec c = .ok m' → ∃ l, Pinning.Evicted m c l m')
      ∧ ∀ c, (∀ i p, c ≠ .store i p) → m.call codec c ≠ .error .nullTarget := by
  have ho := Pinning.orderly_reachable h hr
  exact ⟨ho.consistent.lru, ho.consistent.distinct, m.ss.lruPqueue.sorted,
    fun c m' hc => Pinning.yields_call_evicted ho hr c m' hc, fun c hc => Pinning.avoids_call ho hr c hc⟩

/-- Three objects in a cache of two, the oldest one pinned: one is evicted to make room, and one by
`evict_all`. -/
theorem reachable_lru_three :
    let codec : Codec Nat (Payload Nat) := ⟨id, id, fun _ => rfl⟩
    let calls : List (Call Nat) := [.allocate ⟨10, []⟩, .allocate ⟨20, []⟩, .pin 2, .access 2 true,
      .allocate ⟨30, []⟩]
    ∃ m m' : Pinning Nat (Payload Nat),
      calls.foldlM (Pinning.call codec) (Pinning.create 2) = .ok m
        ∧ m.call codec .evictAll = .ok m' ∧ m.ss.evictions = [4] ∧ m'.ss.evictions = [4, 6]
        ∧ ∃ l, Pinning.Evicted m .evictAll l m' := by
  intro codec calls
  have hrun : (calls.foldlM (Pinning.call codec) (Pinning.create 2) >>= fun m =>
      m.call codec .evictAll >>= fun m' =>
        pure (m.ss.evictions, m'.ss.evictions, decide m.ss.InRange)) = .ok ([4], [4, 6], true) := by
    decide +kernel
  obtain ⟨m, hm, hrun⟩ := bind_eq_ok.mp hrun
  obtain ⟨m', hm', hrun⟩ := bind_eq_ok.mp hrun
  injection hrun with hrun
  simp only [Prod.mk.injEq, decide_eq_true_eq] at hrun
  obtain ⟨hlog, hlog', hr⟩ := hrun
  exact ⟨m, m', hm, hm', hlog, hlog',
    (reachable_lru codec 2 m (.of_calls _ .create hm) hr).2.2.2.1 _ _ hm'⟩

/-! ## When the clock wraps around -/

/-- An access to an object in memory, when there is room. -/
theorem SwapSpace.access_resident {codec : Codec D B} {s : SwapSpace D B} {id : Nat} {o : Object D}
    {dirty : Bool} (ho : s.objects.get? id = some o) (ht : o.target.isSome = true)
    (hroom : s.currentInMemoryObjects ≤ s.maxInMemoryObjects) :
    s.access codec id dirty = .ok (s.touched id o dirty) := by
  have hself : (s.touched id o dirty).object id
      = .ok { o with lastAccess := s.now, targetIsDirty := o.targetIsDirty || dirty } := by
    have hget : (s.touched id o dirty).objects.get? id = some _ :=
      Dict.get?_set_eq_some.mpr (Or.inl ⟨rfl, rfl⟩)
    unfold object
    rw [hget]
    rfl
  have hload : (s.touched id o dirty).load codec id = .ok (s.touched id o dirty) := by
    obtain ⟨p, hp⟩ := Option.isSome_iff_exists.mp ht
    unfold load
    rw [hself, hp]
    rfl
  have hevict : (s.touched id o dirty).maybeEvictSomething codec = .ok (s.touched id o dirty) := by
    unfold maybeEvictSomething evictLoop
    exact if_neg (Nat.not_lt.mpr hroom)
  unfold access object
  rw [ho]
  calc _ = (s.touched id o dirty).load codec id >>= maybeEvictSomething codec := rfl
    _ = (s.touched id o dirty).maybeEvictSomething codec := by rw [hload]; rfl
    _ = _ := hevict

namespace Pinning

/-- Two objects in memory, of which the second has been accessed `k` times since. -/
structure Busy (codec : Codec D B) (k : Nat) (m : Pinning D B) : Prop where
  reachable : Reachable codec 2 m
  clock : m.ss.nextAccessTime = 2 + k
  pinned : 4 ∈ m.pins
  room : m.ss.currentInMemoryObjects ≤ m.ss.maxInMemoryObjects
  idle : ∃ o, m.ss.objects.get? 2 = some o ∧ o.target.isSome = true ∧ o.lastAccess = 0
  busy : ∃ o, m.ss.objects.get? 4 = some o ∧ o.target.isSome = true ∧ o.lastAccess = 1 + k
  queue : ∀ t i, m.ss.lruPqueue.get? t = some i ↔ (t = 0 ∧ i = 2) ∨ (t = 1 + k ∧ i = 4)

variable {codec : Codec D B} {m : Pinning D B} {k : Nat}

/-- One more access, at the time that the clock shows. -/
theorem Busy.access (h : Busy codec k m) :
    ∃ o, m.ss.objects.get? 4 = some o ∧ o.target.isSome = true ∧ o.lastAccess = 1 + k
      ∧ Reachable codec 2 ⟨m.ss.touched 4 o false, m.pins⟩ := by
  obtain ⟨o, ho, ht, hlast⟩ := h.busy
  refine ⟨o, ho, ht, hlast, .call (c := .access 4 false) h.reachable ?_⟩
  show check (decide (4 ∈ m.pins)) SwapFault.malformed >>= _ = _
  rw [decide_eq_true h.pinned]
  show m.ss.access codec 4 false >>= _ = _
  rw [access_resident ho ht h.room]
  rfl

theorem Busy.succ (h : Busy codec k m) (hk : 2 + k < 2 ^ 64) : ∃ m', Busy codec (k + 1) m' := by
  obtain ⟨o, ho, ht, hlast, hreach⟩ := h.access
  obtain ⟨x, hx, hxt, hx0⟩ := h.idle
  have hnow : m.ss.now = 2 + k := by
    unfold now
    rw [h.clock]
    exact uint64_of_lt hk
  have herased : ∀ t i, (m.ss.lruPqueue.erase o.lastAccess).get? t = some i ↔ t = 0 ∧ i = 2 := by
    intro t i
    rw [Dict.get?_erase_eq_some, h.queue, hlast]
    omega
  have hfree : (m.ss.lruPqueue.erase o.lastAccess).get? m.ss.now = none := by
    refine Option.eq_none_iff_forall_ne_some.mpr (fun i hi => ?_)
    have := ((herased _ _).mp hi).1
    omega
  refine ⟨_, hreach, ?_, h.pinned, h.room, ⟨x, ?_, hxt, hx0⟩,
    ⟨{ o with lastAccess := m.ss.now, targetIsDirty := o.targetIsDirty || false }, ?_, ht, ?_⟩,
    fun t i => ?_⟩
  · show m.ss.nextAccessTime + 1 = _
    rw [h.clock]
    omega
  · exact Dict.get?_set_eq_some.mpr (Or.inr ⟨by decide, hx⟩)
  · exact Dict.get?_set_eq_some.mpr (Or.inl ⟨rfl, rfl⟩)
  · show m.ss.now = _
    omega
  · show ((m.ss.lruPqueue.erase o.lastAccess).insertNew m.ss.now 4).get? t = some i ↔ _
    rw [Dict.insertNew_of_free hfree, Dict.get?_set_eq_some, herased]
    omega

/-- The second object can be accessed until the clock has shown all times, by induction. -/
theorem busy (codec : Codec D B) (p q : Payload D) (k : Nat) (hk : 1 + k < 2 ^ 64) :
    ∃ m, Busy codec k m := by
  induction k with
  | zero =>
      refine ⟨_, .call (.call (.call .create (c := .allocate p) rfl) (c := .allocate q) rfl)
        (c := .pin 4) rfl, rfl, List.mem_cons_self, Nat.le_refl 2, ⟨_, rfl, rfl, rfl⟩,
        ⟨_, rfl, rfl, rfl⟩, fun t i => ?_⟩
      show (((Dict.empty : Dict Nat Nat).set 0 2).set 1 4).get? t = some i ↔ _
      rw [Dict.get?_set_eq_some, Dict.get?_set_eq_some, Dict.get?_empty]
      simp only [reduceCtorEq, and_false, or_false]
      omega
  | succ k ih =>
      obtain ⟨m, hm⟩ := ih (by omega)
      exact hm.succ (by omega)

end Pinning

/--
The last access after 2^64 - 1 others has the time of the first. Two objects then share their time,
and the queue keeps one of them: no eviction can take the other.
-/
theorem accesses_wrap :
    let codec : Codec Unit (Payload Unit) := ⟨id, id, fun _ => rfl⟩
    ∃ m, Pinning.Reachable codec 2 m ∧ ∃ o o', m.ss.objects.get? 2 = some o
      ∧ m.ss.objects.get? 4 = some o' ∧ o.target.isSome = true ∧ o'.target.isSome = true
      ∧ o.lastAccess = o'.lastAccess ∧ ∀ t, m.ss.lruPqueue.get? t ≠ some 4 := by
  intro codec
  obtain ⟨m, hm⟩ := Pinning.busy codec ⟨(), []⟩ ⟨(), []⟩ (2 ^ 64 - 2) (by decide)
  obtain ⟨o, ho, ht, hlast, hreach⟩ := hm.access
  obtain ⟨x, hx, hxt, hx0⟩ := hm.idle
  have hnow : m.ss.now = 0 := by
    unfold now
    rw [hm.clock]
    decide
  refine ⟨_, hreach, x, _, Dict.get?_set_eq_some.mpr (Or.inr ⟨by decide, hx⟩),
    Dict.get?_set_eq_some.mpr (Or.inl ⟨rfl, rfl⟩), hxt, ht, hx0.trans hnow.symm, fun t h => ?_⟩
  -- the time is taken, so the object is not inserted again
  have hzero : (m.ss.lruPqueue.erase o.lastAccess).get? m.ss.now = some 2 := by
    rw [hnow, Dict.get?_erase_eq_some, hm.queue, hlast]
    omega
  have hq : (m.ss.touched 4 o false).lruPqueue = m.ss.lruPqueue.erase o.lastAccess :=
    if_pos (by rw [hzero]; rfl)
  rw [hq, Dict.get?_erase_eq_some, hm.queue, hlast] at h
  omega

end BeTree
