import BeTree.Swap.SwapSpace

/-!
# The queue and the counter

`Settles` is what evictions and the destruction of pointers do to the objects, whatever
the state: some are gone, some that have no pins are on disk, and the others are as they
were but for their counts.

`Consistent` and `Counted` are what every operation keeps, if it returns at all and ids
and access times have not wrapped around: `lru_pqueue` holds exactly the objects in
memory, under access times that are all different, and `current_in_memory_objects` is
their number, unless an object has been freed that was not in memory.

Freeing an object does not load it when it is a leaf, but counts it out all the
same; `freedUnloaded` records this.
-/

namespace BeTree

open Checked

namespace SwapSpace

variable {D B : Type} {codec : Codec D B} {s s' : SwapSpace D B} {id : Nat}

/-- The number of objects in memory. -/
def resident (s : SwapSpace D B) : Nat :=
  s.objects.total (fun _ o => if o.target.isSome then 1 else 0)

/-- The object is in memory and has been written to since it was last on disk. -/
def Dirty (s : SwapSpace D B) (id : Nat) : Prop :=
  ∃ o, s.objects.get? id = some o ∧ o.target.isSome = true ∧ o.targetIsDirty = true

/-- The next id and the next access time have not wrapped around, and neither have those after. -/
def InRange (s : SwapSpace D B) : Prop := s.nextId + 1 < 2 ^ 64 ∧ s.nextAccessTime + 1 < 2 ^ 64

instance : Decidable s.InRange := inferInstanceAs (Decidable (_ ∧ _))

/-- The table of objects and the queue fit together. -/
structure Consistent (s : SwapSpace D B) : Prop where
  lru : ∀ t i, s.lruPqueue.get? t = some i ↔
    ∃ o, s.objects.get? i = some o ∧ o.target.isSome = true ∧ o.lastAccess = t
  stamp : ∀ i o, s.objects.get? i = some o → o.lastAccess < s.nextAccessTime
  distinct : ∀ i j o o', s.objects.get? i = some o → s.objects.get? j = some o' →
    o.lastAccess = o'.lastAccess → i = j
  ids : ∀ i o, s.objects.get? i = some o → 0 < i ∧ i < s.nextId
  clean : ∀ i o, s.objects.get? i = some o → o.target = none → o.targetIsDirty = false

/-- The counter is ahead of the number of objects in memory by `extra`. -/
def Counted (extra : Nat) (s : SwapSpace D B) : Prop :=
  s.freedUnloaded = false → s.currentInMemoryObjects = (s.resident + extra) % 2 ^ 64

/-! ## Fields -/

@[simp]
theorem setObject_objects {o : Object D} : (s.setObject id o).objects = s.objects.set id o := rfl

@[simp]
theorem countUp_objects : s.countUp.objects = s.objects := rfl

@[simp]
theorem countDown_objects : s.countDown.objects = s.objects := rfl

theorem newId_eq (h : s.InRange) : s.newId = s.nextId + 1 := uint64_of_lt h.1

theorem now_eq (h : s.InRange) : s.now = s.nextAccessTime := uint64_of_lt (Nat.lt_of_succ_lt h.2)

theorem yields_object : Yields (s.object id) (fun o => s.objects.get? id = some o) := yields_need

/-! ## Loading -/

/-- The temporary of a deserialization leaves the counts as they were. -/
theorem yields_revive : Yields (s.revive id) (fun s' => s' = s) := by
  refine yields_object.bind (fun o ho => ?_)
  refine yields_object.bind (fun o' ho' => yields_check.bind (fun _ _ => yields_pure ?_))
  rw [setObject_objects, Dict.get?_set, if_pos rfl] at ho'
  injection ho' with ho'
  subst ho'
  have hset : (s.objects.set id { o with refcount := o.refcount + 1 }).set id
      { o with refcount := o.refcount + 1 - 1 } = s.objects := by
    rw [Dict.set_set]
    exact Dict.set_of_get? ho
  exact congrArg (fun m => { s with objects := m }) hset

/-- The object with its content read from the file. -/
def loaded (codec : Codec D B) (s : SwapSpace D B) (id : Nat) (o : Object D) (buffer : B) :
    SwapSpace D B :=
  (s.setObject id { o with target := some (codec.deserialize buffer) }).countUp

theorem yields_load : Yields (s.load codec id) (fun s' => ∃ o, s.objects.get? id = some o
    ∧ ((o.target.isSome = true ∧ s' = s) ∨ (o.target = none ∧ ∃ buffer,
      s.backstore.files.get? o.bsid = some buffer ∧ s' = s.loaded codec id o buffer))) := by
  refine yields_object.bind (fun o ho => ?_)
  cases ht : o.target with
  | some p => exact yields_pure ⟨o, ho, Or.inl ⟨by rw [ht]; rfl, rfl⟩⟩
  | none =>
      refine yields_need.bind (fun buffer hbuf => ?_)
      refine (yields_foldlM (I := fun s' => s' = s) (fun s' a hs' => hs' ▸ yields_revive) _ rfl).bind
        (fun s' hs' => ?_)
      subst hs'
      refine yields_object.bind (fun o' ho' => yields_pure ?_)
      rw [ho] at ho'
      injection ho' with ho'
      subst ho'
      exact ⟨o, ho, Or.inr ⟨ht, buffer, hbuf, rfl⟩⟩

/-! ## Changing one object -/

/-- Rewriting an object that stays where it is. -/
theorem Consistent.setObject {o o' : Object D} (h : Consistent s) (ho : s.objects.get? id = some o)
    (ht : o'.target.isSome = o.target.isSome) (hl : o'.lastAccess = o.lastAccess)
    (hd : o'.target = none → o'.targetIsDirty = false) : Consistent (s.setObject id o') := by
  refine ⟨fun t i => ?_, fun i x hx => ?_, fun i j x y hx hy hxy => ?_, fun i x hx => ?_,
    fun i x hx hnone => ?_⟩
  · show s.lruPqueue.get? t = some i ↔ _
    rw [h.lru]
    refine ⟨fun ⟨x, hx, hxt, hxl⟩ => ?_, fun ⟨x, hx, hxt, hxl⟩ => ?_⟩
    · by_cases hi : i = id
      · rw [hi, ho] at hx
        injection hx with hx
        subst hx
        exact ⟨o', Dict.get?_set_eq_some.mpr (Or.inl ⟨hi, rfl⟩), ht.trans hxt, hl.trans hxl⟩
      · exact ⟨x, Dict.get?_set_eq_some.mpr (Or.inr ⟨hi, hx⟩), hxt, hxl⟩
    · rcases Dict.get?_set_eq_some.mp hx with ⟨rfl, rfl⟩ | ⟨_, hx⟩
      · exact ⟨o, ho, ht.symm.trans hxt, hl.symm.trans hxl⟩
      · exact ⟨x, hx, hxt, hxl⟩
  · rcases Dict.get?_set_eq_some.mp hx with ⟨rfl, rfl⟩ | ⟨_, hx⟩
    · exact hl ▸ h.stamp _ _ ho
    · exact h.stamp i x hx
  · rcases Dict.get?_set_eq_some.mp hx with ⟨hi, rfl⟩ | ⟨_, hx'⟩ <;>
      rcases Dict.get?_set_eq_some.mp hy with ⟨hj, rfl⟩ | ⟨_, hy'⟩
    · exact hi.trans hj.symm
    · exact hi.trans (h.distinct _ _ _ _ ho hy' (hl.symm.trans hxy))
    · exact (h.distinct _ _ _ _ hx' ho (hxy.trans hl)).trans hj.symm
    · exact h.distinct i j x y hx' hy' hxy
  · rcases Dict.get?_set_eq_some.mp hx with ⟨rfl, rfl⟩ | ⟨_, hx⟩
    · exact h.ids _ _ ho
    · exact h.ids i x hx
  · rcases Dict.get?_set_eq_some.mp hx with ⟨rfl, rfl⟩ | ⟨_, hx⟩
    · exact hd hnone
    · exact h.clean i x hx hnone

/-- Erasing an object from the table and from the queue. -/
theorem Consistent.erase {o : Object D} (h : Consistent s) (ho : s.objects.get? id = some o)
    (hobj : s'.objects = s.objects.erase id) (hlru : s'.lruPqueue = s.lruPqueue.erase o.lastAccess)
    (htime : s'.nextAccessTime = s.nextAccessTime) (hid : s'.nextId = s.nextId) :
    Consistent s' := by
  have hget : ∀ {i x}, s'.objects.get? i = some x → i ≠ id ∧ s.objects.get? i = some x := by
    intro i x hx
    rw [hobj] at hx
    exact Dict.get?_erase_eq_some.mp hx
  refine ⟨fun t i => ?_, fun i x hx => ?_, fun i j x y hx hy => ?_, fun i x hx => ?_,
    fun i x hx => ?_⟩
  · rw [hlru, Dict.get?_erase_eq_some, h.lru]
    refine ⟨fun ⟨ht, x, hx, hxt, hxl⟩ => ?_, fun ⟨x, hx, hxt, hxl⟩ => ?_⟩
    · have hne : i ≠ id := by
        intro hi
        rw [hi, ho] at hx
        injection hx with hx
        exact ht (hx ▸ hxl.symm)
      exact ⟨x, by rw [hobj]; exact Dict.get?_erase_eq_some.mpr ⟨hne, hx⟩, hxt, hxl⟩
    · obtain ⟨hne, hx⟩ := hget hx
      exact ⟨fun ht => hne (h.distinct _ _ _ _ hx ho (hxl.trans ht)), x, hx, hxt, hxl⟩
  · rw [htime]
    exact h.stamp i x (hget hx).2
  · exact h.distinct i j x y (hget hx).2 (hget hy).2
  · rw [hid]
    exact h.ids i x (hget hx).2
  · exact h.clean i x (hget hx).2

/-- Putting an object into memory at the current time. -/
theorem Consistent.enter {o' : Object D} (h : Consistent s) (hfree : s.objects.get? id = none)
    (hid : 0 < id ∧ id < s'.nextId) (hle : s.nextId ≤ s'.nextId)
    (hobj : s'.objects = s.objects.set id o')
    (hlru : s'.lruPqueue = s.lruPqueue.insertNew s.nextAccessTime id)
    (htime : s'.nextAccessTime = s.nextAccessTime + 1) (ht : o'.target.isSome = true)
    (hl : o'.lastAccess = s.nextAccessTime) : Consistent s' := by
  -- nothing in the queue has the current time yet
  have hnow : s.lruPqueue.get? s.nextAccessTime = none := by
    rw [Option.eq_none_iff_forall_ne_some]
    intro i hi
    obtain ⟨x, hx, _, hxl⟩ := (h.lru _ _).mp hi
    have := h.stamp i x hx
    omega
  rw [Dict.insertNew_of_free hnow] at hlru
  have hget : ∀ {i x}, s'.objects.get? i = some x →
      (i = id ∧ x = o') ∨ (i ≠ id ∧ s.objects.get? i = some x) := by
    intro i x hx
    rw [hobj] at hx
    exact Dict.get?_set_eq_some.mp hx
  refine ⟨fun t i => ?_, fun i x hx => ?_, fun i j x y hx hy hxy => ?_, fun i x hx => ?_,
    fun i x hx hnone => ?_⟩
  · rw [hlru, Dict.get?_set_eq_some, h.lru]
    refine ⟨fun hx => ?_, fun ⟨x, hx, hxt, hxl⟩ => ?_⟩
    · rcases hx with ⟨rfl, rfl⟩ | ⟨_, x, hx, hxt, hxl⟩
      · exact ⟨o', by rw [hobj]; exact Dict.get?_set_eq_some.mpr (Or.inl ⟨rfl, rfl⟩), ht, hl⟩
      · have hne : i ≠ id := by
          intro hi
          rw [hi, hfree] at hx
          cases hx
        exact ⟨x, by rw [hobj]; exact Dict.get?_set_eq_some.mpr (Or.inr ⟨hne, hx⟩), hxt, hxl⟩
    · rcases hget hx with ⟨rfl, rfl⟩ | ⟨_, hx⟩
      · exact Or.inl ⟨hxl.symm.trans hl, rfl⟩
      · have := h.stamp i x hx
        exact Or.inr ⟨by omega, x, hx, hxt, hxl⟩
  · rw [htime]
    rcases hget hx with ⟨_, rfl⟩ | ⟨_, hx⟩
    · omega
    · have := h.stamp i x hx
      omega
  · rcases hget hx with ⟨hi, rfl⟩ | ⟨_, hx⟩ <;> rcases hget hy with ⟨hj, rfl⟩ | ⟨_, hy⟩
    · exact hi.trans hj.symm
    · have := h.stamp j y hy
      omega
    · have := h.stamp i x hx
      omega
    · exact h.distinct i j x y hx hy hxy
  · rcases hget hx with ⟨hi, _⟩ | ⟨_, hx⟩
    · exact hi ▸ hid
    · have := h.ids i x hx
      omega
  · rcases hget hx with ⟨_, rfl⟩ | ⟨_, hx⟩
    · rw [hnone] at ht
      cases ht
    · exact h.clean i x hx hnone

/-- Taking an object out of memory. -/
theorem Consistent.park {o o' : Object D} (h : Consistent s) (ho : s.objects.get? id = some o)
    (hobj : s'.objects = s.objects.set id o') (hlru : s'.lruPqueue = s.lruPqueue.erase o.lastAccess)
    (htime : s'.nextAccessTime = s.nextAccessTime) (hid : s'.nextId = s.nextId)
    (ht : o'.target = none) (hd : o'.targetIsDirty = false) (hl : o'.lastAccess = o.lastAccess) :
    Consistent s' := by
  have hget : ∀ {i x}, s'.objects.get? i = some x →
      (i = id ∧ x = o') ∨ (i ≠ id ∧ s.objects.get? i = some x) := by
    intro i x hx
    rw [hobj] at hx
    exact Dict.get?_set_eq_some.mp hx
  refine ⟨fun t i => ?_, fun i x hx => ?_, fun i j x y hx hy hxy => ?_, fun i x hx => ?_,
    fun i x hx hnone => ?_⟩
  · rw [hlru, Dict.get?_erase_eq_some, h.lru]
    refine ⟨fun ⟨htl, x, hx, hxt, hxl⟩ => ?_, fun ⟨x, hx, hxt, hxl⟩ => ?_⟩
    · -- access times are different, so only this object leaves the queue
      have hi : i ≠ id := by
        intro hi
        rw [hi, ho] at hx
        injection hx with hx
        exact htl (hx ▸ hxl.symm)
      exact ⟨x, by rw [hobj]; exact Dict.get?_set_eq_some.mpr (Or.inr ⟨hi, hx⟩), hxt, hxl⟩
    · rcases hget hx with ⟨_, rfl⟩ | ⟨hi, hx⟩
      · rw [ht] at hxt
        cases hxt
      · exact ⟨fun htl => hi (h.distinct _ _ _ _ hx ho (hxl.trans htl)), x, hx, hxt, hxl⟩
  · rw [htime]
    rcases hget hx with ⟨_, rfl⟩ | ⟨_, hx⟩
    · exact hl ▸ h.stamp _ _ ho
    · exact h.stamp i x hx
  · rcases hget hx with ⟨hi, rfl⟩ | ⟨_, hx⟩ <;> rcases hget hy with ⟨hj, rfl⟩ | ⟨_, hy⟩
    · exact hi.trans hj.symm
    · exact hi.trans (h.distinct _ _ _ _ ho hy (hl.symm.trans hxy))
    · exact (h.distinct _ _ _ _ hx ho (hxy.trans hl)).trans hj.symm
    · exact h.distinct i j x y hx hy hxy
  · rw [hid]
    rcases hget hx with ⟨hi, _⟩ | ⟨_, hx⟩
    · rw [hi]
      exact h.ids _ _ ho
    · exact h.ids i x hx
  · rcases hget hx with ⟨_, rfl⟩ | ⟨_, hx⟩
    · exact hd
    · exact h.clean i x hx hnone

/-! ## The counter -/

variable {extra : Nat} {s₀ : SwapSpace D B}

theorem resident_set (s' : SwapSpace D B) {o o' : Object D} (ho : s.objects.get? id = some o)
    (hobj : s'.objects = s.objects.set id o') :
    s'.resident + (if o.target.isSome then 1 else 0)
      = s.resident + (if o'.target.isSome then 1 else 0) := by
  unfold resident
  rw [hobj]
  exact Dict.total_set ho

theorem resident_erase (s' : SwapSpace D B) {o : Object D} (ho : s.objects.get? id = some o)
    (hobj : s'.objects = s.objects.erase id) :
    s'.resident + (if o.target.isSome then 1 else 0) = s.resident := by
  unfold resident
  rw [hobj]
  exact Dict.total_erase ho

theorem Counted.countDown (h : Counted (extra + 1) s) : Counted extra s.countDown := by
  intro hf
  have hres : s.countDown.resident = s.resident := by unfold resident; rw [countDown_objects]
  have hcur : s.currentInMemoryObjects = (s.resident + (extra + 1)) % 2 ^ 64 := h hf
  show uint64Dec s.currentInMemoryObjects = _
  rw [hres, hcur]
  unfold uint64Dec
  split <;> omega

theorem Counted.countUp (h : Counted extra s) : Counted (extra + 1) s.countUp := by
  intro hf
  have hres : s.countUp.resident = s.resident := by unfold resident; rw [countUp_objects]
  have hcur : s.currentInMemoryObjects = (s.resident + extra) % 2 ^ 64 := h hf
  show uint64Inc s.currentInMemoryObjects = _
  rw [hres, hcur]
  unfold uint64Inc
  split <;> omega

/-- The same counter for other objects. -/
theorem Counted.of_resident {extra' : Nat} (h : Counted extra s)
    (hf : s'.freedUnloaded = s.freedUnloaded)
    (hc : s'.currentInMemoryObjects = s.currentInMemoryObjects)
    (hr : s'.resident + extra' = s.resident + extra) : Counted extra' s' := by
  intro hf'
  rw [hc, hr]
  exact h (hf.symm.trans hf')

/-! ## What evictions and the destruction of pointers do -/

/-- An object that is as it was but for its content and counts, or had no pins and is on disk now. -/
def Rests (o₀ o : Object D) : Prop :=
  o.pincount = o₀.pincount ∧ o.lastAccess = o₀.lastAccess
    ∧ ((o.target.isSome = o₀.target.isSome ∧ o.targetIsDirty = o₀.targetIsDirty)
      ∨ (o₀.pincount = 0 ∧ o.target = none ∧ o.targetIsDirty = false))

theorem Rests.refl (o : Object D) : Rests o o := ⟨rfl, rfl, Or.inl ⟨rfl, rfl⟩⟩

theorem Rests.trans {o₀ o₁ o₂ : Object D} (h : Rests o₀ o₁) (h' : Rests o₁ o₂) : Rests o₀ o₂ := by
  obtain ⟨hp, hl, hcase⟩ := h
  obtain ⟨hp', hl', hcase'⟩ := h'
  refine ⟨hp'.trans hp, hl'.trans hl, ?_⟩
  rcases hcase' with ⟨ht', hd'⟩ | ⟨hpin, ht', hd'⟩
  · rcases hcase with ⟨ht, hd⟩ | ⟨hpin, ht, hd⟩
    · exact Or.inl ⟨ht'.trans ht, hd'.trans hd⟩
    · rw [ht] at ht'
      exact Or.inr ⟨hpin, Option.isNone_iff_eq_none.mp (Option.isSome_eq_false_iff.mp ht'),
        hd'.trans hd⟩
  · exact Or.inr ⟨hp ▸ hpin, ht', hd'⟩

/-- No object is new, none becomes dirty, and only objects are sent to the server. -/
structure Settles (s₀ s : SwapSpace D B) : Prop where
  object : ∀ i o, s.objects.get? i = some o → ∃ o₀, s₀.objects.get? i = some o₀ ∧ Rests o₀ o
  nextId : s.nextId = s₀.nextId
  nextAccessTime : s.nextAccessTime = s₀.nextAccessTime
  limit : s.maxInMemoryObjects = s₀.maxInMemoryObjects
  sent : ∀ r ∈ s.requests, r ∈ s₀.requests
    ∨ ∃ i b, r = .evictNode i b ∧ (s₀.objects.get? i).isSome = true

theorem Settles.refl (s : SwapSpace D B) : Settles s s :=
  ⟨fun _ o ho => ⟨o, ho, Rests.refl o⟩, rfl, rfl, rfl, fun _ hr => Or.inl hr⟩

theorem Settles.trans {s'' : SwapSpace D B} (h : Settles s s') (h' : Settles s' s'') :
    Settles s s'' := by
  refine ⟨fun i o ho => ?_, h'.nextId.trans h.nextId, h'.nextAccessTime.trans h.nextAccessTime,
    h'.limit.trans h.limit, fun r hr => ?_⟩
  · obtain ⟨o₁, ho₁, hr₁⟩ := h'.object i o ho
    obtain ⟨o₀, ho₀, hr₀⟩ := h.object i o₁ ho₁
    exact ⟨o₀, ho₀, hr₀.trans hr₁⟩
  · rcases h'.sent r hr with hr | ⟨i, b, rfl, hi⟩
    · exact h.sent r hr
    · obtain ⟨o₁, ho₁⟩ := Option.isSome_iff_exists.mp hi
      obtain ⟨o₀, ho₀, _⟩ := h.object i o₁ ho₁
      exact Or.inr ⟨i, b, rfl, by rw [ho₀]; rfl⟩

theorem Settles.calm {i : Nat} (h : Settles s₀ s) (hi : s.Dirty i) : s₀.Dirty i := by
  obtain ⟨o, ho, ht, hd⟩ := hi
  obtain ⟨o₀, ho₀, _, _, hcase⟩ := h.object i o ho
  rcases hcase with ⟨ht₀, hd₀⟩ | ⟨_, hnone, _⟩
  · exact ⟨o₀, ho₀, ht₀.symm.trans ht, hd₀.symm.trans hd⟩
  · rw [hnone] at ht
    cases ht

/-- Rewriting an object that stays where it is. -/
theorem Settles.setObject {o o' : Object D} (h : Settles s₀ s) (ho : s.objects.get? id = some o)
    (hr : Rests o o') : Settles s₀ (s.setObject id o') := by
  refine ⟨fun i x hx => ?_, h.nextId, h.nextAccessTime, h.limit, h.sent⟩
  rcases Dict.get?_set_eq_some.mp hx with ⟨rfl, rfl⟩ | ⟨_, hx⟩
  · obtain ⟨o₀, ho₀, hr₀⟩ := h.object i o ho
    exact ⟨o₀, ho₀, hr₀.trans hr⟩
  · exact h.object i x hx

/-- Taking an object out of the table. -/
theorem Settles.erase (h : Settles s₀ s) (hobj : s'.objects = s.objects.erase id)
    (hid : s'.nextId = s.nextId) (htime : s'.nextAccessTime = s.nextAccessTime)
    (hlimit : s'.maxInMemoryObjects = s.maxInMemoryObjects) (hreq : s'.requests = s.requests) :
    Settles s₀ s' := by
  refine ⟨fun i x hx => ?_, hid.trans h.nextId, htime.trans h.nextAccessTime, hlimit.trans h.limit,
    fun r hr => h.sent r (hreq ▸ hr)⟩
  rw [hobj] at hx
  exact h.object i x (Dict.get?_erase_eq_some.mp hx).2

/-! ## What the operations keep -/

/-- What holds throughout an operation that makes nothing dirty, begun in state `s₀`. -/
structure Upkeep (extra : Nat) (s₀ s : SwapSpace D B) : Prop extends Settles s₀ s where
  consistent : Consistent s
  counted : Counted extra s

theorem Upkeep.refl (h : Consistent s) (hc : Counted extra s) : Upkeep extra s s :=
  ⟨Settles.refl s, h, hc⟩

/-- Rewriting an object that stays where it is changes no count. -/
theorem Counted.setObject {o o' : Object D} (h : Counted extra s) (ho : s.objects.get? id = some o)
    (ht : o'.target.isSome = o.target.isSome) : Counted extra (s.setObject id o') := by
  refine h.of_resident rfl rfl ?_
  have := resident_set (s.setObject id o') ho rfl
  rw [ht] at this
  omega

/-- Rewriting an object that stays where it is. -/
theorem Upkeep.setObject {o o' : Object D} (h : Upkeep extra s₀ s)
    (ho : s.objects.get? id = some o) (ht : o'.target.isSome = o.target.isSome)
    (hl : o'.lastAccess = o.lastAccess) (hd : o'.targetIsDirty = o.targetIsDirty)
    (hp : o'.pincount = o.pincount) : Upkeep extra s₀ (s.setObject id o') := by
  have hclean : o'.target = none → o'.targetIsDirty = false := by
    intro hnone
    rw [hnone] at ht
    rw [hd]
    exact h.consistent.clean _ _ ho (Option.isSome_eq_false_iff.mp ht.symm |> Option.isNone_iff_eq_none.mp)
  exact ⟨h.toSettles.setObject ho ⟨hp, hl, Or.inl ⟨ht, hd⟩⟩, h.consistent.setObject ho ht hl hclean,
    h.counted.setObject ho ht⟩

/-! ## Releasing a pointer -/

theorem depoint_zero {fuel : Nat} : depoint codec fuel s 0 = .ok s := by
  unfold depoint
  rfl

/-- An object that is freed: in memory, on disk and loaded, or a leaf on disk that is not loaded. -/
theorem yields_loadToFree {o : Object D} (ho : s.objects.get? id = some o) :
    Yields (s.loadToFree codec id o) (fun s₁ => (o.target.isSome = true ∧ s₁ = s)
      ∨ (o.target = none ∧ s₁ = { s with freedUnloaded := true })
      ∨ (o.target = none ∧ ∃ buffer, s₁ = s.loaded codec id o buffer)) := by
  unfold loadToFree
  cases ht : o.target with
  | some p => exact yields_pure (Or.inl ⟨rfl, rfl⟩)
  | none =>
      refine yields_check.bind (fun _ _ => ?_)
      split
      · exact yields_pure (Or.inr (Or.inl ⟨rfl, rfl⟩))
      · refine yields_load.imp (fun s₁ hs₁ => ?_)
        obtain ⟨o', ho', hcase⟩ := hs₁
        rw [ho] at ho'
        injection ho' with ho'
        subst ho'
        rcases hcase with ⟨hsome, _⟩ | ⟨_, buffer, _, rfl⟩
        · rw [ht] at hsome
          cases hsome
        · exact Or.inr (Or.inr ⟨rfl, buffer, rfl⟩)

/--
What the destruction of pointers keeps: each step of `free` keeps it, with the number of
objects that have been taken out and are still counted.
-/
structure Discards (codec : Codec D B) (I : Nat → SwapSpace D B → Prop) : Prop where
  recount : ∀ {e s id o r}, I e s → s.objects.get? id = some o →
    I e (s.setObject id { o with refcount := r })
  erased : ∀ {e s id o}, I e s → s.objects.get? id = some o → o.target.isSome = true →
    I (e + 1) (s.erased id o)
  erasedLoaded : ∀ {e s id o buffer}, I e s → s.objects.get? id = some o → o.target = none →
    I (e + 1) ((s.loaded codec id o buffer).erased id o)
  erasedUnloaded : ∀ {e s id o}, I e s → s.objects.get? id = some o →
    I (e + 1) (({ s with freedUnloaded := true } : SwapSpace D B).erased id o)
  countDown : ∀ {e s}, I (e + 1) s → I e s.countDown
  backstore : ∀ {e s bs}, I e s → I e { s with backstore := bs }

section Discards

variable {I : Nat → SwapSpace D B → Prop} (hI : Discards codec I)

include hI

theorem Discards.yields_free {dp : SwapSpace D B → Nat → Except SwapFault (SwapSpace D B)}
    {o : Object D} (hdp : ∀ {e : Nat} (s : SwapSpace D B) (i : Nat), I e s → Yields (dp s i) (I e))
    (h : I extra s) (ho : s.objects.get? id = some o) :
    Yields (s.free codec dp id o) (I extra) := by
  refine (yields_loadToFree ho).bind (fun s₁ hs₁ => yields_object.bind (fun o₁ ho₁ => ?_))
  have herased : I (extra + 1) (s₁.erased id o₁) := by
    rcases hs₁ with ⟨ht, rfl⟩ | ⟨_, rfl⟩ | ⟨ht, buffer, rfl⟩
    · rw [ho] at ho₁
      injection ho₁ with ho₁
      exact ho₁ ▸ hI.erased h ho ht
    · have ho₁ : s.objects.get? id = some o₁ := ho₁
      rw [ho] at ho₁
      injection ho₁ with ho₁
      exact ho₁ ▸ hI.erasedUnloaded h ho
    · rcases Dict.get?_set_eq_some.mp ho₁ with ⟨_, rfl⟩ | ⟨hne, _⟩
      · exact hI.erasedLoaded h ho ht
      · exact absurd rfl hne
  have hdelete : Yields ((s₁.erased id o₁).deleteTarget dp o₁.target) (I (extra + 1)) := by
    unfold deleteTarget
    split
    · exact yields_foldlM (fun s i hs => hdp s i hs) _ herased
    · exact yields_pure herased
  refine hdelete.bind (fun s₂ hs₂ => ?_)
  have hany : Yields (s₂.countDown.backstore.discard o₁.bsid) (fun _ => True) := fun _ _ => trivial
  exact hany.bind (fun _ _ => yields_pure (hI.backstore (hI.countDown hs₂)))

/-- **Destroying a pointer** keeps it, by induction on the depth of the recursion. -/
theorem Discards.yields_depoint (extra fuel : Nat) (h : I extra s) :
    Yields (depoint codec fuel s id) (I extra) := by
  induction fuel generalizing extra s id with
  | zero =>
      unfold depoint
      split
      · exact yields_pure h
      · exact yields_error
  | succ fuel ih =>
      unfold depoint
      split
      · exact yields_pure h
      · refine yields_object.bind (fun o ho => yields_check.bind (fun _ _ => ?_))
        have hset : I extra (s.setObject id { o with refcount := o.refcount - 1 }) := hI.recount h ho
        dsimp only
        split
        · refine hI.yields_free (fun s i hs => ih _ hs) hset ?_
          exact Dict.get?_set_eq_some.mpr (Or.inl ⟨rfl, rfl⟩)
        · exact yields_pure hset

end Discards

theorem settles_discards (codec : Codec D B) (s₀ : SwapSpace D B) :
    Discards codec (fun _ s => Settles s₀ s) where
  recount h ho := h.setObject ho ⟨rfl, rfl, Or.inl ⟨rfl, rfl⟩⟩
  erased h _ _ := h.erase rfl rfl rfl rfl rfl
  erasedLoaded h _ _ := h.erase Dict.erase_set rfl rfl rfl rfl
  erasedUnloaded h _ := h.erase rfl rfl rfl rfl rfl
  countDown h := ⟨h.object, h.nextId, h.nextAccessTime, h.limit, h.sent⟩
  backstore h := ⟨h.object, h.nextId, h.nextAccessTime, h.limit, h.sent⟩

theorem Upkeep.erased {o : Object D} (h : Upkeep extra s₀ s) (ho : s.objects.get? id = some o)
    (ht : o.target.isSome = true) : Upkeep (extra + 1) s₀ (s.erased id o) := by
  refine ⟨h.erase rfl rfl rfl rfl rfl, h.consistent.erase ho rfl rfl rfl rfl,
    h.counted.of_resident rfl rfl ?_⟩
  have := resident_erase (s.erased id o) ho rfl
  rw [if_pos ht] at this
  omega

theorem Upkeep.erased_loaded {o : Object D} {buffer : B} (h : Upkeep extra s₀ s)
    (ho : s.objects.get? id = some o) (ht : o.target = none) :
    Upkeep (extra + 1) s₀ ((s.loaded codec id o buffer).erased id o) := by
  have hobj : ((s.loaded codec id o buffer).erased id o).objects = s.objects.erase id :=
    Dict.erase_set
  have hres : ((s.loaded codec id o buffer).erased id o).resident = s.countUp.resident := by
    have := resident_erase ((s.loaded codec id o buffer).erased id o) ho hobj
    rw [ht] at this
    exact this
  exact ⟨h.erase hobj rfl rfl rfl rfl, h.consistent.erase ho hobj rfl rfl rfl,
    (h.counted.countUp).of_resident rfl rfl (by rw [hres])⟩

/-- The queue and the count are kept; a leaf that is freed on disk breaks the count. -/
theorem upkeep_discards (codec : Codec D B) (s₀ : SwapSpace D B) :
    Discards codec (fun e s => Upkeep e s₀ s) where
  recount h ho := h.setObject ho rfl rfl rfl rfl
  erased h ho ht := h.erased ho ht
  erasedLoaded h ho ht := h.erased_loaded ho ht
  erasedUnloaded h ho := ⟨h.erase rfl rfl rfl rfl rfl, h.consistent.erase ho rfl rfl rfl rfl,
    fun hf => by cases hf⟩
  countDown h := ⟨⟨h.object, h.nextId, h.nextAccessTime, h.limit, h.sent⟩,
    ⟨h.consistent.lru, h.consistent.stamp, h.consistent.distinct, h.consistent.ids,
      h.consistent.clean⟩, h.counted.countDown⟩
  backstore h := ⟨⟨h.object, h.nextId, h.nextAccessTime, h.limit, h.sent⟩,
    ⟨h.consistent.lru, h.consistent.stamp, h.consistent.distinct, h.consistent.ids,
      h.consistent.clean⟩, h.counted⟩

/-! ## Eviction -/

/-- Destroying pointers that have been zeroed does nothing. -/
theorem deleteTarget_zeroed {p : Payload D} :
    s.deleteTarget (release codec) (some p.zeroed) = .ok s := by
  unfold deleteTarget Payload.zeroed
  dsimp only
  induction p.ptrs with
  | nil => rfl
  | cons i is ih =>
      rw [List.map_cons, List.foldlM_cons]
      show (release codec s 0 >>= _) = _
      rw [release, depoint_zero]
      exact ih

/-- The object as it is on disk. -/
def parked (o : Object D) (p : Payload D) (bsid : Nat) : Object D :=
  { o with target := none, isLeaf := p.ptrs.isEmpty, bsid := bsid, targetIsDirty := false }

/-- Where the image of an evicted object is: a dirty one is written to a new file. -/
def image (codec : Codec D B) (s : SwapSpace D B) (o : Object D) (p : Payload D) :
    Except SwapFault (Nat × BackingStore B) := do
  if o.targetIsDirty then
    let (bsid, backstore) := s.backstore.allocate (codec.serialize p)
    let backstore ← backstore.discard o.bsid
    return (bsid, backstore)
  else return (o.bsid, s.backstore)

/-- What is sent to the server for it. -/
def shipped (codec : Codec D B) (id : Nat) (o : Object D) (p : Payload D) : List (Request B) :=
  if o.targetIsDirty then [.evictNode id (codec.serialize p)] else []

/-- The state after an eviction. -/
def evicted (codec : Codec D B) (s : SwapSpace D B) (id : Nat) (o : Object D) (p : Payload D)
    (r : Nat × BackingStore B) : SwapSpace D B :=
  { s with
    objects := s.objects.set id (parked o p r.1)
    lruPqueue := s.lruPqueue.erase o.lastAccess
    backstore := r.2
    currentInMemoryObjects := uint64Dec s.currentInMemoryObjects
    requests := s.requests ++ shipped codec id o p
    evictions := s.evictions ++ [id] }

theorem object_eq {o : Object D} (ho : s.objects.get? id = some o) : s.object id = .ok o := by
  rw [object, ho]
  rfl

/-- Nothing is left to be released in a target whose pointers were written. -/
theorem dropTarget_zeroed {o : Object D} {p : Payload D} (ho : s.objects.get? id = some o)
    (ht : o.target = some p.zeroed) :
    s.dropTarget codec id = .ok (s.setObject id { o with target := none }) := by
  unfold dropTarget
  rw [object_eq ho]
  show (s.deleteTarget (release codec) o.target >>= _) = _
  rw [ht, deleteTarget_zeroed]
  show (s.object id >>= _) = _
  rw [object_eq ho]
  rfl

/-- `evict` on an object in memory. -/
theorem evict_eq {o : Object D} {p : Payload D} (ho : s.objects.get? id = some o)
    (ht : o.target = some p) :
    s.evict codec id = (do
      s.serializePointers p.ptrs
      let r ← s.image codec o p
      return s.evicted codec id o p r) := by
  unfold evict
  rw [object_eq ho]
  show (writeBack codec { s with lruPqueue := s.lruPqueue.erase o.lastAccess } id >>= _) = _
  unfold writeBack
  rw [object_eq (s := { s with lruPqueue := s.lruPqueue.erase o.lastAccess }) ho]
  show (need SwapFault.nullTarget o.target >>= _ >>= _) = _
  rw [ht]
  show (serializePointers s p.ptrs >>= _ >>= _) = _
  cases s.serializePointers p.ptrs with
  | error e => rfl
  | ok u =>
      -- only a dirty object is written to a new file and has its old one unlinked
      show ((if o.targetIsDirty = true then _ else _) >>= _) = (s.image codec o p >>= _)
      unfold image
      cases hd : o.targetIsDirty with
      | false =>
          rw [if_neg (by simp), if_neg (by simp)]
          show (dropTarget codec _ id >>= _) = _
          rw [dropTarget_zeroed (Dict.get?_set_eq_some.mpr (Or.inl ⟨rfl, rfl⟩)) rfl]
          simp only [setObject, Dict.set_set]
          show _ = Except.ok (s.evicted codec id o p (o.bsid, s.backstore))
          simp only [evicted, shipped, hd, Bool.false_eq_true, if_false, List.append_nil]
          rfl
      | true =>
          rw [if_pos rfl, if_pos rfl]
          unfold writeFile
          dsimp only
          cases BackingStore.discard _ o.bsid with
          | error e => rfl
          | ok bs =>
              show (dropTarget codec _ id >>= _) = _
              rw [dropTarget_zeroed (Dict.get?_set_eq_some.mpr (Or.inl ⟨rfl, rfl⟩)) rfl]
              simp only [setObject, Dict.set_set]
              show _ = Except.ok (s.evicted codec id o p (uint64 s.backstore.nextid, bs))
              simp only [evicted, shipped, hd, if_true]
              rfl

/-- What is sent for an evicted object is the object. -/
theorem Settles.evicted {o : Object D} {p : Payload D} {r : Nat × BackingStore B}
    (h : Settles s₀ s) (ho : s.objects.get? id = some o) (hpin : o.pincount = 0) :
    Settles s₀ (s.evicted codec id o p r) := by
  refine ⟨fun i x hx => ?_, h.nextId, h.nextAccessTime, h.limit, fun q hq => ?_⟩
  · rcases Dict.get?_set_eq_some.mp hx with ⟨rfl, rfl⟩ | ⟨_, hx⟩
    · obtain ⟨o₀, ho₀, hr₀⟩ := h.object i o ho
      exact ⟨o₀, ho₀, hr₀.trans ⟨rfl, rfl, Or.inr ⟨hpin, rfl, rfl⟩⟩⟩
    · exact h.object i x hx
  · rcases List.mem_append.mp hq with hq | hq
    · exact h.sent q hq
    · unfold shipped at hq
      split at hq
      · obtain ⟨o₀, ho₀, _⟩ := h.object id o ho
        exact Or.inr ⟨id, _, List.mem_singleton.mp hq, by rw [ho₀]; rfl⟩
      · exact absurd hq (by simp)

theorem Upkeep.evicted {o : Object D} {p : Payload D} {r : Nat × BackingStore B}
    (h : Upkeep extra s₀ s) (ho : s.objects.get? id = some o) (ht : o.target = some p)
    (hpin : o.pincount = 0) : Upkeep extra s₀ (s.evicted codec id o p r) := by
  have hres : (s.evicted codec id o p r).resident + 1 = s.resident + 0 := by
    have := resident_set (s.evicted codec id o p r) ho rfl
    rw [ht] at this
    exact this
  have hcount : Counted (extra + 1) ({ s.evicted codec id o p r with
      currentInMemoryObjects := s.currentInMemoryObjects } : SwapSpace D B) := by
    refine h.counted.of_resident rfl rfl ?_
    show (s.evicted codec id o p r).resident + (extra + 1) = _
    omega
  exact ⟨h.toSettles.evicted ho hpin, h.consistent.park ho rfl rfl rfl rfl rfl rfl rfl,
    hcount.countDown⟩

theorem yields_evicted {o : Object D} (ho : s.objects.get? id = some o) :
    Yields (s.evict codec id) (fun s' => ∃ p r, o.target = some p ∧ s.image codec o p = .ok r
      ∧ s' = s.evicted codec id o p r) := by
  cases ht : o.target with
  | none =>
      intro s' hs'
      rw [evict, object_eq ho] at hs'
      change (writeBack codec _ id >>= _) = _ at hs'
      rw [writeBack, object_eq (s := { s with lruPqueue := s.lruPqueue.erase o.lastAccess }) ho]
        at hs'
      change (need SwapFault.nullTarget o.target >>= _ >>= _) = _ at hs'
      rw [ht] at hs'
      cases hs'
  | some p =>
      rw [evict_eq ho ht]
      have hself : ∀ {α : Type} (x : Except SwapFault α), Yields x (fun a => x = .ok a) :=
        fun _ _ ha => ha
      exact (hself _).bind (fun _ _ => (hself _).bind (fun r hr => yields_pure ⟨p, r, rfl, hr, rfl⟩))

theorem yields_evict {o : Object D} (h : Upkeep extra s₀ s) (ho : s.objects.get? id = some o)
    (hpin : o.pincount = 0) : Yields (s.evict codec id) (Upkeep extra s₀) := by
  refine (yields_evicted ho).imp (fun s' ⟨p, r, ht, _, hs'⟩ => ?_)
  subst hs'
  exact h.evicted ho ht hpin

/-! ## The eviction loops -/

/-- The object under an entry of the queue is pinned. -/
def PinnedEntry (s : SwapSpace D B) (e : Nat × Nat) : Prop :=
  ∃ o, s.objects.get? e.2 = some o ∧ 0 < o.pincount

/-- The entries before the chosen one are all pinned; the chosen one is not. -/
def Chosen (s : SwapSpace D B) (l : List (Nat × Nat)) : Option Nat → Prop
  | none => ∀ e ∈ l, s.PinnedEntry e
  | some i => ∃ before t after o, l = before ++ (t, i) :: after ∧ (∀ e ∈ before, s.PinnedEntry e)
    ∧ s.objects.get? i = some o ∧ o.pincount = 0

theorem yields_firstUnpinned (l : List (Nat × Nat)) :
    Yields (s.firstUnpinned l) (s.Chosen l) := by
  induction l with
  | nil => exact yields_pure (fun e he => absurd he (by simp))
  | cons e l ih =>
      refine yields_object.bind (fun o ho => ?_)
      split
      · rename_i hpin
        exact yields_pure ⟨[], e.1, l, o, rfl, fun x hx => absurd hx (by simp), ho, hpin⟩
      · rename_i hpin
        have he : s.PinnedEntry e := ⟨o, ho, by omega⟩
        refine ih.imp (fun r hr => ?_)
        cases r with
        | none =>
            intro x hx
            rcases List.mem_cons.mp hx with rfl | hx
            · exact he
            · exact hr x hx
        | some i =>
            obtain ⟨before, t, after, x, rfl, hbefore, hx, hxpin⟩ := hr
            refine ⟨e :: before, t, after, x, rfl, fun y hy => ?_, hx, hxpin⟩
            rcases List.mem_cons.mp hy with rfl | hy
            · exact he
            · exact hbefore y hy

/-- Few enough objects are in memory, or all of them are pinned. -/
def Within (limit : Nat) (s : SwapSpace D B) : Prop :=
  s.currentInMemoryObjects ≤ limit
    ∨ ∀ i o, s.objects.get? i = some o → o.target.isSome = true → 0 < o.pincount

/-- **The eviction loops** keep the queue and the count, and go on as long as they can. -/
theorem yields_evictLoop (codec : Codec D B) (limit fuel : Nat) (h : Upkeep extra s₀ s) :
    Yields (evictLoop codec limit fuel s) (fun s' => Upkeep extra s₀ s' ∧ Within limit s') := by
  induction fuel generalizing s with
  | zero => exact yields_error
  | succ fuel ih =>
      unfold evictLoop
      split
      · refine (yields_firstUnpinned _).bind (fun r hr => ?_)
        cases r with
        | none =>
            refine yields_pure ⟨h, Or.inr (fun i o ho ht => ?_)⟩
            have hq := (h.consistent.lru o.lastAccess i).mpr ⟨o, ho, ht, rfl⟩
            obtain ⟨o', ho', hpin⟩ := hr _ (Dict.mem_entries.mpr hq)
            rw [ho] at ho'
            injection ho' with ho'
            exact ho' ▸ hpin
        | some id =>
            obtain ⟨_, _, _, o, _, _, ho, hpin⟩ := hr
            exact (yields_evict h ho hpin).bind (fun s' hs' => ih hs')
      · rename_i hle
        exact yields_pure ⟨h, Or.inl (Nat.le_of_not_lt hle)⟩

/-- Nothing has been written to since it was last on disk. -/
def Clean (s : SwapSpace D B) : Prop :=
  ∀ i o, s.objects.get? i = some o → o.targetIsDirty = false

/--
Some objects that were in memory without pins have been put on disk; they are clean now, and
all the others are as they were.
-/
structure Parks (s s' : SwapSpace D B) : Prop extends Settles s s' where
  parked : ∀ i, s'.objects.get? i = s.objects.get? i ∨ ∃ o o', s.objects.get? i = some o
    ∧ s'.objects.get? i = some o' ∧ o.target.isSome = true ∧ o.pincount = 0 ∧ o'.target = none
    ∧ o'.targetIsDirty = false ∧ Rests o o'
  freed : s'.freedUnloaded = s.freedUnloaded
  /-- Only what is dirty is written. -/
  written : Clean s → s'.backstore = s.backstore ∧ s'.requests = s.requests

theorem Parks.refl (s : SwapSpace D B) : Parks s s :=
  ⟨Settles.refl s, fun _ => Or.inl rfl, rfl, fun _ => ⟨rfl, rfl⟩⟩

theorem Parks.clean (h : Parks s s') (hc : Clean s) : Clean s' := by
  intro i o' ho'
  rcases h.parked i with heq | ⟨_, x', _, hx', _, _, _, hd, _⟩
  · exact hc i o' (heq ▸ ho')
  · rw [ho'] at hx'
    injection hx' with hx'
    exact hx' ▸ hd

/-- They take no object out of the table. -/
theorem Parks.isSome (h : Parks s s') (i : Nat) :
    (s'.objects.get? i).isSome = (s.objects.get? i).isSome := by
  rcases h.parked i with heq | ⟨o, o', ho, ho', _⟩
  · rw [heq]
  · rw [ho, ho']
    rfl

theorem Parks.trans {s'' : SwapSpace D B} (h : Parks s s') (h' : Parks s' s'') : Parks s s'' := by
  refine ⟨h.toSettles.trans h'.toSettles, fun i => ?_, h'.freed.trans h.freed, fun hc => ?_⟩
  · rcases h.parked i with heq | ⟨o, o', ho, ho', ht, hpin, ht', hd, hr⟩
    · exact heq ▸ h'.parked i
    · rcases h'.parked i with heq' | ⟨x, _, hx, _, hxt, _⟩
      · exact Or.inr ⟨o, o', ho, heq'.trans ho', ht, hpin, ht', hd, hr⟩
      · -- what is on disk is not evicted again
        rw [ho'] at hx
        injection hx with hx
        rw [← hx, ht'] at hxt
        cases hxt
  · obtain ⟨hback, hsent⟩ := h.written hc
    obtain ⟨hback', hsent'⟩ := h'.written (h.clean hc)
    exact ⟨hback'.trans hback, hsent'.trans hsent⟩

theorem Parks.evicted {o : Object D} {p : Payload D} {r : Nat × BackingStore B}
    (ho : s.objects.get? id = some o) (ht : o.target = some p) (hpin : o.pincount = 0)
    (hr : s.image codec o p = .ok r) : Parks s (s.evicted codec id o p r) := by
  refine ⟨(Settles.refl s).evicted ho hpin, fun i => ?_, rfl, fun hc => ?_⟩
  · show (s.objects.set id (SwapSpace.parked o p r.1)).get? i = _ ∨ _
    by_cases hi : i = id
    · subst hi
      refine Or.inr ⟨o, SwapSpace.parked o p r.1, ho, ?_, by rw [ht]; rfl, hpin, rfl, rfl, rfl, rfl,
        Or.inr ⟨hpin, rfl, rfl⟩⟩
      exact Dict.get?_set_eq_some.mpr (Or.inl ⟨rfl, rfl⟩)
    · exact Or.inl (by rw [Dict.get?_set, if_neg hi])
  · have hd : ¬ o.targetIsDirty = true := by rw [hc id o ho]; exact Bool.false_ne_true
    rw [image, if_neg hd] at hr
    injection hr with hr
    refine ⟨(congrArg Prod.snd hr).symm, ?_⟩
    show s.requests ++ shipped codec id o p = s.requests
    rw [shipped, if_neg hd, List.append_nil]

/-- **The eviction loops** put objects on disk and do nothing else to them. -/
theorem yields_evictLoop_parks (codec : Codec D B) (limit fuel : Nat) (s : SwapSpace D B) :
    Yields (evictLoop codec limit fuel s) (Parks s) := by
  induction fuel generalizing s with
  | zero => exact yields_error
  | succ fuel ih =>
      unfold evictLoop
      split
      · refine (yields_firstUnpinned _).bind (fun r hr => ?_)
        cases r with
        | none => exact yields_pure (Parks.refl s)
        | some id =>
            obtain ⟨_, _, _, o, _, _, ho, hpin⟩ := hr
            refine (yields_evicted ho).bind (fun s' hs' => ?_)
            obtain ⟨p, r, ht, hr, hs'⟩ := hs'
            have hstep : Parks s s' := hs' ▸ Parks.evicted ho ht hpin hr
            exact (ih s').imp (fun s'' hs'' => hstep.trans hs'')
      · exact yields_pure (Parks.refl s)

theorem yields_maybeEvictSomething (h : Upkeep extra s₀ s) :
    Yields (s.maybeEvictSomething codec)
      (fun s' => Upkeep extra s₀ s' ∧ Within s₀.maxInMemoryObjects s') := by
  have hloop := yields_evictLoop codec s.maxInMemoryObjects (s.lruPqueue.size + 1) h
  rw [h.limit] at hloop
  unfold maybeEvictSomething
  rw [h.limit]
  exact hloop

/-! ## Allocation and access -/

/-- What the eviction at the end of an operation does to the objects. -/
theorem parks_of_evict (h : s.maybeEvictSomething codec = .ok s') : Parks s s' :=
  yields_evictLoop_parks _ _ _ _ s' h

/-- A new object takes an id that is free, and then something may be evicted. -/
theorem yields_allocate_cases (codec : Codec D B) (s : SwapSpace D B) (p : Payload D) :
    Yields (s.allocate codec p) (fun r => r.1 = s.newId ∧ s.objects.get? s.newId = none
      ∧ (s.entered p).maybeEvictSomething codec = .ok r.2) := by
  unfold allocate
  refine yields_check.bind (fun _ hfree => ?_)
  have hevict : Yields ((s.entered p).maybeEvictSomething codec)
      (fun s₂ => (s.entered p).maybeEvictSomething codec = .ok s₂) := fun _ h => h
  exact hevict.bind (fun s₂ hs₂ => yields_pure ⟨rfl, Option.isNone_iff_eq_none.mp hfree, hs₂⟩)

theorem resident_entered {p : Payload D} (hfree : s.objects.get? s.newId = none) :
    (s.entered p).resident = s.resident + 1 :=
  Dict.total_set_of_free hfree

/-- A new object, in memory and dirty. -/
theorem Consistent.entered {p : Payload D} (h : Consistent s) (hr : s.InRange)
    (hfree : s.objects.get? s.newId = none) : Consistent (s.entered p) := by
  have hid := newId_eq hr
  have hnow := now_eq hr
  have hnext : (s.entered p).nextId = s.nextId + 2 := rfl
  refine h.enter hfree ⟨by omega, by omega⟩ (Nat.le_add_right _ _) rfl ?_ rfl rfl hnow
  rw [← hnow]
  rfl

theorem yields_allocate {p : Payload D} (h : Consistent s) (hc : Counted 0 s) (hr : s.InRange) :
    Yields (s.allocate codec p) (fun r => r.1 = s.nextId + 1
      ∧ Upkeep 0 (s.entered p) r.2 ∧ Within s.maxInMemoryObjects r.2) := by
  refine (yields_allocate_cases codec s p).imp (fun r hr' => ?_)
  obtain ⟨hid, hfree, hevict⟩ := hr'
  have hcount : Counted 0 (s.entered p) :=
    hc.countUp.of_resident rfl rfl (resident_entered hfree)
  refine ⟨hid.trans (newId_eq hr), ?_⟩
  exact yields_maybeEvictSomething (Upkeep.refl (h.entered hr hfree) hcount) r.2 hevict

/-- The object under `id` as an access leaves it. -/
def accessed (s : SwapSpace D B) (id : Nat) (o : Object D) (dirty : Bool) (p : Payload D) :
    SwapSpace D B :=
  (s.touched id o dirty).setObject id { o with
    target := some p
    lastAccess := s.now
    targetIsDirty := o.targetIsDirty || dirty }

theorem accessed_objects {o : Object D} {dirty : Bool} {p : Payload D} :
    (s.accessed id o dirty p).objects = s.objects.set id { o with
      target := some p
      lastAccess := s.now
      targetIsDirty := o.targetIsDirty || dirty } := Dict.set_set

theorem Consistent.accessed {o : Object D} (dirty : Bool) (p : Payload D) (h : Consistent s)
    (hr : s.InRange) (ho : s.objects.get? id = some o) : Consistent (s.accessed id o dirty p) := by
  have herase : Consistent (s.erased id o) := h.erase ho rfl rfl rfl rfl
  have hfree : (s.erased id o).objects.get? id = none := Dict.get?_erase.trans (if_pos rfl)
  have hobj : (s.accessed id o dirty p).objects = (s.erased id o).objects.set id { o with
      target := some p
      lastAccess := s.now
      targetIsDirty := o.targetIsDirty || dirty } := by
    rw [accessed_objects]
    exact Dict.set_erase.symm
  have hlru : (s.accessed id o dirty p).lruPqueue
      = (s.erased id o).lruPqueue.insertNew s.nextAccessTime id := by
    rw [← now_eq hr]
    rfl
  exact herase.enter hfree (h.ids _ _ ho) (Nat.le_refl _) hobj hlru rfl rfl (now_eq hr)

/-- An access before it evicts: the object is in memory, and nothing else has changed. -/
structure Touched (s : SwapSpace D B) (id : Nat) (dirty : Bool) (s₁ : SwapSpace D B) : Prop where
  object : ∃ o p, s.objects.get? id = some o ∧ s₁.objects = (s.accessed id o dirty p).objects
    ∧ s₁.lruPqueue = (s.accessed id o dirty p).lruPqueue
  nextId : s₁.nextId = s.nextId
  nextAccessTime : s₁.nextAccessTime = s.nextAccessTime + 1
  limit : s₁.maxInMemoryObjects = s.maxInMemoryObjects
  requests : s₁.requests = s.requests
  backstore : s₁.backstore = s.backstore
  evictions : s₁.evictions = s.evictions
  counted : Counted 0 s → Counted 0 s₁

theorem yields_touched {dirty : Bool} {o : Object D} (ho : s.objects.get? id = some o) :
    Yields ((s.touched id o dirty).load codec id) (Touched s id dirty) := by
  refine yields_load.imp (fun s₁ hs₁ => ?_)
  obtain ⟨o₁, ho₁, hcase⟩ := hs₁
  rcases Dict.get?_set_eq_some.mp ho₁ with ⟨_, rfl⟩ | ⟨hne, _⟩
  swap
  · exact absurd rfl hne
  -- whether it was in memory or not, the objects are now those of `accessed`
  rcases hcase with ⟨hsome, rfl⟩ | ⟨hnone, buffer, _, rfl⟩
  · obtain ⟨p, hp⟩ := Option.isSome_iff_exists.mp hsome
    have hobj : (s.touched id o dirty).objects = (s.accessed id o dirty p).objects := by
      rw [accessed_objects, ← hp]
      rfl
    refine ⟨⟨o, p, ho, hobj, rfl⟩, rfl, rfl, rfl, rfl, rfl, rfl, fun hc => hc.of_resident rfl rfl ?_⟩
    have := resident_set (s.touched id o dirty) ho rfl
    dsimp only at this
    omega
  · refine ⟨⟨o, codec.deserialize buffer, ho, rfl, rfl⟩, rfl, rfl, rfl, rfl, rfl, rfl, fun hc => ?_⟩
    refine hc.countUp.of_resident rfl rfl ?_
    have := resident_set (s.accessed id o dirty (codec.deserialize buffer)) ho accessed_objects
    have hnone' : o.target = none := hnone
    rw [hnone'] at this
    exact this

theorem Touched.consistent {dirty : Bool} {s₁ : SwapSpace D B} (hs : Touched s id dirty s₁)
    (h : Consistent s) (hr : s.InRange) : Consistent s₁ := by
  obtain ⟨o, p, ho, hobj, hlru⟩ := hs.object
  have hcons := h.accessed dirty p hr ho
  refine ⟨?_, ?_, hobj ▸ hcons.distinct, ?_, hobj ▸ hcons.clean⟩
  · rw [hobj, hlru]
    exact hcons.lru
  · rw [hobj, hs.nextAccessTime]
    exact hcons.stamp
  · rw [hobj, hs.nextId]
    exact hcons.ids

/-- An access is to an object that is there, and then something may be evicted. -/
theorem yields_access_cases (codec : Codec D B) (s : SwapSpace D B) (id : Nat) (dirty : Bool) :
    Yields (s.access codec id dirty) (fun s' => ∃ s₁, Touched s id dirty s₁
      ∧ s₁.maybeEvictSomething codec = .ok s') :=
  yields_object.bind (fun _ ho => (yields_touched ho).bind (fun s₁ hs₁ _ hs' => ⟨s₁, hs₁, hs'⟩))

/-- An access leaves the object in memory, and changes nothing else but by evicting. -/
theorem yields_access {dirty : Bool} (h : Consistent s) (hc : Counted 0 s) (hr : s.InRange) :
    Yields (s.access codec id dirty) (fun s' => ∃ s₁, Touched s id dirty s₁ ∧ Upkeep 0 s₁ s'
      ∧ Within s.maxInMemoryObjects s') := by
  refine (yields_access_cases codec s id dirty).imp (fun s' hs' => ?_)
  obtain ⟨s₁, hs₁, hevict⟩ := hs'
  obtain ⟨hup, hwithin⟩ := yields_maybeEvictSomething
    (Upkeep.refl (hs₁.consistent h hr) (hs₁.counted hc)) s' hevict
  exact ⟨s₁, hs₁, hup, hs₁.limit ▸ hwithin⟩

/-! ## The other operations -/

theorem yields_addRef : Yields (s.addRef id) (fun s' => (id = 0 ∧ s' = s)
    ∨ ∃ o, s.objects.get? id = some o
      ∧ s' = s.setObject id { o with refcount := o.refcount + 1 }) := by
  unfold addRef
  split
  · rename_i hz
    exact yields_pure (Or.inl ⟨hz, rfl⟩)
  · exact yields_object.bind (fun o ho => yields_pure (Or.inr ⟨o, ho, rfl⟩))

theorem yields_addRef_upkeep (h : Upkeep extra s₀ s) : Yields (s.addRef id) (Upkeep extra s₀) := by
  refine yields_addRef.imp (fun s' hs' => ?_)
  rcases hs' with ⟨_, rfl⟩ | ⟨o, ho, rfl⟩
  · exact h
  · exact h.setObject ho rfl rfl rfl rfl

theorem yields_release_settles (codec : Codec D B) (s : SwapSpace D B) (id : Nat) :
    Yields (s.release codec id) (Settles s) :=
  (settles_discards codec s).yields_depoint 0 _ (Settles.refl s)

theorem yields_release (h : Upkeep extra s₀ s) : Yields (s.release codec id) (Upkeep extra s₀) :=
  (upkeep_discards codec s₀).yields_depoint _ _ h

/-- An object with other pins. -/
def repinned (s : SwapSpace D B) (id : Nat) (o : Object D) (pincount : Nat) : SwapSpace D B :=
  s.setObject id { o with pincount := pincount }

theorem Upkeep.repinned {o : Object D} (h : Consistent s) (hc : Counted extra s)
    (ho : s.objects.get? id = some o) (c : Nat) :
    Upkeep extra (s.repinned id o c) (s.repinned id o c) :=
  Upkeep.refl (h.setObject ho rfl rfl (h.clean id o ho)) (hc.setObject ho rfl)

theorem yields_doPin : Yields (s.doPin id) (fun s' => (id = 0 ∧ s' = s)
    ∨ ∃ o, s.objects.get? id = some o ∧ s' = s.repinned id o (o.pincount + 1)) := by
  unfold doPin
  split
  · rename_i hz
    exact yields_pure (Or.inl ⟨hz, rfl⟩)
  · exact yields_object.bind (fun o ho => yields_pure (Or.inr ⟨o, ho, rfl⟩))

theorem yields_unpin_cases (codec : Codec D B) (s : SwapSpace D B) (id : Nat) :
    Yields (s.unpin codec id) (fun s' => (id = 0 ∧ s' = s) ∨ ∃ o, s.objects.get? id = some o
      ∧ 0 < o.pincount ∧ (s.repinned id o (o.pincount - 1)).maybeEvictSomething codec = .ok s') := by
  unfold unpin
  split
  · rename_i hz
    exact yields_pure (Or.inl ⟨hz, rfl⟩)
  · refine yields_object.bind (fun o ho => yields_check.bind (fun _ hpin s' hs' => ?_))
    exact Or.inr ⟨o, ho, of_decide_eq_true hpin, hs'⟩

theorem yields_unpin (h : Consistent s) (hc : Counted extra s) (hid : 0 < id) :
    Yields (s.unpin codec id) (fun s' => ∃ o, s.objects.get? id = some o ∧ 0 < o.pincount
      ∧ Upkeep extra (s.repinned id o (o.pincount - 1)) s' ∧ Within s.maxInMemoryObjects s') := by
  refine (yields_unpin_cases codec s id).imp (fun s' hs' => ?_)
  rcases hs' with ⟨hz, _⟩ | ⟨o, ho, hpin, hevict⟩
  · omega
  · exact ⟨o, ho, hpin, yields_maybeEvictSomething (Upkeep.repinned h hc ho (o.pincount - 1)) s' hevict⟩

/-- An object in memory with another content. -/
def written (s : SwapSpace D B) (id : Nat) (o : Object D) (p : Payload D) : SwapSpace D B :=
  s.setObject id { o with target := some p }

theorem Upkeep.written {o : Object D} {p : Payload D} (h : Upkeep extra s₀ s)
    (ho : s.objects.get? id = some o) (ht : o.target.isSome = true) :
    Upkeep extra s₀ (s.written id o p) :=
  h.setObject ho ht.symm rfl rfl rfl

theorem yields_store {p : Payload D} : Yields (s.store id p) (fun s' => ∃ o,
    s.objects.get? id = some o ∧ o.target.isSome = true ∧ s' = s.written id o p) :=
  yields_object.bind (fun o ho => yields_check.bind (fun _ ht => yields_pure ⟨o, ho, ht, rfl⟩))

theorem yields_evictAll (h : Upkeep extra s₀ s) :
    Yields (s.evictAll codec) (fun s' => Upkeep extra s₀ s' ∧ Within 0 s') :=
  yields_evictLoop _ _ _ h

/-! ## The counters of ids and accesses -/

/-- The ids and the access times that have been taken. -/
structure Advances (ids times : Nat) (s s' : SwapSpace D B) : Prop where
  nextId : s'.nextId = s.nextId + ids
  nextAccessTime : s'.nextAccessTime = s.nextAccessTime + times

theorem Advances.refl (s : SwapSpace D B) : Advances 0 0 s s := ⟨rfl, rfl⟩

/-- Evictions and the destruction of pointers take none. -/
theorem Advances.settles {ids times : Nat} {s₁ : SwapSpace D B} (h : Advances ids times s s₁)
    (hs : Settles s₁ s') : Advances ids times s s' :=
  ⟨hs.nextId.trans h.nextId, hs.nextAccessTime.trans h.nextAccessTime⟩

theorem advances_entered (s : SwapSpace D B) (p : Payload D) : Advances 2 1 s (s.entered p) :=
  ⟨rfl, rfl⟩

theorem Touched.advances {dirty : Bool} {s₁ : SwapSpace D B} (h : Touched s id dirty s₁) :
    Advances 0 1 s s₁ := ⟨h.nextId, h.nextAccessTime⟩

theorem yields_allocate_advances (codec : Codec D B) (s : SwapSpace D B) (p : Payload D) :
    Yields (s.allocate codec p) (fun r => Advances 2 1 s r.2) :=
  (yields_allocate_cases codec s p).imp (fun _ hr =>
    (advances_entered s p).settles (parks_of_evict hr.2.2).toSettles)

theorem yields_access_advances (codec : Codec D B) (s : SwapSpace D B) (id : Nat) (dirty : Bool) :
    Yields (s.access codec id dirty) (Advances 0 1 s) := by
  refine (yields_access_cases codec s id dirty).imp (fun s' hs => ?_)
  obtain ⟨s₁, hs₁, hevict⟩ := hs
  exact hs₁.advances.settles (parks_of_evict hevict).toSettles

theorem yields_addRef_advances : Yields (s.addRef id) (Advances 0 0 s) := by
  refine yields_addRef.imp (fun s' hs => ?_)
  rcases hs with ⟨_, rfl⟩ | ⟨o, _, rfl⟩ <;> exact ⟨rfl, rfl⟩

theorem yields_release_advances (codec : Codec D B) (s : SwapSpace D B) (id : Nat) :
    Yields (s.release codec id) (Advances 0 0 s) :=
  (yields_release_settles codec s id).imp (fun _ hs => (Advances.refl s).settles hs)

theorem yields_doPin_advances : Yields (s.doPin id) (Advances 0 0 s) := by
  refine yields_doPin.imp (fun s' hs => ?_)
  rcases hs with ⟨_, rfl⟩ | ⟨o, _, rfl⟩ <;> exact ⟨rfl, rfl⟩

theorem yields_unpin_advances (codec : Codec D B) (s : SwapSpace D B) (id : Nat) :
    Yields (s.unpin codec id) (Advances 0 0 s) := by
  refine (yields_unpin_cases codec s id).imp (fun s' hs => ?_)
  rcases hs with ⟨_, rfl⟩ | ⟨o, _, _, hevict⟩
  · exact ⟨rfl, rfl⟩
  · have hpin : Advances 0 0 s (s.repinned id o (o.pincount - 1)) := ⟨rfl, rfl⟩
    exact hpin.settles (parks_of_evict hevict).toSettles

theorem yields_store_advances {p : Payload D} : Yields (s.store id p) (Advances 0 0 s) := by
  refine yields_store.imp (fun s' hs => ?_)
  obtain ⟨o, _, _, rfl⟩ := hs
  exact ⟨rfl, rfl⟩

theorem yields_evictAll_advances (codec : Codec D B) (s : SwapSpace D B) :
    Yields (s.evictAll codec) (Advances 0 0 s) :=
  (yields_evictLoop_parks codec _ _ s).imp (fun _ hs => (Advances.refl s).settles hs.toSettles)

/-- So what has not wrapped around at the end never had. -/
theorem Advances.inRange {ids times : Nat} (h : Advances ids times s s') (hr : s'.InRange) :
    s.InRange := by
  have := h.nextId
  have := h.nextAccessTime
  obtain ⟨_, _⟩ := hr
  exact ⟨by omega, by omega⟩

/-- An operation that takes none changes nothing about it. -/
theorem Advances.inRange_iff (h : Advances 0 0 s s') : s'.InRange ↔ s.InRange := by
  unfold InRange
  rw [h.nextId, h.nextAccessTime]

/-- Objects have different ids below `next_id`. -/
theorem Consistent.resident_le (h : Consistent s) : s.resident ≤ s.nextId := by
  have hsize : s.resident ≤ s.objects.size := by
    rw [Dict.size_eq_total]
    exact Dict.total_mono (fun i o _ => by split <;> omega)
  refine Nat.le_trans hsize (Dict.size_le (fun i o ho => ?_))
  exact (h.ids i o ho).2

end SwapSpace

end BeTree
