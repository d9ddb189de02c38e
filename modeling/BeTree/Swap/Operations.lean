import BeTree.Swap.Exact

/-!
# Allocations, pins and accesses

What the operations of a client do to the invariant of the swap space: each one
succeeds if the objects it names are there, and leaves the contents of all objects
as they were, except for the one that is written to. Pinned objects stay in memory.
-/

namespace BeTree

open Checked

namespace SwapSpace

variable {D B : Type} {codec : Codec D B} {s s' : SwapSpace D B} {id : Nat}
variable {roots orphans : List Nat} {o o' : Object D} {p q : Payload D}

/--
The objects that are left have their contents, and those that are pinned are not
swapped out and not forgotten to be dirty.
-/
structure Preserves (codec : Codec D B) (s s' : SwapSpace D B) : Prop where
  object : ∀ i o', s'.objects.get? i = some o' → ∃ o, s.objects.get? i = some o
    ∧ s'.content codec o' = s.content codec o
    ∧ (0 < o.pincount → (o.target.isSome = true → o'.target.isSome = true)
      ∧ (o.targetIsDirty = true → o'.targetIsDirty = true))
  nextId : s'.nextId = s.nextId

theorem Keeps.preserves (h : Keeps codec s s') : Preserves codec s s' := by
  refine ⟨fun i o' ho' => ?_, h.nextId⟩
  obtain ⟨o, ho, hc, _, hk⟩ := h.object i o' ho'
  refine ⟨o, ho, hc, fun hpin => ?_⟩
  obtain ⟨ht, hd⟩ := hk hpin
  exact ⟨fun hx => ht ▸ hx, fun hx => hd ▸ hx⟩

theorem Full.of_preserves (h : Full codec s) (hk : Preserves codec s s') : Full codec s' := by
  intro i o' ho' j hj
  obtain ⟨o, ho, hc, _⟩ := hk.object i o' ho'
  rw [pointers_congr hc] at hj
  exact h i o ho j hj

/-! ## Allocation -/

theorem Full.entered (h : Full codec s) (hptrs : p.ptrs = []) : Full codec (s.entered p) := by
  intro i x hx j hj
  rcases Dict.get?_set_eq_some.mp hx with ⟨_, rfl⟩ | ⟨_, hx⟩
  · rw [pointers_eq (content_target rfl), hptrs] at hj
    cases hj
  · exact h i x hx j hj

/-- **Allocating an object.** -/
theorem ensures_allocate (h : Exact codec roots orphans s) (hr : s.InRange) (hfull : Full codec s)
    (hptrs : p.ptrs = []) :
    Ensures (s.allocate codec p) (fun r => r.1 = s.newId
      ∧ Exact codec (r.1 :: roots) orphans r.2 ∧ Keeps codec (s.entered p) r.2) := by
  unfold allocate
  refine (ensures_check (S := fun _ => True) ?_ trivial).bind (fun _ _ => ?_)
  · rw [h.fresh hr]
    rfl
  · refine (ensures_maybeEvictSomething (h.entered hr hptrs) (hfull.entered hptrs)).bind
      (fun s' hs' => ensures_pure ?_)
    exact ⟨rfl, hs'.1, hs'.2⟩

/-! ## Accesses -/

/-- An object that is in memory after an access, before anything is evicted. -/
structure Loaded (codec : Codec D B) (s : SwapSpace D B) (id : Nat) (dirty : Bool) (o : Object D)
    (s₁ : SwapSpace D B) : Prop where
  object : ∃ p, s.content codec o = some p ∧ s₁.objects = (s.accessed id o dirty p).objects
  backstore : s₁.backstore = s.backstore
  nextId : s₁.nextId = s.nextId

theorem Loaded.content {dirty : Bool} {s₁ : SwapSpace D B} {i : Nat} {x : Object D}
    (h : Loaded codec s id dirty o s₁) (ho : s.objects.get? id = some o)
    (hx : s₁.objects.get? i = some x) : ∃ y, s.objects.get? i = some y
      ∧ s₁.content codec x = s.content codec y ∧ x.pincount = y.pincount
      ∧ (y.target.isSome = true → x.target.isSome = true)
      ∧ (y.targetIsDirty = true → x.targetIsDirty = true) := by
  obtain ⟨p, hp, hobj⟩ := h.object
  rw [hobj, accessed_objects] at hx
  rcases Dict.get?_set_eq_some.mp hx with ⟨rfl, rfl⟩ | ⟨_, hx⟩
  · refine ⟨o, ho, ?_, rfl, fun _ => rfl, fun hd => ?_⟩
    · rw [hp]
      exact content_target rfl
    · show (o.targetIsDirty || dirty) = true
      rw [hd]
      rfl
  · refine ⟨x, hx, content_congr rfl (fun _ => ?_), rfl, fun ht => ht, fun hd => hd⟩
    rw [h.backstore]

/-- Loading an object gives it the content it has on disk. -/
theorem ensures_loaded (dirty : Bool) (h : Exact codec roots orphans s)
    (ho : s.objects.get? id = some o) :
    Ensures ((s.touched id o dirty).load codec id) (Loaded codec s id dirty o) := by
  have ho₁ : (s.touched id o dirty).objects.get? id = some { o with
      lastAccess := s.now
      targetIsDirty := o.targetIsDirty || dirty } :=
    Dict.get?_set_eq_some.mpr (Or.inl ⟨rfl, rfl⟩)
  cases ht : o.target with
  | some p =>
      have hload : (s.touched id o dirty).load codec id = .ok (s.touched id o dirty) := by
        unfold load
        rw [object_eq ho₁]
        dsimp only [bind, Except.bind]
        rw [ht]
        rfl
      refine ⟨_, hload, ⟨p, content_target ht, ?_⟩, rfl, rfl⟩
      rw [accessed_objects, ← ht]
      rfl
  | none =>
      obtain ⟨p, hp⟩ := h.image id o ho (Or.inl ht)
      have hload := load_eq codec ho₁ ht hp.file (fun j hj => ?_)
      · refine ⟨_, hload, ⟨p, hp.content, ?_⟩, rfl, rfl⟩
        show (s.touched id o dirty).objects.set id { o with
            target := some (codec.deserialize (codec.serialize p))
            lastAccess := s.now
            targetIsDirty := o.targetIsDirty || dirty } = _
        rw [codec.deserialize_serialize]
        rfl
      · -- the targets of the pointers that are read back are there, with their counts
        rw [codec.deserialize_serialize] at hj
        obtain ⟨x, hx, hr⟩ := h.exists_of_pointer ho (hp.ptrs j hj)
          (by rw [pointers_eq hp.content]; exact hj)
        by_cases hji : j = id
        · rw [hji, ho] at hx
          injection hx with hx
          rw [hji]
          exact ⟨_, ho₁, hx ▸ hr⟩
        · exact ⟨x, Dict.get?_set_eq_some.mpr (Or.inr ⟨hji, hx⟩), hr⟩

/-- An access makes at most one object dirty, and takes an access time. -/
theorem Paced.loaded {dirty : Bool} {s₁ : SwapSpace D B} (h : Paced s) (hr : s.InRange)
    (ho : s.objects.get? id = some o) (ht : Touched s id dirty s₁)
    (hs : Loaded codec s id dirty o s₁) : Paced s₁ := by
  obtain ⟨p, _, hobj⟩ := hs.object
  rw [accessed_objects] at hobj
  have hset := dirtied_set s₁ ho hobj
  have hone : s₁.dirtied ≤ s.dirtied + 1 := by
    split at hset <;> split at hset <;> omega
  have := h.files
  refine ⟨?_, ht.nextAccessTime ▸ hr.2⟩
  rw [hs.backstore, ht.nextAccessTime]
  omega

/-- An object that has been loaded is still as its file says, unless it is dirty. -/
theorem Exact.loaded {dirty : Bool} {s₁ : SwapSpace D B} (h : Exact codec roots orphans s)
    (hr : s.InRange) (ho : s.objects.get? id = some o) (ht : Touched s id dirty s₁)
    (hs : Loaded codec s id dirty o s₁) : Exact codec roots orphans s₁ := by
  have hpaced := h.paced.loaded hr ho ht hs
  have hcons := ht.consistent h.consistent hr
  obtain ⟨p, hp, hobj⟩ := hs.object
  rw [accessed_objects] at hobj
  refine h.rewrite ho hobj hs.backstore rfl hcons hpaced (h.live id o ho) (fun j _ => ?_) (fun hc => ?_)
  · rw [pointers_eq (content_target rfl), pointers_eq hp, refcountOf_set s₁ j hobj]
    by_cases hji : j = id
    · rw [if_pos hji, hji, refcountOf_eq ho]
    · rw [if_neg hji]
  · rcases hc with hc | hc
    · cases hc
    · have hclean : o.targetIsDirty = false := by
        cases hd : o.targetIsDirty with
        | false => rfl
        | true =>
            change (o.targetIsDirty || dirty) = false at hc
            rw [hd] at hc
            cases hc
      obtain ⟨q, hq⟩ := h.image id o ho (Or.inr hclean)
      have hqp : q = p := Option.some.inj (hq.content.symm.trans hp)
      subst hqp
      refine ⟨q, hq.bsid, hs.backstore ▸ hq.file, hq.ptrs, fun r hr => ?_, fun hnone => ?_⟩
      · exact (Option.some.inj hr).symm
      · cases hnone

/-- **An access** by a pin. -/
theorem ensures_access (dirty : Bool) (h : Exact codec roots orphans s) (hr : s.InRange)
    (hfull : Full codec s) (ho : s.objects.get? id = some o) (hpin : 0 < o.pincount) :
    Ensures (s.access codec id dirty) (fun s' => Exact codec roots orphans s'
      ∧ Preserves codec s s' ∧ ∀ o', s'.objects.get? id = some o' → o'.target.isSome = true
        ∧ (dirty = true → o'.targetIsDirty = true)) := by
  refine (ensures_need (Q := fun x => x = o) ho rfl).bind (fun x hx => ?_)
  subst hx
  refine ((ensures_loaded dirty h ho).and (yields_touched ho)).bind
    (fun s₁ ⟨hs₁, ht₁⟩ => ?_)
  have hex : Exact codec roots orphans s₁ := h.loaded hr ho ht₁ hs₁
  have hfull₁ : Full codec s₁ := by
    intro i y hy j hj
    obtain ⟨z, hz, hc, _⟩ := hs₁.content ho hy
    rw [pointers_congr hc] at hj
    exact hfull i z hz j hj
  refine (ensures_maybeEvictSomething hex hfull₁).imp (fun s' ⟨hex', hk⟩ => ⟨hex', ?_, ?_⟩)
  · refine ⟨fun i y hy => ?_, hk.nextId.trans hs₁.nextId⟩
    obtain ⟨z, hz, hc, _, hkeep⟩ := hk.object i y hy
    obtain ⟨w, hw, hc', hpw, htw, hdw⟩ := hs₁.content ho hz
    refine ⟨w, hw, hc.trans hc', fun hpos => ?_⟩
    obtain ⟨ht, hd⟩ := hkeep (hpw ▸ hpos)
    exact ⟨fun hx => ht ▸ htw hx, fun hx => hd ▸ hdw hx⟩
  · -- the object itself is pinned, so the eviction that follows leaves it in memory
    intro y hy
    obtain ⟨z, hz, _, _, hkeep⟩ := hk.object id y hy
    obtain ⟨p, _, hobj⟩ := hs₁.object
    rw [hobj, accessed_objects] at hz
    rcases Dict.get?_set_eq_some.mp hz with ⟨_, rfl⟩ | ⟨hne, _⟩
    · obtain ⟨ht, hd⟩ := hkeep hpin
      refine ⟨ht ▸ rfl, fun hdirty => ?_⟩
      rw [hd, hdirty]
      exact Bool.or_true _
    · exact absurd rfl hne

/-! ## Pins -/

theorem Exact.repinned {c : Nat} (h : Exact codec roots orphans s)
    (ho : s.objects.get? id = some o) : Exact codec roots orphans (s.repinned id o c) :=
  h.recount (r := o.refcount) (c := c) ho (h.live id o ho) rfl (fun _ _ _ => rfl)

theorem Full.repinned {c : Nat} (h : Full codec s) (ho : s.objects.get? id = some o) :
    Full codec (s.repinned id o c) := by
  intro i x hx j hj
  rcases Dict.get?_set_eq_some.mp hx with ⟨_, rfl⟩ | ⟨_, hx⟩
  · exact h id o ho j hj
  · exact h i x hx j hj

/-- **A new pin.** -/
theorem ensures_doPin (ho : s.objects.get? id = some o) (hid : 0 < id) :
    Ensures (s.doPin id) (fun s' => s' = s.repinned id o (o.pincount + 1)) := by
  unfold doPin
  rw [if_neg (by omega)]
  refine (ensures_need (Q := fun x => x = o) ho rfl).bind (fun x hx => ensures_pure ?_)
  rw [hx]
  rfl

/-- **The end of a pin.** -/
theorem ensures_unpin (h : Exact codec roots orphans s) (hfull : Full codec s)
    (ho : s.objects.get? id = some o) (hid : 0 < id) (hpin : 0 < o.pincount) :
    Ensures (s.unpin codec id) (fun s' => Exact codec roots orphans s'
      ∧ Keeps codec (s.repinned id o (o.pincount - 1)) s') := by
  unfold unpin
  rw [if_neg (by omega)]
  refine (ensures_need (Q := fun x => x = o) ho rfl).bind (fun x hx => ?_)
  subst hx
  refine (ensures_check (S := fun _ => True) (decide_eq_true hpin) trivial).bind (fun _ _ => ?_)
  exact ensures_maybeEvictSomething (h.repinned ho) (hfull.repinned ho)

/-! ## Writing -/

/-- Writing to an object that is dirty, with the pointers outside the objects changing to match. -/
theorem Exact.written {roots' : List Nat} (h : Exact codec roots orphans s)
    (ho : s.objects.get? id = some o) (ht : o.target = some p) (hd : o.targetIsDirty = true)
    (hcount : ∀ j, 0 < j → roots'.count j + q.ptrs.count j = roots.count j + p.ptrs.count j) :
    Exact codec roots' orphans (s.written id o q) := by
  have hobj : (s.written id o q).objects = s.objects.set id { o with target := some q } := rfl
  have hcons : Consistent (s.written id o q) :=
    h.consistent.setObject ho (by rw [ht]; rfl) rfl (fun hnone => by cases hnone)
  refine h.rewrite ho hobj rfl rfl hcons (h.paced.set ho hobj rfl rfl rfl) (h.live id o ho)
    (fun j hj => ?_) (fun hc => ?_)
  · rw [pointers_eq (content_target rfl), pointers_eq (content_target ht),
      refcountOf_set _ j hobj]
    have := hcount j hj
    by_cases hji : j = id
    · rw [if_pos hji, hji, refcountOf_eq ho]
      rw [hji] at this
      dsimp only
      omega
    · rw [if_neg hji]
      omega
  · rcases hc with hc | hc
    · cases hc
    · change o.targetIsDirty = false at hc
      rw [hd] at hc
      cases hc

theorem Full.written (h : Full codec s) (hq : ∀ j ∈ q.ptrs, 0 < j) :
    Full codec (s.written id o q) := by
  intro i x hx j hj
  rcases Dict.get?_set_eq_some.mp hx with ⟨_, rfl⟩ | ⟨_, hx⟩
  · rw [pointers_eq (content_target rfl)] at hj
    exact hq j hj
  · exact h i x hx j hj

theorem ensures_store (ho : s.objects.get? id = some o) (ht : o.target = some p) :
    Ensures (s.store id q) (fun s' => s' = s.written id o q) := by
  refine (ensures_need (Q := fun x => x = o) ho rfl).bind (fun x hx => ?_)
  subst hx
  refine (ensures_check (S := fun _ => True) ?_ trivial).bind (fun _ _ => ensures_pure rfl)
  rw [ht]
  rfl

/-! ## `evict_all` -/

/-- Every object is on disk, with the content that it has in `s`. -/
def Persisted (codec : Codec D B) (s s' : SwapSpace D B) : Prop :=
  (∀ i, (s'.objects.get? i).isSome = (s.objects.get? i).isSome)
    ∧ ∀ i o', s'.objects.get? i = some o' → o'.target = none ∧ 0 < o'.bsid ∧ o'.targetIsDirty = false
      ∧ ∃ o p, s.objects.get? i = some o ∧ s.content codec o = some p
        ∧ s'.backstore.files.get? o'.bsid = some (codec.serialize p)

/-- With fewer than `2 ^ 64` objects a right counter that is zero means that none is in memory. -/
theorem target_eq_none_of_counter {extra : Nat} (h : Consistent s) (hc : Counted extra s)
    (hfreed : s.freedUnloaded = false) (hids : s.nextId + extra < 2 ^ 64)
    (hzero : s.currentInMemoryObjects ≤ 0) (ho : s.objects.get? id = some o) : o.target = none := by
  have hle : s.resident ≤ s.objects.size := by
    rw [Dict.size_eq_total]
    refine Dict.total_mono (fun _ x _ => ?_)
    split <;> omega
  have hsize : s.objects.size ≤ s.nextId := Dict.size_le (fun i x hx => (h.ids i x hx).2)
  have hcount := hc hfreed
  rw [Nat.mod_eq_of_lt (by omega)] at hcount
  cases ht : o.target with
  | none => rfl
  | some p =>
      have hone := Dict.le_total (f := fun _ (x : Object D) => if x.target.isSome then 1 else 0) ho
      rw [ht] at hone
      have hone : 1 ≤ s.resident := hone
      omega

/-- **`evict_all`** moves everything to disk when no object is pinned and the counter is right. -/
theorem ensures_persisted (h : Exact codec roots [] s) (hfull : Full codec s) (hc : Counted 0 s)
    (hpins : ∀ i o, s.objects.get? i = some o → o.pincount = 0) (hfreed : s.freedUnloaded = false)
    (hids : s.nextId < 2 ^ 64) : Ensures (s.evictAll codec) (Persisted codec s) := by
  have hloop := yields_evictLoop codec 0 (s.lruPqueue.size + 1) (Upkeep.refl h.consistent hc)
  have hparks := yields_evictLoop_parks codec 0 (s.lruPqueue.size + 1) s
  refine (((ensures_evictAll h hfull).and hloop).and hparks).imp
    (fun s' ⟨⟨⟨hexact, hk⟩, hup, hwithin⟩, hp⟩ => ⟨hp.isSome, fun i o' ho' => ?_⟩)
  obtain ⟨o, ho, hcontent, hpin, _⟩ := hk.object i o' ho'
  have hnone : o'.target = none := by
    rcases hwithin with hzero | hpinned
    · exact target_eq_none_of_counter hup.consistent hup.counted (hp.freed.trans hfreed)
        (by rw [hup.nextId]; exact hids) hzero ho'
    · cases ht : o'.target with
      | none => rfl
      | some p =>
          have := hpinned i o' ho' (by rw [ht]; rfl)
          have := hpins i o ho
          omega
  obtain ⟨p, hp⟩ := hexact.image i o' ho' (Or.inl hnone)
  refine ⟨hnone, hp.bsid, hexact.consistent.clean i o' ho' hnone, o, p, ho, ?_, hp.file⟩
  rw [← hcontent, hp.content]

end SwapSpace

end BeTree
