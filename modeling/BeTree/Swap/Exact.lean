import BeTree.Swap.Consistent

/-!
# References, images and files

The invariant of the swap space. Every pointer instance is accounted for: the
`refcount` of an object is the number of pointers to it outside the objects
(`roots`) and in the contents of all objects, whether they are in memory or on
disk. An object that is on disk, or in memory and not dirty, has a file with its
serialized content, and every file belongs to one object.

A file is written for an object that is dirty, and only an allocation or an access makes one
dirty. So files are numbered no faster than accesses, and `nextid` wraps around no sooner
than `next_access_time`.

While an object is being freed its pointers are roots and its file is an orphan.
Every operation succeeds from a state with the invariant, keeps it, and changes the
content of no object.
-/

namespace BeTree

open Checked

namespace SwapSpace

variable {D B : Type} {codec : Codec D B} {s s' : SwapSpace D B} {id : Nat}

/-- The content of an object, in memory or on disk. -/
def content (codec : Codec D B) (s : SwapSpace D B) (o : Object D) : Option (Payload D) :=
  match o.target with
  | some p => some p
  | none => (s.backstore.files.get? o.bsid).map codec.deserialize

/-- The pointers in an object, in memory or on disk. -/
def pointers (codec : Codec D B) (s : SwapSpace D B) (o : Object D) : List Nat :=
  match s.content codec o with
  | some p => p.ptrs
  | none => []

/-- The number of pointers to `j` in the objects. -/
def refs (codec : Codec D B) (s : SwapSpace D B) (j : Nat) : Nat :=
  s.objects.total (fun _ o => (s.pointers codec o).count j)

/-- The `refcount` of an object; an object that is not there has none. -/
def refcountOf (s : SwapSpace D B) (j : Nat) : Nat :=
  match s.objects.get? j with
  | some o => o.refcount
  | none => 0

/-- The object has a file with its serialized content. -/
structure Image (codec : Codec D B) (s : SwapSpace D B) (o : Object D) (p : Payload D) : Prop where
  bsid : 0 < o.bsid
  file : s.backstore.files.get? o.bsid = some (codec.serialize p)
  ptrs : ∀ j ∈ p.ptrs, 0 < j
  resident : ∀ q, o.target = some q → q = p
  leaf : o.target = none → o.isLeaf = p.ptrs.isEmpty

/-- Every file belongs to one object, except for the orphans. -/
structure Files (orphans : List Nat) (s : SwapSpace D B) : Prop where
  file : ∀ i o, s.objects.get? i = some o → 0 < o.bsid → (s.backstore.files.get? o.bsid).isSome
  owner : ∀ i j o o', s.objects.get? i = some o → s.objects.get? j = some o' → 0 < o.bsid →
    o.bsid = o'.bsid → i = j
  owned : ∀ b, (s.backstore.files.get? b).isSome →
    b ∈ orphans ∨ ∃ i o, s.objects.get? i = some o ∧ o.bsid = b
  orphan : ∀ b ∈ orphans, (s.backstore.files.get? b).isSome
    ∧ ∀ i o, s.objects.get? i = some o → o.bsid ≠ b
  nodup : orphans.Nodup
  bound : ∀ b, (s.backstore.files.get? b).isSome → 0 < b ∧ b < s.backstore.nextid
  nextid : 0 < s.backstore.nextid

/-- The number of dirty objects. -/
def dirtied (s : SwapSpace D B) : Nat := s.objects.total (fun _ o => if o.targetIsDirty then 1 else 0)

/-- There has been an access for every file, and for every one that is yet to be written. -/
structure Paced (s : SwapSpace D B) : Prop where
  files : s.backstore.nextid + s.dirtied ≤ s.nextAccessTime + 1
  clock : s.nextAccessTime < 2 ^ 64

/-- **The invariant of the swap space.** -/
structure Exact (codec : Codec D B) (roots orphans : List Nat) (s : SwapSpace D B) : Prop where
  consistent : Consistent s
  paced : Paced s
  counts : ∀ j, 0 < j → s.refcountOf j = roots.count j + s.refs codec j
  live : ∀ i o, s.objects.get? i = some o → 0 < o.refcount
  image : ∀ i o, s.objects.get? i = some o → o.target = none ∨ o.targetIsDirty = false →
    ∃ p, Image codec s o p
  files : Files orphans s

/-- What an operation leaves alone: the contents of the objects, and those that are pinned. -/
structure Keeps (codec : Codec D B) (s s' : SwapSpace D B) : Prop where
  object : ∀ i o', s'.objects.get? i = some o' → ∃ o, s.objects.get? i = some o
    ∧ s'.content codec o' = s.content codec o ∧ o'.pincount = o.pincount
    ∧ (0 < o.pincount → o'.target = o.target ∧ o'.targetIsDirty = o.targetIsDirty)
  nextId : s'.nextId = s.nextId

/-- No object holds a null pointer. -/
def Full (codec : Codec D B) (s : SwapSpace D B) : Prop :=
  ∀ i o, s.objects.get? i = some o → ∀ j ∈ s.pointers codec o, 0 < j

variable {roots orphans : List Nat} {o o' : Object D} {p : Payload D}

theorem Keeps.refl : Keeps codec s s :=
  ⟨fun _ o ho => ⟨o, ho, rfl, rfl, fun _ => ⟨rfl, rfl⟩⟩, rfl⟩

theorem Keeps.trans {s₁ s₂ : SwapSpace D B} (h : Keeps codec s s₁) (h' : Keeps codec s₁ s₂) :
    Keeps codec s s₂ := by
  refine ⟨fun i o₂ ho₂ => ?_, h'.nextId.trans h.nextId⟩
  obtain ⟨o₁, ho₁, hc₁, hp₁, hk₁⟩ := h'.object i o₂ ho₂
  obtain ⟨o, ho, hc, hp, hk⟩ := h.object i o₁ ho₁
  refine ⟨o, ho, hc₁.trans hc, hp₁.trans hp, fun hpin => ?_⟩
  obtain ⟨ht, hd⟩ := hk hpin
  obtain ⟨ht₁, hd₁⟩ := hk₁ (hp ▸ hpin)
  exact ⟨ht₁.trans ht, hd₁.trans hd⟩

/-! ## Contents -/

theorem content_target (h : o.target = some p) : s.content codec o = some p := by
  rw [content, h]

theorem Image.content (h : Image codec s o p) : s.content codec o = some p := by
  cases ht : o.target with
  | some q => rw [content_target ht, h.resident q ht]
  | none =>
      rw [SwapSpace.content, ht]
      show (s.backstore.files.get? o.bsid).map codec.deserialize = some p
      rw [h.file, Option.map_some, codec.deserialize_serialize]

theorem pointers_eq (h : s.content codec o = some p) : s.pointers codec o = p.ptrs := by
  rw [pointers, h]

theorem content_congr (ht : o'.target = o.target)
    (hf : o.target = none → s'.backstore.files.get? o'.bsid = s.backstore.files.get? o.bsid) :
    s'.content codec o' = s.content codec o := by
  unfold content
  rw [ht]
  split
  · rfl
  · rename_i hnone
    rw [hf hnone]

theorem pointers_congr (h : s'.content codec o' = s.content codec o) :
    s'.pointers codec o' = s.pointers codec o := by
  unfold pointers
  rw [h]

/-! ## References -/

/-- The pointers of the other objects, when one is taken out. -/
theorem refs_erase (codec : Codec D B) (s' : SwapSpace D B) (j : Nat) (ho : s.objects.get? id = some o)
    (hobj : s'.objects = s.objects.erase id)
    (hother : ∀ i x, i ≠ id → s.objects.get? i = some x →
      s'.pointers codec x = s.pointers codec x) :
    s'.refs codec j + (s.pointers codec o).count j = s.refs codec j := by
  unfold refs
  rw [hobj, ← Dict.total_erase ho]
  congr 1
  refine Dict.total_congr (fun i x hx => ?_)
  obtain ⟨hne, hx⟩ := Dict.get?_erase_eq_some.mp hx
  rw [hother i x hne hx]

/-- The same for an object that is put in. -/
theorem refs_enter (codec : Codec D B) (s' : SwapSpace D B) (j : Nat) (hfree : s.objects.get? id = none)
    (hobj : s'.objects = s.objects.set id o')
    (hother : ∀ i x, i ≠ id → s.objects.get? i = some x →
      s'.pointers codec x = s.pointers codec x) :
    s'.refs codec j = s.refs codec j + (s'.pointers codec o').count j := by
  unfold refs
  rw [hobj, Dict.total_set_of_free hfree]
  congr 1
  refine Dict.total_congr (fun i x hx => ?_)
  have hne : i ≠ id := by
    intro hi
    rw [hi, hfree] at hx
    cases hx
  rw [hother i x hne hx]

/-- The same for an object that is rewritten. -/
theorem refs_set (codec : Codec D B) (s' : SwapSpace D B) (j : Nat) (ho : s.objects.get? id = some o)
    (hobj : s'.objects = s.objects.set id o')
    (hother : ∀ i x, i ≠ id → s.objects.get? i = some x →
      s'.pointers codec x = s.pointers codec x) :
    s'.refs codec j + (s.pointers codec o).count j
      = s.refs codec j + (s'.pointers codec o').count j := by
  have hfree : (s.objects.erase id).get? id = none := Dict.get?_erase.trans (if_pos rfl)
  have hout := refs_erase codec { s with objects := s.objects.erase id } j ho rfl (fun _ _ _ _ => rfl)
  have hin := refs_enter (s := { s with objects := s.objects.erase id }) codec s' j hfree
    (by rw [hobj]; exact Dict.set_erase.symm) (fun i x hne hx =>
      hother i x hne (Dict.get?_erase_eq_some.mp hx).2)
  omega

theorem count_le_refs (codec : Codec D B) (j : Nat) (ho : s.objects.get? id = some o) :
    (s.pointers codec o).count j ≤ s.refs codec j := by
  unfold refs
  exact Dict.le_total (f := fun _ o => (s.pointers codec o).count j) ho

theorem refcountOf_eq (ho : s.objects.get? id = some o) : s.refcountOf id = o.refcount := by
  rw [refcountOf, ho]

theorem refcountOf_set (s' : SwapSpace D B) (j : Nat) (hobj : s'.objects = s.objects.set id o') :
    s'.refcountOf j = if j = id then o'.refcount else s.refcountOf j := by
  unfold refcountOf
  rw [hobj, Dict.get?_set]
  by_cases hj : j = id
  · rw [if_pos hj, if_pos hj]
  · rw [if_neg hj, if_neg hj]

theorem refcountOf_erase {j : Nat} (hobj : s'.objects = s.objects.erase id) :
    s'.refcountOf j = if j = id then 0 else s.refcountOf j := by
  unfold refcountOf
  rw [hobj, Dict.get?_erase]
  by_cases hj : j = id
  · rw [if_pos hj, if_pos hj]
  · rw [if_neg hj, if_neg hj]

theorem exists_of_refcount {j : Nat} (h : 0 < s.refcountOf j) :
    ∃ o, s.objects.get? j = some o ∧ 0 < o.refcount := by
  unfold refcountOf at h
  cases ho : s.objects.get? j with
  | none => rw [ho] at h; exact absurd h (Nat.lt_irrefl 0)
  | some o => rw [ho] at h; exact ⟨o, rfl, h⟩

/-- The target of a pointer outside the objects is there. -/
theorem Exact.exists_of_root {j : Nat} (h : Exact codec roots orphans s) (hj : 0 < j)
    (hmem : j ∈ roots) : ∃ o, s.objects.get? j = some o ∧ 0 < o.refcount := by
  refine exists_of_refcount ?_
  rw [h.counts j hj]
  have := List.count_pos_iff.mpr hmem
  omega

/-- The target of a pointer in an object is there. -/
theorem Exact.exists_of_pointer {j : Nat} (h : Exact codec roots orphans s)
    (ho : s.objects.get? id = some o) (hj : 0 < j) (hmem : j ∈ s.pointers codec o) :
    ∃ o', s.objects.get? j = some o' ∧ 0 < o'.refcount := by
  refine exists_of_refcount ?_
  rw [h.counts j hj]
  have := List.count_pos_iff.mpr hmem
  have := count_le_refs codec j ho
  omega

/-- Only the number of pointers to each object matters, not their order. -/
theorem Exact.roots_congr {roots' : List Nat} (h : Exact codec roots orphans s)
    (hc : ∀ j, 0 < j → roots'.count j = roots.count j) : Exact codec roots' orphans s :=
  ⟨h.consistent, h.paced, fun j hj => by rw [h.counts j hj, hc j hj], h.live, h.image, h.files⟩

theorem Full.of_keeps (h : Full codec s) (hk : Keeps codec s s') : Full codec s' := by
  intro i o' ho' j hj
  obtain ⟨o, ho, hc, _⟩ := hk.object i o' ho'
  rw [pointers_congr hc] at hj
  exact h i o ho j hj

/-! ## Dirty objects -/

theorem dirtied_set (s' : SwapSpace D B) (ho : s.objects.get? id = some o)
    (hobj : s'.objects = s.objects.set id o') :
    s'.dirtied + (if o.targetIsDirty then 1 else 0) = s.dirtied + (if o'.targetIsDirty then 1 else 0) := by
  unfold dirtied
  rw [hobj]
  exact Dict.total_set ho

theorem dirtied_erase (s' : SwapSpace D B) (ho : s.objects.get? id = some o)
    (hobj : s'.objects = s.objects.erase id) :
    s'.dirtied + (if o.targetIsDirty then 1 else 0) = s.dirtied := by
  unfold dirtied
  rw [hobj]
  exact Dict.total_erase ho

/-- An object with the flag it had. -/
theorem Paced.set (h : Paced s) (ho : s.objects.get? id = some o)
    (hobj : s'.objects = s.objects.set id o') (hd : o'.targetIsDirty = o.targetIsDirty)
    (hbs : s'.backstore = s.backstore) (htime : s'.nextAccessTime = s.nextAccessTime) : Paced s' := by
  have hset := dirtied_set s' ho hobj
  rw [hd] at hset
  have := h.files
  refine ⟨?_, htime ▸ h.clock⟩
  rw [hbs, htime]
  omega

theorem Paced.erase (h : Paced s) (ho : s.objects.get? id = some o)
    (hobj : s'.objects = s.objects.erase id) (hbs : s'.backstore = s.backstore)
    (htime : s'.nextAccessTime = s.nextAccessTime) : Paced s' := by
  have herase := dirtied_erase s' ho hobj
  have := h.files
  refine ⟨?_, htime ▸ h.clock⟩
  rw [hbs, htime]
  omega

/-- A file is left to be written for a dirty object, and its number has not wrapped around. -/
theorem Paced.nextid_lt (h : Paced s) (ho : s.objects.get? id = some o)
    (hd : o.targetIsDirty = true) : s.backstore.nextid < 2 ^ 64 := by
  have hle := Dict.le_total (f := fun _ (o : Object D) => if o.targetIsDirty then 1 else 0) ho
  rw [if_pos hd] at hle
  have hle : 1 ≤ s.dirtied := hle
  have := h.files
  have := h.clock
  omega

/-! ## Rewriting an object -/

section Rewrite

variable (ho : s.objects.get? id = some o) (hobj : s'.objects = s.objects.set id o')
  (hbs : s'.backstore = s.backstore) (hb : o'.bsid = o.bsid)

include ho hobj hbs hb

/-- An object that keeps its file. -/
theorem Files.rewrite (h : Files orphans s) : Files orphans s' := by
  -- the file of every object is the one it had, also for the object that is set
  have hget : ∀ {i x}, s'.objects.get? i = some x →
      ∃ y, s.objects.get? i = some y ∧ x.bsid = y.bsid := by
    intro i x hx
    rw [hobj] at hx
    rcases Dict.get?_set_eq_some.mp hx with ⟨rfl, rfl⟩ | ⟨_, hx⟩
    · exact ⟨o, ho, hb⟩
    · exact ⟨x, hx, rfl⟩
  refine ⟨fun i x hx hbx => ?_, fun i j x y hx hy hbx hxy => ?_, fun b hb' => ?_, fun b hb' => ?_,
    h.nodup, ?_, ?_⟩
  · obtain ⟨x', hx', hxx⟩ := hget hx
    rw [hxx] at hbx ⊢
    rw [hbs]
    exact h.file i x' hx' hbx
  · obtain ⟨x', hx', hxx⟩ := hget hx
    obtain ⟨y', hy', hyy⟩ := hget hy
    rw [hxx] at hbx hxy
    exact h.owner i j x' y' hx' hy' hbx (hxy.trans hyy)
  · rw [hbs] at hb'
    rcases h.owned b hb' with hb' | ⟨i, x, hx, hxb⟩
    · exact Or.inl hb'
    · by_cases hi : i = id
      · rw [hi, ho] at hx
        injection hx with hx
        subst hx
        exact Or.inr ⟨id, o', hobj ▸ Dict.get?_set_eq_some.mpr (Or.inl ⟨rfl, rfl⟩), hb.trans hxb⟩
      · exact Or.inr ⟨i, x, hobj ▸ Dict.get?_set_eq_some.mpr (Or.inr ⟨hi, hx⟩), hxb⟩
  · obtain ⟨hfile, hne⟩ := h.orphan b hb'
    refine ⟨hbs ▸ hfile, fun i x hx => ?_⟩
    obtain ⟨x', hx', hxx⟩ := hget hx
    rw [hxx]
    exact hne i x' hx'
  · rw [hbs]
    exact h.bound
  · rw [hbs]
    exact h.nextid

/-- An object that keeps its file, with the pointers outside the objects changing to match. -/
theorem Exact.rewrite {roots' : List Nat} (h : Exact codec roots orphans s)
    (hcons : Consistent s') (hpaced : Paced s') (hr : 0 < o'.refcount)
    (hcount : ∀ j, 0 < j → roots'.count j + (s'.pointers codec o').count j + s.refcountOf j
      = roots.count j + (s.pointers codec o).count j + s'.refcountOf j)
    (himage : o'.target = none ∨ o'.targetIsDirty = false → ∃ p, Image codec s' o' p) :
    Exact codec roots' orphans s' := by
  refine ⟨hcons, hpaced, fun j hj => ?_, fun i x hx => ?_, fun i x hx hc => ?_,
    h.files.rewrite ho hobj hbs hb⟩
  · have hrefs := refs_set codec s' j ho hobj
      (fun i x _ _ => pointers_congr (content_congr rfl (fun _ => by rw [hbs])))
    have := h.counts j hj
    have := hcount j hj
    omega
  · rw [hobj] at hx
    rcases Dict.get?_set_eq_some.mp hx with ⟨_, rfl⟩ | ⟨_, hx⟩
    · exact hr
    · exact h.live i x hx
  · rw [hobj] at hx
    rcases Dict.get?_set_eq_some.mp hx with ⟨_, rfl⟩ | ⟨_, hx⟩
    · exact himage hc
    · obtain ⟨p, hp⟩ := h.image i x hx hc
      exact ⟨p, hp.bsid, hbs ▸ hp.file, hp.ptrs, hp.resident, hp.leaf⟩

end Rewrite

/-! ## Counting references and pins -/

/-- An object with other counts. -/
def recount (o : Object D) (refcount pincount : Nat) : Object D :=
  { o with refcount := refcount, pincount := pincount }

section Recount

variable {r c : Nat}

/-- Changing the counts of an object, and the pointers outside the objects with them. -/
theorem Exact.recount {roots' : List Nat} (h : Exact codec roots orphans s)
    (ho : s.objects.get? id = some o) (hr : 0 < r)
    (hid : roots'.count id + o.refcount = roots.count id + r)
    (hother : ∀ j, 0 < j → j ≠ id → roots'.count j = roots.count j) :
    Exact codec roots' orphans (s.setObject id (recount o r c)) := by
  have hobj : (s.setObject id (SwapSpace.recount o r c)).objects
      = s.objects.set id (SwapSpace.recount o r c) := rfl
  refine h.rewrite ho hobj rfl rfl (h.consistent.setObject ho rfl rfl (h.consistent.clean id o ho))
    (h.paced.set ho hobj rfl rfl rfl) hr (fun j hj => ?_) (fun hc => ?_)
  · have hp : (s.setObject id (SwapSpace.recount o r c)).pointers codec (SwapSpace.recount o r c)
        = s.pointers codec o := rfl
    rw [hp, refcountOf_set _ j setObject_objects]
    by_cases hji : j = id
    · subst hji
      rw [if_pos rfl, refcountOf_eq ho]
      show _ = _ + _ + r
      omega
    · rw [if_neg hji, hother j hj hji]
  · obtain ⟨p, hp⟩ := h.image id o ho hc
    exact ⟨p, hp.bsid, hp.file, hp.ptrs, hp.resident, hp.leaf⟩

theorem Keeps.recount (ho : s.objects.get? id = some o) :
    Keeps codec s (s.setObject id (recount o r o.pincount)) := by
  refine ⟨fun i x hx => ?_, rfl⟩
  rcases Dict.get?_set_eq_some.mp hx with ⟨rfl, rfl⟩ | ⟨_, hx⟩
  · exact ⟨o, ho, rfl, rfl, fun _ => ⟨rfl, rfl⟩⟩
  · exact ⟨x, hx, rfl, rfl, fun _ => ⟨rfl, rfl⟩⟩

end Recount

/-- **Copying a pointer.** -/
theorem ensures_addRef (h : Exact codec roots orphans s)
    (hid : 0 < id → ∃ o, s.objects.get? id = some o) :
    Ensures (s.addRef id) (fun s' => Exact codec (id :: roots) orphans s' ∧ Keeps codec s s') := by
  unfold addRef
  split
  · rename_i hz
    refine ensures_pure ⟨h.roots_congr (fun j hj => ?_), Keeps.refl⟩
    rw [List.count_cons_of_ne (by omega)]
  · rename_i hz
    obtain ⟨o, ho⟩ := hid (Nat.pos_of_ne_zero hz)
    refine (ensures_need (Q := fun x => x = o) ho rfl).bind (fun x hx => ensures_pure ?_)
    subst hx
    refine ⟨h.recount ho (Nat.succ_pos _) ?_ (fun j _ hne => ?_), Keeps.recount ho⟩
    · rw [List.count_cons_self]
      omega
    · rw [List.count_cons_of_ne (Ne.symm hne)]

/-! ## Loading -/

theorem revive_eq (ho : s.objects.get? id = some o) (hr : 0 < o.refcount) :
    s.revive id = .ok s := by
  have hok : Ensures (s.revive id) (fun _ => True) := by
    refine (ensures_need (Q := fun x => x = o) ho rfl).bind (fun x hx => ?_)
    subst hx
    refine (ensures_need (Q := fun y => y.refcount = x.refcount + 1)
      (Dict.get?_set_eq_some.mpr (Or.inl ⟨rfl, rfl⟩)) rfl).bind (fun y hy => ?_)
    refine (ensures_check (S := fun _ => True) ?_ trivial).bind (fun _ _ => ensures_pure trivial)
    rw [decide_eq_true_eq, hy]
    omega
  obtain ⟨s', hs', _⟩ := hok
  rw [hs', yields_revive s' hs']

/-- Loading succeeds when the file is there and the targets of its pointers are. -/
theorem load_eq (codec : Codec D B) {buffer : B} (ho : s.objects.get? id = some o) (ht : o.target = none)
    (hfile : s.backstore.files.get? o.bsid = some buffer)
    (hptrs : ∀ j ∈ (codec.deserialize buffer).ptrs,
      ∃ o', s.objects.get? j = some o' ∧ 0 < o'.refcount) :
    s.load codec id = .ok (s.loaded codec id o buffer) := by
  have hfold : ∀ l : List Nat, (∀ j ∈ l, ∃ o', s.objects.get? j = some o' ∧ 0 < o'.refcount) →
      l.foldlM revive s = .ok s := by
    intro l hl
    induction l with
    | nil => rfl
    | cons j l ih =>
        obtain ⟨o', ho', hr'⟩ := hl j List.mem_cons_self
        rw [List.foldlM_cons, revive_eq ho' hr']
        exact ih (fun i hi => hl i (List.mem_cons_of_mem _ hi))
  unfold load
  rw [object_eq ho]
  show (match o.target with | some _ => _ | none => _) = _
  rw [ht]
  show (need SwapFault.missingFile (s.backstore.files.get? o.bsid) >>= _) = _
  rw [hfile]
  show ((codec.deserialize buffer).ptrs.foldlM revive s >>= _) = _
  rw [hfold _ hptrs]
  show (s.object id >>= _) = _
  rw [object_eq ho]
  rfl

/-! ## Freeing an object -/

/-- The file of an object, if it has one. -/
def fileOf (o : Object D) : List Nat := if 0 < o.bsid then [o.bsid] else []

theorem Files.erase (h : Files orphans s) (ho : s.objects.get? id = some o)
    (hobj : s'.objects = s.objects.erase id) (hbs : s'.backstore = s.backstore) :
    Files (fileOf o ++ orphans) s' := by
  have hget : ∀ {i x}, s'.objects.get? i = some x → i ≠ id ∧ s.objects.get? i = some x := by
    intro i x hx
    rw [hobj] at hx
    exact Dict.get?_erase_eq_some.mp hx
  have hmine : ∀ {b}, b ∈ fileOf o → b = o.bsid ∧ 0 < o.bsid := by
    intro b hb
    unfold fileOf at hb
    split at hb
    · rename_i hpos
      exact ⟨List.mem_singleton.mp hb, hpos⟩
    · exact absurd hb (by simp)
  refine ⟨fun i x hx hb => ?_, fun i j x y hx hy => ?_, fun b hb => ?_, fun b hb => ?_, ?_, ?_, ?_⟩
  · rw [hbs]
    exact h.file i x (hget hx).2 hb
  · exact h.owner i j x y (hget hx).2 (hget hy).2
  · rw [hbs] at hb
    rcases h.owned b hb with hb' | ⟨i, x, hx, hxb⟩
    · exact Or.inl (List.mem_append_right _ hb')
    · by_cases hi : i = id
      · rw [hi, ho] at hx
        injection hx with hx
        subst hx
        refine Or.inl (List.mem_append_left _ ?_)
        rw [fileOf, if_pos (hxb ▸ (h.bound b hb).1), hxb]
        exact List.mem_cons_self
      · exact Or.inr ⟨i, x, by rw [hobj]; exact Dict.get?_erase_eq_some.mpr ⟨hi, hx⟩, hxb⟩
  · rw [hbs]
    rcases List.mem_append.mp hb with hb | hb
    · obtain ⟨rfl, hpos⟩ := hmine hb
      refine ⟨h.file id o ho hpos, fun i x hx hxb => ?_⟩
      obtain ⟨hne, hx⟩ := hget hx
      exact hne (h.owner i id x o hx ho (hxb ▸ hpos) hxb)
    · obtain ⟨hfile, hne⟩ := h.orphan b hb
      exact ⟨hfile, fun i x hx => hne i x (hget hx).2⟩
  · refine List.nodup_append.mpr ⟨?_, h.nodup, fun a ha b hb hab => ?_⟩
    · unfold fileOf
      split <;> simp
    · obtain ⟨rfl, _⟩ := hmine ha
      exact (h.orphan b hb).2 id o ho hab
  · rw [hbs]
    exact h.bound
  · rw [hbs]
    exact h.nextid

/-- An object without references, taken out: its pointers are roots, its file is an orphan. -/
theorem Exact.erased (h : Exact codec (id :: roots) orphans s) (ho : s.objects.get? id = some o)
    (hr : o.refcount = 1) (hobj : s'.objects = s.objects.erase id)
    (hbs : s'.backstore = s.backstore) (htime : s'.nextAccessTime = s.nextAccessTime)
    (hcons : Consistent s') :
    Exact codec (s.pointers codec o ++ roots) (fileOf o ++ orphans) s' := by
  have hget : ∀ {i x}, s'.objects.get? i = some x → i ≠ id ∧ s.objects.get? i = some x := by
    intro i x hx
    rw [hobj] at hx
    exact Dict.get?_erase_eq_some.mp hx
  have hid := (h.consistent.ids id o ho).1
  have hcontent : ∀ x : Object D, s'.content codec x = s.content codec x :=
    fun x => content_congr rfl (fun _ => by rw [hbs])
  refine ⟨hcons, h.paced.erase ho hobj hbs htime, fun j hj => ?_,
    fun i x hx => h.live i x (hget hx).2, fun i x hx hc => ?_, h.files.erase ho hobj hbs⟩
  · have hrefs := refs_erase codec _ j ho hobj
      (fun _ x _ _ => pointers_congr (hcontent x))
    have hcount := h.counts j hj
    rw [List.count_append, refcountOf_erase hobj]
    by_cases hji : j = id
    · subst hji
      rw [refcountOf_eq ho, hr, List.count_cons_self] at hcount
      rw [if_pos rfl]
      omega
    · rw [List.count_cons_of_ne (Ne.symm hji)] at hcount
      rw [if_neg hji]
      omega
  · obtain ⟨p, hp⟩ := h.image i x (hget hx).2 hc
    refine ⟨p, hp.bsid, ?_, hp.ptrs, hp.resident, hp.leaf⟩
    rw [hbs]
    exact hp.file

theorem Keeps.erased (hobj : s'.objects = s.objects.erase id) (hbs : s'.backstore = s.backstore)
    (hid : s'.nextId = s.nextId) : Keeps codec s s' := by
  refine ⟨fun i x hx => ?_, hid⟩
  rw [hobj] at hx
  exact ⟨x, (Dict.get?_erase_eq_some.mp hx).2, content_congr rfl (fun _ => by rw [hbs]), rfl,
    fun _ => ⟨rfl, rfl⟩⟩

/-- The state in which the pointers of a freed object are destroyed. -/
structure Freeing (codec : Codec D B) (roots orphans : List Nat) (s : SwapSpace D B) (id : Nat)
    (o : Object D) (s₁ : SwapSpace D B) (o₁ : Object D) : Prop where
  object : s₁.objects.get? id = some o₁
  bsid : o₁.bsid = o.bsid
  target : ∀ dp, (s₁.erased id o₁).deleteTarget dp o₁.target
    = (s.pointers codec o).foldlM dp (s₁.erased id o₁)
  exact : Exact codec (s.pointers codec o ++ roots) (fileOf o ++ orphans) (s₁.erased id o₁)
  keeps : Keeps codec s (s₁.erased id o₁)
  size : (s₁.erased id o₁).objects.size + 1 = s.objects.size

/-- An object about to be freed differs from the one that was referenced in its own fields only. -/
theorem Exact.freeing {s₁ : SwapSpace D B} {o₁ : Object D}
    (h : Exact codec (id :: roots) orphans s) (ho : s.objects.get? id = some o)
    (hr : o.refcount = 1) (hobj : s₁.objects = s.objects.set id o₁)
    (hlru : s₁.lruPqueue = s.lruPqueue) (hbs : s₁.backstore = s.backstore)
    (htime : s₁.nextAccessTime = s.nextAccessTime) (hid : s₁.nextId = s.nextId)
    (hb : o₁.bsid = o.bsid) (hl : o₁.lastAccess = o.lastAccess)
    (ht : ∀ dp, (s₁.erased id o₁).deleteTarget dp o₁.target
      = (s.pointers codec o).foldlM dp (s₁.erased id o₁)) :
    Freeing codec roots orphans s id o s₁ o₁ := by
  have herase : (s₁.erased id o₁).objects = s.objects.erase id := by
    show s₁.objects.erase id = _
    rw [hobj, Dict.erase_set]
  have hcons : Consistent (s₁.erased id o₁) :=
    h.consistent.erase ho herase (by rw [← hl, ← hlru]; rfl) htime hid
  refine ⟨?_, hb, ht, h.erased ho hr herase hbs htime hcons, Keeps.erased herase hbs hid, ?_⟩
  · rw [hobj]
    exact Dict.get?_set_eq_some.mpr (Or.inl ⟨rfl, rfl⟩)
  · rw [herase]
    exact Dict.size_erase ho

/-- Whether it is loaded or not, the object is taken out with all its pointers. -/
theorem ensures_loadToFree {c : Nat} (h : Exact codec (id :: roots) orphans s)
    (ho : s.objects.get? id = some o) (hr : o.refcount = 1) :
    Ensures ((s.setObject id (recount o 0 c)).loadToFree codec id (recount o 0 c))
      (fun s₁ => ∃ o₁, Freeing codec roots orphans s id o s₁ o₁) := by
  unfold loadToFree
  cases ht : o.target with
  | some p =>
      have ht' : (recount o 0 c).target = some p := ht
      rw [ht']
      refine ensures_pure ⟨recount o 0 c, h.freeing ho hr rfl rfl rfl rfl rfl rfl rfl (fun dp => ?_)⟩
      rw [ht', pointers_eq (content_target ht)]
      rfl
  | none =>
      have ht' : (recount o 0 c).target = none := ht
      obtain ⟨p, hp⟩ := h.image id o ho (Or.inl ht)
      have hptrs : s.pointers codec o = p.ptrs := pointers_eq hp.content
      rw [ht']
      refine (ensures_check (S := fun _ => True) (decide_eq_true hp.bsid) trivial).bind
        (fun _ _ => ?_)
      split
      · -- a leaf has no pointers to destroy
        rename_i hleaf
        have hnil : p.ptrs = [] := List.isEmpty_iff.mp ((hp.leaf ht).symm.trans hleaf)
        refine ensures_pure
          ⟨recount o 0 c, h.freeing ho hr rfl rfl rfl rfl rfl rfl rfl (fun dp => ?_)⟩
        rw [ht', hptrs, hnil]
        rfl
      · -- no pointer in the object leads back to it, so the counts it finds are those of `s`
        have hnoself : id ∉ p.ptrs := by
          intro hmem
          have hcount := h.counts id (h.consistent.ids id o ho).1
          have hle := count_le_refs codec id ho
          have hpos := List.count_pos_iff.mpr hmem
          rw [refcountOf_eq ho, hr, List.count_cons_self] at hcount
          rw [hptrs] at hle
          omega
        have hself : (s.setObject id (recount o 0 c)).objects.get? id = some (recount o 0 c) :=
          Dict.get?_set_eq_some.mpr (Or.inl ⟨rfl, rfl⟩)
        have hload := load_eq codec hself ht' hp.file (fun j hj => by
          rw [codec.deserialize_serialize] at hj
          obtain ⟨o', ho', hr'⟩ := h.exists_of_pointer ho (hp.ptrs j hj) (hptrs ▸ hj)
          exact ⟨o', Dict.get?_set_eq_some.mpr (Or.inr ⟨fun hji => hnoself (hji ▸ hj), ho'⟩), hr'⟩)
        refine ⟨_, hload, { recount o 0 c with target := some p }, ?_⟩
        refine h.freeing ho hr ?_ rfl rfl rfl rfl rfl rfl (fun dp => ?_)
        · show (s.objects.set id _).set id _ = _
          rw [Dict.set_set, codec.deserialize_serialize]
        · rw [hptrs]
          rfl

/-- The file of a freed object is unlinked. -/
theorem Exact.discard {b : Nat} (h : Exact codec roots ((if 0 < b then [b] else []) ++ orphans) s) :
    Ensures (s.backstore.discard b) (fun bs => Exact codec roots orphans { s with backstore := bs }
      ∧ Keeps codec s { s with backstore := bs }) := by
  unfold BackingStore.discard
  split
  swap
  · rename_i hb
    rw [if_neg hb] at h
    exact ensures_pure ⟨h, Keeps.refl⟩
  rename_i hb
  rw [if_pos hb] at h
  obtain ⟨hfile, hne⟩ := h.files.orphan b List.mem_cons_self
  have hnodup : b ∉ orphans := (List.nodup_cons.mp h.files.nodup).1
  refine (ensures_check (S := fun _ => True) hfile trivial).bind (fun _ _ => ensures_pure ?_)
  -- no object owns the file, so nothing that is read changes
  have hget : ∀ i x, s.objects.get? i = some x →
      (s.backstore.files.erase b).get? x.bsid = s.backstore.files.get? x.bsid := by
    intro i x hx
    rw [Dict.get?_erase, if_neg (hne i x hx)]
  have hcontent : ∀ i x, s.objects.get? i = some x →
      ({ s with backstore := { s.backstore with files := s.backstore.files.erase b } } :
        SwapSpace D B).content codec x = s.content codec x :=
    fun i x hx => content_congr rfl (fun _ => hget i x hx)
  refine ⟨⟨?_, ⟨h.paced.files, h.paced.clock⟩, fun j hj => ?_, h.live, fun i x hx hc => ?_, ?_⟩,
    fun i x hx => ?_, rfl⟩
  · exact ⟨h.consistent.lru, h.consistent.stamp, h.consistent.distinct, h.consistent.ids,
      h.consistent.clean⟩
  · refine (h.counts j hj).trans ?_
    congr 1
    exact (Dict.total_congr (fun i x hx => by rw [pointers_congr (hcontent i x hx)])).symm
  · obtain ⟨p, hp⟩ := h.image i x hx hc
    exact ⟨p, hp.bsid, (hget i x hx).trans hp.file, hp.ptrs, hp.resident, hp.leaf⟩
  · refine ⟨fun i x hx hpos => ?_, h.files.owner, fun b' hb' => ?_, fun b' hb' => ?_,
      (List.nodup_cons.mp h.files.nodup).2, fun b' hb' => ?_, h.files.nextid⟩
    · show ((s.backstore.files.erase b).get? x.bsid).isSome
      rw [hget i x hx]
      exact h.files.file i x hx hpos
    · obtain ⟨v, hv⟩ := Option.isSome_iff_exists.mp hb'
      obtain ⟨hbb, hv⟩ := Dict.get?_erase_eq_some.mp hv
      rcases h.files.owned b' (Option.isSome_iff_exists.mpr ⟨v, hv⟩) with hmem | hown
      · exact Or.inl ((List.mem_cons.mp hmem).resolve_left hbb)
      · exact Or.inr hown
    · obtain ⟨hfile', hne'⟩ := h.files.orphan b' (List.mem_cons_of_mem _ hb')
      refine ⟨?_, hne'⟩
      show ((s.backstore.files.erase b).get? b').isSome
      rw [Dict.get?_erase, if_neg (fun hbb : b' = b => hnodup (hbb ▸ hb'))]
      exact hfile'
    · obtain ⟨v, hv⟩ := Option.isSome_iff_exists.mp hb'
      exact h.files.bound b' (Option.isSome_iff_exists.mpr ⟨v, (Dict.get?_erase_eq_some.mp hv).2⟩)
  · exact ⟨x, hx, hcontent i x hx, rfl, fun _ => ⟨rfl, rfl⟩⟩

/-- Counting makes no difference to the invariant. -/
theorem Exact.countDown (h : Exact codec roots orphans s) :
    Exact codec roots orphans s.countDown := by
  refine ⟨⟨h.consistent.lru, h.consistent.stamp, h.consistent.distinct, h.consistent.ids,
    h.consistent.clean⟩, ⟨h.paced.files, h.paced.clock⟩, h.counts, h.live, fun i x hx hc => ?_,
    ⟨h.files.file, h.files.owner, h.files.owned, h.files.orphan, h.files.nodup, h.files.bound,
      h.files.nextid⟩⟩
  obtain ⟨p, hp⟩ := h.image i x hx hc
  exact ⟨p, hp.bsid, hp.file, hp.ptrs, hp.resident, hp.leaf⟩

theorem Keeps.countDown : Keeps codec s s.countDown :=
  ⟨fun _ o ho => ⟨o, ho, rfl, rfl, fun _ => ⟨rfl, rfl⟩⟩, rfl⟩

/-- What the destruction of one pointer gives. -/
def Released (codec : Codec D B) (roots orphans : List Nat) (s s' : SwapSpace D B) : Prop :=
  Exact codec roots orphans s' ∧ Keeps codec s s' ∧ s'.objects.size ≤ s.objects.size

theorem ensures_free {c : Nat} (bound : Nat)
    {dp : SwapSpace D B → Nat → Except SwapFault (SwapSpace D B)}
    (hdp : ∀ (roots orphans : List Nat) (s : SwapSpace D B) (i : Nat),
      Exact codec (i :: roots) orphans s → s.objects.size < bound →
      Ensures (dp s i) (Released codec roots orphans s))
    (h : Exact codec (id :: roots) orphans s) (ho : s.objects.get? id = some o)
    (hr : o.refcount = 1) (hsize : s.objects.size ≤ bound) :
    Ensures ((s.setObject id (recount o 0 c)).free codec dp id (recount o 0 c))
      (Released codec roots orphans s) := by
  refine (ensures_loadToFree h ho hr).bind (fun s₁ ⟨o₁, hs₁⟩ => ?_)
  refine (ensures_need (Q := fun x => x = o₁) hs₁.object rfl).bind (fun x hx => ?_)
  subst hx
  rw [hs₁.target]
  -- destroying the pointers one by one: those that are left are roots
  have hfold : Ensures ((s.pointers codec o).foldlM dp (s₁.erased id x))
      (fun s₂ => Exact codec roots (fileOf o ++ orphans) s₂ ∧ Keeps codec s s₂
        ∧ s₂.objects.size + 1 ≤ s.objects.size) :=
    ensures_foldlM (I := fun l s₂ => Exact codec (l ++ roots) (fileOf o ++ orphans) s₂
        ∧ Keeps codec s s₂ ∧ s₂.objects.size + 1 ≤ s.objects.size)
      (fun i l s₂ ⟨hex, hk, hle⟩ => (hdp _ _ s₂ i hex (by omega)).imp
        (fun s₃ ⟨hex', hk', hle'⟩ => ⟨hex', hk.trans hk', by omega⟩))
      _ ⟨hs₁.exact, hs₁.keeps, Nat.le_of_eq hs₁.size⟩
  refine hfold.bind (fun s₂ ⟨hex, hk, hle⟩ => ?_)
  have hdown : Exact codec roots ((if 0 < x.bsid then [x.bsid] else []) ++ orphans) s₂.countDown := by
    rw [hs₁.bsid]
    exact hex.countDown
  refine hdown.discard.bind (fun bs ⟨hex', hk'⟩ => ensures_pure ⟨hex', ?_, ?_⟩)
  · exact (hk.trans Keeps.countDown).trans hk'
  · show s₂.objects.size ≤ _
    omega

/-- **Destroying a pointer** succeeds, and takes one root away. -/
theorem ensures_depoint (fuel : Nat) (h : Exact codec (id :: roots) orphans s)
    (hfuel : s.objects.size < fuel) :
    Ensures (depoint codec fuel s id) (Released codec roots orphans s) := by
  induction fuel generalizing s id roots orphans with
  | zero => exact absurd hfuel (Nat.not_lt_zero _)
  | succ fuel ih =>
      unfold depoint
      split
      · rename_i hz
        refine ensures_pure ⟨h.roots_congr (fun j hj => ?_), Keeps.refl, Nat.le_refl _⟩
        rw [List.count_cons_of_ne (by omega)]
      · rename_i hz
        have hid := Nat.pos_of_ne_zero hz
        obtain ⟨o, ho, hr⟩ := h.exists_of_root hid List.mem_cons_self
        refine (ensures_need (Q := fun x => x = o) ho rfl).bind (fun x hx => ?_)
        subst hx
        refine (ensures_check (S := fun _ => True) (decide_eq_true hr) trivial).bind (fun _ _ => ?_)
        dsimp only
        split
        · rename_i hone
          -- the last pointer: the object is freed, and its own pointers with one unit of fuel less
          have hr1 : x.refcount = 1 := by omega
          have hfree := ensures_free (c := x.pincount) fuel
            (fun roots orphans s i hex hlt => ih hex hlt) h ho hr1 (by omega)
          rw [show ({ x with refcount := x.refcount - 1 } : Object D) = recount x 0 x.pincount from by
            rw [hone]; rfl]
          exact hfree
        · rename_i hmany
          refine ensures_pure ⟨h.recount ho (by omega) ?_ (fun j _ hne => ?_), Keeps.recount ho, ?_⟩
          · rw [List.count_cons_self]
            omega
          · rw [List.count_cons_of_ne (Ne.symm hne)]
          · have := Dict.size_erase (m := s.objects.set id
              (recount x (x.refcount - 1) x.pincount)) (Dict.get?_set_eq_some.mpr (Or.inl ⟨rfl, rfl⟩))
            rw [Dict.erase_set] at this
            have := Dict.size_erase ho
            show Dict.size (s.objects.set id (recount x (x.refcount - 1) x.pincount)) ≤ _
            omega

theorem ensures_release (h : Exact codec (id :: roots) orphans s) :
    Ensures (s.release codec id) (fun s' => Exact codec roots orphans s' ∧ Keeps codec s s') :=
  (ensures_depoint _ h (Nat.lt_succ_self _)).imp (fun _ hs' => ⟨hs'.1, hs'.2.1⟩)

/-! ## Eviction -/

/-- Where an evicted object's content is, in a backing store that is otherwise the same. -/
structure Written (codec : Codec D B) (s : SwapSpace D B) (o : Object D) (p : Payload D)
    (r : Nat × BackingStore B) : Prop where
  pos : 0 < r.1
  file : r.2.files.get? r.1 = some (codec.serialize p)
  other : ∀ b, b ≠ r.1 → (0 < o.bsid → b ≠ o.bsid) →
    r.2.files.get? b = s.backstore.files.get? b
  old : r.1 ≠ o.bsid → 0 < o.bsid → r.2.files.get? o.bsid = none
  new : r.1 = o.bsid ∨ s.backstore.files.get? r.1 = none
  nextid : s.backstore.nextid ≤ r.2.nextid
  pace : r.2.nextid ≤ s.backstore.nextid + if o.targetIsDirty then 1 else 0
  bound : r.1 < r.2.nextid

theorem ensures_image (h : Exact codec roots orphans s) (ho : s.objects.get? id = some o)
    (ht : o.target = some p) : Ensures (s.image codec o p) (Written codec s o p) := by
  unfold image
  split
  swap
  · rename_i hd
    obtain ⟨q, hq⟩ := h.image id o ho (Or.inr (by simpa using hd))
    have hpq := hq.resident p ht
    subst hpq
    refine ensures_pure ⟨hq.bsid, hq.file, fun _ _ _ => rfl, fun hne => absurd rfl hne, Or.inl rfl,
      Nat.le_refl _, Nat.le_add_right _ _, ?_⟩
    exact (h.files.bound _ (Option.isSome_iff_exists.mpr ⟨_, hq.file⟩)).2
  rename_i hd
  have halloc : s.backstore.allocate (codec.serialize p) = (s.backstore.nextid,
      ⟨s.backstore.nextid + 1, s.backstore.files.set s.backstore.nextid (codec.serialize p)⟩) := by
    unfold BackingStore.allocate
    rw [uint64_of_lt (h.paced.nextid_lt ho hd)]
  have hpace : s.backstore.nextid + 1 ≤ s.backstore.nextid + if o.targetIsDirty then 1 else 0 := by
    rw [if_pos hd]
  have hfresh : ∀ b, (s.backstore.files.get? b).isSome → b ≠ s.backstore.nextid :=
    fun b hb => Nat.ne_of_lt (h.files.bound b hb).2
  have hnone : s.backstore.files.get? s.backstore.nextid = none := by
    cases hn : s.backstore.files.get? s.backstore.nextid with
    | none => rfl
    | some v => exact absurd rfl (hfresh _ (by rw [hn]; rfl))
  have hself : (s.backstore.files.set s.backstore.nextid (codec.serialize p)).get?
      s.backstore.nextid = some (codec.serialize p) := Dict.get?_set_eq_some.mpr (Or.inl ⟨rfl, rfl⟩)
  rw [halloc]
  dsimp only
  unfold BackingStore.discard
  split
  · -- the old file is unlinked
    rename_i hb
    have hne := hfresh _ (h.files.file id o ho hb)
    have hold : ((s.backstore.files.set s.backstore.nextid (codec.serialize p)).get?
        o.bsid).isSome := by
      rw [Dict.get?_set, if_neg hne]
      exact h.files.file id o ho hb
    have hdealloc : Ensures (BackingStore.deallocate ⟨s.backstore.nextid + 1,
          s.backstore.files.set s.backstore.nextid (codec.serialize p)⟩ o.bsid)
        (fun bs => bs = ⟨s.backstore.nextid + 1,
          (s.backstore.files.set s.backstore.nextid (codec.serialize p)).erase o.bsid⟩) :=
      (ensures_check (S := fun _ => True) hold trivial).bind (fun _ _ => ensures_pure rfl)
    refine hdealloc.bind (fun bs hbs => ensures_pure ?_)
    subst hbs
    refine ⟨h.files.nextid, ?_, fun b hbn hbo => ?_, fun _ _ => ?_, Or.inr hnone, Nat.le_succ _,
      hpace, Nat.lt_succ_self _⟩
    · exact Dict.get?_erase_eq_some.mpr ⟨Ne.symm hne, hself⟩
    · show ((s.backstore.files.set _ _).erase o.bsid).get? b = _
      rw [Dict.get?_erase, if_neg (hbo hb), Dict.get?_set, if_neg hbn]
    · exact Dict.get?_erase.trans (if_pos rfl)
  · rename_i hb
    refine ensures_pure ⟨h.files.nextid, hself, fun b hbn _ => ?_, fun _ hpos => absurd hpos hb,
      Or.inr hnone, Nat.le_succ _, hpace, Nat.lt_succ_self _⟩
    exact Dict.get?_set.trans (if_neg hbn)

section Evicted

variable {r : Nat × BackingStore B}

/-- The file of another object is neither the new one nor the old one. -/
theorem Written.other_bsid (hw : Written codec s o p r) (h : Exact codec roots orphans s)
    (ho : s.objects.get? id = some o) {i : Nat} {x : Object D} (hi : i ≠ id)
    (hx : s.objects.get? i = some x) (hb : 0 < x.bsid) : x.bsid ≠ r.1 ∧ x.bsid ≠ o.bsid := by
  have hne : x.bsid ≠ o.bsid := fun heq => hi (h.files.owner i id x o hx ho hb heq)
  refine ⟨fun heq => ?_, hne⟩
  rcases hw.new with hnew | hnew
  · exact hne (heq.trans hnew)
  · have := h.files.file i x hx hb
    rw [heq, hnew] at this
    cases this

theorem Written.content_other (hw : Written codec s o p r) (h : Exact codec roots orphans s)
    (ho : s.objects.get? id = some o) {i : Nat} {x : Object D} (hi : i ≠ id)
    (hx : s.objects.get? i = some x) :
    (s.evicted codec id o p r).content codec x = s.content codec x := by
  refine content_congr rfl (fun hnone => ?_)
  obtain ⟨q, hq⟩ := h.image i x hx (Or.inl hnone)
  obtain ⟨hne, hne'⟩ := hw.other_bsid h ho hi hx hq.bsid
  exact hw.other _ hne (fun _ => hne')

theorem Written.content_self (hw : Written codec s o p r) :
    (s.evicted codec id o p r).content codec (parked o p r.1) = some p := by
  show (r.2.files.get? r.1).map codec.deserialize = some p
  rw [hw.file, Option.map_some, codec.deserialize_serialize]

theorem Files.evicted (h : Exact codec roots orphans s) (hw : Written codec s o p r)
    (ho : s.objects.get? id = some o) : Files orphans (s.evicted codec id o p r) := by
  have hself : (s.evicted codec id o p r).objects.get? id = some (parked o p r.1) :=
    Dict.get?_set_eq_some.mpr (Or.inl ⟨rfl, rfl⟩)
  have hget : ∀ {i x}, (s.evicted codec id o p r).objects.get? i = some x →
      (i = id ∧ x.bsid = r.1) ∨ (i ≠ id ∧ s.objects.get? i = some x) := by
    intro i x hx
    rcases Dict.get?_set_eq_some.mp hx with ⟨hi, rfl⟩ | hx
    · exact Or.inl ⟨hi, rfl⟩
    · exact Or.inr hx
  -- the files that are left: the new one, and those of `s` but the old one
  have hfiles : ∀ b, (r.2.files.get? b).isSome →
      b = r.1 ∨ (b ≠ o.bsid ∧ (s.backstore.files.get? b).isSome) := by
    intro b hb
    by_cases hbr : b = r.1
    · exact Or.inl hbr
    · refine Or.inr ?_
      by_cases hpos : 0 < o.bsid ∧ b = o.bsid
      · rw [hpos.2, hw.old (fun heq => hbr (hpos.2.trans heq.symm)) hpos.1] at hb
        cases hb
      · rw [hw.other b hbr (fun hp heq => hpos ⟨hp, heq⟩)] at hb
        have := (h.files.bound b hb).1
        exact ⟨fun heq => hpos ⟨by omega, heq⟩, hb⟩
  refine ⟨fun i x hx hb => ?_, fun i j x y hx hy hb hxy => ?_, fun b hb => ?_, fun b hb => ?_,
    h.files.nodup, fun b hb => ?_, Nat.lt_of_lt_of_le h.files.nextid hw.nextid⟩
  · show (r.2.files.get? x.bsid).isSome
    rcases hget hx with ⟨_, hxb⟩ | ⟨hi, hx⟩
    · rw [hxb, hw.file]
      rfl
    · obtain ⟨hne, hne'⟩ := hw.other_bsid h ho hi hx hb
      rw [hw.other _ hne (fun _ => hne')]
      exact h.files.file i x hx hb
  · rcases hget hx with ⟨hi, hxb⟩ | ⟨hi, hx⟩ <;> rcases hget hy with ⟨hj, hyb⟩ | ⟨hj, hy⟩
    · exact hi.trans hj.symm
    · exact absurd (hxy.symm.trans hxb) (hw.other_bsid h ho hj hy (hxy ▸ hb)).1
    · exact absurd (hxy.trans hyb) (hw.other_bsid h ho hi hx hb).1
    · exact h.files.owner i j x y hx hy hb hxy
  · rcases hfiles b hb with rfl | ⟨hne, hb⟩
    · exact Or.inr ⟨id, _, hself, rfl⟩
    · rcases h.files.owned b hb with hb | ⟨i, x, hx, hxb⟩
      · exact Or.inl hb
      · have hi : i ≠ id := by
          intro hi
          rw [hi, ho] at hx
          injection hx with hx
          exact hne (hx ▸ hxb.symm)
        exact Or.inr ⟨i, x, Dict.get?_set_eq_some.mpr (Or.inr ⟨hi, hx⟩), hxb⟩
  · obtain ⟨hfile, hne⟩ := h.files.orphan b hb
    have hbr : b ≠ r.1 := by
      intro hbr
      rcases hw.new with hnew | hnew
      · exact hne id o ho (hbr.trans hnew).symm
      · rw [hbr, hnew] at hfile
        cases hfile
    refine ⟨?_, fun i x hx => ?_⟩
    · show (r.2.files.get? b).isSome
      rw [hw.other b hbr (fun _ heq => hne id o ho heq.symm)]
      exact hfile
    · rcases hget hx with ⟨_, hxb⟩ | ⟨_, hx⟩
      · exact fun heq => hbr (heq.symm.trans hxb)
      · exact hne i x hx
  · show 0 < b ∧ b < r.2.nextid
    rcases hfiles b hb with rfl | ⟨_, hb⟩
    · exact ⟨hw.pos, hw.bound⟩
    · have := h.files.bound b hb
      have := hw.nextid
      omega

/-- A dirty object that is written is not dirty any more. -/
theorem Paced.evicted (h : Paced s) (hw : Written codec s o p r) (ho : s.objects.get? id = some o) :
    Paced (s.evicted codec id o p r) := by
  have hset := dirtied_set (s.evicted codec id o p r) ho rfl
  have hzero : (if (parked o p r.1).targetIsDirty then 1 else 0) = 0 := rfl
  have := h.files
  have := hw.pace
  refine ⟨?_, h.clock⟩
  show r.2.nextid + _ ≤ s.nextAccessTime + 1
  omega

/-- Moving an object to disk keeps the invariant. -/
theorem Exact.evicted (h : Exact codec roots orphans s) (hw : Written codec s o p r)
    (ho : s.objects.get? id = some o) (ht : o.target = some p) (hptrs : ∀ j ∈ p.ptrs, 0 < j) :
    Exact codec roots orphans (s.evicted codec id o p r) := by
  have hrefs : ∀ j, (s.evicted codec id o p r).refs codec j = s.refs codec j := by
    intro j
    have hset := refs_set codec (s.evicted codec id o p r) j ho rfl
      (fun i x hi hx => pointers_congr (hw.content_other h ho hi hx))
    rw [pointers_eq (content_target ht), pointers_eq (hw.content_self)] at hset
    omega
  have hcount : ∀ j, (s.evicted codec id o p r).refcountOf j = s.refcountOf j := by
    intro j
    rw [refcountOf_set (s.evicted codec id o p r) j rfl]
    split
    · rename_i hj
      rw [hj, refcountOf_eq ho]
      rfl
    · rfl
  refine ⟨h.consistent.park ho rfl rfl rfl rfl rfl rfl rfl, Paced.evicted h.paced hw ho,
    fun j hj => ?_, fun i x hx => ?_, fun i x hx hc => ?_, Files.evicted h hw ho⟩
  · rw [hcount, hrefs]
    exact h.counts j hj
  · rcases Dict.get?_set_eq_some.mp hx with ⟨_, rfl⟩ | ⟨_, hx⟩
    · exact h.live id o ho
    · exact h.live i x hx
  · rcases Dict.get?_set_eq_some.mp hx with ⟨_, rfl⟩ | ⟨hi, hx⟩
    · exact ⟨p, hw.pos, hw.file, hptrs, fun q hq => absurd hq (by simp [parked]), fun _ => rfl⟩
    · obtain ⟨q, hq⟩ := h.image i x hx hc
      obtain ⟨hne, hne'⟩ := hw.other_bsid h ho hi hx hq.bsid
      exact ⟨q, hq.bsid, (hw.other _ hne (fun _ => hne')).trans hq.file, hq.ptrs, hq.resident,
        hq.leaf⟩

theorem Keeps.evicted (h : Exact codec roots orphans s) (hw : Written codec s o p r)
    (ho : s.objects.get? id = some o) (ht : o.target = some p) (hpin : o.pincount = 0) :
    Keeps codec s (s.evicted codec id o p r) := by
  refine ⟨fun i x hx => ?_, rfl⟩
  rcases Dict.get?_set_eq_some.mp hx with ⟨rfl, rfl⟩ | ⟨hi, hx⟩
  · exact ⟨o, ho, hw.content_self.trans (content_target ht).symm, rfl, fun hc => by omega⟩
  · exact ⟨x, hx, hw.content_other h ho hi hx, rfl, fun _ => ⟨rfl, rfl⟩⟩

end Evicted

/-- **Evicting an object** that is in memory and not pinned. -/
theorem ensures_evict (h : Exact codec roots orphans s) (hfull : Full codec s)
    (ho : s.objects.get? id = some o) (ht : o.target = some p) (hpin : o.pincount = 0) :
    Ensures (s.evict codec id) (fun s' => Exact codec roots orphans s' ∧ Keeps codec s s'
      ∧ s'.lruPqueue.size + 1 = s.lruPqueue.size) := by
  have hptrs : ∀ j ∈ p.ptrs, 0 < j := by
    intro j hj
    exact hfull id o ho j (by rw [pointers_eq (content_target ht)]; exact hj)
  have hser : s.serializePointers p.ptrs = .ok () := by
    have hall : ∀ l : List Nat, (∀ j ∈ l, j ∈ p.ptrs) → s.serializePointers l = .ok () := by
      intro l hl
      induction l with
      | nil => rfl
      | cons j l ih =>
          have hj := hl j List.mem_cons_self
          obtain ⟨o', ho', _⟩ := h.exists_of_pointer ho (hptrs j hj)
            (by rw [pointers_eq (content_target ht)]; exact hj)
          have hrest := ih (fun i hi => hl i (List.mem_cons_of_mem _ hi))
          unfold serializePointers at hrest ⊢
          show (check (decide (0 < j)) SwapFault.nullPointer >>= fun _ => s.object j >>= _) >>= _ = _
          rw [object_eq ho', check, if_pos (decide_eq_true (hptrs j hj))]
          exact hrest
    exact hall p.ptrs (fun _ hj => hj)
  rw [evict_eq ho ht, hser]
  refine (ensures_image h ho ht).bind (fun r hw => ensures_pure ?_)
  refine ⟨h.evicted hw ho ht hptrs, Keeps.evicted h hw ho ht hpin, ?_⟩
  exact Dict.size_erase ((h.consistent.lru o.lastAccess id).mpr ⟨o, ho, by rw [ht]; rfl, rfl⟩)

theorem ensures_firstUnpinned (l : List (Nat × Nat))
    (hl : ∀ e ∈ l, ∃ o, s.objects.get? e.2 = some o ∧ o.target.isSome = true) :
    Ensures (s.firstUnpinned l) (fun r => ∀ i, r = some i →
      ∃ o, s.objects.get? i = some o ∧ o.target.isSome = true ∧ o.pincount = 0) := by
  induction l with
  | nil => exact ensures_pure (fun i hi => absurd hi (by simp))
  | cons e l ih =>
      obtain ⟨o, ho, ht⟩ := hl e List.mem_cons_self
      refine (ensures_need (Q := fun x => x = o) ho rfl).bind (fun x hx => ?_)
      subst hx
      split
      · rename_i hpin
        refine ensures_pure (fun i hi => ?_)
        injection hi with hi
        exact ⟨x, hi ▸ ho, ht, hpin⟩
      · exact ih (fun e' he' => hl e' (List.mem_cons_of_mem _ he'))

/-- **The eviction loops** succeed. -/
theorem ensures_evictLoop {limit : Nat} (fuel : Nat) (h : Exact codec roots orphans s)
    (hfull : Full codec s) (hfuel : s.lruPqueue.size < fuel) :
    Ensures (evictLoop codec limit fuel s)
      (fun s' => Exact codec roots orphans s' ∧ Keeps codec s s') := by
  induction fuel generalizing s with
  | zero => exact absurd hfuel (Nat.not_lt_zero _)
  | succ fuel ih =>
      unfold evictLoop
      split
      swap
      · exact ensures_pure ⟨h, Keeps.refl⟩
      refine (ensures_firstUnpinned _ (fun e he => ?_)).bind (fun r hr => ?_)
      · obtain ⟨o, ho, ht, _⟩ := (h.consistent.lru e.1 e.2).mp (Dict.mem_entries.mp he)
        exact ⟨o, ho, ht⟩
      · cases r with
        | none => exact ensures_pure ⟨h, Keeps.refl⟩
        | some i =>
            obtain ⟨o, ho, ht, hpin⟩ := hr i rfl
            obtain ⟨p, hp⟩ := Option.isSome_iff_exists.mp ht
            refine (ensures_evict h hfull ho hp hpin).bind (fun s₁ hs₁ => ?_)
            obtain ⟨hex, hk, hsize⟩ := hs₁
            refine (ih hex (hfull.of_keeps hk) (by omega)).imp (fun s₂ hs₂ => ?_)
            exact ⟨hs₂.1, hk.trans hs₂.2⟩

theorem ensures_maybeEvictSomething (h : Exact codec roots orphans s) (hfull : Full codec s) :
    Ensures (s.maybeEvictSomething codec)
      (fun s' => Exact codec roots orphans s' ∧ Keeps codec s s') :=
  ensures_evictLoop _ h hfull (Nat.lt_succ_self _)

theorem ensures_evictAll (h : Exact codec roots orphans s) (hfull : Full codec s) :
    Ensures (s.evictAll codec) (fun s' => Exact codec roots orphans s' ∧ Keeps codec s s') :=
  ensures_evictLoop _ h hfull (Nat.lt_succ_self _)

/-! ## Allocation -/

/-- The id of the next object is not taken. -/
theorem Exact.fresh (h : Exact codec roots orphans s) (hr : s.InRange) :
    s.objects.get? s.newId = none := by
  rw [newId_eq hr]
  cases hx : s.objects.get? (s.nextId + 1) with
  | none => rfl
  | some x =>
      have := (h.consistent.ids _ _ hx).2
      omega

theorem entered_get? {i : Nat} {x : Object D} (hx : (s.entered p).objects.get? i = some x) :
    (i = s.newId ∧ x = Object.create p s.now) ∨ s.objects.get? i = some x := by
  rcases Dict.get?_set_eq_some.mp hx with hx | ⟨_, hx⟩
  · exact Or.inl hx
  · exact Or.inr hx

/-- A new object has no file. -/
theorem Files.entered (h : Files orphans s) (hfree : s.objects.get? s.newId = none) :
    Files orphans (s.entered p) := by
  have hne : ∀ {i x}, s.objects.get? i = some x → i ≠ s.newId := by
    intro i x hx hi
    rw [hi, hfree] at hx
    cases hx
  refine ⟨fun i x hx hb => ?_, fun i j x y hx hy hb hxy => ?_, fun b hb => ?_, fun b hb => ?_,
    h.nodup, h.bound, h.nextid⟩
  · rcases entered_get? hx with ⟨_, rfl⟩ | hx
    · exact absurd hb (Nat.lt_irrefl 0)
    · exact h.file i x hx hb
  · rcases entered_get? hx with ⟨hi, rfl⟩ | hx <;> rcases entered_get? hy with ⟨hj, rfl⟩ | hy
    · exact hi.trans hj.symm
    · exact absurd hb (Nat.lt_irrefl 0)
    · rw [hxy] at hb
      exact absurd hb (Nat.lt_irrefl 0)
    · exact h.owner i j x y hx hy hb hxy
  · rcases h.owned b hb with hb | ⟨i, x, hx, hxb⟩
    · exact Or.inl hb
    · exact Or.inr ⟨i, x, Dict.get?_set_eq_some.mpr (Or.inr ⟨hne hx, hx⟩), hxb⟩
  · obtain ⟨hfile, hno⟩ := h.orphan b hb
    refine ⟨hfile, fun i x hx => ?_⟩
    rcases entered_get? hx with ⟨_, rfl⟩ | hx
    · exact Nat.ne_of_lt (h.bound b hfile).1
    · exact hno i x hx

/-- A new object is dirty, and has taken an access time. -/
theorem Paced.entered (h : Paced s) (hr : s.InRange) (hfree : s.objects.get? s.newId = none) :
    Paced (s.entered p) := by
  have hone : (s.entered p).dirtied = s.dirtied + 1 := Dict.total_set_of_free hfree
  have := h.files
  refine ⟨?_, hr.2⟩
  show s.backstore.nextid + _ ≤ s.nextAccessTime + 1 + 1
  omega

/-- A new object, referenced by the pointer that is returned. -/
theorem Exact.entered (h : Exact codec roots orphans s) (hr : s.InRange) (hptrs : p.ptrs = []) :
    Exact codec (s.newId :: roots) orphans (s.entered p) := by
  have hfree := h.fresh hr
  have hself : (s.entered p).pointers codec (Object.create p s.now) = p.ptrs :=
    pointers_eq (content_target rfl)
  refine ⟨h.consistent.entered hr hfree, h.paced.entered hr hfree, fun j hj => ?_,
    fun i x hx => ?_, fun i x hx hc => ?_, h.files.entered hfree⟩
  · rw [refs_enter codec (s.entered p) j hfree rfl (fun _ _ _ _ => rfl), hself, hptrs,
      refcountOf_set (s.entered p) j rfl]
    have hcount := h.counts j hj
    by_cases hji : j = s.newId
    · -- nobody referenced it, and now one pointer does
      have hzero : s.refcountOf j = 0 := by rw [refcountOf, hji, hfree]
      rw [if_pos hji, hji, List.count_cons_self, List.count_nil]
      rw [hzero, hji] at hcount
      show 1 = _
      omega
    · rw [if_neg hji, List.count_cons_of_ne (Ne.symm hji), List.count_nil]
      omega
  · rcases entered_get? hx with ⟨_, rfl⟩ | hx
    · exact Nat.one_pos
    · exact h.live i x hx
  · rcases entered_get? hx with ⟨_, rfl⟩ | hx
    · rcases hc with hc | hc
      · cases hc
      · cases hc
    · obtain ⟨q, hq⟩ := h.image i x hx hc
      exact ⟨q, hq.bsid, hq.file, hq.ptrs, hq.resident, hq.leaf⟩

end SwapSpace

end BeTree
