import BeTree.Pointer.Shadow
import BeTree.Swap.Transparent
import Mathlib.Data.Multiset.Basic

/-!
# The swap space keeps to the rule

The swap space answers every operation that the rule allows, and its shadow stays its shadow:
the objects that are there hold, in memory or on disk, what the shadow holds under their ids;
each is counted as often as there are pointers to it; and what has been accessed through a
pin is in memory. So no assert of the swap space or of the backing store fails in a program
that keeps to the rule, for any number of objects in memory, which may change at any time, as
long as the counters of ids and of accesses have not wrapped around.
-/

namespace BeTree

open Checked SwapSpace Shadow

variable {D B ε : Type}

/-! ## The operations -/

/-- `set_cache_size`. -/
def SwapSpace.setCacheSize (codec : Codec D B) (s : SwapSpace D B) (size : Nat) :
    Except SwapFault (SwapSpace D B) := do
  check (decide (0 < size)) .malformed
  maybeEvictSomething codec { s with maxInMemoryObjects := size }

/-- The swap space goes on, or a failed assert stops the program. -/
def answer {α : Type} (fault : SwapFault → ε) (m : Pinning D B) :
    Except SwapFault (α × Pinning D B) → Except ε α × Pinning D B
  | .ok (a, m') => (.ok a, m')
  | .error e => (.error (fault e), m)

/-- The swap space as a handler. -/
def swapHandler (codec : Codec D B) (fault : SwapFault → ε) :
    Prog.Handler (HeapOp D) HeapOp.Ans ε (Pinning D B)
  | .allocate d, m => answer fault m (do
    let m' ← m.call codec (.allocate ⟨d, []⟩)
    return (m.ss.newId, m'))
  | .copy id, m => answer fault m (do return ((), ← m.call codec (.copy id)))
  | .destroy id, m => answer fault m (do return ((), ← m.call codec (.destroy id)))
  | .pin id, m => answer fault m (do return ((), ← m.call codec (.pin id)))
  | .access id dirty, m => answer fault m (do return ((), ← m.call codec (.access id dirty)))
  | .read id, m => answer fault m (do return (← m.ss.deref id, m))
  | .store id p, m => answer fault m (do return ((), ← m.call codec (.store id p)))
  | .unpin id, m => answer fault m (do return ((), ← m.call codec (.unpin id)))
  | .isDirty id, m => answer fault m (do return (← m.ss.isDirty id, m))
  | .isInMemory id, m => answer fault m (do return (← m.ss.isInMemory id, m))
  | .evictAll, m => answer fault m (do return ((), ← m.call codec .evictAll))
  | .setCacheSize size, m => answer fault m (do
    return ((), { m with ss := ← m.ss.setCacheSize codec size }))

/-! ## The coupling -/

/-- What has been accessed through a pin is in memory, and dirty if it may be written to. -/
def Loads (pins : List Pin) (s : SwapSpace D B) : Prop :=
  ∀ pin ∈ pins, ∀ o, s.objects.get? pin.id = some o →
    (pin.loaded = true → o.target.isSome = true) ∧ (pin.dirty = true → o.targetIsDirty = true)

/-- **The shadow of a swap space.** -/
structure Tracks (codec : Codec D B) (g : Shadow D) (m : Pinning D B) : Prop where
  orderly : Pinning.Orderly m
  pinned : m.pins.Perm (g.pins.map Pin.id)
  exact : Exact codec g.roots.toList [] m.ss
  full : Full codec m.ss
  positive : ∀ i ∈ g.roots, 0 < i
  nextId : m.ss.nextId = g.nextId
  shows : Program.Shows codec g.objects m.ss
  loads : Loads g.pins m.ss
  anchored : Anchored g.objects g.roots g.pins

variable {codec : Codec D B} {g g' : Shadow D} {m m' : Pinning D B} {s s' : SwapSpace D B}
variable {pins : List Pin} {id : Nat}

theorem count_toList (roots : Multiset Nat) (j : Nat) : roots.toList.count j = roots.count j := by
  rw [← Multiset.coe_count, Multiset.coe_toList]

/-- One more pointer outside the objects. -/
theorem exact_cons {roots : Multiset Nat} :
    Exact codec (id :: roots.toList) [] s ↔ Exact codec (id ::ₘ roots).toList [] s := by
  have hcount : ∀ j, (id ::ₘ roots).toList.count j = (id :: roots.toList).count j := fun j => by
    rw [count_toList, ← Multiset.coe_count, ← Multiset.cons_coe, Multiset.coe_toList]
  exact ⟨fun h => h.roots_congr (fun j _ => hcount j), fun h => h.roots_congr (fun j _ => (hcount j).symm)⟩

theorem Loads.of_preserves (h : Loads pins s) (hk : Preserves codec s s')
    (hpin : ∀ pin ∈ pins, ∀ o, s.objects.get? pin.id = some o → 0 < o.pincount) : Loads pins s' := by
  intro pin hp o' ho'
  obtain ⟨o, ho, _, hkeep⟩ := hk.object pin.id o' ho'
  obtain ⟨ht, hd⟩ := hkeep (hpin pin hp o ho)
  obtain ⟨hl, hd'⟩ := h pin hp o ho
  exact ⟨fun hx => ht (hl hx), fun hx => hd (hd' hx)⟩

namespace Tracks

theorem mem_pins (h : Tracks codec g m) {pin : Pin} (hp : pin ∈ g.pins) : pin.id ∈ m.pins :=
  h.pinned.mem_iff.mpr (List.mem_map.mpr ⟨pin, hp, rfl⟩)

/-- The object under a pin has a positive count of pins. -/
theorem pincount (h : Tracks codec g m) (pin : Pin) (hp : pin ∈ g.pins) (o : Object D)
    (ho : m.ss.objects.get? pin.id = some o) : 0 < o.pincount := by
  rw [h.orderly.pincount _ _ ho]
  exact List.count_pos_iff.mpr (h.mem_pins hp)

/-- What is reached from objects that are there is there. -/
theorem exists_of_reaches (h : Tracks codec g m)
    (hpins : ∀ q ∈ pins, ∃ o, m.ss.objects.get? q.id = some o)
    (hr : Reaches g.objects g.roots pins id) : ∃ o, m.ss.objects.get? id = some o := by
  rcases hr with hr | ⟨q, hq, p, hp, hid⟩
  · obtain ⟨o, ho, _⟩ := h.exact.exists_of_root (h.positive id hr) (Multiset.mem_toList.mpr hr)
    exact ⟨o, ho⟩
  · obtain ⟨o, ho⟩ := hpins q hq
    rw [← pointers_eq ((h.shows q.id o ho).trans hp)] at hid
    obtain ⟨o', ho', _⟩ := h.exact.exists_of_pointer ho (h.full _ o ho id hid) hid
    exact ⟨o', ho'⟩

/-- **What is pinned is there**, by induction from the oldest pin. -/
theorem exists_of_pins (h : Tracks codec g m) (hpins : Anchored g.objects g.roots pins) :
    ∀ q ∈ pins, ∃ o, m.ss.objects.get? q.id = some o := by
  induction pins with
  | nil => exact fun q hq => absurd hq (by simp)
  | cons pin rest ih =>
      intro q hq
      rcases List.mem_cons.mp hq with rfl | hq
      · exact h.exists_of_reaches (ih hpins.2) hpins.1
      · exact ih hpins.2 q hq

theorem object (h : Tracks codec g m) (hr : Reaches g.objects g.roots g.pins id) :
    ∃ o, m.ss.objects.get? id = some o :=
  h.exists_of_reaches (h.exists_of_pins h.anchored) hr

theorem pos (h : Tracks codec g m) {o : Object D} (ho : m.ss.objects.get? id = some o) : 0 < id :=
  (h.exact.consistent.ids id o ho).1

/-- An operation that writes to no object. -/
theorem moved (h : Tracks codec g m) (hobjects : g'.objects = g.objects)
    (hnext : g'.nextId = g.nextId) (horderly : Pinning.Orderly m')
    (hpinned : m'.pins.Perm (g'.pins.map Pin.id)) (hexact : Exact codec g'.roots.toList [] m'.ss)
    (hpos : ∀ i ∈ g'.roots, 0 < i) (hk : Preserves codec m.ss m'.ss) (hloads : Loads g'.pins m'.ss)
    (hanchored : Anchored g'.objects g'.roots g'.pins) : Tracks codec g' m' := by
  refine ⟨horderly, hpinned, hexact, h.full.of_preserves hk, hpos, ?_, ?_, hloads, hanchored⟩
  · rw [hk.nextId, hnext]
    exact h.nextId
  · rw [hobjects]
    exact h.shows.of_preserves hk

/-- The same when the pins are as they were. -/
theorem moved_roots {roots : Multiset Nat} (h : Tracks codec g m) (horderly : Pinning.Orderly m')
    (hpins : m'.pins = m.pins) (hexact : Exact codec roots.toList [] m'.ss)
    (hpos : ∀ i ∈ roots, 0 < i) (hk : Preserves codec m.ss m'.ss)
    (hanchored : Anchored g.objects roots g.pins) :
    Tracks codec { g with roots := roots } m' :=
  h.moved rfl rfl horderly (hpins ▸ h.pinned) hexact hpos hk (h.loads.of_preserves hk h.pincount)
    hanchored

/-! ## Pointers -/

theorem copy (h : Tracks codec g m) (hrange : m.ss.InRange)
    (hr : Reaches g.objects g.roots g.pins id) :
    Ensures (m.call codec (.copy id)) (Tracks codec { g with roots := id ::ₘ g.roots }) := by
  obtain ⟨o, ho⟩ := h.object hr
  have hcall : Ensures (m.call codec (.copy id)) (fun q => q.pins = m.pins
      ∧ Exact codec (id :: g.roots.toList) [] q.ss ∧ Keeps codec m.ss q.ss) :=
    (ensures_addRef h.exact (fun _ => ⟨o, ho⟩)).bind (fun s hs => ensures_pure ⟨rfl, hs⟩)
  refine (hcall.and (Pinning.yields_call h.orderly hrange _)).imp
    (fun q ⟨⟨hpins, hexact, hk⟩, horderly⟩ => ?_)
  refine h.moved_roots horderly hpins (exact_cons.mp hexact) (fun i hi => ?_) hk.preserves
    (h.anchored.mono (fun q _ hq => Multiset.mem_cons_of_mem hq) (fun _ _ => rfl))
  rcases Multiset.mem_cons.mp hi with rfl | hi
  · exact h.pos ho
  · exact h.positive i hi

theorem destroy (h : Tracks codec g m) (hrange : m.ss.InRange) (hid : id ∈ g.roots)
    (hanchored : Anchored g.objects (g.roots.erase id) g.pins) :
    Ensures (m.call codec (.destroy id)) (Tracks codec { g with roots := g.roots.erase id }) := by
  have hroots : Exact codec (id :: (g.roots.erase id).toList) [] m.ss := by
    rw [exact_cons, Multiset.cons_erase hid]
    exact h.exact
  have hcall : Ensures (m.call codec (.destroy id)) (fun q => q.pins = m.pins
      ∧ Exact codec (g.roots.erase id).toList [] q.ss ∧ Keeps codec m.ss q.ss) :=
    (ensures_release hroots).bind (fun s hs => ensures_pure ⟨rfl, hs⟩)
  refine (hcall.and (Pinning.yields_call h.orderly hrange _)).imp
    (fun q ⟨⟨hpins, hexact, hk⟩, horderly⟩ => ?_)
  exact h.moved_roots horderly hpins hexact (fun i hi => h.positive i (Multiset.mem_of_mem_erase hi))
    hk.preserves hanchored

/-! ## Pins and accesses -/

theorem pin (h : Tracks codec g m) (hrange : m.ss.InRange)
    (hr : Reaches g.objects g.roots g.pins id) :
    Ensures (m.call codec (.pin id))
      (Tracks codec { g with pins := ⟨id, false, false⟩ :: g.pins }) := by
  obtain ⟨o, ho⟩ := h.object hr
  have hpos := h.pos ho
  have hcall : Ensures (m.call codec (.pin id)) (fun q => q.pins = id :: m.pins
      ∧ q.ss = m.ss.repinned id o (o.pincount + 1)) :=
    (ensures_doPin ho hpos).bind (fun s hs => ensures_pure ⟨rfl, hs⟩)
  refine (hcall.and (Pinning.yields_call h.orderly hrange _)).imp (fun q ⟨⟨hpins, hss⟩, horderly⟩ => ?_)
  have hpres : Preserves codec m.ss q.ss := hss ▸ Program.Preserves.repinned ho
  refine h.moved rfl rfl horderly ?_ (hss ▸ h.exact.repinned ho) h.positive hpres
    (fun pin hpin x hx => ?_) ⟨hr, h.anchored⟩
  · rw [hpins]
    exact h.pinned.cons id
  · rcases List.mem_cons.mp hpin with rfl | hpin
    · -- the new pin has not been accessed
      exact ⟨fun hl => absurd hl Bool.false_ne_true, fun hd => absurd hd Bool.false_ne_true⟩
    · exact h.loads.of_preserves hpres h.pincount pin hpin x hx

theorem access {pin : Pin} {rest : List Pin} (h : Tracks codec g m)
    (hrange : m.ss.InRange) (hpins : g.pins = pin :: rest) (dirty : Bool) :
    Ensures (m.call codec (.access pin.id dirty))
      (Tracks codec { g with pins := ⟨pin.id, true, pin.dirty || dirty⟩ :: rest }) := by
  have hpin : pin ∈ g.pins := hpins ▸ List.mem_cons_self
  obtain ⟨o, ho⟩ := h.exists_of_pins h.anchored pin hpin
  have hcall : Ensures (m.call codec (.access pin.id dirty)) (fun q => q.pins = m.pins
      ∧ Exact codec g.roots.toList [] q.ss ∧ Preserves codec m.ss q.ss
      ∧ ∀ o', q.ss.objects.get? pin.id = some o' → o'.target.isSome = true
        ∧ (dirty = true → o'.targetIsDirty = true)) := by
    refine (ensures_check (S := fun _ => True) (decide_eq_true (h.mem_pins hpin)) trivial).bind
      (fun _ _ => ?_)
    exact (ensures_access dirty h.exact hrange h.full ho (h.pincount pin hpin o ho)).bind
      (fun s hs => ensures_pure ⟨rfl, hs⟩)
  refine (hcall.and (Pinning.yields_call h.orderly hrange _)).imp
    (fun q ⟨⟨hq, hexact, hpres, hself⟩, horderly⟩ => ?_)
  have hloads := h.loads.of_preserves hpres h.pincount
  have hanchored := h.anchored
  have hpinned := h.pinned
  rw [hpins] at hanchored hpinned
  refine h.moved rfl rfl horderly (hq ▸ hpinned) hexact h.positive hpres (fun pin' hpin' x hx => ?_)
    hanchored
  rcases List.mem_cons.mp hpin' with rfl | hpin'
  · obtain ⟨ht, hd⟩ := hself x hx
    refine ⟨fun _ => ht, fun hdirty => ?_⟩
    rcases Bool.or_eq_true_iff.mp hdirty with hdirty | hdirty
    · exact (hloads pin hpin x hx).2 hdirty
    · exact hd hdirty
  · exact hloads pin' (hpins ▸ List.mem_cons_of_mem _ hpin') x hx

theorem unpin {pin : Pin} {rest : List Pin} (h : Tracks codec g m) (hrange : m.ss.InRange)
    (hpins : g.pins = pin :: rest) :
    Ensures (m.call codec (.unpin pin.id)) (Tracks codec { g with pins := rest }) := by
  have hpin : pin ∈ g.pins := hpins ▸ List.mem_cons_self
  obtain ⟨o, ho⟩ := h.exists_of_pins h.anchored pin hpin
  have hcall : Ensures (m.call codec (.unpin pin.id)) (fun q =>
      q.pins = m.pins.erase pin.id ∧ Exact codec g.roots.toList [] q.ss
      ∧ Keeps codec (m.ss.repinned pin.id o (o.pincount - 1)) q.ss) := by
    refine (ensures_check (S := fun _ => True) (decide_eq_true (h.mem_pins hpin)) trivial).bind
      (fun _ _ => ?_)
    exact (ensures_unpin h.exact h.full ho (h.pos ho) (h.pincount pin hpin o ho)).bind
      (fun s hs => ensures_pure ⟨rfl, hs⟩)
  refine (hcall.and (Pinning.yields_call h.orderly hrange _)).imp
    (fun q ⟨⟨hq, hexact, hk⟩, horderly⟩ => ?_)
  have hanchored := h.anchored
  have hpinned := h.pinned
  rw [hpins] at hanchored hpinned
  have hrest : (m.pins.erase pin.id).Perm (rest.map Pin.id) := by
    have := hpinned.erase pin.id
    rwa [List.map_cons, List.erase_cons_head] at this
  have hpres : Preserves codec m.ss (m.ss.repinned pin.id o (o.pincount - 1)) :=
    Program.Preserves.repinned ho
  refine ⟨horderly, hq ▸ hrest, hexact, (h.full.repinned ho).of_keeps hk, h.positive,
    hk.nextId.trans h.nextId, (h.shows.of_preserves hpres).of_preserves hk.preserves, ?_, hanchored.2⟩
  -- the pins that are left still count
  have hloads : Loads rest (m.ss.repinned pin.id o (o.pincount - 1)) := fun pin' hpin' x hx =>
    h.loads.of_preserves hpres h.pincount pin' (hpins ▸ List.mem_cons_of_mem _ hpin') x hx
  refine hloads.of_preserves hk.preserves (fun pin' hpin' x hx => ?_)
  have hcount : 0 < (m.pins.erase pin.id).count pin'.id :=
    List.count_pos_iff.mpr (hrest.mem_iff.mpr (List.mem_map.mpr ⟨pin', hpin', rfl⟩))
  rcases Dict.get?_set_eq_some.mp hx with ⟨hid, rfl⟩ | ⟨hne, hx⟩
  · rw [hid, List.count_erase_self, ← h.orderly.pincount _ _ ho] at hcount
    exact hcount
  · rw [List.count_erase_of_ne hne, ← h.orderly.pincount _ _ hx] at hcount
    exact hcount

/-! ## Objects -/

theorem allocate (h : Tracks codec g m) (hrange : m.ss.InRange) (d : D) :
    Ensures (m.call codec (.allocate ⟨d, []⟩)) (Tracks codec (g.allocated d)) := by
  have hcall : Ensures (m.call codec (.allocate ⟨d, []⟩)) (fun q => q.pins = m.pins
      ∧ Exact codec ((m.ss.nextId + 1) :: g.roots.toList) [] q.ss
      ∧ Keeps codec (m.ss.entered ⟨d, []⟩) q.ss) :=
    (ensures_allocate h.exact hrange h.full rfl).bind (fun r ⟨hr, hexact, hk⟩ =>
      ensures_pure ⟨rfl, by rw [← newId_eq hrange, ← hr]; exact hexact, hk⟩)
  refine (hcall.and (Pinning.yields_call h.orderly hrange _)).imp
    (fun q ⟨⟨hpins, hexact, hk⟩, horderly⟩ => ?_)
  rw [h.nextId] at hexact
  have hold : ∀ {i y}, (m.ss.entered ⟨d, []⟩).objects.get? i = some y →
      (i = m.ss.nextId + 1 ∧ y = Object.create ⟨d, []⟩ m.ss.now)
        ∨ (i ≠ m.ss.nextId + 1 ∧ m.ss.objects.get? i = some y) :=
    fun hy => newId_eq hrange ▸ Dict.get?_set_eq_some.mp hy
  have hfresh : ∀ pin ∈ g.pins, pin.id ≠ m.ss.nextId + 1 := fun pin hpin => by
    have := h.orderly.bound _ (h.mem_pins hpin)
    omega
  refine ⟨horderly, hpins ▸ h.pinned, exact_cons.mp hexact,
    (h.full.entered rfl).of_keeps hk, fun j hj => ?_, ?_, fun i o' ho' => ?_, ?_,
    h.anchored.mono (fun _ _ hq => Multiset.mem_cons_of_mem hq) (fun pin hpin => ?_)⟩
  · rcases Multiset.mem_cons.mp hj with rfl | hj
    · exact Nat.succ_pos _
    · exact h.positive j hj
  · rw [hk.nextId]
    show m.ss.nextId + 2 = g.nextId + 2
    rw [h.nextId]
  · obtain ⟨o, ho, hc, _⟩ := hk.object i o' ho'
    show _ = (g.objects.set (g.nextId + 1) ⟨d, []⟩).get? i
    rw [hc, Dict.get?_set, ← h.nextId]
    rcases hold ho with ⟨hi, rfl⟩ | ⟨hne, ho⟩
    · rw [if_pos hi]
      exact content_target rfl
    · rw [if_neg hne]
      exact h.shows i o ho
  · -- no pin is on the new object, whose id is new
    have hloads : Loads g.pins (m.ss.entered ⟨d, []⟩) := by
      intro pin hpin o ho
      rcases hold ho with ⟨hi, _⟩ | ⟨_, ho⟩
      · exact absurd hi (hfresh pin hpin)
      · exact h.loads pin hpin o ho
    refine hloads.of_preserves hk.preserves (fun pin hpin o ho => ?_)
    rcases hold ho with ⟨hi, _⟩ | ⟨_, ho⟩
    · exact absurd hi (hfresh pin hpin)
    · exact h.pincount pin hpin o ho
  · show (g.objects.set (g.nextId + 1) ⟨d, []⟩).get? pin.id = _
    rw [Dict.get?_set, ← h.nextId, if_neg (hfresh pin hpin)]

/-- The object under a pin that has been accessed is in memory, with the content of the shadow. -/
theorem loaded (h : Tracks codec g m) {pin : Pin} (hpin : pin ∈ g.pins) (hl : pin.loaded = true) :
    ∃ o p, m.ss.objects.get? pin.id = some o ∧ o.target = some p ∧ g.objects.get? pin.id = some p := by
  obtain ⟨o, ho⟩ := h.exists_of_pins h.anchored pin hpin
  obtain ⟨p, hp⟩ := Option.isSome_iff_exists.mp ((h.loads pin hpin o ho).1 hl)
  exact ⟨o, p, ho, hp, (h.shows _ o ho).symm.trans (content_target hp)⟩

theorem read (h : Tracks codec g m) {pin : Pin} (hpin : pin ∈ g.pins) (hl : pin.loaded = true) :
    Ensures (m.ss.deref pin.id) (fun p => g.objects.get? pin.id = some p) := by
  obtain ⟨o, p, ho, ht, hp⟩ := h.loaded hpin hl
  refine ⟨p, ?_, hp⟩
  show (m.ss.object pin.id >>= _) = _
  rw [object_eq ho]
  show need SwapFault.nullTarget o.target = _
  rw [ht]
  rfl

theorem store (h : Tracks codec g m) (hrange : m.ss.InRange) {pin : Pin} {p old : Payload D}
    (hpin : pin ∈ g.pins)
    (hl : pin.loaded = true) (hd : pin.dirty = true) (hold : g.objects.get? pin.id = some old)
    (hptrs : (p.ptrs : Multiset Nat) ≤ g.roots + old.ptrs)
    (hanchored : Anchored (g.stored pin.id old p).objects (g.stored pin.id old p).roots g.pins) :
    Ensures (m.call codec (.store pin.id p)) (Tracks codec (g.stored pin.id old p)) := by
  obtain ⟨o, q, ho, ht, hq⟩ := h.loaded hpin hl
  have hqold : q = old := Option.some.inj (hq.symm.trans hold)
  subst hqold
  have hpos : ∀ j ∈ g.roots + (q.ptrs : Multiset Nat), 0 < j := by
    intro j hj
    rcases Multiset.mem_add.mp hj with hj | hj
    · exact h.positive j hj
    · exact h.full _ o ho j (by rw [pointers_eq (content_target ht)]; exact Multiset.mem_coe.mp hj)
  have hcall : Ensures (m.call codec (.store pin.id p)) (fun r => r.pins = m.pins
      ∧ r.ss = m.ss.written pin.id o p) :=
    (ensures_store ho ht).bind (fun s hs => ensures_pure ⟨rfl, hs⟩)
  refine (hcall.and (Pinning.yields_call h.orderly hrange _)).imp (fun r ⟨⟨hpins, hss⟩, horderly⟩ => ?_)
  refine ⟨horderly, hpins ▸ h.pinned, ?_, ?_, fun i hi => ?_, ?_, ?_, ?_, hanchored⟩
  · rw [hss]
    refine h.exact.written ho ht ((h.loads pin hpin o ho).2 hd) (fun j _ => ?_)
    have hle := Multiset.count_le_of_le j hptrs
    rw [count_toList, count_toList]
    show (g.roots + (q.ptrs : Multiset Nat) - (p.ptrs : Multiset Nat)).count j + _ = _
    rw [Multiset.count_sub, Multiset.count_add, Multiset.coe_count, Multiset.coe_count]
    rw [Multiset.count_add, Multiset.coe_count, Multiset.coe_count] at hle
    omega
  · rw [hss]
    exact h.full.written (fun j hj => hpos j (Multiset.mem_of_le hptrs (Multiset.mem_coe.mpr hj)))
  · exact hpos i (Multiset.mem_of_le (Multiset.sub_le_self _ _) hi)
  · rw [hss]
    exact h.nextId
  · rw [hss]
    exact h.shows.set
  · rw [hss]
    intro pin' hpin' x hx
    rcases Dict.get?_set_eq_some.mp hx with ⟨hid, rfl⟩ | ⟨_, hx⟩
    · exact ⟨fun _ => rfl, (h.loads pin' hpin' o (hid ▸ ho)).2⟩
    · exact h.loads pin' hpin' x hx

/-! ## Eviction -/

theorem evictAll (h : Tracks codec g m) (hrange : m.ss.InRange) :
    Ensures (m.call codec .evictAll) (Tracks codec g) := by
  have hcall : Ensures (m.call codec .evictAll) (fun q => q.pins = m.pins
      ∧ Exact codec g.roots.toList [] q.ss ∧ Keeps codec m.ss q.ss) :=
    (ensures_evictAll h.exact h.full).bind (fun s hs => ensures_pure ⟨rfl, hs⟩)
  refine (hcall.and (Pinning.yields_call h.orderly hrange _)).imp
    (fun q ⟨⟨hpins, hexact, hk⟩, horderly⟩ => ?_)
  exact h.moved_roots horderly hpins hexact h.positive hk.preserves h.anchored

/-- Another size of the cache changes nothing but what is in memory. -/
theorem setCacheSize (h : Tracks codec g m) {size : Nat} (hsize : 0 < size) :
    Ensures (m.ss.setCacheSize codec size) (fun s => Tracks codec g ⟨s, m.pins⟩) := by
  have hs : Tracks codec g ⟨{ m.ss with maxInMemoryObjects := size }, m.pins⟩ := by
    have hcons : Consistent { m.ss with maxInMemoryObjects := size } :=
      ⟨h.exact.consistent.lru, h.exact.consistent.stamp, h.exact.consistent.distinct,
        h.exact.consistent.ids, h.exact.consistent.clean⟩
    have hfiles := h.exact.files
    exact ⟨⟨hcons, h.orderly.counted, h.orderly.pincount, h.orderly.bound⟩, h.pinned,
      ⟨hcons, ⟨h.exact.paced.files, h.exact.paced.clock⟩, h.exact.counts, h.exact.live,
        fun i o ho hc => (h.exact.image i o ho hc).imp (fun p hp =>
          ⟨hp.bsid, hp.file, hp.ptrs, hp.resident, hp.leaf⟩),
        ⟨hfiles.file, hfiles.owner, hfiles.owned, hfiles.orphan, hfiles.nodup, hfiles.bound,
          hfiles.nextid⟩⟩,
      h.full, h.positive, h.nextId, h.shows, h.loads, h.anchored⟩
  refine (ensures_check (S := fun _ => True) (decide_eq_true hsize) trivial).bind (fun _ _ => ?_)
  refine ((ensures_maybeEvictSomething hs.exact hs.full).and (yields_evictLoop codec size _
    (Upkeep.refl hs.orderly.consistent hs.orderly.counted))).imp (fun s ⟨⟨hexact, hk⟩, hup, _⟩ => ?_)
  have horderly : Pinning.Orderly ⟨s, m.pins⟩ := hs.orderly.of_upkeep hup
  exact hs.moved_roots horderly rfl hexact h.positive hk.preserves h.anchored

/-! ## Every operation -/

/-- Nothing is in a new swap space. -/
theorem create (codec : Codec D B) (n : Nat) :
    Tracks codec (Shadow.create : Shadow D) (Pinning.create n) := by
  have h := Program.coupled_create codec n
  refine ⟨h.orderly, List.Perm.refl _, h.exact.roots_congr (fun j _ => ?_), h.full,
    fun i hi => absurd hi (Multiset.notMem_zero i), h.nextId, h.shows, fun pin hpin => ?_, trivial⟩
  · rw [count_toList]
    rfl
  · exact absurd hpin (by simp [Shadow.create])

end Tracks

/-- What the swap space does when no assert fails. -/
theorem answer_of_ensures {α : Type} {x : Except SwapFault (α × Pinning D B)}
    {Q : α → Pinning D B → Prop} (fault : SwapFault → ε) (h : Ensures x (fun r => Q r.1 r.2)) :
    ∃ r m', answer fault m x = (.ok r, m') ∧ Q r m' := by
  obtain ⟨⟨r, m'⟩, hx, hq⟩ := h
  exact ⟨r, m', by rw [hx]; rfl, hq⟩

/-- The counters only grow. -/
theorem inRange_of_answer {α : Type} {x : Except SwapFault (α × Pinning D B)} {ids times : Nat}
    (fault : SwapFault → ε) (h : Yields x (fun r => Advances ids times m.ss r.2.ss))
    (hr : (answer fault m x).2.ss.InRange) : m.ss.InRange := by
  rcases x with e | ⟨a, m'⟩
  · exact hr
  · exact (h _ rfl).inRange hr

theorem inRange_of_swapHandler (codec : Codec D B) (fault : SwapFault → ε) (o : HeapOp D)
    (m : Pinning D B) (hr : (swapHandler codec fault o m).2.ss.InRange) : m.ss.InRange := by
  have hcall : ∀ c, (answer fault m (m.call codec c >>= fun m' => pure ((), m'))).2.ss.InRange →
      m.ss.InRange := fun c => inRange_of_answer fault
    ((Pinning.yields_call_advances codec m c).bind (fun _ hm => yields_pure hm))
  have hlook : ∀ {α : Type} (x : Except SwapFault α),
      (answer fault m (x >>= fun a => pure (a, m))).2.ss.InRange → m.ss.InRange := fun x =>
    inRange_of_answer fault (yields_then (x := x) (fun _ => yields_pure (Advances.refl m.ss)))
  cases o with
  | allocate d =>
      exact inRange_of_answer fault ((Pinning.yields_call_advances codec m (.allocate ⟨d, []⟩)).bind
        (fun _ hm => yields_pure hm)) hr
  | copy id => exact hcall _ hr
  | destroy id => exact hcall _ hr
  | pin id => exact hcall _ hr
  | access id dirty => exact hcall _ hr
  | read id => exact hlook _ hr
  | store id p => exact hcall _ hr
  | unpin id => exact hcall _ hr
  | isDirty id => exact hlook _ hr
  | isInMemory id => exact hlook _ hr
  | evictAll => exact hcall _ hr
  | setCacheSize size =>
      have hsize : Yields (m.ss.setCacheSize codec size) (Advances 0 0 m.ss) :=
        yields_check.bind (fun _ _ => (yields_evictLoop_parks codec _ _ _).imp
          (fun s hs => ⟨hs.nextId, hs.nextAccessTime⟩))
      exact inRange_of_answer fault (hsize.bind (fun _ hs => yields_pure hs)) hr

/-- **The swap space keeps to the rule**, until its counters wrap around. -/
theorem obeys_swapHandler (codec : Codec D B) (fault : SwapFault → ε) :
    Prog.Obeys (swapHandler codec fault) Shadow.rule (Tracks codec) (fun m => m.ss.InRange) := by
  refine ⟨fun o g m hpre h hrange => ?_, inRange_of_swapHandler codec fault⟩
  -- the operations that only change the swap space
  have hdone : ∀ {x : Except SwapFault (Pinning D B)} {g' : Shadow D}, Ensures x (Tracks codec g') →
      ∃ r m', answer fault m (x >>= fun m' => pure ((), m')) = (.ok r, m') ∧ Tracks codec g' m' := by
    intro x g' hx
    exact answer_of_ensures fault (hx.bind (fun m' hm' => ensures_pure hm'))
  -- and those that only look at it
  have hlook : ∀ {α : Type} {x : Except SwapFault α} {Q : α → Prop}, Ensures x Q →
      ∃ r m', answer fault m (x >>= fun a => pure (a, m)) = (.ok r, m') ∧ Q r ∧ Tracks codec g m' := by
    intro α x Q hx
    exact answer_of_ensures fault (hx.bind (fun a ha => ensures_pure ⟨ha, h⟩))
  cases o with
  | allocate d =>
      have hcall : Ensures (m.call codec (.allocate ⟨d, []⟩) >>= fun m' =>
          pure (m.ss.newId, m')) (fun r => r.1 = g.nextId + 1 ∧ Tracks codec (g.allocated d) r.2) :=
        (h.allocate hrange d).bind (fun m' hm' =>
          ensures_pure ⟨(newId_eq hrange).trans (congrArg (· + 1) h.nextId), hm'⟩)
      obtain ⟨r, m', hr, hid, hm'⟩ := answer_of_ensures (m := m) (Q := fun id m' => id = g.nextId + 1
        ∧ Tracks codec (g.allocated d) m') fault hcall
      exact ⟨r, m', hr, _, ⟨hid, rfl⟩, hm'⟩
  | copy id =>
      obtain ⟨r, m', hr, hm'⟩ := hdone (h.copy hrange hpre)
      exact ⟨r, m', hr, _, rfl, hm'⟩
  | destroy id =>
      obtain ⟨r, m', hr, hm'⟩ := hdone (h.destroy hrange hpre.1 hpre.2)
      exact ⟨r, m', hr, _, rfl, hm'⟩
  | pin id =>
      obtain ⟨r, m', hr, hm'⟩ := hdone (h.pin hrange hpre)
      exact ⟨r, m', hr, _, rfl, hm'⟩
  | access id dirty =>
      obtain ⟨pin, rest, hpins, rfl⟩ := hpre
      obtain ⟨r, m', hr, hm'⟩ := hdone (h.access hrange hpins dirty)
      refine ⟨r, m', hr, _, fun pin' rest' hpins' => ?_, hm'⟩
      rw [hpins] at hpins'
      injection hpins' with hpin hrest
      rw [hpin, hrest]
  | read id =>
      obtain ⟨pin, hpin, rfl, hl⟩ := hpre
      obtain ⟨r, m', hr, hp, hm'⟩ := hlook (h.read hpin hl)
      exact ⟨r, m', hr, g, ⟨hp, rfl⟩, hm'⟩
  | store id p =>
      obtain ⟨⟨pin, hpin, rfl, hl, hd⟩, hstore⟩ := hpre
      obtain ⟨_, old, _, _, hold⟩ := h.loaded hpin hl
      obtain ⟨hptrs, hanchored⟩ := hstore old hold
      obtain ⟨r, m', hr, hm'⟩ := hdone (h.store hrange hpin hl hd hold hptrs hanchored)
      exact ⟨r, m', hr, _, ⟨old, hold, rfl⟩, hm'⟩
  | unpin id =>
      obtain ⟨pin, rest, hpins, rfl⟩ := hpre
      obtain ⟨r, m', hr, hm'⟩ := hdone (h.unpin hrange hpins)
      exact ⟨r, m', hr, { g with pins := g.pins.tail }, rfl, by rw [hpins]; exact hm'⟩
  | isDirty id =>
      obtain ⟨o, ho⟩ := h.object hpre
      obtain ⟨r, m', hr, _, hm'⟩ := hlook (Q := fun _ => True) (x := m.ss.isDirty id)
        ((ensures_need (Q := fun _ => True) ho trivial).bind (fun _ _ => ensures_pure trivial))
      exact ⟨r, m', hr, g, rfl, hm'⟩
  | isInMemory id =>
      obtain ⟨o, ho⟩ := h.object hpre
      obtain ⟨r, m', hr, _, hm'⟩ := hlook (Q := fun _ => True) (x := m.ss.isInMemory id)
        ((ensures_need (Q := fun _ => True) ho trivial).bind (fun _ _ => ensures_pure trivial))
      exact ⟨r, m', hr, g, rfl, hm'⟩
  | evictAll =>
      obtain ⟨r, m', hr, hm'⟩ := hdone (h.evictAll hrange)
      exact ⟨r, m', hr, g, rfl, hm'⟩
  | setCacheSize size =>
      have hcall : Ensures (m.ss.setCacheSize codec size >>= fun s =>
          pure ((), ({ m with ss := s } : Pinning D B))) (fun r => Tracks codec g r.2) :=
        (h.setCacheSize hpre).bind (fun s hs => ensures_pure hs)
      obtain ⟨r, m', hr, hm'⟩ := answer_of_ensures (m := m) (Q := fun _ m' => Tracks codec g m')
        fault hcall
      exact ⟨r, m', hr, g, rfl, hm'⟩

end BeTree
