import BeTree.Swap.Program
import BeTree.Swap.Operations
import Mathlib.Data.List.Perm.Basic

/-!
# Transparent swapping

The swap space refines the ideal heap: whatever a program does that is legal over
the ideal heap, it can do over the swap space, for any number of objects in memory,
and it sees the same. The two heaps stay coupled: the objects that the swap space
still has hold, in memory or on disk, what the ideal heap holds under their ids, and
every object that can be reached is still there.
-/

namespace BeTree

open Checked SwapSpace

variable {D B : Type}

namespace Program

/-- The objects have the contents of the ideal heap. -/
def Shows (codec : Codec D B) (objects : Dict Nat (Payload D)) (s : SwapSpace D B) : Prop :=
  ∀ i o, s.objects.get? i = some o → s.content codec o = objects.get? i

/-- What has been dereferenced through a pin is in memory, and dirty if it may be written to. -/
def Loads (pins : Dict Nat Pin) (s : SwapSpace D B) : Prop :=
  ∀ h pin o, pins.get? h = some pin → s.objects.get? pin.id = some o →
    (pin.loaded = true → o.target.isSome = true) ∧ (pin.dirty = true → o.targetIsDirty = true)

/-- The number of pins on an object. -/
def pinsOn (pins : Dict Nat Pin) (i : Nat) : Nat :=
  pins.total (fun _ pin => if pin.id = i then 1 else 0)

/-- **The coupling invariant.** -/
structure Coupled (codec : Codec D B) (t : Program (Ideal D)) (m : Program (Pinning D B)) : Prop where
  vars : m.vars = t.vars
  pins : m.pins = t.pins
  orderly : Pinning.Orderly m.heap
  pinned : ∀ i, m.heap.pins.count i = pinsOn t.pins i
  exact : Exact codec t.vars.values [] m.heap.ss
  full : Full codec m.heap.ss
  positive : ∀ i ∈ t.vars.values, 0 < i
  nextId : m.heap.ss.nextId = t.heap.nextId
  shows : Shows codec t.heap.objects m.heap.ss
  loads : Loads t.pins m.heap.ss

variable {codec : Codec D B} {t t' : Program (Ideal D)} {m m' : Program (Pinning D B)}
variable {s s' : SwapSpace D B} {roots : List Nat}

theorem Shows.of_preserves {objects : Dict Nat (Payload D)} (h : Shows codec objects s)
    (hk : Preserves codec s s') : Shows codec objects s' := by
  intro i o' ho'
  obtain ⟨o, ho, hc, _⟩ := hk.object i o' ho'
  exact hc.trans (h i o ho)

theorem Shows.set {objects : Dict Nat (Payload D)} {id : Nat} {o : Object D} {p : Payload D}
    (h : Shows codec objects s) : Shows codec (objects.set id p) (s.written id o p) := by
  intro i x hx
  rw [Dict.get?_set]
  rcases Dict.get?_set_eq_some.mp hx with ⟨rfl, rfl⟩ | ⟨hne, hx⟩
  · rw [if_pos rfl]
    exact content_target rfl
  · rw [if_neg hne]
    exact h i x hx

theorem Loads.of_preserves {pins : Dict Nat Pin} (h : Loads pins s) (hk : Preserves codec s s')
    (hpin : ∀ k pin o, pins.get? k = some pin → s.objects.get? pin.id = some o → 0 < o.pincount) :
    Loads pins s' := by
  intro k pin o' hk' ho'
  obtain ⟨o, ho, _, hkeep⟩ := hk.object pin.id o' ho'
  obtain ⟨ht, hd⟩ := hkeep (hpin k pin o hk' ho)
  obtain ⟨hl, hd'⟩ := h k pin o hk' ho
  exact ⟨fun hx => ht (hl hx), fun hx => hd (hd' hx)⟩

/-- Writing to an object that is in memory keeps it there. -/
theorem Loads.written {pins : Dict Nat Pin} {id : Nat} {o : Object D} {p : Payload D}
    (h : Loads pins s) (ho : s.objects.get? id = some o) : Loads pins (s.written id o p) := by
  intro k pin x hk hx
  rcases Dict.get?_set_eq_some.mp hx with ⟨hid, rfl⟩ | ⟨_, hx⟩
  · exact ⟨fun _ => rfl, (h k pin o hk (hid ▸ ho)).2⟩
  · exact h k pin x hk hx

theorem pinsOn_pos {pins : Dict Nat Pin} {k : Nat} {pin : Pin} (h : pins.get? k = some pin) :
    0 < pinsOn pins pin.id := by
  have hle := Dict.le_total (f := fun _ (q : Pin) => if q.id = pin.id then 1 else 0) h
  rw [if_pos rfl] at hle
  exact hle

/-- The object under a pin has a positive count of pins. -/
theorem Coupled.pincount (h : Coupled codec t m) (k : Nat) (pin : Pin) (o : Object D)
    (hk : t.pins.get? k = some pin) (ho : m.heap.ss.objects.get? pin.id = some o) :
    0 < o.pincount := by
  rw [h.orderly.pincount _ _ ho, h.pinned]
  exact pinsOn_pos hk

/-- **What can be reached is there.** -/
theorem exists_of_held {i : Nat} (hexact : Exact codec roots [] s) (hfull : Full codec s)
    (hshows : Shows codec t.heap.objects s) (hroots : ∀ i ∈ t.vars.values, i ∈ roots ∧ 0 < i)
    (h : t.Held i) : ∃ o, s.objects.get? i = some o := by
  induction h with
  | var hx =>
      obtain ⟨hmem, hpos⟩ := hroots _ (Dict.mem_values.mpr ⟨_, hx⟩)
      obtain ⟨o, ho, _⟩ := hexact.exists_of_root hpos hmem
      exact ⟨o, ho⟩
  | slot _ hp hj ih =>
      obtain ⟨o, ho⟩ := ih
      have hptrs := pointers_eq ((hshows _ _ ho).trans hp)
      rw [← hptrs] at hj
      obtain ⟨o', ho', _⟩ := hexact.exists_of_pointer ho (hfull _ _ ho _ hj) hj
      exact ⟨o', ho'⟩

theorem Coupled.held {i : Nat} (h : Coupled codec t m) (hi : t.Held i) :
    ∃ o, m.heap.ss.objects.get? i = some o :=
  exists_of_held h.exact h.full h.shows (fun i hi => ⟨hi, h.positive i hi⟩) hi

theorem Coupled.held_pos {i : Nat} (h : Coupled codec t m) (hi : t.Held i) : 0 < i := by
  obtain ⟨o, ho⟩ := h.held hi
  exact (h.exact.consistent.ids i o ho).1

/-! ## Looking at objects -/

/-- What a program sees over the ideal heap, it sees over the swap space. -/
theorem Coupled.view (h : Coupled codec t m) (href : t.Referenced) (k : Nat) :
    Yields (t.view idealHeap k) (fun r => t.pins.get? k = some r.1
      ∧ t.heap.objects.get? r.1.id = some r.2 ∧ t.Held r.1.id
      ∧ Ensures (m.view (swapHeap codec) k) (fun r' => r' = r
        ∧ ∃ o, m.heap.ss.objects.get? r.1.id = some o ∧ o.target = some r.2)) := by
  refine yields_need.bind (fun pin hpin => yields_check.bind (fun _ hl => ?_))
  refine yields_need.bind (fun p hp => yields_pure ⟨hpin, hp, href k pin hpin, ?_⟩)
  obtain ⟨o, ho⟩ := h.held (href k pin hpin)
  obtain ⟨q, hq⟩ := Option.isSome_iff_exists.mp ((h.loads k pin o hpin ho).1 hl)
  have hqp : q = p :=
    Option.some.inj ((content_target hq).symm.trans ((h.shows _ _ ho).trans hp))
  subst hqp
  refine (ensures_need (Q := fun x => x = pin) (by rw [h.pins]; exact hpin) rfl).bind
    (fun x hx => ?_)
  subst hx
  refine (ensures_check (S := fun _ => True) hl trivial).bind (fun _ _ => ?_)
  have hderef : (swapHeap codec).deref m.heap x.id = .ok q := by
    show (m.heap.ss.object x.id >>= _) = _
    rw [object_eq ho]
    show need SwapFault.nullTarget o.target = _
    rw [hq]
    rfl
  rw [hderef]
  exact ensures_pure ⟨rfl, o, ho, hq⟩

theorem Coupled.viewDirty (h : Coupled codec t m) (href : t.Referenced) (k : Nat) :
    Yields (t.viewDirty idealHeap k) (fun r => t.pins.get? k = some r.1 ∧ r.1.dirty = true
      ∧ t.heap.objects.get? r.1.id = some r.2 ∧ t.Held r.1.id
      ∧ Ensures (m.viewDirty (swapHeap codec) k) (fun r' => r' = r
        ∧ ∃ o, m.heap.ss.objects.get? r.1.id = some o ∧ o.target = some r.2
          ∧ o.targetIsDirty = true)) := by
  refine (h.view href k).bind (fun r ⟨hpin, hp, hheld, hview⟩ => yields_check.bind (fun _ hd => ?_))
  refine yields_pure ⟨hpin, hd, hp, hheld, ?_⟩
  refine hview.bind (fun r' ⟨hr', o, ho, ht⟩ => ?_)
  subst hr'
  refine (ensures_check (S := fun _ => True) hd trivial).bind (fun _ _ => ensures_pure ?_)
  exact ⟨rfl, o, ho, ht, (h.loads k _ o hpin ho).2 hd⟩

theorem Coupled.target (h : Coupled codec t m) (href : t.Referenced) (l : Loc) :
    Yields (t.target idealHeap l) (fun i => t.Held i
      ∧ Ensures (m.target (swapHeap codec) l) (fun i' => i' = i)) := by
  cases l with
  | var x =>
      refine yields_need.imp (fun i hi => ⟨.var hi, ?_⟩)
      exact ensures_need (by rw [h.vars]; exact hi) rfl
  | slot k j =>
      refine (h.view href k).bind (fun r ⟨_, hp, hheld, hview⟩ => yields_need.imp (fun i hi => ?_))
      refine ⟨.slot hheld hp (List.mem_of_getElem? hi), hview.bind (fun r' ⟨hr', _⟩ => ?_)⟩
      subst hr'
      exact ensures_need hi rfl

/-! ## Commands that leave the contents alone -/

/-- The coupling after a command that has not written to an object. -/
theorem Coupled.moved (h : Coupled codec t m) (hheap : t'.heap = t.heap)
    (hvars : m'.vars = t'.vars) (hpins : m'.pins = t'.pins) (horderly : Pinning.Orderly m'.heap)
    (hpinned : ∀ i, m'.heap.pins.count i = pinsOn t'.pins i)
    (hexact : Exact codec t'.vars.values [] m'.heap.ss)
    (hpos : ∀ i ∈ t'.vars.values, 0 < i) (hk : Preserves codec m.heap.ss m'.heap.ss)
    (hloads : Loads t'.pins m'.heap.ss) : Coupled codec t' m' := by
  refine ⟨hvars, hpins, horderly, hpinned, hexact, h.full.of_preserves hk, hpos, ?_, ?_, hloads⟩
  · rw [hk.nextId, hheap]
    exact h.nextId
  · rw [hheap]
    exact h.shows.of_preserves hk

/-- The same when the pins are as they were. -/
theorem Coupled.moved_vars {vars : Dict Nat Nat} {heap : Pinning D B} (h : Coupled codec t m)
    (horderly : Pinning.Orderly heap) (hpins : heap.pins = m.heap.pins)
    (hexact : Exact codec vars.values [] heap.ss) (hpos : ∀ i ∈ vars.values, 0 < i)
    (hk : Preserves codec m.heap.ss heap.ss) :
    Coupled codec { t with vars := vars } ⟨heap, vars, m.pins⟩ :=
  h.moved rfl rfl h.pins horderly (fun i => hpins ▸ h.pinned i) hexact hpos hk
    (h.loads.of_preserves hk h.pincount)

theorem Coupled.copy (h : Coupled codec t m) (hr : m.heap.ss.InRange) (href : t.Referenced)
    (x : Nat) (l : Loc) :
    Yields (t.exec idealHeap (.copy x l)) (fun r =>
      Ensures (m.exec (swapHeap codec) (.copy x l)) (fun r' => r'.1 = r.1
        ∧ Coupled codec r.2 r'.2)) := by
  refine yields_check.bind (fun _ hx => (h.target href l).bind (fun i ⟨hheld, htarget⟩ => ?_))
  refine yields_pure ?_
  refine (ensures_check (S := fun _ => True) (by rw [h.vars]; exact hx) trivial).bind (fun _ _ => ?_)
  refine htarget.bind (fun i' hi' => ?_)
  subst hi'
  have hcall : Ensures (m.heap.call codec (.copy i')) (fun q => q.pins = m.heap.pins
      ∧ Exact codec (i' :: t.vars.values) [] q.ss ∧ Keeps codec m.heap.ss q.ss) :=
    (ensures_addRef h.exact (fun _ => h.held hheld)).bind (fun s hs => ensures_pure ⟨rfl, hs⟩)
  refine (hcall.and (Pinning.yields_call h.orderly hr _)).bind
    (fun q ⟨⟨hpins, hexact, hk⟩, horderly⟩ => ensures_pure ⟨rfl, ?_⟩)
  have hfree := Option.isNone_iff_eq_none.mp hx
  rw [h.vars]
  refine h.moved_vars horderly hpins (hexact.roots_congr (fun j _ => ?_)) (fun j hj => ?_) hk.preserves
  · exact Dict.count_values_set_of_free hfree
  · obtain ⟨y, hy⟩ := Dict.mem_values.mp hj
    rcases Dict.get?_set_eq_some.mp hy with ⟨_, rfl⟩ | ⟨_, hy⟩
    · exact h.held_pos hheld
    · exact h.positive j (Dict.mem_values.mpr ⟨y, hy⟩)

theorem Coupled.destroy (h : Coupled codec t m) (hr : m.heap.ss.InRange) (x : Nat) :
    Yields (t.exec idealHeap (.destroy x)) (fun r =>
      Ensures (m.exec (swapHeap codec) (.destroy x)) (fun r' => r'.1 = r.1
        ∧ Coupled codec r.2 r'.2)) := by
  refine yields_need.bind (fun i hi => yields_pure ?_)
  refine (ensures_need (Q := fun i' => i' = i) (by rw [h.vars]; exact hi) rfl).bind
    (fun i' hi' => ?_)
  subst hi'
  have hroots : Exact codec (i' :: (t.vars.erase x).values) [] m.heap.ss :=
    h.exact.roots_congr (fun j _ => Dict.count_values_erase hi)
  have hcall : Ensures (m.heap.call codec (.destroy i')) (fun q => q.pins = m.heap.pins
      ∧ Exact codec (t.vars.erase x).values [] q.ss ∧ Keeps codec m.heap.ss q.ss) :=
    (ensures_release hroots).bind (fun s hs => ensures_pure ⟨rfl, hs⟩)
  refine (hcall.and (Pinning.yields_call h.orderly hr _)).bind
    (fun q ⟨⟨hpins, hexact, hk⟩, horderly⟩ => ensures_pure ⟨rfl, ?_⟩)
  rw [h.vars]
  refine h.moved_vars horderly hpins hexact (fun j hj => ?_) hk.preserves
  obtain ⟨y, hy⟩ := Dict.mem_values.mp hj
  exact h.positive j (Dict.mem_values.mpr ⟨y, (Dict.get?_erase_eq_some.mp hy).2⟩)

theorem Coupled.evictAll (h : Coupled codec t m) (hr : m.heap.ss.InRange) :
    Yields (t.exec idealHeap .evictAll) (fun r =>
      Ensures (m.exec (swapHeap codec) .evictAll) (fun r' => r'.1 = r.1
        ∧ Coupled codec r.2 r'.2)) := by
  refine yields_pure ?_
  have hcall : Ensures (m.heap.call codec .evictAll) (fun q => q.pins = m.heap.pins
      ∧ Exact codec t.vars.values [] q.ss ∧ Keeps codec m.heap.ss q.ss) :=
    (ensures_evictAll h.exact h.full).bind (fun s hs => ensures_pure ⟨rfl, hs⟩)
  refine (hcall.and (Pinning.yields_call h.orderly hr _)).bind
    (fun q ⟨⟨hpins, hexact, hk⟩, horderly⟩ => ensures_pure ⟨rfl, ?_⟩)
  rw [h.vars]
  exact h.moved_vars horderly hpins hexact h.positive hk.preserves

/-! ## Pins and accesses -/

/-- A pin that stays on its object. -/
theorem pinsOn_set_same {pins : Dict Nat Pin} {k : Nat} {pin pin' : Pin}
    (h : pins.get? k = some pin) (hid : pin'.id = pin.id) (j : Nat) :
    pinsOn (pins.set k pin') j = pinsOn pins j := by
  have htotal : (pins.set k pin').total (fun _ p => if p.id = j then 1 else 0)
      + (if pin.id = j then 1 else 0)
        = pins.total (fun _ p => if p.id = j then 1 else 0) + (if pin'.id = j then 1 else 0) :=
    Dict.total_set h
  rw [hid] at htotal
  exact Nat.add_right_cancel htotal

theorem pinsOn_set_of_free {pins : Dict Nat Pin} {k i : Nat} {pin : Pin} (h : pins.get? k = none) :
    pinsOn (pins.set k pin) i = (if pin.id = i then 1 else 0) + pinsOn pins i := by
  unfold pinsOn
  rw [Dict.total_set_of_free h, Nat.add_comm]

theorem pinsOn_erase {pins : Dict Nat Pin} {k i : Nat} {pin : Pin} (h : pins.get? k = some pin) :
    pinsOn (pins.erase k) i + (if pin.id = i then 1 else 0) = pinsOn pins i :=
  Dict.total_erase (f := fun _ (q : Pin) => if q.id = i then 1 else 0) h

theorem Preserves.repinned {id c : Nat} {o : Object D} (ho : s.objects.get? id = some o) :
    Preserves codec s (s.repinned id o c) := by
  refine ⟨fun i x hx => ?_, rfl⟩
  rcases Dict.get?_set_eq_some.mp hx with ⟨rfl, rfl⟩ | ⟨_, hx⟩
  · exact ⟨o, ho, rfl, fun _ => ⟨fun ht => ht, fun hd => hd⟩⟩
  · exact ⟨x, hx, rfl, fun _ => ⟨fun ht => ht, fun hd => hd⟩⟩

theorem Coupled.pin (h : Coupled codec t m) (hr : m.heap.ss.InRange) (href : t.Referenced)
    (k : Nat) (l : Loc) :
    Yields (t.exec idealHeap (.pin k l)) (fun r =>
      Ensures (m.exec (swapHeap codec) (.pin k l)) (fun r' => r'.1 = r.1
        ∧ Coupled codec r.2 r'.2)) := by
  refine yields_check.bind (fun _ hk => (h.target href l).bind (fun i ⟨hheld, htarget⟩ => ?_))
  refine yields_pure ?_
  refine (ensures_check (S := fun _ => True) (by rw [h.pins]; exact hk) trivial).bind (fun _ _ => ?_)
  refine htarget.bind (fun i' hi' => ?_)
  subst hi'
  obtain ⟨o, ho⟩ := h.held hheld
  have hpos := h.held_pos hheld
  have hfree := Option.isNone_iff_eq_none.mp hk
  have hcall : Ensures (m.heap.call codec (.pin i')) (fun q => q.pins = i' :: m.heap.pins
      ∧ q.ss = m.heap.ss.repinned i' o (o.pincount + 1)) := by
    exact (ensures_doPin ho hpos).bind (fun s hs => ensures_pure ⟨rfl, hs⟩)
  refine (hcall.and (Pinning.yields_call h.orderly hr _)).bind
    (fun q ⟨⟨hpins, hss⟩, horderly⟩ => ensures_pure ⟨rfl, ?_⟩)
  have hpres : Preserves codec m.heap.ss q.ss := hss ▸ Preserves.repinned ho
  rw [h.pins]
  refine h.moved rfl h.vars rfl horderly (fun j => ?_) (hss ▸ h.exact.repinned ho) h.positive hpres
    (fun y pin x hy hx => ?_)
  · show q.pins.count j = _
    rw [hpins, pinsOn_set_of_free hfree, List.count_cons, h.pinned, Nat.add_comm]
    congr 1
    by_cases hj : i' = j
    · rw [if_pos hj, if_pos (beq_iff_eq.mpr hj)]
    · rw [if_neg hj, if_neg (fun hb => hj (beq_iff_eq.mp hb))]
  · rcases Dict.get?_set_eq_some.mp hy with ⟨_, rfl⟩ | ⟨_, hy⟩
    · -- the new pin has not been dereferenced
      exact ⟨fun hl => absurd hl (by simp), fun hd => absurd hd (by simp)⟩
    · exact h.loads.of_preserves hpres h.pincount y pin x hy hx

theorem Coupled.access (h : Coupled codec t m) (hr : m.heap.ss.InRange) (href : t.Referenced)
    (k : Nat) (dirty : Bool) :
    Yields (t.exec idealHeap (.access k dirty)) (fun r =>
      Ensures (m.exec (swapHeap codec) (.access k dirty)) (fun r' => r'.1 = r.1
        ∧ Coupled codec r.2 r'.2)) := by
  refine yields_need.bind (fun pin hpin => yields_pure ?_)
  refine (ensures_need (Q := fun pin' => pin' = pin) (by rw [h.pins]; exact hpin) rfl).bind
    (fun pin' hpin' => ?_)
  subst hpin'
  obtain ⟨o, ho⟩ := h.held (href k pin' hpin)
  have hmem : pin'.id ∈ m.heap.pins := by
    rw [← List.count_pos_iff, h.pinned]
    exact pinsOn_pos hpin
  have hcall : Ensures (m.heap.call codec (.access pin'.id dirty)) (fun q => q.pins = m.heap.pins
      ∧ Exact codec t.vars.values [] q.ss ∧ Preserves codec m.heap.ss q.ss
      ∧ ∀ o', q.ss.objects.get? pin'.id = some o' → o'.target.isSome = true
        ∧ (dirty = true → o'.targetIsDirty = true)) := by
    refine (ensures_check (S := fun _ => True) (decide_eq_true hmem) trivial).bind (fun _ _ => ?_)
    exact (ensures_access dirty h.exact hr h.full ho (h.pincount k pin' o hpin ho)).bind
      (fun s hs => ensures_pure ⟨rfl, hs⟩)
  refine (hcall.and (Pinning.yields_call h.orderly hr _)).bind
    (fun q ⟨⟨hpins, hexact, hpres, hself⟩, horderly⟩ => ensures_pure ⟨rfl, ?_⟩)
  rw [h.pins]
  have hloads := h.loads.of_preserves hpres h.pincount
  refine h.moved rfl h.vars rfl horderly (fun j => ?_) hexact h.positive hpres
    (fun y pin x hy hx => ?_)
  · show q.pins.count j = _
    rw [hpins, h.pinned]
    have hid : (⟨pin'.id, true, pin'.dirty || dirty⟩ : Pin).id = pin'.id := rfl
    exact (pinsOn_set_same hpin hid j).symm
  · rcases Dict.get?_set_eq_some.mp hy with ⟨rfl, rfl⟩ | ⟨_, hy⟩
    · obtain ⟨ht, hd⟩ := hself x hx
      -- the pin was dirty already, or this access makes it so
      refine ⟨fun _ => ht, fun hdirty => ?_⟩
      rcases Bool.or_eq_true_iff.mp hdirty with hdirty | hdirty
      · exact (hloads y pin' x hpin hx).2 hdirty
      · exact hd hdirty
    · exact hloads y pin x hy hx

theorem Coupled.unpin (h : Coupled codec t m) (hr : m.heap.ss.InRange) (href : t.Referenced)
    (k : Nat) :
    Yields (t.exec idealHeap (.unpin k)) (fun r =>
      Ensures (m.exec (swapHeap codec) (.unpin k)) (fun r' => r'.1 = r.1
        ∧ Coupled codec r.2 r'.2)) := by
  refine yields_need.bind (fun pin hpin => yields_pure ?_)
  refine (ensures_need (Q := fun pin' => pin' = pin) (by rw [h.pins]; exact hpin) rfl).bind
    (fun pin' hpin' => ?_)
  subst hpin'
  have hheld := href k pin' hpin
  obtain ⟨o, ho⟩ := h.held hheld
  have hcount := h.pincount k pin' o hpin ho
  have hmem : pin'.id ∈ m.heap.pins := by
    rw [← List.count_pos_iff, h.pinned]
    exact pinsOn_pos hpin
  have hcall : Ensures (m.heap.call codec (.unpin pin'.id)) (fun q =>
      q.pins = m.heap.pins.erase pin'.id ∧ Exact codec t.vars.values [] q.ss
      ∧ Keeps codec (m.heap.ss.repinned pin'.id o (o.pincount - 1)) q.ss) := by
    refine (ensures_check (S := fun _ => True) (decide_eq_true hmem) trivial).bind (fun _ _ => ?_)
    exact (ensures_unpin h.exact h.full ho (h.held_pos hheld) hcount).bind
      (fun s hs => ensures_pure ⟨rfl, hs⟩)
  refine (hcall.and (Pinning.yields_call h.orderly hr _)).bind
    (fun q ⟨⟨hpins, hexact, hk⟩, horderly⟩ => ensures_pure ⟨rfl, ?_⟩)
  rw [h.pins]
  have hcounts : ∀ j, (m.heap.pins.erase pin'.id).count j = pinsOn (t.pins.erase k) j := by
    intro j
    have herase := pinsOn_erase (i := j) hpin
    rw [← h.pinned] at herase
    by_cases hj : pin'.id = j
    · rw [if_pos hj] at herase
      rw [hj, List.count_erase_self]
      omega
    · rw [if_neg hj] at herase
      rw [List.count_erase_of_ne (Ne.symm hj)]
      omega
  refine ⟨h.vars, rfl, horderly, fun j => ?_, hexact, ?_, h.positive, ?_, ?_, ?_⟩
  · show q.pins.count j = _
    rw [hpins, hcounts]
  · exact (h.full.repinned ho).of_keeps hk
  · exact hk.nextId.trans h.nextId
  · exact (h.shows.of_preserves (Preserves.repinned ho)).of_preserves hk.preserves
  · -- the pins that are left still count
    have hloads : Loads (t.pins.erase k) (m.heap.ss.repinned pin'.id o (o.pincount - 1)) := by
      intro y pin x hy hx
      obtain ⟨_, hy⟩ := Dict.get?_erase_eq_some.mp hy
      have hpres : Preserves codec m.heap.ss (m.heap.ss.repinned pin'.id o (o.pincount - 1)) :=
        Preserves.repinned ho
      exact h.loads.of_preserves hpres h.pincount y pin x hy hx
    refine hloads.of_preserves hk.preserves (fun y pin x hy hx => ?_)
    have hpos := pinsOn_pos hy
    rw [← hcounts] at hpos
    rcases Dict.get?_set_eq_some.mp hx with ⟨hid, rfl⟩ | ⟨hne, hx⟩
    · rw [hid, List.count_erase_self, ← h.orderly.pincount _ _ ho] at hpos
      exact hpos
    · rw [List.count_erase_of_ne hne, ← h.orderly.pincount _ _ hx] at hpos
      exact hpos

/-! ## Commands that write -/

theorem Coupled.allocate (h : Coupled codec t m) (hr : m.heap.ss.InRange) (x : Nat) (d : D) :
    Yields (t.exec idealHeap (.allocate x d)) (fun r =>
      Ensures (m.exec (swapHeap codec) (.allocate x d)) (fun r' => r'.1 = r.1
        ∧ Coupled codec r.2 r'.2)) := by
  refine yields_check.bind (fun _ hx => yields_pure ?_)
  refine (ensures_check (S := fun _ => True) (by rw [h.vars]; exact hx) trivial).bind (fun _ _ => ?_)
  have hfree := Option.isNone_iff_eq_none.mp hx
  have hcall : Ensures (m.heap.call codec (.allocate ⟨d, []⟩)) (fun q => q.pins = m.heap.pins
      ∧ Exact codec (m.heap.ss.newId :: t.vars.values) [] q.ss
      ∧ Keeps codec (m.heap.ss.entered ⟨d, []⟩) q.ss) :=
    (ensures_allocate h.exact hr h.full rfl).bind (fun r ⟨hr, hexact, hk⟩ =>
      ensures_pure ⟨rfl, hr ▸ hexact, hk⟩)
  have hop : Ensures ((swapHeap codec).allocate m.heap ⟨d, []⟩) (fun r =>
      r.1 = m.heap.ss.newId ∧ Pinning.Orderly r.2 ∧ r.2.pins = m.heap.pins
      ∧ Exact codec (m.heap.ss.newId :: t.vars.values) [] r.2.ss
      ∧ Keeps codec (m.heap.ss.entered ⟨d, []⟩) r.2.ss) :=
    (hcall.and (Pinning.yields_call h.orderly hr _)).bind
      (fun q ⟨hq, horderly⟩ => ensures_pure ⟨rfl, horderly, hq⟩)
  refine hop.bind (fun r ⟨hid, horderly, hpins, hexact, hk⟩ => ensures_pure ⟨rfl, ?_⟩)
  have hnew := newId_eq hr
  rw [h.nextId] at hnew
  rw [h.vars, hid, hnew]
  rw [hnew] at hexact
  have hold : ∀ {i y}, (m.heap.ss.entered ⟨d, []⟩).objects.get? i = some y →
      (i = t.heap.nextId + 1 ∧ y = Object.create ⟨d, []⟩ m.heap.ss.now)
        ∨ (i ≠ t.heap.nextId + 1 ∧ m.heap.ss.objects.get? i = some y) :=
    fun hy => hnew ▸ Dict.get?_set_eq_some.mp hy
  refine ⟨rfl, h.pins, horderly, fun i => hpins ▸ h.pinned i,
    hexact.roots_congr (fun j _ => Dict.count_values_set_of_free hfree),
    (h.full.entered rfl).of_keeps hk, fun j hj => ?_, ?_, fun i o' ho' => ?_, ?_⟩
  · obtain ⟨y, hy⟩ := Dict.mem_values.mp hj
    rcases Dict.get?_set_eq_some.mp hy with ⟨_, rfl⟩ | ⟨_, hy⟩
    · exact Nat.succ_pos _
    · exact h.positive j (Dict.mem_values.mpr ⟨y, hy⟩)
  · rw [hk.nextId]
    show m.heap.ss.nextId + 2 = _
    rw [h.nextId]
  · obtain ⟨o, ho, hc, _⟩ := hk.object i o' ho'
    show _ = (t.heap.objects.set (t.heap.nextId + 1) ⟨d, []⟩).get? i
    rw [hc, Dict.get?_set]
    rcases hold ho with ⟨hi, rfl⟩ | ⟨hne, ho⟩
    · rw [if_pos hi]
      exact content_target rfl
    · rw [if_neg hne]
      exact h.shows i o ho
  · -- no pin is on the new object, whose id is new
    have hloads : Loads t.pins (m.heap.ss.entered ⟨d, []⟩) := by
      intro k pin o hk ho
      rcases hold ho with ⟨_, rfl⟩ | ⟨_, ho⟩
      · exact ⟨fun _ => rfl, fun _ => rfl⟩
      · exact h.loads k pin o hk ho
    refine hloads.of_preserves hk.preserves (fun k pin o hk ho => ?_)
    rcases hold ho with ⟨hi, _⟩ | ⟨_, ho⟩
    · have hmem : pin.id ∈ m.heap.pins := by
        rw [← List.count_pos_iff, h.pinned]
        exact pinsOn_pos hk
      have := h.orderly.bound _ hmem
      rw [h.nextId] at this
      omega
    · exact h.pincount k pin o hk ho

/-- The coupling after a write to an object and a change of the counts it makes necessary. -/
theorem Coupled.stored {id : Nat} {o : Object D} {p : Payload D} {heap : Pinning D B}
    (h : Coupled codec t m) (hs : Shows codec t.heap.objects s) (hl : Loads t.pins s)
    (ho : s.objects.get? id = some o) (hnext : s.nextId = m.heap.ss.nextId)
    (hpin : ∀ k pin x, t.pins.get? k = some pin → s.objects.get? pin.id = some x → 0 < x.pincount)
    (horderly : Pinning.Orderly heap) (hpins : heap.pins = m.heap.pins)
    (hexact : Exact codec t.vars.values [] heap.ss) (hfull : Full codec (s.written id o p))
    (hk : Preserves codec (s.written id o p) heap.ss) :
    Coupled codec { t with heap := { t.heap with objects := t.heap.objects.set id p } }
      { m with heap := heap } := by
  refine ⟨h.vars, h.pins, horderly, fun i => hpins ▸ h.pinned i, hexact, hfull.of_preserves hk,
    h.positive, hk.nextId.trans (hnext.trans h.nextId), hs.set.of_preserves hk, ?_⟩
  refine (hl.written ho).of_preserves hk (fun k pin x hk' hx => ?_)
  rcases Dict.get?_set_eq_some.mp hx with ⟨hid, rfl⟩ | ⟨_, hx⟩
  · exact hpin k pin o hk' (hid ▸ ho)
  · exact hpin k pin x hk' hx

theorem Coupled.modify (h : Coupled codec t m) (hr : m.heap.ss.InRange) (href : t.Referenced)
    (k : Nat) (d : D) :
    Yields (t.exec idealHeap (.modify k d)) (fun r =>
      Ensures (m.exec (swapHeap codec) (.modify k d)) (fun r' => r'.1 = r.1
        ∧ Coupled codec r.2 r'.2)) := by
  refine (h.viewDirty href k).bind (fun r ⟨_, _, hp, _, hview⟩ => yields_pure ?_)
  refine hview.bind (fun r' ⟨hr', o, ho, ht, hd⟩ => ?_)
  subst hr'
  have hcall : Ensures (m.heap.call codec (.store r'.1.id ⟨d, r'.2.ptrs⟩)) (fun q =>
      q.pins = m.heap.pins ∧ q.ss = m.heap.ss.written r'.1.id o ⟨d, r'.2.ptrs⟩) :=
    (ensures_store ho ht).bind (fun s hs => ensures_pure ⟨rfl, hs⟩)
  refine (hcall.and (Pinning.yields_call h.orderly hr _)).bind
    (fun q ⟨⟨hpins, hss⟩, horderly⟩ => ensures_pure ⟨rfl, ?_⟩)
  have hfull : Full codec (m.heap.ss.written r'.1.id o ⟨d, r'.2.ptrs⟩) :=
    h.full.written (fun j hj => h.full _ o ho j (by rw [pointers_eq (content_target ht)]; exact hj))
  exact h.stored h.shows h.loads ho rfl h.pincount horderly hpins
    (hss ▸ h.exact.written ho ht hd (fun _ _ => rfl)) hfull (hss ▸ Keeps.refl.preserves)

theorem Coupled.link (h : Coupled codec t m) (hr : m.heap.ss.InRange) (href : t.Referenced)
    (k i x : Nat) :
    Yields (t.exec idealHeap (.link k i x)) (fun r =>
      Ensures (m.exec (swapHeap codec) (.link k i x)) (fun r' => r'.1 = r.1
        ∧ Coupled codec r.2 r'.2)) := by
  refine (h.viewDirty href k).bind (fun r ⟨hpin, _, hp, hheld, hview⟩ => ?_)
  refine yields_check.bind (fun _ hi => yields_need.bind (fun j hj => yields_pure ?_))
  refine hview.bind (fun r' ⟨hr', w, hw, htw, hdw⟩ => ?_)
  subst hr'
  refine (ensures_check (S := fun _ => True) hi trivial).bind (fun _ _ => ?_)
  refine (ensures_need (Q := fun j' => j' = j) (by rw [h.vars]; exact hj) rfl).bind (fun j' hj' => ?_)
  subst hj'
  have hcopy : Ensures (m.heap.call codec (.copy j')) (fun q => q.pins = m.heap.pins
      ∧ Exact codec (j' :: t.vars.values) [] q.ss ∧ Keeps codec m.heap.ss q.ss) :=
    (ensures_addRef h.exact (fun _ => h.held (.var hj))).bind (fun s hs => ensures_pure ⟨rfl, hs⟩)
  have hcall := (Pinning.yields_call h.orderly hr (.copy j')).and
    (Pinning.yields_call_advances codec m.heap (.copy j'))
  refine (hcopy.and hcall).bind (fun q ⟨⟨hpins, hexact, hk⟩, horderly, hadv⟩ => ?_)
  have hrange := hadv.inRange_iff.mpr hr
  have hpres := hk.preserves
  have hfull := h.full.of_preserves hpres
  have hshows := h.shows.of_preserves hpres
  have hpin' : ∀ k pin y, t.pins.get? k = some pin → q.ss.objects.get? pin.id = some y →
      0 < y.pincount := by
    intro k pin y hk' hy
    obtain ⟨z, hz, _, hpz, _⟩ := hk.object pin.id y hy
    rw [hpz]
    exact h.pincount k pin z hk' hz
  -- the object that is written to can be reached, so it is still there, and it is pinned
  obtain ⟨o, ho⟩ := exists_of_held hexact hfull hshows
    (fun y hy => ⟨List.mem_cons_of_mem _ hy, h.positive y hy⟩) hheld
  obtain ⟨z, hz, _, _, hkeep⟩ := hk.object _ o ho
  rw [hw] at hz
  injection hz with hz
  obtain ⟨ht, hd⟩ := hkeep (hz ▸ h.pincount k r'.1 w hpin hw)
  rw [← hz, htw] at ht
  rw [← hz, hdw] at hd
  have hstore : Ensures (q.call codec (.store r'.1.id ⟨r'.2.data, r'.2.ptrs.insertIdx i j'⟩)) (fun q' =>
      q'.pins = q.pins
        ∧ q'.ss = q.ss.written r'.1.id o ⟨r'.2.data, r'.2.ptrs.insertIdx i j'⟩) :=
    (ensures_store ho ht).bind (fun s hs => ensures_pure ⟨rfl, hs⟩)
  refine (hstore.and (Pinning.yields_call horderly hrange _)).bind
    (fun q' ⟨⟨hpins', hss⟩, horderly'⟩ => ensures_pure ⟨rfl, ?_⟩)
  have hperm := List.perm_insertIdx j' r'.2.ptrs (of_decide_eq_true hi)
  refine h.stored hshows (h.loads.of_preserves hpres h.pincount) ho hk.nextId hpin' horderly'
    (hpins'.trans hpins) (hss ▸ hexact.written ho ht hd (fun y _ => ?_)) ?_
    (hss ▸ Keeps.refl.preserves)
  · rw [hperm.count_eq, List.count_cons, List.count_cons]
    omega
  · refine hfull.written (fun y hy => ?_)
    rcases List.mem_cons.mp (hperm.mem_iff.mp hy) with rfl | hy
    · exact h.held_pos (.var hj)
    · exact hfull _ o ho y (by rw [pointers_eq (content_target ht)]; exact hy)

theorem Coupled.unlink (h : Coupled codec t m) (hr : m.heap.ss.InRange) (href : t.Referenced)
    (k i : Nat) :
    Yields (t.exec idealHeap (.unlink k i)) (fun r =>
      Ensures (m.exec (swapHeap codec) (.unlink k i)) (fun r' => r'.1 = r.1
        ∧ Coupled codec r.2 r'.2)) := by
  refine (h.viewDirty href k).bind (fun r ⟨_, _, hp, _, hview⟩ => ?_)
  refine yields_need.bind (fun j hj => yields_pure ?_)
  refine hview.bind (fun r' ⟨hr', o, ho, ht, hd⟩ => ?_)
  subst hr'
  refine (ensures_need (Q := fun j' => j' = j) hj rfl).bind (fun j' hj' => ?_)
  subst hj'
  have hstore : Ensures (m.heap.call codec (.store r'.1.id ⟨r'.2.data, r'.2.ptrs.eraseIdx i⟩))
      (fun q => q.pins = m.heap.pins
        ∧ q.ss = m.heap.ss.written r'.1.id o ⟨r'.2.data, r'.2.ptrs.eraseIdx i⟩) :=
    (ensures_store ho ht).bind (fun s hs => ensures_pure ⟨rfl, hs⟩)
  refine (hstore.and (Pinning.yields_call h.orderly hr _)).bind (fun q ⟨⟨hpins, hss⟩, horderly⟩ => ?_)
  have hrange : q.ss.InRange := hss ▸ hr
  obtain ⟨hlt, hget⟩ := List.getElem?_eq_some_iff.mp hj
  have hperm := List.getElem_cons_eraseIdx_perm hlt
  rw [hget] at hperm
  -- the pointer that has been taken out still counts, until it is destroyed
  have hexact : Exact codec (j' :: t.vars.values) [] q.ss := by
    refine hss ▸ h.exact.written ho ht hd (fun y _ => ?_)
    rw [← hperm.count_eq, List.count_cons, List.count_cons]
    dsimp only
    omega
  have hdestroy : Ensures (q.call codec (.destroy j')) (fun q' => q'.pins = q.pins
      ∧ Exact codec t.vars.values [] q'.ss ∧ Keeps codec q.ss q'.ss) :=
    (ensures_release hexact).bind (fun s hs => ensures_pure ⟨rfl, hs⟩)
  refine (hdestroy.and (Pinning.yields_call horderly hrange _)).bind
    (fun q' ⟨⟨hpins', hexact', hk⟩, horderly'⟩ => ensures_pure ⟨rfl, ?_⟩)
  refine h.stored h.shows h.loads ho rfl h.pincount horderly' (hpins'.trans hpins) hexact' ?_
    (hss ▸ hk.preserves)
  refine h.full.written (fun y hy => h.full _ o ho y ?_)
  rw [pointers_eq (content_target ht)]
  exact hperm.mem_iff.mp (List.mem_cons_of_mem _ hy)

/-! ## Programs -/

/-- **One command.** -/
theorem Coupled.exec (h : Coupled codec t m) (hr : m.heap.ss.InRange) (href : t.Referenced)
    (c : HeapCmd D) : Yields (t.exec idealHeap c) (fun r =>
      Ensures (m.exec (swapHeap codec) c) (fun r' => r'.1 = r.1 ∧ Coupled codec r.2 r'.2)) := by
  cases c with
  | allocate x d => exact h.allocate hr x d
  | copy x l => exact h.copy hr href x l
  | destroy x => exact h.destroy hr x
  | pin k l => exact h.pin hr href k l
  | access k dirty => exact h.access hr href k dirty
  | read k =>
      refine (h.view href k).bind (fun r ⟨_, _, _, hview⟩ => yields_pure ?_)
      refine hview.bind (fun r' ⟨hr', _⟩ => ensures_pure ⟨?_, h⟩)
      rw [hr']
  | modify k d => exact h.modify hr href k d
  | link k i x => exact h.link hr href k i x
  | unlink k i => exact h.unlink hr href k i
  | unpin k => exact h.unpin hr href k
  | evictAll => exact h.evictAll hr

/-- The ids and the access times that are left for `k` more commands. -/
def Spare (k : Nat) (s : SwapSpace D B) : Prop :=
  s.nextId + 2 * k ≤ 2 ^ 64 ∧ s.nextAccessTime + k < 2 ^ 64

theorem Spare.inRange {k : Nat} (h : Spare (k + 1) s) : s.InRange := by
  obtain ⟨_, _⟩ := h
  exact ⟨by omega, by omega⟩

theorem Spare.advances {k ids times : Nat} (h : Spare (k + 1) s) (ha : Advances ids times s s')
    (hids : ids ≤ 2) (htimes : times ≤ 1) : Spare k s' := by
  obtain ⟨_, _⟩ := h
  refine ⟨?_, ?_⟩
  · rw [ha.nextId]
    omega
  · rw [ha.nextAccessTime]
    omega

theorem Spare.still {k : Nat} (h : Spare k s) (ha : Advances 0 0 s s') : Spare k s' := by
  unfold Spare
  rw [ha.nextId, ha.nextAccessTime]
  exact h

/-- **A command** uses up what is left for one. -/
theorem yields_exec_spare {k : Nat} (c : HeapCmd D) (h : Spare (k + 1) m.heap.ss) :
    Yields (m.exec (swapHeap codec) c) (fun r => Spare k r.2.heap.ss) := by
  have hcall : ∀ c : Call D, Yields (m.heap.call codec c) (fun q => Spare k q.ss) := fun c =>
    (Pinning.yields_call_advances codec m.heap c).imp
      (fun q hq => h.advances hq c.ids_le c.times_le)
  have hnone : Spare k m.heap.ss := ⟨by have := h.1; omega, by have := h.2; omega⟩
  cases c with
  | allocate x d =>
      refine yields_then (fun _ => Yields.bind (Q := fun r => Spare k r.2.ss) ?_
        (fun r hr => yields_pure hr))
      exact (hcall (.allocate ⟨d, []⟩)).bind (fun q hq => yields_pure hq)
  | copy x l =>
      exact yields_then (fun _ => yields_then (fun i => (hcall (.copy i)).bind
        (fun q hq => yields_pure hq)))
  | destroy x => exact yields_then (fun i => (hcall (.destroy i)).bind (fun q hq => yields_pure hq))
  | pin y l =>
      exact yields_then (fun _ => yields_then (fun i => (hcall (.pin i)).bind
        (fun q hq => yields_pure hq)))
  | access y dirty =>
      exact yields_then (fun pin => (hcall (.access pin.id dirty)).bind (fun q hq => yields_pure hq))
  | read y => exact yields_then (fun r => yields_pure hnone)
  | modify y d =>
      exact yields_then (fun r => (hcall (.store r.1.id ⟨d, r.2.ptrs⟩)).bind
        (fun q hq => yields_pure hq))
  | link y i x =>
      refine yields_then (fun r => yields_then (fun _ => yields_then (fun j => ?_)))
      refine (hcall (.copy j)).bind (fun q hq => ?_)
      exact (Pinning.yields_call_advances codec q (.store r.1.id ⟨r.2.data, r.2.ptrs.insertIdx i j⟩)).bind
        (fun q' hq' => yields_pure (hq.still hq'))
  | unlink y i =>
      refine yields_then (fun r => yields_then (fun j => ?_))
      refine (hcall (.store r.1.id ⟨r.2.data, r.2.ptrs.eraseIdx i⟩)).bind (fun q hq => ?_)
      exact (Pinning.yields_call_advances codec q (.destroy j)).bind
        (fun q' hq' => yields_pure (hq.still hq'))
  | unpin y => exact yields_then (fun pin => (hcall (.unpin pin.id)).bind (fun q hq => yields_pure hq))
  | evictAll => exact (hcall .evictAll).bind (fun q hq => yields_pure hq)

/-- **A whole program**, by induction on its commands. -/
theorem Coupled.run {cs : List (HeapCmd D)} (h : Coupled codec t m) (hs : Spare cs.length m.heap.ss)
    (hlegal : Legal t cs) : Yields (t.run idealHeap cs) (fun r =>
      Ensures (m.run (swapHeap codec) cs) (fun r' => r'.1 = r.1 ∧ Coupled codec r.2 r'.2)) := by
  induction cs generalizing t m with
  | nil => exact yields_pure (ensures_pure ⟨rfl, h⟩)
  | cons c cs ih =>
      obtain ⟨href, hnext⟩ := hlegal
      intro r hr
      unfold Program.run at hr ⊢
      cases hexec : t.exec idealHeap c with
      | error e =>
          rw [hexec] at hr
          cases hr
      | ok r₁ =>
          rw [hexec] at hr
          refine ((h.exec hs.inRange href c r₁ hexec).and (yields_exec_spare c hs)).bind
            (fun r₁' ⟨⟨hseen, hcoupled⟩, hspare⟩ => ?_)
          have hrest : Yields (r₁.2.run idealHeap cs >>= fun q =>
              (pure (r₁.1.toList ++ q.1, q.2) : Except SwapFault _)) (fun r =>
              Ensures (r₁'.2.run (swapHeap codec) cs >>= fun q =>
                (pure (r₁'.1.toList ++ q.1, q.2) : Except SwapFault _))
                (fun r' => r'.1 = r.1 ∧ Coupled codec r.2 r'.2)) := by
            refine (ih hcoupled hspare (hnext r₁.1 r₁.2 hexec)).bind (fun q hq => yields_pure ?_)
            refine hq.bind (fun q' ⟨hq', hc'⟩ => ensures_pure ⟨?_, hc'⟩)
            rw [hseen, hq']
          exact hrest r hr

theorem coupled_create (codec : Codec D B) (n : Nat) :
    Coupled codec (Program.ideal : Program (Ideal D)) (Program.create n) := by
  have hnone : ∀ i, (Program.create n : Program (Pinning D B)).heap.ss.objects.get? i = none :=
    fun _ => rfl
  refine ⟨rfl, rfl, Pinning.orderly_create, fun _ => rfl, ?_, fun i o ho => ?_, fun i hi => ?_, rfl,
    fun i o ho => ?_, fun k pin o hk => ?_⟩
  · refine ⟨Pinning.orderly_create.consistent, ⟨Nat.le_refl 1, Nat.two_pow_pos 64⟩, fun j _ => rfl,
      fun i o ho => ?_, fun i o ho => ?_,
      ⟨fun i o ho => ?_, fun i j o o' ho => ?_, fun b hb => ?_, fun b hb => ?_, List.nodup_nil,
        fun b hb => ?_, Nat.one_pos⟩⟩
    · exact absurd ho (by rw [hnone]; simp)
    · exact absurd ho (by rw [hnone]; simp)
    · exact absurd ho (by rw [hnone]; simp)
    · exact absurd ho (by rw [hnone]; simp)
    · exact absurd hb (by simp [Program.create, Pinning.create, SwapSpace.create, BackingStore.create])
    · exact absurd hb (by simp)
    · exact absurd hb (by simp [Program.create, Pinning.create, SwapSpace.create, BackingStore.create])
  · exact absurd ho (by rw [hnone]; simp)
  · exact absurd hi (by simp [Program.ideal, Dict.values, Dict.empty])
  · exact absurd ho (by rw [hnone]; simp)
  · exact absurd hk (by simp [Program.ideal])

theorem Referenced.of_vars (h : ∀ pin ∈ t.pins.values, pin.id ∈ t.vars.values) : t.Referenced := by
  intro k pin hk
  obtain ⟨x, hx⟩ := Dict.mem_values.mp (h pin (Dict.mem_values.mpr ⟨k, hk⟩))
  exact .var hx

theorem Legal.cons {c : HeapCmd D} {cs : List (HeapCmd D)} {seen : Option (Payload D)}
    (href : ∀ pin ∈ t.pins.values, pin.id ∈ t.vars.values)
    (hexec : t.exec idealHeap c = .ok (seen, t')) (h : Legal t' cs) : Legal t (c :: cs) := by
  refine ⟨.of_vars href, fun seen' t'' ht'' => ?_⟩
  rw [hexec] at ht''
  injection ht'' with ht''
  injection ht'' with _ ht''
  exact ht'' ▸ h

/-- What every legal program comes to over the swap space, if it is not too long. -/
theorem ensures_run (codec : Codec D B) (n : Nat) {cs : List (HeapCmd D)} {seen : List (Payload D)}
    (hlen : cs.length < 2 ^ 63) (hlegal : Legal Program.ideal cs)
    (hrun : Program.ideal.run idealHeap cs = .ok (seen, t)) :
    ∃ m, (Program.create n).run (swapHeap codec) cs = .ok (seen, m) ∧ Coupled codec t m := by
  have hspare : Spare cs.length (Program.create n : Program (Pinning D B)).heap.ss := by
    show 1 + 2 * cs.length ≤ 2 ^ 64 ∧ 0 + cs.length < 2 ^ 64
    omega
  obtain ⟨⟨seen', m⟩, hm, hseen, hc⟩ := (coupled_create codec n).run hspare hlegal _ hrun
  have hseen : seen' = seen := hseen
  subst hseen
  exact ⟨m, hm, hc⟩

/-! ## When the ids wrap around -/

/-- The destruction of the only pointer to an object that has just been allocated. -/
theorem release_created {codec : Codec D B} {s : SwapSpace D B} {id time : Nat} {d : D} (hid : id ≠ 0)
    (ho : s.objects.get? id = some (Object.create ⟨d, []⟩ time)) :
    s.release codec id = .ok (s.erased id (Object.create ⟨d, []⟩ time)).countDown := by
  have hset : (s.setObject id { Object.create ⟨d, []⟩ time with refcount := 0 }).object id
      = .ok { Object.create ⟨d, []⟩ time with refcount := 0 } :=
    object_eq (Dict.get?_set_eq_some.mpr (Or.inl ⟨rfl, rfl⟩))
  have herased : (s.setObject id { Object.create ⟨d, []⟩ time with refcount := 0 }).erased id
      (Object.create ⟨d, []⟩ time) = s.erased id (Object.create ⟨d, []⟩ time) := by
    unfold erased
    exact congrArg (fun m => { s with objects := m, lruPqueue := s.lruPqueue.erase time }) Dict.erase_set
  unfold release depoint
  rw [if_neg hid, object_eq ho]
  show ((s.setObject id { Object.create ⟨d, []⟩ time with refcount := 0 }).object id >>= _) = _
  rw [hset, ← herased]
  rfl

/-- A command that shows nothing. -/
theorem run_silent {H : Type} {ops : Heap H D} {m m' : Program H} {c : HeapCmd D}
    (h : m.exec ops c = .ok (none, m')) (cs : List (HeapCmd D)) :
    m.run ops (c :: cs) = m'.run ops cs := by
  show (m.exec ops c >>= _) = _
  rw [h]
  show (m'.run ops cs >>= _) = _
  cases m'.run ops cs <;> rfl

/-- An object is allocated and freed again, `k` times. -/
def rounds (d : D) : Nat → List (HeapCmd D)
  | 0 => []
  | k + 1 => .allocate 0 d :: .destroy 0 :: rounds d k

/-- A program over the swap space that holds nothing, after `k` allocations. -/
def idle (k : Nat) (requests : List (Request B)) : Program (Pinning D B) :=
  ⟨⟨{ SwapSpace.create 1 with nextId := 1 + 2 * k, nextAccessTime := k, requests := requests }, []⟩,
    Dict.empty, Dict.empty⟩

/-- The same over the ideal heap, which has kept the objects. -/
def idleIdeal (k : Nat) (objects : Dict Nat (Payload D)) : Program (Ideal D) :=
  ⟨⟨1 + 2 * k, objects⟩, Dict.empty, Dict.empty⟩

theorem run_round (codec : Codec D B) (d : D) {k : Nat} (requests : List (Request B))
    (hk : 2 + 2 * k < 2 ^ 64) (cs : List (HeapCmd D)) :
    (idle k requests).run (swapHeap codec) (.allocate 0 d :: .destroy 0 :: cs)
      = (idle (k + 1) (requests ++ [.getNodeId])).run (swapHeap codec) cs := by
  let s : SwapSpace D B := (idle k requests).heap.ss
  have hnew : s.newId ≠ 0 := by
    have : s.newId = 1 + 2 * k + 1 := uint64_of_lt (show 1 + 2 * k + 1 < 2 ^ 64 by omega)
    omega
  have hallocate : (idle k requests).exec (swapHeap codec) (.allocate 0 d)
      = .ok (none, ⟨⟨s.entered ⟨d, []⟩, []⟩, Dict.empty.set 0 s.newId, Dict.empty⟩) := rfl
  have hrelease : (s.entered ⟨d, []⟩).release codec s.newId
      = .ok ((s.entered ⟨d, []⟩).erased s.newId (Object.create ⟨d, []⟩ s.now)).countDown :=
    release_created hnew (Dict.get?_set_eq_some.mpr (Or.inl ⟨rfl, rfl⟩))
  have hback : ((s.entered ⟨d, []⟩).erased s.newId (Object.create ⟨d, []⟩ s.now)).countDown
      = (idle (k + 1) (requests ++ [.getNodeId])).heap.ss := by
    have hobjects : ((Dict.empty : Dict Nat (Object D)).set s.newId (Object.create ⟨d, []⟩ s.now)).erase
        s.newId = Dict.empty := Dict.erase_set.trans (Dict.erase_of_free rfl)
    have hqueue : ((Dict.empty : Dict Nat Nat).set s.now s.newId).erase s.now = Dict.empty :=
      Dict.erase_set.trans (Dict.erase_of_free rfl)
    unfold erased
    show countDown { s.entered ⟨d, []⟩ with
      objects := ((Dict.empty : Dict Nat (Object D)).set s.newId (Object.create ⟨d, []⟩ s.now)).erase
        s.newId
      lruPqueue := ((Dict.empty : Dict Nat Nat).set s.now s.newId).erase s.now } = _
    rw [hobjects, hqueue]
    rfl
  rw [run_silent hallocate, run_silent]
  show ((s.entered ⟨d, []⟩).release codec s.newId >>= _) >>= _ = _
  rw [hrelease, hback]
  rfl

/-- Objects can be allocated one after the other, as long as their ids are positive. -/
theorem run_rounds (codec : Codec D B) (d : D) (j k : Nat) (requests : List (Request B))
    (h : k + j < 2 ^ 63) (cs : List (HeapCmd D)) :
    (idle k requests).run (swapHeap codec) (rounds d j ++ cs)
      = (idle (k + j) (requests ++ List.replicate j .getNodeId)).run (swapHeap codec) cs := by
  induction j generalizing k requests with
  | zero =>
      rw [List.replicate_zero, List.append_nil]
      rfl
  | succ j ih =>
      have hround := run_round codec d (k := k) requests (by omega) (rounds d j ++ cs)
      have hrest := ih (k + 1) (requests ++ [.getNodeId]) (by omega)
      rw [List.append_assoc] at hrest
      rw [List.replicate_succ, show k + (j + 1) = k + 1 + j by omega]
      exact hround.trans hrest

theorem legal_rounds (d : D) (j k : Nat) (objects : Dict Nat (Payload D)) : ∃ objects', ∀ cs,
    (Legal (idleIdeal (k + j) objects') cs → Legal (idleIdeal k objects) (rounds d j ++ cs))
      ∧ (idleIdeal k objects).run idealHeap (rounds d j ++ cs)
        = (idleIdeal (k + j) objects').run idealHeap cs := by
  induction j generalizing k objects with
  | zero => exact ⟨objects, fun cs => ⟨id, rfl⟩⟩
  | succ j ih =>
      obtain ⟨objects', hrun⟩ := ih (k + 1) (objects.set (1 + 2 * k + 1) ⟨d, []⟩)
      refine ⟨objects', fun cs => ?_⟩
      obtain ⟨hlegal, hrun⟩ := hrun cs
      rw [show k + (j + 1) = k + 1 + j by omega, ← hrun]
      have hallocate : (idleIdeal k objects).exec idealHeap (.allocate 0 d)
          = .ok (none, ⟨⟨1 + 2 * k + 2, objects.set (1 + 2 * k + 1) ⟨d, []⟩⟩,
            Dict.empty.set 0 (1 + 2 * k + 1), Dict.empty⟩) := rfl
      refine ⟨fun h => ?_, (run_silent hallocate _).trans (run_silent rfl _)⟩
      exact .cons (fun _ h => by cases h) hallocate (.cons (fun _ h => by cases h) rfl (hlegal h))

/-- The run up to the point at which the next id is 0. -/
theorem run_after_rounds (codec : Codec D B) (d : D) (j : Nat) (h : j < 2 ^ 63)
    (cs : List (HeapCmd D)) : (Program.create 1).run (swapHeap codec) (rounds d j ++ cs)
      = (idle j (List.replicate j .getNodeId)).run (swapHeap codec) cs := by
  have hrounds := run_rounds codec d j 0 [] (by omega) cs
  rw [Nat.zero_add, List.nil_append] at hrounds
  exact hrounds

theorem rounds_succ (d : D) (j : Nat) :
    rounds d (j + 1) = rounds d j ++ [.allocate 0 d, .destroy 0] := by
  induction j with
  | zero => rfl
  | succ j ih => exact congrArg (fun l => .allocate 0 d :: .destroy 0 :: l) ih

theorem ideal_rounds (d : D) (j : Nat) : ∃ t, Legal Program.ideal (rounds d j)
    ∧ Program.ideal.run idealHeap (rounds d j) = .ok ([], t) := by
  obtain ⟨objects, hrounds⟩ := legal_rounds d j 0 Dict.empty
  obtain ⟨hlegal, hrun⟩ := hrounds []
  rw [List.append_nil] at hlegal hrun
  exact ⟨_, hlegal (.of_vars (fun _ h => by cases h)), hrun⟩

/-- An object is pinned and read, with another one allocated in between. -/
def readPinned : List (HeapCmd Nat) :=
  [.allocate 0 5, .pin 0 (.var 0), .access 0 false, .allocate 1 6, .read 0]

theorem ideal_readPinned (k : Nat) (objects : Dict Nat (Payload Nat)) :
    ∃ t, Legal (idleIdeal k objects) readPinned
      ∧ (idleIdeal k objects).run idealHeap readPinned = .ok ([⟨5, []⟩], t) := by
  let a := 1 + 2 * k + 1
  let heap : Ideal Nat := ⟨1 + 2 * k + 2, objects.set a ⟨5, []⟩⟩
  let heap' : Ideal Nat := ⟨heap.nextId + 2, heap.objects.set (heap.nextId + 1) ⟨6, []⟩⟩
  let vars : Dict Nat Nat := Dict.empty.set 0 a
  let vars' : Dict Nat Nat := vars.set 1 (heap.nextId + 1)
  let pins (loaded : Bool) : Dict Nat Pin := Dict.empty.set 0 ⟨a, loaded, false⟩
  have hpins : ∀ loaded, ∀ q ∈ (pins loaded).values, q.id ∈ vars.values ∧ q.id ∈ vars'.values := by
    intro loaded q hq
    rw [List.mem_singleton.mp hq]
    exact ⟨List.mem_cons_self, List.mem_cons_self⟩
  have h₁ : (idleIdeal k objects).exec idealHeap (.allocate 0 5)
      = .ok (none, ⟨heap, vars, Dict.empty⟩) := rfl
  have h₂ : exec idealHeap ⟨heap, vars, Dict.empty⟩ (.pin 0 (.var 0))
      = .ok (none, ⟨heap, vars, pins false⟩) := rfl
  have h₃ : exec idealHeap ⟨heap, vars, pins false⟩ (.access 0 false)
      = .ok (none, ⟨heap, vars, pins true⟩) := rfl
  have h₄ : exec idealHeap ⟨heap, vars, pins true⟩ (.allocate 1 6)
      = .ok (none, ⟨heap', vars', pins true⟩) := rfl
  have h₅ : exec idealHeap ⟨heap', vars', pins true⟩ (.read 0)
      = .ok (some ⟨5, []⟩, ⟨heap', vars', pins true⟩) := by
    have hget : heap'.objects.get? a = some ⟨5, []⟩ := by
      refine Dict.get?_set_eq_some.mpr (Or.inr ⟨?_, Dict.get?_set_eq_some.mpr (Or.inl ⟨rfl, rfl⟩)⟩)
      show 1 + 2 * k + 1 ≠ 1 + 2 * k + 2 + 1
      omega
    show (need SwapFault.missingObject (heap'.objects.get? a) >>= _) >>= _ = _
    rw [hget]
    rfl
  refine ⟨⟨heap', vars', pins true⟩, ?_, ?_⟩
  · refine .cons (fun _ h => by cases h) h₁ (.cons (fun _ h => by cases h) h₂ ?_)
    refine .cons (fun q hq => (hpins _ q hq).1) h₃ (.cons (fun q hq => (hpins _ q hq).1) h₄ ?_)
    exact .cons (fun q hq => (hpins _ q hq).2) h₅ (.of_vars (fun q hq => (hpins _ q hq).2))
  · refine (run_silent h₁ _).trans ((run_silent h₂ _).trans ((run_silent h₃ _).trans ?_))
    refine (run_silent h₄ _).trans ?_
    show (exec idealHeap _ (.read 0) >>= _) = _
    rw [h₅]
    rfl

theorem ideal_after_rounds (j : Nat) :
    ∃ t, Legal Program.ideal (rounds 0 j ++ readPinned)
      ∧ Program.ideal.run idealHeap (rounds 0 j ++ readPinned) = .ok ([⟨5, []⟩], t) := by
  obtain ⟨objects, hrounds⟩ := legal_rounds 0 j 0 Dict.empty
  obtain ⟨hlegal, hrun⟩ := hrounds readPinned
  obtain ⟨t, ht, hread⟩ := ideal_readPinned (0 + j) objects
  exact ⟨t, hlegal ht, hrun.trans hread⟩

end Program

/--
**Swapping cannot be seen.** A program of fewer than 2^63 commands that is legal over the ideal
heap runs over the swap space as well, for any number of objects in memory, and sees the same
contents in the same order. An object in memory that is not dirty is the same as its file.
-/
theorem swapping_transparent (codec : Codec D B) (n : Nat) (cs : List (HeapCmd D))
    (seen : List (Payload D)) (t : Program (Ideal D)) (hlen : cs.length < 2 ^ 63)
    (hlegal : Program.Legal Program.ideal cs) (hrun : Program.ideal.run idealHeap cs = .ok (seen, t)) :
    ∃ m, (Program.create n).run (swapHeap codec) cs = .ok (seen, m)
      ∧ ∀ i o p, m.heap.ss.objects.get? i = some o → o.target = some p → o.targetIsDirty = false →
        m.heap.ss.backstore.files.get? o.bsid = some (codec.serialize p) := by
  obtain ⟨m, hm, hc⟩ := Program.ensures_run codec n hlen hlegal hrun
  refine ⟨m, hm, fun i o p ho ht hd => ?_⟩
  obtain ⟨q, hq⟩ := hc.exact.image i o ho (Or.inr hd)
  rw [hq.resident p ht]
  exact hq.file

/-- An object that has been written to is evicted to make room for another, and read back. -/
theorem swapping_transparent_reload :
    let codec : Codec Nat (Payload Nat) := ⟨id, id, fun _ => rfl⟩
    let cs : List (HeapCmd Nat) := [.allocate 0 5, .pin 0 (.var 0), .access 0 true, .modify 0 7,
      .unpin 0, .allocate 1 6, .pin 0 (.var 0), .access 0 false, .read 0]
    ∃ m, (Program.create 1).run (swapHeap codec) cs = .ok ([⟨7, []⟩], m)
      ∧ ∀ i o p, m.heap.ss.objects.get? i = some o → o.target = some p → o.targetIsDirty = false →
        m.heap.ss.backstore.files.get? o.bsid = some (codec.serialize p) := by
  intro codec cs
  refine swapping_transparent codec 1 cs [⟨7, []⟩] _ (by decide) ?_ rfl
  iterate 9 refine .cons (by decide) rfl ?_
  exact .of_vars (by decide)

/--
After 2^63 - 1 allocations the next object has the id 0, which is that of the null pointer. A pin on
it does not count, so it is evicted while it is pinned.
-/
theorem swapping_seen_after_wrap :
    (∃ t, Program.Legal Program.ideal (Program.rounds 0 (2 ^ 63 - 1) ++ Program.readPinned)
        ∧ Program.ideal.run idealHeap (Program.rounds 0 (2 ^ 63 - 1) ++ Program.readPinned)
          = .ok ([⟨5, []⟩], t))
      ∧ (Program.create 1).run (swapHeap (⟨id, id, fun _ => rfl⟩ : Codec Nat (Payload Nat)))
          (Program.rounds 0 (2 ^ 63 - 1) ++ Program.readPinned) = .error .nullTarget := by
  refine ⟨Program.ideal_after_rounds (2 ^ 63 - 1), ?_⟩
  rw [Program.run_after_rounds _ 0 (2 ^ 63 - 1) (by decide) Program.readPinned]
  refine map_eq_error (f := fun _ => ()) ?_
  decide +kernel

/-! ## References and files -/

namespace SwapSpace

/-- The pointers to `j` in the objects that are in memory. -/
def inMemory (s : SwapSpace D B) (j : Nat) : Nat :=
  s.objects.total (fun _ o => match o.target with
    | some p => p.ptrs.count j
    | none => 0)

/-- The occurrences of `j` in the files of the objects that are not. -/
def onDisk (codec : Codec D B) (s : SwapSpace D B) (j : Nat) : Nat :=
  s.objects.total (fun _ o => match o.target with
    | some _ => 0
    | none => match s.backstore.files.get? o.bsid with
      | some buffer => (codec.deserialize buffer).ptrs.count j
      | none => 0)

/-- No object can be reached from itself: pointers go down in some ranking of the objects. -/
def Acyclic (codec : Codec D B) (s : SwapSpace D B) : Prop :=
  ∃ rank : Nat → Nat, ∀ i o, s.objects.get? i = some o → ∀ j ∈ s.pointers codec o, rank j < rank i

variable {codec : Codec D B} {s : SwapSpace D B} {roots orphans : List Nat}

theorem refs_eq (codec : Codec D B) (s : SwapSpace D B) (j : Nat) :
    s.refs codec j = s.inMemory j + s.onDisk codec j := by
  unfold refs inMemory onDisk
  rw [← Dict.total_add]
  refine Dict.total_congr (fun i o _ => ?_)
  unfold pointers content
  cases o.target with
  | some p => rfl
  | none =>
      rw [Nat.zero_add]
      cases s.backstore.files.get? o.bsid with
      | some buffer => rfl
      | none => rfl

/-- **Without pointers from outside nothing is left**, if the objects do not keep each other alive. -/
theorem Exact.objects_empty (h : Exact codec [] orphans s) (hacyclic : Acyclic codec s) :
    s.objects = Dict.empty := by
  obtain ⟨rank, hrank⟩ := hacyclic
  refine Dict.eq_empty_of_get? (fun i => ?_)
  cases ho : s.objects.get? i with
  | none => rfl
  | some o =>
      exfalso
      -- every object has one of higher rank above it, so ranks are not bounded
      have hup : ∀ k, ∃ i o, s.objects.get? i = some o ∧ k ≤ rank i := by
        intro k
        induction k with
        | zero => exact ⟨i, o, ho, Nat.zero_le _⟩
        | succ k ih =>
            obtain ⟨j, x, hx, hk⟩ := ih
            have hcount := h.counts j (h.consistent.ids j x hx).1
            have hlive := h.live j x hx
            rw [refcountOf_eq hx, List.count_nil] at hcount
            obtain ⟨a, y, hy, hmem⟩ := Dict.exists_of_total_pos (show 0 < s.refs codec j by omega)
            have hlt := hrank a y hy j (List.count_pos_iff.mp hmem)
            exact ⟨a, y, hy, by omega⟩
      obtain ⟨j, x, hx, hle⟩ := hup (s.objects.total (fun i _ => rank i) + 1)
      have hbound := Dict.le_total (f := fun i _ => rank i) hx
      omega

theorem Exact.files_iff (h : Exact codec roots [] s) (b : Nat) :
    (s.backstore.files.get? b).isSome = true ↔
      0 < b ∧ ∃ i o, s.objects.get? i = some o ∧ o.bsid = b := by
  refine ⟨fun hb => ⟨(h.files.bound b hb).1, ?_⟩, fun ⟨hb, i, o, ho, hob⟩ => ?_⟩
  · exact (h.files.owned b hb).resolve_left (by simp)
  · rw [← hob] at hb ⊢
    exact h.files.file i o ho hb

end SwapSpace

/--
**Exact garbage collection.** After any legal program of fewer than 2^63 commands the `refcount`
of every object is the number of pointers to it in variables, in objects in memory and in the
files of those that are not; the targets of all these pointers are there; the files are those of
the objects that have one, and no two objects share a file. When no variable holds a pointer any more
and the objects do not form a cycle, no object and no file is left.
-/
theorem garbage_collection_exact (codec : Codec D B) (n : Nat) (cs : List (HeapCmd D))
    (seen : List (Payload D)) (t : Program (Ideal D)) (hlen : cs.length < 2 ^ 63)
    (hlegal : Program.Legal Program.ideal cs) (hrun : Program.ideal.run idealHeap cs = .ok (seen, t)) :
    ∃ m, (Program.create n).run (swapHeap codec) cs = .ok (seen, m)
      ∧ (∀ i o, m.heap.ss.objects.get? i = some o → 0 < o.refcount
        ∧ o.refcount = m.vars.values.count i + m.heap.ss.inMemory i + m.heap.ss.onDisk codec i)
      ∧ (∀ j ∈ m.vars.values, (m.heap.ss.objects.get? j).isSome = true)
      ∧ (∀ i o, m.heap.ss.objects.get? i = some o → ∀ j ∈ m.heap.ss.pointers codec o,
        (m.heap.ss.objects.get? j).isSome = true)
      ∧ (∀ b, (m.heap.ss.backstore.files.get? b).isSome = true ↔
        0 < b ∧ ∃ i o, m.heap.ss.objects.get? i = some o ∧ o.bsid = b)
      ∧ (∀ i j o o', m.heap.ss.objects.get? i = some o → m.heap.ss.objects.get? j = some o' →
        0 < o.bsid → o.bsid = o'.bsid → i = j)
      ∧ (m.vars = Dict.empty → Acyclic codec m.heap.ss →
        m.heap.ss.objects = Dict.empty ∧ m.heap.ss.backstore.files = Dict.empty) := by
  obtain ⟨m, hm, hc⟩ := Program.ensures_run codec n hlen hlegal hrun
  have hexact : Exact codec m.vars.values [] m.heap.ss := hc.vars ▸ hc.exact
  refine ⟨m, hm, fun i o ho => ⟨hexact.live i o ho, ?_⟩, fun j hj => ?_, fun i o ho j hj => ?_,
    hexact.files_iff, hexact.files.owner, fun hvars hacyclic => ?_⟩
  · rw [← refcountOf_eq ho, hexact.counts i (hexact.consistent.ids i o ho).1, refs_eq, Nat.add_assoc]
  · obtain ⟨o, ho, _⟩ := hexact.exists_of_root (hc.positive j (hc.vars ▸ hj)) hj
    rw [ho]
    rfl
  · obtain ⟨o', ho', _⟩ := hexact.exists_of_pointer ho (hc.full i o ho j hj) hj
    rw [ho']
    rfl
  · -- without variables every count comes from another object, and a cycle would be needed
    rw [hvars] at hexact
    have hempty := hexact.objects_empty hacyclic
    refine ⟨hempty, Dict.eq_empty_of_get? (fun b => ?_)⟩
    cases hb : m.heap.ss.backstore.files.get? b with
    | none => rfl
    | some buffer =>
        obtain ⟨_, i, o, ho, _⟩ := (hexact.files_iff b).mp (by rw [hb]; rfl)
        rw [hempty] at ho
        cases ho

/-- A parent and its child are on disk, where the parent's file holds the only pointer to the child. -/
theorem garbage_collection_exact_chain :
    let codec : Codec Nat (Payload Nat) := ⟨id, id, fun _ => rfl⟩
    let cs : List (HeapCmd Nat) := [.allocate 0 5, .allocate 1 6, .pin 0 (.var 0), .access 0 true,
      .link 0 0 1, .unpin 0, .destroy 1, .evictAll]
    ∃ m, (Program.create 1).run (swapHeap codec) cs = .ok ([], m)
      ∧ m.heap.ss.resident = 0 ∧ m.heap.ss.objects.size = 2
      ∧ ∀ i o, m.heap.ss.objects.get? i = some o → 0 < o.refcount
        ∧ o.refcount = m.vars.values.count i + m.heap.ss.inMemory i + m.heap.ss.onDisk codec i := by
  intro codec cs
  have hlegal : Program.Legal Program.ideal cs := by
    iterate 8 refine .cons (by decide) rfl ?_
    exact .of_vars (by decide)
  obtain ⟨m, hm, hcounts, _⟩ := garbage_collection_exact codec 1 cs [] _ (by decide) hlegal rfl
  have hrun : ((Program.create 1).run (swapHeap codec) cs).map
      (fun r => (r.2.heap.ss.resident, r.2.heap.ss.objects.size)) = .ok (0, 2) := by decide +kernel
  rw [hm] at hrun
  injection hrun with hrun
  injection hrun with hres hsize
  exact ⟨m, hm, hres, hsize, hcounts⟩

/--
An object with the id 0 is not freed when the last pointer to it is destroyed, because that pointer
is taken for a null pointer.
-/
theorem garbage_left_after_wrap :
    let codec : Codec Nat (Payload Nat) := ⟨id, id, fun _ => rfl⟩
    (∃ t, Program.Legal Program.ideal (Program.rounds 0 (2 ^ 63))
        ∧ Program.ideal.run idealHeap (Program.rounds 0 (2 ^ 63)) = .ok ([], t))
      ∧ ∃ m, (Program.create 1).run (swapHeap codec) (Program.rounds 0 (2 ^ 63)) = .ok ([], m)
        ∧ m.vars.values = [] ∧ m.heap.ss.inMemory 0 = 0 ∧ m.heap.ss.onDisk codec 0 = 0
        ∧ (m.heap.ss.objects.get? 0).map (fun o => o.refcount) = some 1 := by
  intro codec
  refine ⟨Program.ideal_rounds 0 (2 ^ 63), ?_⟩
  have hrounds : Program.rounds 0 (2 ^ 63)
      = Program.rounds 0 (2 ^ 63 - 1) ++ [.allocate 0 0, .destroy 0] := Program.rounds_succ 0 (2 ^ 63 - 1)
  rw [hrounds, Program.run_after_rounds _ 0 (2 ^ 63 - 1) (by decide)]
  have hrun : ((Program.idle (2 ^ 63 - 1) (List.replicate (2 ^ 63 - 1) .getNodeId)).run
      (swapHeap codec) [.allocate 0 0, .destroy 0]).map (fun r =>
        (r.1.length, r.2.vars.values, r.2.heap.ss.inMemory 0, r.2.heap.ss.onDisk codec 0,
          (r.2.heap.ss.objects.get? 0).map (fun o => o.refcount))) = .ok (0, [], 0, 0, some 1) := by
    decide +kernel
  obtain ⟨⟨seen, m⟩, hm, hfacts⟩ := map_eq_ok hrun
  simp only [Prod.mk.injEq, List.length_eq_zero_iff] at hfacts
  obtain ⟨rfl, hvars, hmem, hdisk, hcount⟩ := hfacts
  exact ⟨m, hm, hvars, hmem, hdisk, hcount⟩

end BeTree
