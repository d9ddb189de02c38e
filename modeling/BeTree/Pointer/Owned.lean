import BeTree.Pointer.Shadow
import Mathlib.Data.Multiset.MapFold

/-!
# Reasoning about a part of the heap

A function works on some of the objects, and leaves the others to its caller. Its objects, with
their contents, are its `own` cells and the others are the `frame`; the pointers outside of all
objects are those of the caller, the `base`, and `extra` ones. What is in neither part holds no
pointers: an object that has been let go has been emptied before.

The pins are secured by the frame and the base: each is on an object that a pointer of the
base, or one in an older pinned object of the frame, refers to. What the function does to its own
cells and to the extra pointers cannot take that away. So each operation has a rule that only
speaks of the own cells and the extra pointers, and a function's specification holds for any
frame.
-/

namespace BeTree

open Prog

variable {D : Type}

/-- Objects with their contents. -/
abbrev Cells (D : Type) : Type := Multiset (Nat × Payload D)

namespace Shadow

/-- The objects that may hold pointers are these. -/
structure Live (g : Shadow D) (cells : Cells D) : Prop where
  object : ∀ c ∈ cells, g.objects.get? c.1 = some c.2
  nodup : (cells.map Prod.fst).Nodup
  used : ∀ c ∈ cells, c.1 < g.nextId
  stale : ∀ i p, g.objects.get? i = some p → (∀ c ∈ cells, c.1 ≠ i) → p.ptrs = []

/-- Every pin is on an object that the base, or an older pinned object of the frame, refers to. -/
def Secured (frame : Cells D) (base : Multiset Nat) : List Pin → Prop
  | [] => True
  | pin :: rest => (pin.id ∈ base ∨ ∃ q ∈ rest, ∃ p, (q.id, p) ∈ frame ∧ pin.id ∈ p.ptrs)
      ∧ Secured frame base rest

/-- What a function finds, or leaves behind. -/
structure Owned (own frame : Cells D) (base extra : Multiset Nat) (pins : List Pin) (g : Shadow D) :
    Prop where
  live : g.Live (own + frame)
  roots : g.roots = base + extra
  pinned : g.pins = pins
  secured : Secured frame base pins

variable {g g' : Shadow D} {own own' frame frame' : Cells D} {base extra extra' : Multiset Nat}
variable {pins rest : List Pin} {id : Nat} {p p' : Payload D}

theorem Secured.anchored {objects : Dict Nat (Payload D)} {roots : Multiset Nat}
    (h : Secured frame base pins) (hobjects : ∀ c ∈ frame, objects.get? c.1 = some c.2)
    (hroots : base ≤ roots) : Anchored objects roots pins := by
  induction pins with
  | nil => trivial
  | cons pin rest ih =>
      refine ⟨h.1.imp (fun hid => Multiset.mem_of_le hroots hid) (fun hq => ?_), ih h.2⟩
      obtain ⟨q, hq, p, hp, hid⟩ := hq
      exact ⟨q, hq, p, hobjects _ hp, hid⟩

theorem Secured.mono (h : Secured frame base pins) (hframe : frame ≤ frame') :
    Secured frame' base pins := by
  induction pins with
  | nil => trivial
  | cons pin rest ih =>
      refine ⟨h.1.imp_right (fun hq => ?_), ih h.2⟩
      obtain ⟨q, hq, p, hp, hid⟩ := hq
      exact ⟨q, hq, p, Multiset.mem_of_le hframe hp, hid⟩

namespace Owned

theorem mem_own (h : Owned own frame base extra pins g) {c : Nat × Payload D} (hc : c ∈ own) :
    g.objects.get? c.1 = some c.2 := h.live.object c (Multiset.mem_add.mpr (Or.inl hc))

theorem mem_frame (h : Owned own frame base extra pins g) {c : Nat × Payload D} (hc : c ∈ frame) :
    g.objects.get? c.1 = some c.2 := h.live.object c (Multiset.mem_add.mpr (Or.inr hc))

/-- The pins are anchored, whatever the extra pointers are. -/
theorem anchored (h : Owned own frame base extra pins g) (extra' : Multiset Nat) :
    Anchored g.objects (base + extra') g.pins := by
  rw [h.pinned]
  exact h.secured.anchored (fun _ hc => h.mem_frame hc) (Multiset.le_add_right _ _)

/-- The same state, with the pointers counted in another way. -/
theorem congr (h : Owned own frame base extra pins g) (hown : own' = own) (hextra : extra' = extra) :
    Owned own' frame base extra' pins g := hown ▸ hextra ▸ h

/-- An object without pointers need not be kept track of. -/
theorem drop (h : Owned ((id, p) ::ₘ own) frame base extra pins g) (hp : p.ptrs = []) :
    Owned own frame base extra pins g := by
  have hsub : own + frame ≤ (id, p) ::ₘ own + frame := by
    rw [Multiset.cons_add]
    exact Multiset.le_cons_self _ _
  refine ⟨⟨fun c hc => h.live.object c (Multiset.mem_of_le hsub hc),
    Multiset.nodup_of_le (Multiset.map_le_map hsub) h.live.nodup,
    fun c hc => h.live.used c (Multiset.mem_of_le hsub hc), fun i q hq hi => ?_⟩, h.roots, h.pinned,
    h.secured⟩
  by_cases hid : id = i
  · have hget := h.mem_own (Multiset.mem_cons_self (id, p) own)
    rw [hid, hq] at hget
    injection hget with hget
    rw [hget]
    exact hp
  · refine h.live.stale i q hq (fun c hc => ?_)
    rw [Multiset.cons_add] at hc
    rcases Multiset.mem_cons.mp hc with rfl | hc
    · exact hid
    · exact hi c hc

/-- Some of the cells are left alone for a while. -/
theorem narrow (h : Owned (own + own') frame base extra pins g) :
    Owned own (own' + frame) base extra pins g :=
  ⟨Multiset.add_assoc own own' frame ▸ h.live, h.roots, h.pinned,
    h.secured.mono (Multiset.le_add_left _ _)⟩

/-- They are used again. -/
theorem widen (hs : Secured frame base pins) (h : Owned own (own' + frame) base extra pins g) :
    Owned (own + own') frame base extra pins g :=
  ⟨(Multiset.add_assoc own own' frame).symm ▸ h.live, h.roots, h.pinned, hs⟩

/-- A callee gets some of the cells and of the extra pointers, and the pins with one more. -/
theorem enter {lent : Multiset Nat} (h : Owned (own + own') frame base (extra + lent) pins g) (pin : Pin)
    (hpin : pin.id ∈ base + extra ∨ ∃ q ∈ pins, ∃ p, (q.id, p) ∈ own' + frame ∧ pin.id ∈ p.ptrs) :
    Owned own (own' + frame) (base + extra) lent (pin :: pins) { g with pins := pin :: g.pins } := by
  refine ⟨?_, by rw [Multiset.add_assoc]; exact h.roots, by rw [h.pinned], hpin, ?_⟩
  · have hlive := h.live
    rw [Multiset.add_assoc] at hlive
    exact ⟨hlive.object, hlive.nodup, hlive.used, hlive.stale⟩
  · have hle : frame ≤ own' + frame := Multiset.le_add_left _ _
    have hsecured := h.secured.mono hle
    clear h hpin
    induction pins with
    | nil => trivial
    | cons q rest ih =>
        refine ⟨hsecured.1.imp_left (fun hq => ?_), ih hsecured.2⟩
        exact Multiset.mem_add.mpr (Or.inl hq)

/-- The callee returns, and its pin is gone. -/
theorem leave (h : Secured frame base pins) {own'' : Cells D} {pin : Pin}
    (hcall : Owned own'' (own' + frame) (base + extra) extra' (pin :: pins) g') :
    Owned (own'' + own') frame base (extra + extra') pins { g' with pins := g'.pins.tail } := by
  refine ⟨?_, by rw [← Multiset.add_assoc]; exact hcall.roots, by rw [hcall.pinned]; rfl, h⟩
  have hlive := hcall.live
  rw [← Multiset.add_assoc] at hlive
  exact ⟨hlive.object, hlive.nodup, hlive.used, hlive.stale⟩

/-- A new object, and the pointer to it. -/
theorem allocated (h : Owned own frame base extra pins g) (d : D) :
    Owned ((g.nextId + 1, ⟨d, []⟩) ::ₘ own) frame base ((g.nextId + 1) ::ₘ extra) pins
      (g.allocated d) := by
  have hfresh : ∀ c ∈ own + frame, c.1 ≠ g.nextId + 1 := fun c hc => by
    have := h.live.used c hc
    omega
  refine ⟨⟨fun c hc => ?_, ?_, fun c hc => ?_, fun i q hq hi => ?_⟩, ?_, h.pinned, h.secured⟩
  · show (g.objects.set (g.nextId + 1) ⟨d, []⟩).get? c.1 = some c.2
    rw [Multiset.cons_add] at hc
    rcases Multiset.mem_cons.mp hc with rfl | hc
    · rw [Dict.get?_set, if_pos rfl]
    · rw [Dict.get?_set, if_neg (hfresh c hc)]
      exact h.live.object c hc
  · rw [Multiset.cons_add, Multiset.map_cons]
    refine Multiset.nodup_cons.mpr ⟨fun hmem => ?_, h.live.nodup⟩
    obtain ⟨c, hc, heq⟩ := Multiset.mem_map.mp hmem
    exact hfresh c hc heq
  · show c.1 < g.nextId + 2
    rw [Multiset.cons_add] at hc
    rcases Multiset.mem_cons.mp hc with rfl | hc
    · exact Nat.lt_succ_self _
    · have := h.live.used c hc
      omega
  · rw [Multiset.cons_add] at hi
    have hne := hi _ (Multiset.mem_cons_self _ _)
    rcases Dict.get?_set_eq_some.mp hq with ⟨heq, _⟩ | ⟨_, hq⟩
    · exact absurd heq.symm hne
    · exact h.live.stale i q hq (fun c hc => hi c (Multiset.mem_cons_of_mem hc))
  · show (g.nextId + 1) ::ₘ g.roots = _
    rw [h.roots, Multiset.add_cons]

/-- A pointer may be destroyed. -/
theorem destroyed (h : Owned own frame base (id ::ₘ extra) pins g) :
    Pre (.destroy id) g ∧ Owned own frame base extra pins { g with roots := g.roots.erase id } := by
  have hroots : g.roots.erase id = base + extra := by
    rw [h.roots, Multiset.add_cons, Multiset.erase_cons_head]
  refine ⟨⟨?_, ?_⟩, ⟨h.live.object, h.live.nodup, h.live.used, h.live.stale⟩, hroots, h.pinned, h.secured⟩
  · rw [h.roots, Multiset.add_cons]
    exact Multiset.mem_cons_self _ _
  · rw [hroots]
    exact h.anchored extra

/-- Another content for an own object. -/
theorem written {roots : Multiset Nat} (h : Owned ((id, p) ::ₘ own) frame base extra pins g)
    (hroots : roots = base + extra') :
    Owned ((id, p') ::ₘ own) frame base extra' pins
      { g with objects := g.objects.set id p', roots := roots } := by
  have hlive := h.live
  rw [Multiset.cons_add] at hlive
  have hnodup := hlive.nodup
  rw [Multiset.map_cons] at hnodup
  obtain ⟨hid, hnodup⟩ := Multiset.nodup_cons.mp hnodup
  have hother : ∀ c ∈ own + frame, c.1 ≠ id := fun c hc heq =>
    hid (Multiset.mem_map.mpr ⟨c, hc, heq⟩)
  refine ⟨⟨fun c hc => ?_, ?_, fun c hc => ?_, fun i q hq hi => ?_⟩, hroots, h.pinned, h.secured⟩
  · show (g.objects.set id p').get? c.1 = some c.2
    rw [Multiset.cons_add] at hc
    rcases Multiset.mem_cons.mp hc with rfl | hc
    · rw [Dict.get?_set, if_pos rfl]
    · rw [Dict.get?_set, if_neg (hother c hc)]
      exact hlive.object c (Multiset.mem_cons_of_mem hc)
  · rw [Multiset.cons_add, Multiset.map_cons]
    exact Multiset.nodup_cons.mpr ⟨hid, hnodup⟩
  · rw [Multiset.cons_add] at hc
    rcases Multiset.mem_cons.mp hc with rfl | hc
    · exact hlive.used (id, p) (Multiset.mem_cons_self _ _)
    · exact hlive.used c (Multiset.mem_cons_of_mem hc)
  · rw [Multiset.cons_add] at hi
    have hne := hi _ (Multiset.mem_cons_self _ _)
    rcases Dict.get?_set_eq_some.mp hq with ⟨heq, _⟩ | ⟨_, hq⟩
    · exact absurd heq.symm hne
    · refine hlive.stale i q hq (fun c hc => ?_)
      rcases Multiset.mem_cons.mp hc with rfl | hc
      · exact hne
      · exact hi c (Multiset.mem_cons_of_mem hc)

end Owned

/-! ## The rules of the operations -/

section Rules

variable {Op' : Type} {Ans' : Op' → Type} {ε α β : Type} {out : ε → Prop} {R : α → β → Shadow D → Prop}
variable {y : Prog Op' Ans' ε β}

/-- There is a pointer to the object that the function may copy or follow. -/
def Known (own frame : Cells D) (base extra : Multiset Nat) (pins : List Pin) (id : Nat) : Prop :=
  id ∈ base + extra ∨ ∃ q ∈ pins, ∃ p, (q.id, p) ∈ own + frame ∧ id ∈ p.ptrs

theorem Owned.reaches (h : Owned own frame base extra pins g)
    (hid : Known own frame base extra pins id) : Reaches g.objects g.roots g.pins id := by
  rw [h.roots, h.pinned]
  refine hid.imp_right (fun hq => ?_)
  obtain ⟨q, hq, p, hp, hid⟩ := hq
  exact ⟨q, hq, p, h.live.object _ hp, hid⟩

theorem follows_allocate {d : D} {f : Nat → Prog (HeapOp D) HeapOp.Ans ε α}
    (h : Owned own frame base extra pins g)
    (hf : ∀ id g', Owned ((id, ⟨d, []⟩) ::ₘ own) frame base (id ::ₘ extra) pins g' →
      Follows rule out R (f id) y g') :
    Follows rule out R (perform (HeapOp.allocate d) >>= f) y g := by
  refine follows_left trivial (fun r g' hpost => ?_)
  obtain ⟨rfl, rfl⟩ := hpost
  exact hf _ _ (h.allocated d)

theorem follows_copy {f : Unit → Prog (HeapOp D) HeapOp.Ans ε α}
    (h : Owned own frame base extra pins g) (hid : Known own frame base extra pins id)
    (hf : ∀ g', Owned own frame base (id ::ₘ extra) pins g' → Follows rule out R (f ()) y g') :
    Follows rule out R (perform (HeapOp.copy id) >>= f) y g := by
  refine follows_left (h.reaches hid) (fun _ g' hpost => ?_)
  subst hpost
  refine hf _ ⟨⟨h.live.object, h.live.nodup, h.live.used, h.live.stale⟩, ?_, h.pinned, h.secured⟩
  show id ::ₘ g.roots = _
  rw [h.roots, Multiset.add_cons]

theorem follows_destroy {f : Unit → Prog (HeapOp D) HeapOp.Ans ε α}
    (h : Owned own frame base (id ::ₘ extra) pins g)
    (hf : ∀ g', Owned own frame base extra pins g' → Follows rule out R (f ()) y g') :
    Follows rule out R (perform (HeapOp.destroy id) >>= f) y g := by
  obtain ⟨hpre, howned⟩ := h.destroyed
  refine follows_left hpre (fun _ g' hpost => ?_)
  subst hpost
  exact hf _ howned

theorem follows_read {f : Payload D → Prog (HeapOp D) HeapOp.Ans ε α} {dirty : Bool}
    (h : Owned own frame base extra (⟨id, true, dirty⟩ :: rest) g) (hp : (id, p) ∈ own)
    (hf : Follows rule out R (f p) y g) :
    Follows rule out R (perform (HeapOp.read id) >>= f) y g := by
  refine follows_left ?_ (fun q g' hpost => ?_)
  · exact ⟨⟨id, true, dirty⟩, by rw [h.pinned]; exact List.mem_cons_self, rfl, rfl⟩
  · obtain ⟨hq, rfl⟩ := hpost
    have hget := h.mem_own hp
    rw [hq] at hget
    injection hget with hget
    subst hget
    exact hf

theorem follows_store {f : Unit → Prog (HeapOp D) HeapOp.Ans ε α}
    (h : Owned ((id, p) ::ₘ own) frame base extra (⟨id, true, true⟩ :: rest) g)
    (hptrs : (p'.ptrs : Multiset Nat) + extra' = p.ptrs + extra)
    (hf : ∀ g', Owned ((id, p') ::ₘ own) frame base extra' (⟨id, true, true⟩ :: rest) g' →
      Follows rule out R (f ()) y g') :
    Follows rule out R (perform (HeapOp.store id p') >>= f) y g := by
  have hget := h.mem_own (Multiset.mem_cons_self (id, p) own)
  have hsum : g.roots + (p.ptrs : Multiset Nat) = p'.ptrs + (base + extra') := by
    rw [h.roots, Multiset.add_assoc, Multiset.add_comm extra, ← hptrs, ← Multiset.add_assoc,
      Multiset.add_comm base, Multiset.add_assoc]
  have hroots : g.roots + (p.ptrs : Multiset Nat) - p'.ptrs = base + extra' := by
    rw [hsum, Multiset.add_comm, Multiset.add_sub_cancel_right]
  refine follows_left ⟨⟨⟨id, true, true⟩, by rw [h.pinned]; exact List.mem_cons_self, rfl, rfl, rfl⟩,
    fun old hold => ?_⟩ (fun _ g' hpost => ?_)
  · have hold' : old = p := Option.some.inj (hold.symm.trans hget)
    subst hold'
    refine ⟨hsum ▸ Multiset.le_add_right _ _, ?_⟩
    have hwritten : Owned ((id, p') ::ₘ own) frame base extra' (⟨id, true, true⟩ :: rest)
        { g with objects := g.objects.set id p', roots := g.roots + old.ptrs - p'.ptrs } :=
      h.written hroots
    exact (hwritten.anchored extra').mono (fun q _ hq => by rw [Shadow.stored, hroots]; exact hq)
      (fun _ _ => rfl)
  · obtain ⟨old, hold, rfl⟩ := hpost
    have hold' : old = p := Option.some.inj (hold.symm.trans hget)
    subst hold'
    exact hf _ (h.written hroots)

theorem follows_isDirty {f : Bool → Prog (HeapOp D) HeapOp.Ans ε α}
    (h : Owned own frame base extra pins g) (hid : Known own frame base extra pins id)
    (hf : ∀ b, Follows rule out R (f b) y g) :
    Follows rule out R (perform (HeapOp.isDirty id) >>= f) y g := by
  refine follows_left (h.reaches hid) (fun b g' hpost => ?_)
  subst hpost
  exact hf b

theorem follows_isInMemory {f : Bool → Prog (HeapOp D) HeapOp.Ans ε α}
    (h : Owned own frame base extra pins g) (hid : Known own frame base extra pins id)
    (hf : ∀ b, Follows rule out R (f b) y g) :
    Follows rule out R (perform (HeapOp.isInMemory id) >>= f) y g := by
  refine follows_left (h.reaches hid) (fun b g' hpost => ?_)
  subst hpost
  exact hf b

/-- A pin is made and accessed. -/
theorem follows_enter {dirty : Bool} {lent : Multiset Nat} {f : Unit → Prog (HeapOp D) HeapOp.Ans ε α}
    (h : Owned (own + own') frame base (extra + lent) pins g) (hid : Known own' frame base extra pins id)
    (hf : ∀ g', Owned own (own' + frame) (base + extra) lent (⟨id, true, dirty⟩ :: pins) g' →
      Follows rule out R (f ()) y g') :
    Follows rule out R (do perform (HeapOp.pin id); perform (HeapOp.access id dirty) >>= f) y g := by
  have hreach : Known (own + own') frame base (extra + lent) pins id := by
    refine hid.imp (fun hid => ?_) (fun hq => ?_)
    · rw [← Multiset.add_assoc]
      exact Multiset.mem_add.mpr (Or.inl hid)
    · obtain ⟨q, hq, p, hp, hid⟩ := hq
      exact ⟨q, hq, p, by rw [Multiset.add_assoc]; exact Multiset.mem_add.mpr (Or.inr hp), hid⟩
  refine follows_left (h.reaches hreach) (fun _ g₁ hpost => ?_)
  subst hpost
  refine follows_left ⟨_, _, rfl, rfl⟩ (fun _ g₂ hpost => ?_)
  have hg₂ := hpost _ _ rfl
  rw [Bool.false_or] at hg₂
  subst hg₂
  exact hf _ (h.enter ⟨id, true, dirty⟩ hid)

/-- The pin is gone. -/
theorem follows_unpin {own'' : Cells D} {dirty : Bool} {f : Unit → Prog (HeapOp D) HeapOp.Ans ε α}
    (h : Secured frame base pins)
    (hcall : Owned own'' (own' + frame) (base + extra) extra' (⟨id, true, dirty⟩ :: pins) g')
    (hf : ∀ g'', Owned (own'' + own') frame base (extra + extra') pins g'' →
      Follows rule out R (f ()) y g'') :
    Follows rule out R (perform (HeapOp.unpin id) >>= f) y g' := by
  refine follows_left ⟨_, _, hcall.pinned, rfl⟩ (fun _ g'' hpost => ?_)
  subst hpost
  exact hf _ (Owned.leave h hcall)

end Rules

end Shadow

end BeTree
