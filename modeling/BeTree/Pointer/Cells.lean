import BeTree.Pointer.Owned
import BeTree.Pointer.Shallow
import BeTree.Proof.Invariant

/-!
# The objects of a tree

The cells of a subtree are its nodes, each as the content of its object. A node's cell does not
tell what is below its children, so moving children from one node to another, or giving a
child another content, changes no other cell.

The rules of the operations, as they are used on nodes: what was read is the node without its
subtrees, and what follows a pointer is compared with what is done to the node itself.
-/

namespace BeTree

open Prog Shadow

variable {K V : Type}

namespace Node

/-- The cell of a node. -/
def cell (n : Node K V) : Nat × Payload (NodeImage K V) := (n.id, n.payload)

/-- The cells of a subtree. -/
def cells (n : Node K V) : Cells (NodeImage K V) := (n.nodes.map cell : List _)

/-- The cells of the subtrees in a pivot map. -/
def cellsOf (ps : PivotMap K V) : Cells (NodeImage K V) :=
  ((ps.flatMap (fun e => e.2.child.nodes)).map cell : List _)

/-- The cells of the children in a pivot map. -/
def tops (ps : PivotMap K V) : Cells (NodeImage K V) := (ps.map (fun e => e.2.child.cell) : List _)

/-- The pointers in a pivot map. -/
def pointersOf (ps : PivotMap K V) : Multiset Nat := (ps.map (fun e => e.2.child.id) : List _)

theorem cells_eq (n : Node K V) : n.cells = n.cell ::ₘ cellsOf n.pivots := by
  unfold cells cellsOf
  rw [nodes_eq, List.map_cons, Multiset.cons_coe]

theorem cell_mem_cells (n : Node K V) : n.cell ∈ n.cells := by
  rw [cells_eq]
  exact Multiset.mem_cons_self _ _

@[simp]
theorem cellsOf_nil : cellsOf ([] : PivotMap K V) = 0 := rfl

@[simp]
theorem cellsOf_cons (e : K × ChildInfo (Node K V)) (ps : PivotMap K V) :
    cellsOf (e :: ps) = e.2.child.cells + cellsOf ps := by
  unfold cellsOf cells
  rw [List.flatMap_cons, List.map_append, Multiset.coe_add]

theorem cellsOf_append (ps qs : PivotMap K V) : cellsOf (ps ++ qs) = cellsOf ps + cellsOf qs := by
  unfold cellsOf
  rw [List.flatMap_append, List.map_append, Multiset.coe_add]

theorem cellsOf_perm {ps qs : PivotMap K V} (h : ps.Perm qs) : cellsOf ps = cellsOf qs :=
  Multiset.coe_eq_coe.mpr ((h.flatMap_right _).map _)

@[simp]
theorem tops_nil : tops ([] : PivotMap K V) = 0 := rfl

@[simp]
theorem tops_cons (e : K × ChildInfo (Node K V)) (ps : PivotMap K V) :
    tops (e :: ps) = e.2.child.cell ::ₘ tops ps := rfl

theorem tops_append (ps qs : PivotMap K V) : tops (ps ++ qs) = tops ps + tops qs := by
  unfold tops
  rw [List.map_append, Multiset.coe_add]

@[simp]
theorem pointersOf_nil : pointersOf ([] : PivotMap K V) = 0 := rfl

@[simp]
theorem pointersOf_cons (e : K × ChildInfo (Node K V)) (ps : PivotMap K V) :
    pointersOf (e :: ps) = e.2.child.id ::ₘ pointersOf ps := rfl

theorem pointersOf_perm {ps qs : PivotMap K V} (h : ps.Perm qs) : pointersOf ps = pointersOf qs :=
  Multiset.coe_eq_coe.mpr (h.map _)

theorem pointersOf_append (ps qs : PivotMap K V) :
    pointersOf (ps ++ qs) = pointersOf ps + pointersOf qs := by
  unfold pointersOf
  rw [List.map_append, Multiset.coe_add]

theorem mem_pointersOf {ps : PivotMap K V} {e : K × ChildInfo (Node K V)} (he : e ∈ ps) :
    e.2.child.id ∈ pointersOf ps := Multiset.mem_coe.mpr (List.mem_map.mpr ⟨e, he, rfl⟩)

/-- The cells of subtrees are those of their roots and those below. -/
theorem cellsOf_eq (ps : PivotMap K V) :
    cellsOf ps = tops ps + cellsOf (ps.flatMap (fun e => e.2.child.pivots)) := by
  induction ps with
  | nil => rfl
  | cons e ps ih =>
      rw [cellsOf_cons, ih, cells_eq, tops_cons, List.flatMap_cons, cellsOf_append]
      rw [Multiset.cons_add, Multiset.cons_add, ← Multiset.add_assoc, ← Multiset.add_assoc,
        Multiset.add_comm (cellsOf e.2.child.pivots)]

/-- Only the children matter, not the keys and the cached sizes. -/
theorem of_kids {ps qs : PivotMap K V}
    (h : ps.map (fun e => e.2.child) = qs.map (fun e => e.2.child)) :
    cellsOf ps = cellsOf qs ∧ tops ps = tops qs ∧ pointersOf ps = pointersOf qs := by
  have hflat : ∀ ps : PivotMap K V, ps.flatMap (fun e => e.2.child.nodes)
      = (ps.map (fun e => e.2.child)).flatMap nodes := fun ps => (List.flatMap_map ..).symm
  have hmap : ∀ {β : Type} (f : Node K V → β) (ps : PivotMap K V), ps.map (fun e => f e.2.child)
      = (ps.map (fun e => e.2.child)).map f := fun f ps => (List.map_map ..).symm
  unfold cellsOf tops pointersOf
  rw [hflat, hflat qs, hmap cell, hmap cell qs, hmap Node.id, hmap Node.id qs, h]
  exact ⟨rfl, rfl, rfl⟩

@[simp]
theorem payload_shallow (n : Node K V) : n.shallow.payload = n.payload := by
  rw [payload_flat n.shallow_pivots]
  cases n
  rfl

end Node

open Node

/-! ## The rules, for nodes -/

section Rules

variable {α β : Type} {out : Fault → Prop} {R : α → β → Shadow (NodeImage K V) → Prop}
variable {y : BProg β} {own own' frame : Cells (NodeImage K V)} {base extra extra' : Multiset Nat}
variable {pins rest : List Pin} {g : Shadow (NodeImage K V)} {n n' : Node K V} {dirty : Bool}

/-- A pointer in an own object that is pinned. -/
theorem known_child {q : Pin} (hq : q ∈ pins) (hn : n.cell ∈ own) (hid : q.id = n.id)
    {e : K × ChildInfo (Node K V)} (he : e ∈ n.pivots) :
    Known own frame base extra pins e.2.child.id := by
  refine Or.inr ⟨q, hq, n.payload, ?_, List.mem_map.mpr ⟨e, he, rfl⟩⟩
  rw [hid]
  exact Multiset.mem_add.mpr (Or.inl hn)

theorem known_extra {id : Nat} (h : id ∈ extra) : Known own frame base extra pins id :=
  Or.inl (Multiset.mem_add.mpr (Or.inr h))

/-- A new node, and the pointer to it. -/
theorem follows_allocateNode {f : Nat → Pointer.PProg K V α} {f' : Node K V → BProg β}
    (h : Owned own frame base extra pins g)
    (hf : ∀ id g', Owned (cell ⟨id, [], []⟩ ::ₘ own) frame base (id ::ₘ extra) pins g' →
      Follows rule out R (f id) (f' ⟨id, [], []⟩) g') :
    Follows rule out R (Pointer.allocate >>= f) (allocate >>= f') g := by
  refine follows_allocate h (fun id g' h' => ?_)
  exact follows_right (o := Op.allocate) (g := fun id => f' ⟨id, [], []⟩) id (hf id g' h')

theorem follows_readNode {f : Node K V → Pointer.PProg K V α}
    (h : Owned own frame base extra (⟨n.id, true, dirty⟩ :: rest) g) (hn : n.cell ∈ own)
    (hf : Follows rule out R (f n.shallow) y g) :
    Follows rule out R (Pointer.read n.id >>= f) y g := by
  refine follows_read (f := fun p => f (p.data.node n.id)) h hn ?_
  show Follows rule out R (f (n.image.node n.id)) y g
  rw [node_image]
  exact hf

theorem follows_writeNode {f : Unit → Pointer.PProg K V α} {m : Node K V}
    (n' : Node K V) (extra' : Multiset Nat)
    (h : Owned (n.cell ::ₘ own) frame base extra (⟨n.id, true, true⟩ :: rest) g)
    (hm : m = n'.shallow) (hid : n'.id = n.id)
    (hptrs : pointersOf n'.pivots + extra' = pointersOf n.pivots + extra)
    (hf : ∀ g', Owned (n'.cell ::ₘ own) frame base extra' (⟨n.id, true, true⟩ :: rest) g' →
      Follows rule out R (f ()) y g') :
    Follows rule out R (Pointer.write m >>= f) y g := by
  subst hm
  unfold Pointer.write
  rw [shallow_id, payload_shallow, hid]
  refine follows_store h hptrs (fun g' h' => hf g' ?_)
  unfold Node.cell
  rw [hid]
  exact h'

/-- A write that is the last thing done. -/
theorem follows_writeLast {b : β} {R : Unit → β → Shadow (NodeImage K V) → Prop} {m : Node K V}
    (n' : Node K V) (extra' : Multiset Nat)
    (h : Owned (n.cell ::ₘ own) frame base extra (⟨n.id, true, true⟩ :: rest) g)
    (hm : m = n'.shallow) (hid : n'.id = n.id)
    (hptrs : pointersOf n'.pivots + extra' = pointersOf n.pivots + extra)
    (hf : ∀ g', Owned (n'.cell ::ₘ own) frame base extra' (⟨n.id, true, true⟩ :: rest) g' → R () b g') :
    Follows rule out R (Pointer.write m) (pure b : BProg β) g := by
  rw [← Prog.bind_pure (x := Pointer.write m)]
  exact follows_writeNode n' _ h hm hid hptrs (fun g' h' => follows_pure (hf g' h'))

/-- A write that leaves the pointers where they are. -/
theorem follows_writeBuffer {f : Unit → Pointer.PProg K V α} {m : Node K V}
    (n' : Node K V) (h : Owned (n.cell ::ₘ own) frame base extra (⟨n.id, true, true⟩ :: rest) g)
    (hm : m = n'.shallow) (hid : n'.id = n.id) (hps : pointersOf n'.pivots = pointersOf n.pivots)
    (hf : ∀ g', Owned (n'.cell ::ₘ own) frame base extra (⟨n.id, true, true⟩ :: rest) g' →
      Follows rule out R (f ()) y g') :
    Follows rule out R (Pointer.write m >>= f) y g :=
  follows_writeNode n' _ h hm hid (by rw [hps]) hf

/--
**Following a pointer.** The body has the cells it is given and the extra pointers that are lent to
it, and the rest is its frame.
-/
theorem follows_lend {γ : Type} {bet : Params K V} {body : Pointer.PProg K V α}
    {body' : Node K V → BProg (Node K V × γ)} {P : α → Node K V × γ → Prop} {lent : Multiset Nat}
    {own'' : Node K V × γ → Cells (NodeImage K V)} {extra'' : Node K V × γ → Multiset Nat}
    (h : Owned (own + own') frame base (extra + lent) pins g)
    (hid : Known own' frame base extra pins n.id)
    (hbody : ∀ g', Owned own (own' + frame) (base + extra) lent (⟨n.id, true, dirty⟩ :: pins) g' →
      Follows rule out (fun a r g' => P a r ∧ Owned (own'' r) (own' + frame) (base + extra) (extra'' r)
        (⟨n.id, true, dirty⟩ :: pins) g') body (body' n) g') :
    Follows rule out (fun a r g' => P a r
        ∧ Owned (own'' r + own') frame base (extra + extra'' r) pins g')
      (Pointer.deref dirty n.id body) (n.deref bet dirty body') g := by
  unfold Node.deref BeTree.pin BeTree.access
  refine follows_right () (follows_right false ?_)
  refine follows_enter h hid (fun g' h' => ?_)
  refine (hbody g' h').bind (fun a r g'' _ hr => ?_)
  obtain ⟨hP, hr⟩ := hr
  obtain ⟨m, c⟩ := r
  refine follows_right () ?_
  exact follows_unpin h.secured hr (fun g₃ h₃ => follows_pure ⟨hP, h₃⟩)

/-- Following a pointer when the body needs no extra pointer. -/
theorem follows_deref {γ : Type} {bet : Params K V} {body : Pointer.PProg K V α}
    {body' : Node K V → BProg (Node K V × γ)} {P : α → Node K V × γ → Prop}
    {own'' : Node K V × γ → Cells (NodeImage K V)} {extra'' : Node K V × γ → Multiset Nat}
    (h : Owned (own + own') frame base extra pins g) (hid : Known own' frame base extra pins n.id)
    (hbody : ∀ g', Owned own (own' + frame) (base + extra) 0 (⟨n.id, true, dirty⟩ :: pins) g' →
      Follows rule out (fun a r g' => P a r ∧ Owned (own'' r) (own' + frame) (base + extra) (extra'' r)
        (⟨n.id, true, dirty⟩ :: pins) g') body (body' n) g') :
    Follows rule out (fun a r g' => P a r
        ∧ Owned (own'' r + own') frame base (extra + extra'' r) pins g')
      (Pointer.deref dirty n.id body) (n.deref bet dirty body') g :=
  follows_lend (h.congr rfl (Multiset.add_zero _)) hid hbody

end Rules

end BeTree
