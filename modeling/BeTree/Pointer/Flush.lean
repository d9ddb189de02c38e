import BeTree.Pointer.Split
import BeTree.Proof.Size

/-!
# Flushing, with pointers

`flush` over the swap space does what `flush` on the tree does. A node is flushed while it is
pinned; its children are reached through it, and the pin on a child is held by the pointer in the
node. A child that has been split has been emptied before its pointer is let go, so nothing but
the child itself goes away with it.

`FollowsFlush` is what the induction on the height gives about the children.
-/

namespace BeTree

open Prog Shadow Node

variable {K V : Type} [LinearOrder K] {bet : Params K V} {out : Fault → Prop}
variable {own frame : Cells (NodeImage K V)} {base extra : Multiset Nat} {pins rest : List Pin}
variable {g : Shadow (NodeImage K V)} {n : Node K V}

section Steps

variable {α β : Type} {R : α → β → Shadow (NodeImage K V) → Prop} {f : Unit → Pointer.PProg K V α}
variable {y : BProg β}

/-! ## The first pivot -/

theorem lowerFirstPivot_pointers (hs : OrdMap.Sorted n.pivots) (elts : MessageMap K V) :
    cellsOf (n.lowerFirstPivot elts).pivots = cellsOf n.pivots
      ∧ pointersOf (n.lowerFirstPivot elts).pivots = pointersOf n.pivots := by
  have hkids := congrArg (List.map (fun c : ChildInfo (Node K V) => c.child))
    (lowerFirstPivot_children hs elts)
  rw [List.map_map, List.map_map] at hkids
  obtain ⟨hcells, _, hptrs⟩ := of_kids hkids
  exact ⟨hcells, hptrs⟩

/-- The old pointer is copied under the new key before its entry is erased. -/
theorem follows_lowerFirstPivot {elts : MessageMap K V} (hs : OrdMap.Sorted n.pivots)
    (h : Owned (n.cell ::ₘ own) frame base extra (⟨n.id, true, true⟩ :: rest) g)
    (hf : ∀ g', Owned ((n.lowerFirstPivot elts).cell ::ₘ own) frame base extra
      (⟨n.id, true, true⟩ :: rest) g' → Follows rule out R (f ()) y g') :
    Follows rule out R (Pointer.lowerFirstPivot n.shallow elts >>= f) y g := by
  have hid := lowerFirstPivot_id n elts
  have hlower := lowerFirstPivot_shallow n elts
  have hptrs := (lowerFirstPivot_pointers hs elts).2
  obtain ⟨id, pivots, elements⟩ := n
  rcases pivots with _ | ⟨⟨oldmin, c⟩, ps⟩
  · exact hf g h
  rcases elts with _ | ⟨⟨newmin, m⟩, elts⟩
  · exact hf g h
  unfold Pointer.lowerFirstPivot
  dsimp only [shallow_pivots, flat_cons]
  by_cases hlt : newmin.key < oldmin
  · rw [if_pos hlt]
    have habsent : ∀ e ∈ (oldmin, c) :: ps, e.1 ≠ newmin.key := by
      intro e he
      rcases List.mem_cons.mp he with rfl | he
      · exact ne_of_gt hlt
      · exact ne_of_gt (lt_trans hlt ((OrdMap.sorted_cons.mp hs).1 e he))
    have hassign : pointersOf (OrdMap.assign ((oldmin, c) :: ps) newmin.key c)
        = c.child.id ::ₘ pointersOf ((oldmin, c) :: ps) := by
      rw [← OrdMap.insert_eq_assign hs habsent,
        pointersOf_perm (OrdMap.insert_perm ((OrdMap.find_eq_none hs).mpr habsent))]
      rfl
    refine follows_copy h (known_child (e := (oldmin, c)) List.mem_cons_self
      (Multiset.mem_cons_self _ _) rfl List.mem_cons_self) (fun g₁ h₁ => ?_)
    refine follows_writeNode ⟨id, OrdMap.assign ((oldmin, c) :: ps) newmin.key c, elements⟩ extra h₁
      ?_ rfl ?_ (fun g₂ h₂ => ?_)
    · show (⟨id, OrdMap.assign (flat ((oldmin, c) :: ps)) newmin.key (shape c), elements⟩ : Node K V) = _
      rw [assign_flat]
      rfl
    · rw [hassign, Multiset.cons_add, Multiset.add_cons]
      rfl
    refine follows_writeNode _ (c.child.id ::ₘ extra) h₂ hlower hid ?_ (fun g₃ h₃ => ?_)
    · rw [hptrs, hassign, Multiset.cons_add, Multiset.add_cons]
    exact follows_destroy h₃ (fun g₄ h₄ => hf g₄ h₄)
  · rw [if_neg hlt]
    have hsame : (⟨id, (oldmin, c) :: ps, elements⟩ : Node K V).lowerFirstPivot ((newmin, m) :: elts)
        = ⟨id, (oldmin, c) :: ps, elements⟩ := if_neg hlt
    rw [hsame] at hf
    exact hf g h

/-! ## Replacing a child -/

/-- The new children are copied into the map, one by one. -/
theorem follows_insertChildren {news : PivotMap K V} (hs : OrdMap.Sorted n.pivots)
    (hnews : OrdMap.Sorted news) (hfind : ∀ e ∈ news, OrdMap.find n.pivots e.1 = none)
    (hptrs : ∀ e ∈ news, e.2.child.id ∈ base + extra)
    (h : Owned (n.cell ::ₘ own) frame base extra (⟨n.id, true, true⟩ :: rest) g)
    (hf : ∀ g', (OrdMap.insertAll n.pivots news).Perm (n.pivots ++ news) →
      Owned (cell ⟨n.id, OrdMap.insertAll n.pivots news, n.elements⟩ ::ₘ own) frame base extra
        (⟨n.id, true, true⟩ :: rest) g' → Follows rule out R (f ()) y g') :
    Follows rule out R (Pointer.insertChildren n.shallow (flat news) >>= f) y g := by
  induction news generalizing n g with
  | nil =>
      refine hf g (List.append_nil _ ▸ List.Perm.refl _) ?_
      show Owned (cell ⟨n.id, n.pivots, n.elements⟩ ::ₘ own) _ _ _ _ _
      rw [eta]
      exact h
  | cons e news ih =>
      have hnone := hfind e List.mem_cons_self
      obtain ⟨hlt, hnews'⟩ := OrdMap.sorted_cons.mp hnews
      have hperm := OrdMap.insert_perm (v := e.2) hnone
      have hassign : OrdMap.insert n.pivots e.1 e.2 = OrdMap.assign n.pivots e.1 e.2 :=
        OrdMap.insert_eq_assign hs ((OrdMap.find_eq_none hs).mp hnone)
      have hs' : OrdMap.Sorted (OrdMap.insert n.pivots e.1 e.2) := hassign ▸ OrdMap.sorted_assign hs
      rw [flat_cons, Pointer.insertChildren]
      dsimp only
      rw [shallow_pivots, find_flat, hnone, insert_flat]
      refine follows_copy h (Or.inl (hptrs e List.mem_cons_self)) (fun g₁ h₁ => ?_)
      refine follows_writeNode ⟨n.id, OrdMap.insert n.pivots e.1 e.2, n.elements⟩ extra h₁ rfl rfl ?_
        (fun g₂ h₂ => ?_)
      · rw [pointersOf_perm hperm, pointersOf_cons, Multiset.cons_add, Multiset.add_cons]
        rfl
      refine ih (n := ⟨n.id, OrdMap.insert n.pivots e.1 e.2, n.elements⟩) hs' hnews' (fun x hx => ?_)
        (fun x hx => hptrs x (List.mem_cons_of_mem _ hx)) h₂ (fun g₃ hperm₃ h₃ => ?_)
      · refine (OrdMap.find_eq_none hs').mpr (fun z hz => ?_)
        rcases List.mem_cons.mp (hperm.mem_iff.mp hz) with rfl | hz
        · exact ne_of_lt (hlt x hx)
        · exact (OrdMap.find_eq_none hs).mp (hfind x (List.mem_cons_of_mem _ hx)) z hz
      · refine hf g₃ (hperm₃.trans ?_) h₃
        exact (hperm.append_right news).trans List.perm_middle.symm

omit [LinearOrder K] in
/-- A map is the entry at a position and the others. -/
theorem Node.toMap_perm (c : OrdMap.Cursor K (ChildInfo (Node K V))) :
    c.toMap.Perm ((c.key, c.val) :: c.erase) := List.perm_middle

/-- A child that has been emptied gives way to the nodes it was split into. -/
theorem follows_replaceChild {c : OrdMap.Cursor K (ChildInfo (Node K V))} {child : Node K V}
    {news : PivotMap K V} (hs : OrdMap.Sorted n.pivots) (hc : c.toMap = n.pivots)
    (hnews : OrdMap.Sorted news) (hfind : ∀ e ∈ news, OrdMap.find c.erase e.1 = none)
    (hempty : child.pivots = [])
    (h : Owned (child.cells + cellsOf news + n.cell ::ₘ cellsOf c.erase) frame base
      (extra + pointersOf news) (⟨n.id, true, true⟩ :: rest) g)
    (hf : ∀ g', Owned (cells ⟨n.id, OrdMap.insertAll c.erase news, n.elements⟩) frame base extra
      (⟨n.id, true, true⟩ :: rest) g' → Follows rule out R (f ()) y g') :
    Follows rule out R (Pointer.replaceChild n.shallow (flatCursor c) (flat news) >>= f) y g := by
  have hperm : n.pivots.Perm ((c.key, c.val) :: c.erase) := hc ▸ toMap_perm c
  have herase : OrdMap.Sorted c.erase := OrdMap.Cursor.sorted_erase (hc ▸ hs)
  have h₀ : Owned (n.cell ::ₘ (cellsOf news + cellsOf c.erase)) frame base (pointersOf news + extra)
      (⟨n.id, true, true⟩ :: rest) g := by
    rw [cells_eq child, hempty, cellsOf_nil, Multiset.cons_add, Multiset.cons_add, Multiset.zero_add] at h
    refine (h.drop ?_).congr (Multiset.add_cons _ _ _).symm (Multiset.add_comm _ _)
    show child.pivots.map _ = []
    rw [hempty]
    rfl
  unfold Pointer.replaceChild
  rw [cursor_erase_flat]
  simp only [Prog.bind_assoc]
  refine follows_writeNode ⟨n.id, c.erase, n.elements⟩ (c.val.child.id ::ₘ (pointersOf news + extra))
    h₀ rfl rfl ?_ (fun g₁ h₁ => ?_)
  · rw [pointersOf_perm hperm, pointersOf_cons, Multiset.cons_add, Multiset.add_cons]
  refine follows_destroy h₁ (fun g₂ h₂ => ?_)
  refine follows_insertChildren (n := ⟨n.id, c.erase, n.elements⟩) herase hnews hfind (fun e he => ?_) h₂
    (fun g₃ hperm₃ h₃ => ?_)
  · exact Multiset.mem_add.mpr (Or.inr (Multiset.mem_add.mpr (Or.inl (mem_pointersOf he))))
  refine follows_destroyAll h₃ (fun g₄ h₄ => hf g₄ (h₄.congr ?_ rfl))
  rw [cells_eq, cellsOf_perm hperm₃, cellsOf_append, Multiset.add_comm (cellsOf news)]

end Steps

/-! ## The child under a cursor -/

/-- What a flush of subtrees of height `h` does to the objects. -/
def FollowsFlush (out : Fault → Prop) (h : Nat)
    (flushChild : Nat → MessageMap K V → Pointer.PProg K V (PivotMap K V))
    (flushChild' : Node K V → MessageMap K V → BProg (Node K V × PivotMap K V)) : Prop :=
  ∀ (R : K → Prop) (n : Node K V) (elts : MessageMap K V) (frame : Cells (NodeImage K V))
    (base : Multiset Nat) (rest : List Pin) (g : Shadow (NodeImage K V)),
    Inv False h R n → Batch False R elts → Owned n.cells frame base 0 (⟨n.id, true, true⟩ :: rest) g →
    Follows rule out (fun a r g' => (a = flat r.2 ∧ r.1.id = n.id ∧ (r.2 ≠ [] → r.1.pivots = []))
        ∧ Owned (r.1.cells + cellsOf r.2) frame base (pointersOf r.2) (⟨n.id, true, true⟩ :: rest) g')
      (flushChild n.id elts) (flushChild' n elts) g

section Child

variable {c : OrdMap.Cursor K (ChildInfo (Node K V))} {child : Node K V}

omit [LinearOrder K] in
theorem Node.cells_at (hc : c.toMap = n.pivots) :
    n.cells = c.val.child.cells + n.cell ::ₘ cellsOf c.erase := by
  rw [cells_eq n, ← hc, cellsOf_perm (toMap_perm c), cellsOf_cons, Multiset.add_cons]

omit [LinearOrder K] in
/-- The child is reached through the node, which is pinned. -/
theorem known_at {dirty : Bool} (hc : c.toMap = n.pivots) :
    Known (n.cell ::ₘ own) frame base extra (⟨n.id, true, dirty⟩ :: rest) c.val.child.id := by
  have hmem : (c.key, c.val) ∈ n.pivots := hc ▸ c.mem_toMap
  exact known_child (e := (c.key, c.val)) List.mem_cons_self (Multiset.mem_cons_self _ _) rfl hmem

omit [LinearOrder K] in
theorem Node.set_perm (c : OrdMap.Cursor K (ChildInfo (Node K V))) (v : ChildInfo (Node K V)) :
    (c.set v).Perm ((c.key, v) :: c.erase) := List.perm_middle

omit [LinearOrder K] in
theorem Node.pointersOf_set {v : ChildInfo (Node K V)} (hc : c.toMap = n.pivots)
    (hid : v.child.id = c.val.child.id) : pointersOf (c.set v) = pointersOf n.pivots := by
  rw [← hc, pointersOf_perm (set_perm c v), pointersOf_perm (toMap_perm c), pointersOf_cons,
    pointersOf_cons, hid]

omit [LinearOrder K] in
theorem Node.cells_set (id : Nat) (c : OrdMap.Cursor K (ChildInfo (Node K V))) (v : ChildInfo (Node K V))
    (es : MessageMap K V) : cells ⟨id, c.set v, es⟩
      = cell ⟨id, c.set v, es⟩ ::ₘ (v.child.cells + cellsOf c.erase) := by
  rw [cells_eq, cellsOf_perm (set_perm c v), cellsOf_cons]

/-- The child under a cursor is flushed. -/
theorem follows_flushChild {h : Nat} {R : K → Prop} {batch : MessageMap K V}
    {flushChild : Nat → MessageMap K V → Pointer.PProg K V (PivotMap K V)}
    {flushChild' : Node K V → MessageMap K V → BProg (Node K V × PivotMap K V)}
    (hspec : FollowsFlush out h flushChild flushChild') (hc : c.toMap = n.pivots)
    (hchild : Inv False h R c.val.child) (hb : Batch False R batch)
    (hown : Owned n.cells frame base extra (⟨n.id, true, true⟩ :: rest) g) :
    Follows rule out (fun a r g' =>
        (a = flat r.2 ∧ r.1.id = c.val.child.id ∧ (r.2 ≠ [] → r.1.pivots = []))
        ∧ Owned (r.1.cells + cellsOf r.2 + n.cell ::ₘ cellsOf c.erase) frame base
          (extra + pointersOf r.2) (⟨n.id, true, true⟩ :: rest) g')
      (Pointer.deref true c.val.child.id (flushChild c.val.child.id batch))
      (c.val.child.deref bet true (flushChild' · batch)) g := by
  rw [cells_at hc] at hown
  exact follows_deref hown (known_at hc) (fun g' h' => hspec R _ batch _ _ _ g' hchild hb h')

omit [LinearOrder K] in
/-- The size of the child is taken after it has been flushed. -/
theorem follows_childSize (hc : c.toMap = n.pivots) (hid : child.id = c.val.child.id)
    (hown : Owned (child.cells + n.cell ::ₘ cellsOf c.erase) frame base extra
      (⟨n.id, true, true⟩ :: rest) g) :
    Follows rule out (fun a r g' => (a = child.size ∧ r = (child, child.size))
        ∧ Owned (child.cells + n.cell ::ₘ cellsOf c.erase) frame base extra
          (⟨n.id, true, true⟩ :: rest) g')
      (Pointer.derefSize c.val.child.id) (child.derefSize bet) g := by
  have hswap : child.cells + n.cell ::ₘ cellsOf c.erase
      = child.cell ::ₘ n.cell ::ₘ (cellsOf child.pivots + cellsOf c.erase) := by
    rw [cells_eq, Multiset.cons_add, Multiset.add_cons]
  rw [hswap] at hown ⊢
  rw [← hid]
  exact follows_derefSize hown (hid ▸ known_at hc)

end Child

section Node

variable [Add V] {h : Nat} {R : K → Prop} {c : OrdMap.Cursor K (ChildInfo (Node K V))} {elts : MessageMap K V}
variable {flushChild : Nat → MessageMap K V → Pointer.PProg K V (PivotMap K V)}
variable {flushChild' : Node K V → MessageMap K V → BProg (Node K V × PivotMap K V)}

/-! ## The fast path -/

omit [Add V] in
/-- The keys of the new children are checked on the tree. -/
theorem follows_insertChecked {α β : Type} {R : α → β → Shadow (NodeImage K V) → Prop}
    {x : Pointer.PProg K V α} {ps news : PivotMap K V} {f : PivotMap K V → BProg β} (hout : out .keyTaken)
    (hf : (∀ e ∈ news, OrdMap.find ps e.1 = none) →
      Follows rule out R x (f (OrdMap.insertAll ps news)) g) :
    Follows rule out R x (insertChildren ps news >>= f) g := by
  unfold insertChildren
  rw [Prog.bind_assoc]
  refine follows_require_right hout (fun hall => hf (fun e he => ?_))
  exact Option.isNone_iff_eq_none.mp (List.all_eq_true.mp hall e he)

theorem follows_flushDirty (hout : out .keyTaken) (hr : ∀ n, bet.reload n = some n)
    (hspec : FollowsFlush out h flushChild flushChild')
    (hall : FlushSpec Fault.Excluded False bet.defaultValue h flushChild') (hn : Inv False (h + 1) R n)
    (hc : c.toMap = n.pivots) (hb : Batch False R elts)
    (hslot : ∀ e ∈ elts, Slot n.pivots c.key e.1.key)
    (hown : Owned n.cells frame base extra (⟨n.id, true, true⟩ :: rest) g) :
    Follows rule out (fun _ n' g' => n'.id = n.id
        ∧ Owned n'.cells frame base extra (⟨n.id, true, true⟩ :: rest) g')
      (Pointer.flushDirty flushChild n.shallow (flatCursor c) elts)
      (n.flushDirty bet flushChild' c elts) g := by
  have hinner : Inner False (Inv False h) R n := hn
  have hx : (c.key, c.val) ∈ n.pivots := hc ▸ c.mem_toMap
  have hsort := hinner.forest.sorted
  have hchild := hinner.forest.child _ hx
  have hb' := hb.slot hslot
  unfold Pointer.flushDirty flushDirty assertUnbuffered
  rw [nextKey_flat]
  refine follows_require (fun _ => ?_)
  refine (follows_flushChild hspec hc hchild hb' hown).bind (fun a r g₁ hend hr₁ => ?_)
  have hflushed := (all_deref hr (hall _ _ _ hchild hb' (fun hf => hf.elim))).of_ends hend
  obtain ⟨child, news⟩ := r
  obtain ⟨⟨rfl, hid, hempty⟩, h₁⟩ := hr₁
  unfold settleDirty
  rw [flat_isEmpty]
  refine follows_ite (fun hnil => ?_) (fun hne => ?_)
  · have hnil : news = [] := List.isEmpty_iff.mp hnil
    subst hnil
    rw [cellsOf_nil, pointersOf_nil, Multiset.add_zero, Multiset.add_zero] at h₁
    refine (follows_childSize hc hid h₁).bind (fun size r g₂ _ hr₂ => ?_)
    obtain ⟨⟨rfl, rfl⟩, h₂⟩ := hr₂
    rw [Multiset.add_cons] at h₂
    refine follows_writeLast ⟨n.id, c.set ⟨child, child.size⟩, n.elements⟩ extra h₂ ?_ rfl ?_
      (fun g₃ h₃ => ⟨rfl, h₃.congr (cells_set ..) rfl⟩)
    · have hshape : ({ (flatCursor c).val with childSize := child.size } : ChildInfo (Node K V))
          = shape ⟨child, child.size⟩ := by
        unfold shape
        rw [hid]
        rfl
      rw [hshape, set_flat]
      rfl
    · rw [pointersOf_set hc hid]
  · have hne : news ≠ [] := fun hc => hne (List.isEmpty_iff.mpr hc)
    rw [← Prog.bind_pure (x := Pointer.replaceChild _ _ _)]
    refine follows_right () (follows_insertChecked hout (fun hfind => ?_))
    exact follows_replaceChild hsort hc (hflushed.parts hne).forest.sorted hfind (hempty hne) h₁
      (fun g₂ h₂ => follows_pure ⟨rfl, h₂⟩)

/-! ## The flush loop -/

omit [LinearOrder K] [Add V] in
/-- Nodes that are read alike have the same cell. -/
theorem Node.cell_eq_of_shallow {n n' : Node K V} (h : n.shallow = n'.shallow) : n.cell = n'.cell := by
  have hid : n.shallow.id = n'.shallow.id := congrArg Node.id h
  rw [shallow_id, shallow_id] at hid
  have hpayload : n.payload = n'.payload := by rw [← payload_shallow, h, payload_shallow]
  unfold cell
  rw [hid, hpayload]

omit [Add V] in
/-- The write of a size leaves the pointers as they are. -/
theorem follows_writeFirstSize {first : Option K} {size : Nat}
    (h : Owned (n.cell ::ₘ own) frame base extra (⟨n.id, true, true⟩ :: rest) g) :
    Follows rule out (fun _ ps g' => ps.map (fun e => e.2.child) = n.pivots.map (fun e => e.2.child)
        ∧ Owned (cell ⟨n.id, ps, n.elements⟩ ::ₘ own) frame base extra (⟨n.id, true, true⟩ :: rest) g')
      (Pointer.writeFirstSize n.shallow first size) (writeFirstSize n.pivots first size) g := by
  unfold Pointer.writeFirstSize writeFirstSize
  cases first with
  | some k =>
      have hps : (setChildSize n.pivots k size).map (fun e => e.2.child)
          = n.pivots.map (fun e => e.2.child) := by
        have hsub := congrArg (List.map Prod.snd) (subtrees_setChildSize n.pivots k size)
        unfold subtrees at hsub
        rw [List.map_map, List.map_map] at hsub
        exact hsub
      refine follows_writeLast ⟨n.id, setChildSize n.pivots k size, n.elements⟩ extra h ?_ rfl ?_
        (fun g' h' => ⟨hps, h'⟩)
      · rw [shallow_pivots, setChildSize_flat]
        rfl
      · rw [(of_kids hps).2.2]
  | none => exact follows_stop _

theorem follows_flushRound {first : Option K} (hout : out .keyTaken) (hr : ∀ n, bet.reload n = some n)
    (hspec : FollowsFlush out h flushChild flushChild')
    (hall : FlushSpec Fault.Excluded False bet.defaultValue h flushChild') (hn : Inv False (h + 1) R n)
    (hc : c.toMap = n.pivots)
    (hown : Owned n.cells frame base extra (⟨n.id, true, true⟩ :: rest) g) :
    Follows rule out (fun a r g' => (a = r.2 ∧ r.1.id = n.id)
        ∧ Owned r.1.cells frame base extra (⟨n.id, true, true⟩ :: rest) g')
      (Pointer.flushRound flushChild n.shallow (flatCursor c) first)
      (n.flushRound bet flushChild' c first) g := by
  have hinner : Inner False (Inv False h) R n := hn
  have hx : (c.key, c.val) ∈ n.pivots := hc ▸ c.mem_toMap
  have hsort := hinner.forest.sorted
  have hchild := hinner.forest.child _ hx
  have hb := hinner.slot_batch c.key
  rw [← childElts_eq hinner.buffer.sorted hsort hc] at hb
  unfold Pointer.flushRound flushRound
  rw [childElts_shallow, otherElts_shallow]
  refine (follows_flushChild hspec hc hchild hb hown).bind (fun a r g₁ hend hr₁ => ?_)
  have hflushed := (all_deref hr (hall _ _ _ hchild hb (fun hf => hf.elim))).of_ends hend
  obtain ⟨child, news⟩ := r
  obtain ⟨⟨rfl, hid, hempty⟩, h₁⟩ := hr₁
  rw [Multiset.add_cons] at h₁
  unfold settleRound
  dsimp only
  generalize n.otherElts c = others
  refine follows_writeBuffer ⟨n.id, n.pivots, others⟩ h₁ rfl rfl rfl (fun g₂ h₂ => ?_)
  rw [← Multiset.add_cons] at h₂
  rw [flat_isEmpty]
  refine follows_ite (fun hnil => ?_) (fun hne => ?_)
  · have hnil : news = [] := List.isEmpty_iff.mp hnil
    subst hnil
    rw [cellsOf_nil, pointersOf_nil, Multiset.add_zero, Multiset.add_zero] at h₂
    refine (follows_childSize (n := ⟨n.id, n.pivots, others⟩) hc hid h₂).bind (fun size r g₃ _ hr₃ => ?_)
    obtain ⟨⟨rfl, rfl⟩, h₃⟩ := hr₃
    rw [Multiset.add_cons] at h₃
    -- the node has the flushed child under its old id, so its cell is the same
    have hflat : flat n.pivots = flat (c.set { c.val with child := child }) := by
      have hshape : shape { c.val with child := child } = shape c.val := by
        unfold shape
        rw [hid]
      rw [← hc, ← set_flat, hshape, set_flat]
      rfl
    have hshallow : (⟨n.id, n.pivots, others⟩ : Node K V).shallow
        = (⟨n.id, c.set { c.val with child := child }, others⟩ : Node K V).shallow := by
      unfold shallow
      rw [hflat]
    rw [cell_eq_of_shallow hshallow] at h₃
    have hsize : Follows rule out _ (Pointer.writeFirstSize _ first child.size) _ g₃ :=
      follows_writeFirstSize h₃
    rw [← hshallow] at hsize
    refine hsize.bind (fun _ ps g₄ _ hr₄ => ?_)
    obtain ⟨hps, h₄⟩ := hr₄
    refine follows_pure ⟨⟨rfl, rfl⟩, h₄.congr ?_ rfl⟩
    rw [cells_eq, (of_kids hps).1, cellsOf_perm (set_perm c _), cellsOf_cons]
  · have hne : news ≠ [] := fun hc => hne (List.isEmpty_iff.mpr hc)
    refine follows_right () (follows_insertChecked hout (fun hfind => ?_))
    exact follows_replaceChild (n := ⟨n.id, n.pivots, others⟩) hsort hc
      (hflushed.parts hne).forest.sorted hfind (hempty hne) h₂
      (fun g₃ h₃ => follows_pure ⟨⟨rfl, rfl⟩, h₃⟩)

omit [LinearOrder K] [Add V] in
/-- The answers on both sides are the same. -/
theorem follows_worthFlushing {maxSize id : Nat} (h : Owned own frame base extra pins g)
    (hid : Known own frame base extra pins id) :
    Follows rule out (fun a b g' => a = b ∧ g' = g)
      (worthFlushing bet Pointer.isInMemory maxSize id : Pointer.PProg K V Bool)
      (worthFlushing bet isInMemory maxSize id) g := by
  refine follows_ite (fun _ => follows_pure ⟨rfl, rfl⟩) (fun _ => ?_)
  refine follows_ite (fun _ => ?_) (fun _ => follows_pure ⟨rfl, rfl⟩)
  unfold Pointer.isInMemory isInMemory
  rw [← Prog.bind_pure (x := Prog.perform (HeapOp.isInMemory id))]
  rw [← Prog.bind_pure (x := Prog.perform (Op.isInMemory id))]
  exact follows_isInMemory h hid (fun b => follows_right b (follows_pure ⟨rfl, rfl⟩))

/-- **The flush loop.** The node is read again in each round. -/
theorem follows_flushLoop {fuel : Nat} {first : Option K} (hout : out .keyTaken)
    (hr : ∀ n, bet.reload n = some n) (hspec : FollowsFlush out h flushChild flushChild')
    (hall : FlushSpec Fault.Excluded False bet.defaultValue h flushChild') (hn : Inv False (h + 1) R n)
    (hown : Owned n.cells frame base extra (⟨n.id, true, true⟩ :: rest) g) :
    Follows rule out (fun _ n' g' => n'.id = n.id
        ∧ Owned n'.cells frame base extra (⟨n.id, true, true⟩ :: rest) g')
      (Pointer.flushLoop bet flushChild fuel n.id first) (flushLoop bet flushChild' fuel n first) g := by
  induction fuel generalizing n first g with
  | zero => exact follows_stop _
  | succ fuel ih =>
      have hinner : Inner False (Inv False h) R n := hn
      rw [Pointer.flushLoop, flushLoop]
      refine follows_readNode hown n.cell_mem_cells ?_
      rw [shallow_size]
      refine follows_ite (fun _ => ?_) (fun _ => follows_pure ⟨rfl, hown⟩)
      cases hp : n.pivots with
      | nil =>
          rw [shallow_pivots, hp]
          exact follows_pure ⟨rfl, hown⟩
      | cons e es =>
          have hbest := (largestChild_best hinner.buffer.sorted hinner.forest.sorted hp).1
          rw [hp] at hbest
          have hshallow : n.shallow.pivots = (e.1, shape e.2) :: flat es := by
            rw [shallow_pivots, hp, flat_cons]
          have hflat := largestChild_flat n.elements [] (e :: es) (⟨[], e.1, e.2, es⟩, 0)
          rcases hl : largestChild n.elements [] (e :: es) (⟨[], e.1, e.2, es⟩, 0) with ⟨c, m⟩
          rw [hl] at hbest hflat
          have hlargest : largestChild n.shallow.elements [] ((e.1, shape e.2) :: flat es)
              (⟨[], e.1, shape e.2, flat es⟩, 0) = (flatCursor c, m) := hflat
          rw [hshallow]
          dsimp only
          rw [hlargest, hl]
          dsimp only
          have hknown : Known n.cells frame base extra (⟨n.id, true, true⟩ :: rest) c.val.child.id := by
            rw [cells_eq]
            exact known_at hbest.toMap
          refine (follows_worthFlushing hown hknown).bind (fun worth worth' g₁ _ hr₁ => ?_)
          obtain ⟨rfl, rfl⟩ := hr₁
          refine follows_ite (fun _ => ?_) (fun _ => follows_pure ⟨rfl, hown⟩)
          refine (follows_flushRound hout hr hspec hall hn hbest.toMap hown).bind
            (fun first' r g₂ hend hr₂ => ?_)
          obtain ⟨⟨rfl, hid⟩, h₂⟩ := hr₂
          have hn' := ((all_flushRound hr (fun _ hf => hf) hall (represents_self hn)
            hbest.toMap).of_ends hend).1.inv
          rw [← hid] at h₂ ⊢
          exact ih hn' h₂

/-! ## `flush` -/

omit [LinearOrder K] [Add V] in
theorem follows_goesToDirtyChild {first last : OrdMap.Cursor K (ChildInfo (Node K V))}
    (h : Owned own frame base extra pins g) (hid : Known own frame base extra pins first.val.child.id) :
    Follows rule out (fun a b g' => (a = b ∧ (b = true → first.before.length = last.before.length))
        ∧ g' = g)
      (goesToDirtyChild Pointer.isDirty (flatCursor first) (flatCursor last) : Pointer.PProg K V Bool)
      (goesToDirtyChild isDirty first last) g := by
  have hlen : ∀ c : OrdMap.Cursor K (ChildInfo (Node K V)), (flatCursor c).before.length = c.before.length :=
    fun c => flat_length c.before
  unfold goesToDirtyChild
  rw [hlen, hlen]
  refine follows_ite (fun hplace => ?_) (fun _ => follows_pure ⟨⟨rfl, fun hc => absurd hc (by simp)⟩, rfl⟩)
  unfold Pointer.isDirty isDirty
  rw [← Prog.bind_pure (x := Prog.perform (HeapOp.isDirty _))]
  rw [← Prog.bind_pure (x := Prog.perform (Op.isDirty _))]
  exact follows_isDirty h hid (fun b => follows_right b (follows_pure ⟨⟨rfl, fun _ => hplace⟩, rfl⟩))

omit [Add V] in
/-- A node at the end of a flush is split, or stays as it is. -/
theorem follows_finish {m : Node K V} {p : Prop} [Decidable p] (hr : ∀ n, bet.reload n = some n)
    (hm : Inv False h R m) (hown : Owned m.cells frame base 0 (⟨m.id, true, true⟩ :: rest) g) :
    Follows rule out (fun a r g' => (a = flat r.2 ∧ r.1.id = m.id ∧ (r.2 ≠ [] → r.1.pivots = []))
        ∧ Owned (r.1.cells + cellsOf r.2) frame base (pointersOf r.2) (⟨m.id, true, true⟩ :: rest) g')
      (if p then Pointer.split bet m.id else return []) (if p then m.split bet else return (m, [])) g := by
  refine follows_ite (fun _ => ?_) (fun _ => ?_)
  · refine (follows_split hr hm.splittable hown).imp (fun a r g' _ hr' => ?_)
    obtain ⟨⟨ha, hr₁⟩, h'⟩ := hr'
    rw [Multiset.add_zero] at h'
    exact ⟨⟨ha, by rw [hr₁], fun _ => by rw [hr₁]⟩, h'⟩
  · exact follows_pure ⟨⟨rfl, rfl, fun hne => absurd rfl hne⟩, hown.congr (Multiset.add_zero _) rfl⟩

theorem follows_flushInner {lo hi : MessageKey K × Message V} (hout : out .keyTaken)
    (hr : ∀ n, bet.reload n = some n) (hspec : FollowsFlush out h flushChild flushChild')
    (hall : FlushSpec Fault.Excluded False bet.defaultValue h flushChild') (hn : Inv False (h + 1) R n)
    (hb : Batch False R elts) (hlo : elts.head? = some lo) (hhi : elts.getLast? = some hi)
    (hown : Owned n.cells frame base 0 (⟨n.id, true, true⟩ :: rest) g) :
    Follows rule out (fun a r g' => (a = flat r.2 ∧ r.1.id = n.id ∧ (r.2 ≠ [] → r.1.pivots = []))
        ∧ Owned (r.1.cells + cellsOf r.2) frame base (pointersOf r.2) (⟨n.id, true, true⟩ :: rest) g')
      (Pointer.flushInner bet flushChild n.shallow lo.1.key hi.1.key elts)
      (flushInner bet flushChild' n lo.1.key hi.1.key elts) g := by
  have hinner : Inner False (Inv False h) R n := hn
  have hbetween := hb.between hlo hhi
  have hself : Represents False bet.defaultValue (h + 1) R n.messages
      (value bet.defaultValue (h + 1) n) n := represents_self hn
  obtain ⟨more, helts⟩ := List.head?_eq_some_iff.mp hlo
  obtain ⟨hn₁, p, hp, hplo⟩ := hself.lowerFirstPivot more (hb.range lo (List.mem_of_head? hlo))
  rw [← helts] at hn₁ hp
  unfold Pointer.flushInner flushInner
  rw [cells_eq] at hown
  refine follows_lowerFirstPivot hinner.forest.sorted hown (fun g₁ h₁ => ?_)
  rw [← (lowerFirstPivot_pointers hinner.forest.sorted elts).1, ← cells_eq] at h₁
  have hid := lowerFirstPivot_id n elts
  dsimp only
  rw [lowerFirstPivot_shallow]
  generalize n.lowerFirstPivot elts = n₁ at hn₁ hp hid h₁ ⊢
  rw [← hid] at h₁ ⊢
  have hinner₁ : Inner False (Inv False h) R n₁ := hn₁.inv
  obtain ⟨first, last, hfirst, hlast, hfmap, hslot⟩ :=
    getPivot_batch hinner₁.forest.sorted hb hlo hhi hp hplo
  rw [shallow_pivots, getPivot_flat, getPivot_flat, hfirst, hlast]
  have hknown : Known n₁.cells frame base 0 (⟨n₁.id, true, true⟩ :: rest) first.val.child.id := by
    rw [cells_eq]
    exact known_at hfmap
  refine (follows_goesToDirtyChild h₁ hknown).bind (fun dirty dirty' g₂ _ hr₂ => ?_)
  obtain ⟨⟨rfl, hdirty⟩, rfl⟩ := hr₂
  refine follows_ite (fun hd => ?_) (fun _ => ?_)
  · refine (follows_flushDirty hout hr hspec hall hn₁.inv hfmap hb (hslot (hdirty hd)) h₁).bind
      (fun _ n₂ g₂ _ hr₂ => ?_)
    obtain ⟨hid₂, h₂⟩ := hr₂
    exact follows_pure ⟨⟨rfl, hid₂, fun hne => absurd rfl hne⟩, h₂.congr (Multiset.add_zero _) rfl⟩
  · have hn₂ := hn₁.applyAll hb (fun hf => hf.elim) (fun e he => ⟨p, hp, le_trans hplo (hbetween e he).1⟩)
    have hid₂ : (n₁.applyAll elts bet.defaultValue).id = n₁.id := applyAll_id
    have hps₂ : (n₁.applyAll elts bet.defaultValue).pivots = n₁.pivots := applyAll_pivots
    rw [applyAll_shallow]
    generalize n₁.applyAll elts bet.defaultValue = n₂ at hn₂ hid₂ hps₂ ⊢
    rw [cells_eq, ← hps₂] at h₁
    refine follows_writeBuffer n₂ h₁ rfl hid₂ (by rw [hps₂]) (fun g₂ h₂ => ?_)
    rw [← cells_eq, ← hid₂] at h₂
    rw [← hid₂]
    refine (follows_flushLoop hout hr hspec hall hn₂.inv h₂).bind (fun _ n₃ g₃ hend hr₃ => ?_)
    obtain ⟨hid₃, h₃⟩ := hr₃
    rw [flushLoop_eq] at hend
    have hn₃ := (all_flushLoop hr (fun _ hf => hf) hall (Nat.lt_succ_self _) hn₂).of_ends hend
    rw [← hid₃] at h₃
    rw [shallow_id, ← hid₃]
    refine follows_readNode h₃ n₃.cell_mem_cells ?_
    rw [shallow_size]
    exact follows_finish hr hn₃.inv h₃

/-- A leaf takes the batch, and has no pointers to move. -/
theorem follows_flushLeaf (hr : ∀ n, bet.reload n = some n) (hn : Inv False 0 R n) (hb : Batch False R elts)
    (hown : Owned n.cells frame base 0 (⟨n.id, true, true⟩ :: rest) g) :
    Follows rule out (fun a r g' => (a = flat r.2 ∧ r.1.id = n.id ∧ (r.2 ≠ [] → r.1.pivots = []))
        ∧ Owned (r.1.cells + cellsOf r.2) frame base (pointersOf r.2) (⟨n.id, true, true⟩ :: rest) g')
      (do
        let m := n.shallow.applyAll elts bet.defaultValue
        Pointer.write m
        if bet.maxNodeSize ≤ m.size then Pointer.split bet n.id else return [])
      (let m := n.applyAll elts bet.defaultValue
        if bet.maxNodeSize ≤ m.size then m.split bet else return (m, [])) g := by
  have hself : Represents False bet.defaultValue 0 R n.messages (value bet.defaultValue 0 n) n :=
    represents_self hn
  have hm := hself.applyAll_leaf hb (fun hf => hf.elim)
  have hid : (n.applyAll elts bet.defaultValue).id = n.id := applyAll_id
  have hps : (n.applyAll elts bet.defaultValue).pivots = n.pivots := applyAll_pivots
  dsimp only
  rw [applyAll_shallow, shallow_size]
  generalize n.applyAll elts bet.defaultValue = m at hm hid hps ⊢
  rw [cells_eq, ← hps] at hown
  refine follows_writeBuffer m hown rfl hid (by rw [hps]) (fun g₁ h₁ => ?_)
  rw [← cells_eq, ← hid] at h₁
  rw [← hid]
  exact follows_finish hr hm.inv h₁

/-- **`flush`, with pointers**, does what it does to the tree, and hands over the new nodes. -/
theorem follows_flush {fuel fuel' : Nat} (hout : out .keyTaken) (hr : ∀ n, bet.reload n = some n)
    (hM : 3 ≤ bet.maxNodeSize ∨ h = 0) (hfuel : h < fuel') (hle : fuel' ≤ fuel) :
    FollowsFlush out h (Pointer.flush bet fuel) (flush bet fuel') := by
  induction fuel' generalizing h fuel with
  | zero => exact absurd hfuel (Nat.not_lt_zero _)
  | succ fuel' ih =>
      intro R n elts frame base rest g hn hb hown
      obtain ⟨fuel, rfl⟩ : ∃ more, fuel = more + 1 := ⟨fuel - 1, by omega⟩
      rw [Pointer.flush, flush]
      refine follows_readNode hown n.cell_mem_cells ?_
      rw [shallow_isLeaf]
      have hsame : Owned (n.cells + cellsOf ([] : PivotMap K V)) frame base
          (pointersOf ([] : PivotMap K V)) (⟨n.id, true, true⟩ :: rest) g :=
        hown.congr (Multiset.add_zero _) rfl
      cases hlo : elts.head? with
      | none => exact follows_pure ⟨⟨rfl, rfl, fun hne => absurd rfl hne⟩, hsame⟩
      | some lo =>
          cases hhi : elts.getLast? with
          | none => exact follows_pure ⟨⟨rfl, rfl, fun hne => absurd rfl hne⟩, hsame⟩
          | some hi =>
              cases h with
              | zero =>
                  have hleaf : n.isLeaf = true := hn.isLeaf
                  rw [hleaf]
                  exact follows_flushLeaf hr hn hb hown
              | succ h =>
                  have hleaf : n.isLeaf = false := hn.isLeaf
                  have hfuel := Nat.lt_of_succ_lt_succ hfuel
                  have hM' : 3 ≤ bet.maxNodeSize := hM.resolve_right (Nat.succ_ne_zero h)
                  rw [hleaf]
                  exact follows_flushInner hout hr (ih (Or.inl hM') hfuel (Nat.le_of_succ_le_succ hle))
                    (flush_spec fuel' hr hM' hfuel) hn hb hlo hhi hown

end Node

end BeTree
