import BeTree.Pointer.Cells
import BeTree.Proof.Split

/-!
# Splitting, with pointers

While `split` runs, the children of the node are referred to from the node itself and from the
new nodes they have been copied to. Their cells do not change, and neither does that of the node,
until it is emptied at the end. So only the cells of the new nodes are followed through the
loops, and once everything has been moved, these and the children make up the pieces.

An entry of `result` that is assigned to again had an empty node, so nothing is lost with it.
-/

namespace BeTree

open Prog Shadow Node

variable {K V : Type} [LinearOrder K] {bet : Params K V} {out : Fault → Prop}
variable {own frame : Cells (NodeImage K V)} {base extra : Multiset Nat} {pins rest : List Pin}
variable {g : Shadow (NodeImage K V)} {n : Node K V}

omit [LinearOrder K] in
/-- What is done through a pointer to one object, of which only the cell is needed. -/
theorem follows_derefCell {α γ : Type} {dirty : Bool} {body : Pointer.PProg K V α}
    {body' : Node K V → BProg (Node K V × γ)} {P : α → Node K V × γ → Prop}
    {next : Node K V × γ → Cells (NodeImage K V)} {extra' : Node K V × γ → Multiset Nat}
    (h : Owned (n.cell ::ₘ own) frame base extra pins g) (hid : Known own frame base extra pins n.id)
    (hbody : ∀ g', Owned {n.cell} (own + frame) (base + extra) 0 (⟨n.id, true, dirty⟩ :: pins) g' →
      Follows rule out (fun a r g' => P a r ∧ Owned (next r) (own + frame) (base + extra) (extra' r)
        (⟨n.id, true, dirty⟩ :: pins) g') body (body' n) g') :
    Follows rule out (fun a r g' => P a r ∧ Owned (next r + own) frame base (extra + extra' r) pins g')
      (Pointer.deref dirty n.id body) (n.deref bet dirty body') g := by
  rw [← Multiset.singleton_add] at h
  exact follows_deref h hid hbody

omit [LinearOrder K] in
/-- The pointer that a pin was made from can be followed again. -/
theorem known_again {pin : Pin} {id : Nat} (h : Known own frame base extra pins id) :
    Known 0 (own + frame) (base + extra) 0 (pin :: pins) id := by
  unfold Known at h ⊢
  rw [Multiset.zero_add, Multiset.add_zero]
  refine h.imp_right (fun hq => ?_)
  obtain ⟨q, hq, p, hp⟩ := hq
  exact ⟨q, List.mem_cons_of_mem _ hq, p, hp⟩

omit [LinearOrder K] in
theorem follows_derefSize (h : Owned (n.cell ::ₘ own) frame base extra pins g)
    (hid : Known own frame base extra pins n.id) :
    Follows rule out (fun a r g' => (a = n.size ∧ r = (n, n.size))
        ∧ Owned (n.cell ::ₘ own) frame base extra pins g')
      (Pointer.derefSize n.id) (n.derefSize bet) g := by
  have hinner : ∀ g', Owned {n.cell} (own + frame) (base + extra) 0 (⟨n.id, true, true⟩ :: pins) g' →
      Follows rule out (fun a r g' => (a = n.size ∧ r = (n, n.size))
          ∧ Owned {n.cell} (own + frame) (base + extra) 0 (⟨n.id, true, true⟩ :: pins) g')
        (Pointer.deref true n.id (Pointer.read n.id >>= fun m => pure m.size))
        (n.deref bet true (fun n => pure (n, n.size))) g' := by
    intro g' h'
    have hread : ∀ g'', Owned {n.cell} (0 + (own + frame)) (base + extra + 0) 0
        (⟨n.id, true, true⟩ :: ⟨n.id, true, true⟩ :: pins) g'' →
        Follows rule out (fun a r g' => (a = n.size ∧ r = (n, n.size)) ∧ Owned {n.cell}
          (0 + (own + frame)) (base + extra + 0) 0 (⟨n.id, true, true⟩ :: ⟨n.id, true, true⟩ :: pins) g')
          (Pointer.read n.id >>= fun m => pure m.size) (pure (n, n.size) : BProg _) g'' := by
      intro g'' h''
      refine follows_readNode h'' (Multiset.mem_singleton_self _) (follows_pure ⟨⟨?_, rfl⟩, h''⟩)
      exact n.shallow_size
    refine (follows_derefCell h' (known_again hid) hread).imp (fun a r g' _ hr => ⟨hr.1, ?_⟩)
    exact hr.2.congr (Multiset.add_zero _).symm (Multiset.add_zero _).symm
  refine (follows_derefCell h hid hinner).imp (fun a r g' _ hr => ⟨hr.1, ?_⟩)
  exact hr.2.congr (Multiset.singleton_add _ _).symm (Multiset.add_zero _).symm

/-! ## Filling a new node -/

/-- A pointer in a pinned object of the frame. -/
def InFrame (frame : Cells (NodeImage K V)) (pins : List Pin) (id : Nat) : Prop :=
  ∃ q ∈ pins, ∃ p, (q.id, p) ∈ frame ∧ id ∈ p.ptrs

theorem follows_putPivot {e : K × ChildInfo (Node K V)}
    (h : Owned (n.cell ::ₘ own) frame base extra pins g) (hn : n.id ∈ base + extra)
    (he : InFrame frame pins e.2.child.id) (hs : OrdMap.Sorted (n.pivots ++ [e])) :
    Follows rule out (fun _ n' g' => n' = { n with pivots := n.pivots ++ [e] }
        ∧ Owned (n'.cell ::ₘ own) frame base extra pins g')
      (Pointer.putPivot n.id (e.1, shape e.2)) (n.putPivot bet e) g := by
  obtain ⟨hsn, _, hlt⟩ := OrdMap.sorted_append.mp hs
  have hassign : OrdMap.assign n.pivots e.1 e.2 = n.pivots ++ [e] :=
    OrdMap.assign_append hsn (fun x hx => hlt x hx e List.mem_cons_self)
  have hfind : OrdMap.find n.pivots e.1 = none := by
    cases hf : OrdMap.find n.pivots e.1 with
    | none => rfl
    | some x =>
        obtain ⟨hx, hkey⟩ := (OrdMap.find_eq_some hsn).mp hf
        exact absurd (hlt x hx e List.mem_cons_self) (hkey ▸ lt_irrefl _)
  have hover : Pointer.overwrite n.shallow e.1 = (pure () : Pointer.PProg K V Unit) := by
    unfold Pointer.overwrite
    rw [shallow_pivots, find_flat, hfind]
    rfl
  have hbody : ∀ g', Owned {n.cell} (own + frame) (base + extra) 0 (⟨n.id, true, true⟩ :: pins) g' →
      Follows rule out (fun _ r g' => r = (({ n with pivots := n.pivots ++ [e] } : Node K V), ())
          ∧ Owned {r.1.cell} (own + frame) (base + extra) 0 (⟨n.id, true, true⟩ :: pins) g')
        (do
          let m ← Pointer.read n.id
          Pointer.overwrite m e.1
          Pointer.copy e.2.child.id
          Pointer.write { m with pivots := OrdMap.assign m.pivots e.1 (shape e.2) })
        (pure ({ n with pivots := OrdMap.assign n.pivots e.1 e.2 }, ()) : BProg _) g' := by
    intro g' h'
    rw [hassign]
    refine follows_readNode h' (Multiset.mem_singleton_self _) ?_
    rw [hover]
    have hknown : Known {n.cell} (own + frame) (base + extra) 0 (⟨n.id, true, true⟩ :: pins)
        e.2.child.id := by
      obtain ⟨q, hq, p, hp, hid⟩ := he
      refine Or.inr ⟨q, List.mem_cons_of_mem _ hq, p, ?_, hid⟩
      exact Multiset.mem_add.mpr (Or.inr (Multiset.mem_add.mpr (Or.inr hp)))
    refine follows_copy h' hknown (fun g'' h'' => ?_)
    refine follows_writeLast { n with pivots := n.pivots ++ [e] } _ h'' ?_ rfl ?_ (fun g₃ h₃ => ⟨rfl, h₃⟩)
    · rw [shallow_pivots, assign_flat, hassign]
      rfl
    · rw [pointersOf_perm (List.perm_append_singleton e n.pivots), pointersOf_cons,
        Multiset.add_zero, Multiset.add_cons, Multiset.add_zero]
  refine Follows.map_right (g := Prod.fst) ((follows_derefCell h (Or.inl hn) hbody).imp
    (fun a r g' _ hr => ?_))
  obtain ⟨hres, hr⟩ := hr
  subst hres
  exact ⟨rfl, hr.congr (Multiset.singleton_add _ _).symm (Multiset.add_zero _).symm⟩

theorem follows_putElement {e : MessageKey K × Message V}
    (h : Owned (n.cell ::ₘ own) frame base extra pins g) (hn : n.id ∈ base + extra) :
    Follows rule out (fun _ n' g' => (n'.id = n.id ∧ n'.pivots = n.pivots)
        ∧ Owned (n'.cell ::ₘ own) frame base extra pins g')
      (Pointer.putElement n.id e) (n.putElement bet e) g := by
  have hbody : ∀ g', Owned {n.cell} (own + frame) (base + extra) 0 (⟨n.id, true, true⟩ :: pins) g' →
      Follows rule out (fun _ r g' => (r.1.id = n.id ∧ r.1.pivots = n.pivots)
          ∧ Owned {r.1.cell} (own + frame) (base + extra) 0 (⟨n.id, true, true⟩ :: pins) g')
        (do
          let m ← Pointer.read n.id
          Pointer.write { m with elements := OrdMap.assign m.elements e.1 e.2 })
        (pure ({ n with elements := OrdMap.assign n.elements e.1 e.2 }, ()) : BProg _) g' := by
    intro g' h'
    refine follows_readNode h' (Multiset.mem_singleton_self _) ?_
    exact follows_writeLast { n with elements := OrdMap.assign n.elements e.1 e.2 } _ h' rfl rfl rfl
      (fun g₃ h₃ => ⟨⟨rfl, rfl⟩, h₃⟩)
  refine Follows.map_right (g := Prod.fst) ((follows_derefCell h (Or.inl hn) hbody).imp
    (fun a r g' _ hr => ⟨hr.1, ?_⟩))
  exact hr.2.congr (Multiset.singleton_add _ _).symm (Multiset.add_zero _).symm

theorem follows_putElements {es : MessageMap K V}
    (h : Owned (n.cell ::ₘ own) frame base extra pins g) (hn : n.id ∈ base + extra) :
    Follows rule out (fun _ n' g' => (n'.id = n.id ∧ n'.pivots = n.pivots)
        ∧ Owned (n'.cell ::ₘ own) frame base extra pins g')
      (Pointer.putElements es n.id) (putElements bet es n) g := by
  induction es generalizing n g with
  | nil => exact follows_pure ⟨⟨rfl, rfl⟩, h⟩
  | cons e es ih =>
      refine (follows_putElement h hn).bind (fun _ n' g' _ hr => ?_)
      obtain ⟨⟨hid, hps⟩, h'⟩ := hr
      rw [← hid] at hn ⊢
      rw [← hps]
      exact ih h' hn

/-- Where the loops of `split` stand, without what is below the children. -/
def flatState (st : SplitState K V) : SplitState K V := ⟨flat st.pivotIdx, st.eltIdx, st.thingsMoved⟩

theorem follows_fillElements {leaf : Bool} {target moved : Nat} {es : MessageMap K V}
    (h : Owned (n.cell ::ₘ own) frame base extra pins g) (hn : n.id ∈ base + extra) :
    Follows rule out (fun st r g' => (st = flatState r.1 ∧ r.2.id = n.id)
        ∧ Owned (r.2.cell ::ₘ own) frame base extra pins g')
      (Pointer.fillElements leaf target es moved n.id) (fillElements bet leaf target es moved n) g := by
  induction es generalizing n g moved with
  | nil => exact follows_pure ⟨⟨rfl, rfl⟩, h⟩
  | cons e es ih =>
      refine follows_ite (fun _ => ?_) (fun _ => follows_pure ⟨⟨rfl, rfl⟩, h⟩)
      refine follows_require (fun _ => ?_)
      refine (follows_putElement h hn).bind (fun _ n' g' _ hr => ?_)
      obtain ⟨⟨hid, _⟩, h'⟩ := hr
      rw [← hid] at hn ⊢
      exact ih h' hn

/-- **Filling one node.** Its cell changes, and no other. -/
theorem follows_fill {this : Node K V} {target moved : Nat} {ps : PivotMap K V} {es : MessageMap K V}
    (h : Owned (n.cell ::ₘ own) frame base extra pins g) (hn : n.id ∈ base + extra)
    (hframe : ∀ e ∈ ps, InFrame frame pins e.2.child.id) (hs : OrdMap.Sorted (n.pivots ++ ps)) :
    Follows rule out (fun st r g' => (st = flatState r.1 ∧ r.2.id = n.id)
        ∧ Owned (r.2.cell ::ₘ own) frame base extra pins g')
      (Pointer.fill this.shallow target (flat ps) es moved n.id) (fill bet this target ps es moved n)
      g := by
  induction ps generalizing n g es moved with
  | nil =>
      rw [flat_nil, Pointer.fill, fill, shallow_isLeaf]
      exact follows_fillElements h hn
  | cons e ps ih =>
      rw [flat_cons, Pointer.fill, fill, flat_head]
      refine follows_ite (fun _ => ?_) (fun _ => follows_pure ⟨⟨rfl, rfl⟩, h⟩)
      have hs' : OrdMap.Sorted ((n.pivots ++ [e]) ++ ps) := by
        rw [List.append_assoc]
        exact hs
      refine (follows_putPivot h hn (hframe e List.mem_cons_self) (OrdMap.sorted_append.mp hs').1).bind
        (fun _ n₁ g₁ _ hr => ?_)
      obtain ⟨rfl, h₁⟩ := hr
      refine (follows_putElements (n := ⟨n.id, n.pivots ++ [e], n.elements⟩) h₁ hn).bind
        (fun _ n₂ g₂ _ hr => ?_)
      obtain ⟨⟨hid, hps⟩, h₂⟩ := hr
      have hid : n₂.id = n.id := hid
      rw [← hid] at hn ⊢
      exact ih h₂ hn (fun x hx => hframe x (List.mem_cons_of_mem _ hx)) (by rw [hps]; exact hs')

/-! ## Entering a new node -/

theorem follows_letGo {α β : Type} {R : α → β → Shadow (NodeImage K V) → Prop} {result : PivotMap K V}
    {key : K} {f : Unit → Pointer.PProg K V α} {y : BProg β}
    (h : Owned own frame base (pointersOf (OrdMap.find result key).toList + extra) pins g)
    (hf : ∀ g', Owned own frame base extra pins g' → Follows rule out R (f ()) y g') :
    Follows rule out R (Pointer.letGo (flat result) key >>= f) y g := by
  unfold Pointer.letGo
  rw [find_flat]
  cases hfind : OrdMap.find result key with
  | none =>
      rw [hfind] at h
      exact hf g (h.congr rfl (Multiset.zero_add _).symm)
  | some old =>
      rw [hfind] at h
      exact follows_destroy (h.congr rfl (Multiset.singleton_add _ _).symm) hf

/-- What is let go is noted on the other side. -/
theorem follows_depoint {α β : Type} {R : α → β → Shadow (NodeImage K V) → Prop} {result : PivotMap K V}
    {key : K} {x : Pointer.PProg K V α} {b : β} (h : Follows rule out R x (pure b : BProg β) g) :
    Follows rule out R x (do
      match OrdMap.find result key with
      | some old => depoint old.2.child.id
      | none => pure ()
      return b : BProg β) g := by
  cases OrdMap.find result key with
  | none => exact h
  | some old => exact follows_right () h

/-- The copies of the pointer to the new node: one is left in the end. -/
theorem follows_enterCopies {result : PivotMap K V} {key : K}
    (h : Owned {n.cell} frame base (pointersOf (OrdMap.find result key).toList)
      (⟨n.id, true, true⟩ :: pins) g) (hn : n.id ∈ base) :
    Follows rule out (fun a r g' => (a = n.size ∧ r = (n, n.size))
        ∧ Owned {n.cell} frame base {n.id} (⟨n.id, true, true⟩ :: pins) g')
      (do
        let m ← Pointer.read n.id
        Pointer.copy n.id
        Pointer.copy n.id
        Pointer.destroy n.id
        Pointer.letGo (flat result) key
        Pointer.copy n.id
        Pointer.destroy n.id
        return m.size)
      (do
        match OrdMap.find result key with
        | some old => depoint old.2.child.id
        | none => pure ()
        return (n, n.size) : BProg _) g := by
  have hknown : ∀ extra, Known {n.cell} frame base extra (⟨n.id, true, true⟩ :: pins) n.id :=
    fun _ => Or.inl (Multiset.mem_add.mpr (Or.inl hn))
  refine follows_depoint ?_
  refine follows_readNode h (Multiset.mem_singleton_self _) ?_
  refine follows_copy h (hknown _) (fun g₁ h₁ => ?_)
  refine follows_copy h₁ (hknown _) (fun g₂ h₂ => ?_)
  refine follows_destroy h₂ (fun g₃ h₃ => ?_)
  rw [← Multiset.singleton_add, Multiset.add_comm] at h₃
  refine follows_letGo h₃ (fun g₄ h₄ => ?_)
  refine follows_copy h₄ (hknown _) (fun g₅ h₅ => ?_)
  exact follows_destroy h₅ (fun g₆ h₆ => follows_pure ⟨⟨n.shallow_size, rfl⟩, h₆⟩)

/-- The new node is entered, and the one that was there is let go. -/
theorem follows_enterResult {result : PivotMap K V} {key : K}
    (h : Owned (n.cell ::ₘ own) frame base
      (n.id ::ₘ extra + pointersOf (OrdMap.find result key).toList) pins g) :
    Follows rule out (fun a r g' => (a = n.size ∧ r = (n, n.size))
        ∧ Owned (n.cell ::ₘ own) frame base (n.id ::ₘ n.id ::ₘ extra) pins g')
      (Pointer.enterResult (flat result) key n.id) (enterResult bet result key n) g := by
  have hbase : n.id ∈ base + n.id ::ₘ extra :=
    Multiset.mem_add.mpr (Or.inr (Multiset.mem_cons_self _ _))
  rw [← Multiset.singleton_add n.cell] at h
  refine Follows.imp (R := fun a r g' => (a = n.size ∧ r = (n, n.size))
      ∧ Owned ({n.cell} + 0 + own) frame base (n.id ::ₘ extra + (0 + {n.id})) pins g')
    (follows_lend h (Or.inl hbase) (fun g₁ h₁ => ?_)) (fun a r g' _ hr => ⟨hr.1, hr.2.congr ?_ ?_⟩)
  · exact follows_lend (h₁.congr (Multiset.add_zero _) (Multiset.zero_add _)) (known_again (Or.inl hbase))
      (fun g₂ h₂ => follows_enterCopies h₂ (Multiset.mem_add.mpr (Or.inl hbase)))
  · rw [Multiset.add_zero, Multiset.singleton_add]
  · rw [Multiset.zero_add, Multiset.add_comm, Multiset.singleton_add]

/-! ## The loop -/

/-- The entry under the key of the next piece, if there is one already, has an empty node. -/
def Spare (st : SplitState K V) (result : PivotMap K V) : Prop :=
  ∀ k, splitKey st = some k → ∀ e ∈ (OrdMap.find result k).toList, e.2.child.pivots = []

/-- The key of the next piece is above those of the pieces. -/
theorem Node.Partition.find_next {this : Node K V} {st : SplitState K V} {done : PivotMap K V} {k : K}
    (h : Partition this st (subtrees done)) (hk : splitKey st = some k) :
    OrdMap.find done k = none := by
  refine Option.eq_none_iff_forall_ne_some.mpr (fun e he => ?_)
  obtain ⟨hmem, hkey⟩ := (OrdMap.find_eq_some h.sorted).mp he
  have hbelow := (h.below (e.1, e.2.child) (List.mem_map.mpr ⟨e, hmem, rfl⟩) k hk).key
  exact absurd hbelow (hkey ▸ lt_irrefl _)

/-- Only the pieces that are kept, and what is in the way of the next one, are in the result. -/
theorem Node.Rounds.result_eq {this : Node K V} {things bound i : Nat} {st : SplitState K V}
    {done result : PivotMap K V} {k : K} (h : Rounds this things bound i st done result)
    (hk : splitKey st = some k) : result = done ++ (OrdMap.find result k).toList := by
  rcases h.result with hres | ⟨k', c, hk', hres⟩
  · rw [hres, h.partition.find_next hk]
    exact (List.append_nil _).symm
  · rw [hk] at hk'
    injection hk' with hk'
    subst hk'
    have hfind : OrdMap.find (done ++ [(k, c)]) k = some (k, c) :=
      (OrdMap.find_eq_some (h.partition.sorted_snoc hk)).mpr ⟨by simp, rfl⟩
    rw [hres, hfind]
    rfl

/-- A round that makes no piece leaves an empty node. -/
theorem Node.Rounds.spare {this : Node K V} {things bound i id : Nat} {st : SplitState K V}
    {done result : PivotMap K V} {k : K} {ps : PivotMap K V} {es : MessageMap K V}
    {r : SplitState K V × Node K V} (size : Nat) (hthis : Splittable this)
    (h : Rounds this things bound i st done result) (hk : splitKey st = some k)
    (hmid' : Midway this r.1)
    (hmoved : Moved st ⟨id, [], []⟩ ((i + 1) * things) bound ps es r) :
    Spare r.1 (OrdMap.assign result k ⟨r.2, size⟩) := by
  intro k' hk' e he
  rw [h.assign hk] at he
  by_cases hlt : st.thingsMoved < (i + 1) * things
  · have hpart : Partition this r.1 (subtrees (done ++ [(k, ⟨r.2, size⟩)])) := by
      rw [subtrees, List.map_append]
      exact h.partition.snoc hthis h.midway hmid' hk hlt hmoved
    rw [hpart.find_next hk'] at he
    exact absurd he List.not_mem_nil
  · obtain ⟨rfl, rfl⟩ := hmoved.idle (Nat.not_lt.mp hlt)
    have hempty : r.2.pivots = [] := by rw [hmoved.node]; rfl
    have hkeys : splitKey r.1 = splitKey st := by
      have hp : st.pivotIdx = r.1.pivotIdx := hmoved.pivots
      have hes : st.eltIdx = r.1.eltIdx := hmoved.elements
      rw [splitKey, splitKey, hp, hes]
    rw [hkeys, hk] at hk'
    injection hk' with hk'
    subst hk'
    have hfind : OrdMap.find (done ++ [(k, ⟨r.2, size⟩)]) k = some (k, ⟨r.2, size⟩) :=
      (OrdMap.find_eq_some (h.partition.sorted_snoc hk)).mpr ⟨by simp, rfl⟩
    rw [hfind] at he
    rw [List.mem_singleton.mp he]
    exact hempty

omit [LinearOrder K] in
/-- Empty nodes need not be kept track of. -/
theorem Shadow.Owned.dropEmpty {ps : PivotMap K V} (h : Owned (tops ps + own) frame base extra pins g)
    (hps : ∀ e ∈ ps, e.2.child.pivots = []) : Owned own frame base extra pins g := by
  induction ps with
  | nil => exact h.congr (Multiset.zero_add _).symm rfl
  | cons e ps ih =>
      rw [tops_cons, Multiset.cons_add] at h
      refine ih (h.drop ?_) (fun x hx => hps x (List.mem_cons_of_mem _ hx))
      have hempty := hps e List.mem_cons_self
      show e.2.child.pivots.map _ = []
      rw [hempty]
      rfl

/-- **The outer loop.** The new nodes are own cells, and the result holds the pointers to them. -/
theorem follows_splitLoop {this : Node K V} {things left i : Nat} {st : SplitState K V}
    {done result : PivotMap K V} (hr : ∀ n, bet.reload n = some n) (hthis : Splittable this)
    (h : Owned (tops result + own) frame base (pointersOf result + extra) pins g)
    (hframe : ∀ e ∈ this.pivots, InFrame frame pins e.2.child.id)
    (hrounds : Rounds this things this.elements.length i st done result) (hspare : Spare st result) :
    Follows rule out (fun a r g' => (a = (flatState r.1, flat r.2)
          ∧ ∃ j done', Rounds this things this.elements.length j r.1 done' r.2)
        ∧ Owned (tops r.2 + own) frame base (pointersOf r.2 + extra) pins g')
      (Pointer.splitLoop this.shallow things left i (flatState st) (flat result))
      (splitLoop bet this things left i st result) g := by
  induction left generalizing i st done result g with
  | zero => exact follows_pure ⟨⟨rfl, i, done, hrounds⟩, h⟩
  | succ left ih =>
      rw [Pointer.splitLoop, splitLoop, flatState, splitKey_flat]
      cases hk : splitKey st with
      | none => exact follows_pure ⟨⟨rfl, i, done, hrounds⟩, h⟩
      | some key =>
          have hres := hrounds.result_eq hk
          generalize hfound : (OrdMap.find result key).toList = found at hres
          rw [hres, tops_append, pointersOf_append] at h
          refine follows_allocateNode h (fun id g₁ h₁ => ?_)
          have h₁' : Owned (cell ⟨id, [], []⟩ ::ₘ (tops done + tops found + own)) frame base
              (id ::ₘ (pointersOf done + extra) + pointersOf (OrdMap.find result key).toList) pins g₁ := by
            refine h₁.congr rfl ?_
            rw [hfound, Multiset.cons_add, Multiset.add_assoc, Multiset.add_comm extra,
              ← Multiset.add_assoc]
          refine (follows_enterResult h₁').bind (fun size r g₂ _ hr₂ => ?_)
          obtain ⟨⟨rfl, rfl⟩, h₂⟩ := hr₂
          have h₂' : Owned (cell ⟨id, [], []⟩ ::ₘ (tops done + own)) frame base
              (id ::ₘ id ::ₘ (pointersOf done + extra)) pins g₂ := by
            refine Owned.dropEmpty (h₂.congr ?_ rfl) (hfound ▸ hspare key hk)
            rw [Multiset.add_cons, Multiset.add_comm (tops done) (tops found), Multiset.add_assoc]
          have hps : OrdMap.Sorted ((⟨id, [], []⟩ : Node K V).pivots ++ st.pivotIdx) :=
            hthis.pivots.sublist hrounds.midway.pivots.sublist
          have hes : OrdMap.Sorted ((⟨id, [], []⟩ : Node K V).elements ++ st.eltIdx) :=
            hthis.elements.sublist hrounds.midway.elements.sublist
          refine (follows_fill (n := ⟨id, [], []⟩) h₂' ?_
            (fun e he => hframe e (hrounds.midway.pivots.subset he)) hps).bind (fun st' r g₃ hend hr₃ => ?_)
          · exact Multiset.mem_add.mpr (Or.inr (Multiset.mem_cons_self _ _))
          obtain ⟨⟨rfl, hid⟩, h₃⟩ := hr₃
          have hbound : ∀ p ∈ this.pivots, slotCount this p.1 ≤ this.elements.length :=
            fun p _ => List.length_filter_le _ _
          obtain ⟨hmid, ps', es', hmoved⟩ :=
            (all_fill (E := fun _ => True) hr hthis hbound hrounds.midway hps hes).of_ends hend
          have hspare' := hrounds.spare (⟨id, [], []⟩ : Node K V).size hthis hk hmid hmoved
          obtain ⟨done', hrounds'⟩ := hrounds.step (⟨id, [], []⟩ : Node K V).size hthis hk hmid hmoved
          refine follows_destroy h₃ (fun g₄ h₄ => ?_)
          have hshape : (⟨⟨id, [], []⟩, (⟨id, [], []⟩ : Node K V).size⟩ : ChildInfo (Node K V))
              = shape ⟨r.2, (⟨id, [], []⟩ : Node K V).size⟩ := by
            unfold shape
            rw [hid]
          rw [hshape, assign_flat]
          refine ih (h₄.congr ?_ ?_) hrounds' hspare'
          · rw [hrounds.assign hk, tops_append, Multiset.add_comm (tops done), Multiset.add_assoc]
            rfl
          · rw [hrounds.assign hk, pointersOf_append, Multiset.add_comm (pointersOf done),
              Multiset.add_assoc, pointersOf_cons, hid]
            rfl

omit [LinearOrder K] in
theorem follows_refreshSizes {ps : PivotMap K V}
    (h : Owned (tops ps + own) frame base extra pins g) (hps : ∀ e ∈ ps, e.2.child.id ∈ base + extra) :
    Follows rule out (fun a r g' => (a = flat r
          ∧ r = ps.map (fun e => (e.1, ⟨e.2.child, e.2.child.size⟩)))
        ∧ Owned (tops ps + own) frame base extra pins g')
      (Pointer.refreshSizes (flat ps)) (refreshSizes bet ps) g := by
  induction ps generalizing own g with
  | nil => exact follows_pure ⟨⟨rfl, rfl⟩, h⟩
  | cons e ps ih =>
      rw [flat_cons, Pointer.refreshSizes, refreshSizes]
      rw [tops_cons, Multiset.cons_add] at h ⊢
      refine (follows_derefSize h (Or.inl (hps e List.mem_cons_self))).bind (fun size r g₁ _ hr => ?_)
      obtain ⟨⟨rfl, rfl⟩, h₁⟩ := hr
      rw [← Multiset.add_cons] at h₁ ⊢
      refine (ih h₁ (fun x hx => hps x (List.mem_cons_of_mem _ hx))).bind (fun es r g₂ _ hr => ?_)
      obtain ⟨⟨rfl, rfl⟩, h₂⟩ := hr
      exact follows_pure ⟨⟨rfl, rfl⟩, h₂⟩

omit [LinearOrder K] in
/-- The counts are computed from the size alone. -/
theorem follows_splitCounts (size : Nat) :
    Follows rule out (fun a r g' => a = r ∧ g' = g)
      (splitCounts bet size : Pointer.PProg K V (Nat × Nat))
      (splitCounts bet size : BProg (Nat × Nat)) g := by
  have htoInt : ∀ v, Follows rule out (fun a r g' => a = r ∧ g' = g)
      (toInt size v : Pointer.PProg K V Nat) (toInt size v : BProg Nat) g := by
    intro v
    exact follows_ite (fun _ => follows_pure ⟨rfl, rfl⟩) (fun _ => follows_stop _)
  refine follows_ite (fun _ => follows_stop _) (fun _ => ?_)
  refine (htoInt _).bind (fun num num' g₁ _ hr => ?_)
  obtain ⟨rfl, rfl⟩ := hr
  refine follows_ite (fun _ => follows_stop _) (fun _ => ?_)
  refine (htoInt _).bind (fun things things' g₂ _ hr => ?_)
  obtain ⟨rfl, rfl⟩ := hr
  refine (htoInt _).bind (fun top top' g₃ _ hr => ?_)
  obtain ⟨rfl, rfl⟩ := hr
  exact follows_pure ⟨rfl, rfl⟩

omit [LinearOrder K] in
theorem follows_destroyAll {α β : Type} {R : α → β → Shadow (NodeImage K V) → Prop} {ps : PivotMap K V}
    {f : Unit → Pointer.PProg K V α} {y : BProg β}
    (h : Owned own frame base (pointersOf ps + extra) pins g)
    (hf : ∀ g', Owned own frame base extra pins g' → Follows rule out R (f ()) y g') :
    Follows rule out R (Pointer.destroyAll (flat ps) >>= f) y g := by
  induction ps generalizing g with
  | nil => exact hf g (h.congr rfl (Multiset.zero_add _).symm)
  | cons e ps ih =>
      rw [pointersOf_cons, Multiset.cons_add] at h
      exact follows_destroy h (fun g' h' => ih h')

/-- The pieces have taken over the children. -/
theorem Node.Rounds.cells_pieces {this : Node K V} {things bound i : Nat} {st : SplitState K V}
    {done result : PivotMap K V} (h : Rounds this things bound i st done result)
    (hp : st.pivotIdx = []) (he : st.eltIdx = []) :
    tops result + cellsOf this.pivots = cellsOf result := by
  have hpart := (h.finished (Nat.le_refl i) ⟨hp, he⟩).partition.pivots
  rw [hp, List.append_nil, subtrees, List.flatMap_map] at hpart
  rw [cellsOf_eq result, hpart]

/--
**`split`, with pointers.** The pieces take over the children, the node is left without any, and
the pointers to the pieces are handed to the caller.
-/
theorem follows_split (hr : ∀ n, bet.reload n = some n) (hn : Splittable n)
    (h : Owned n.cells frame base extra (⟨n.id, true, true⟩ :: rest) g) :
    Follows rule out (fun a r g' => (a = flat r.2 ∧ r.1 = ⟨n.id, [], []⟩)
        ∧ Owned (r.1.cells + cellsOf r.2) frame base (pointersOf r.2 + extra)
          (⟨n.id, true, true⟩ :: rest) g')
      (Pointer.split bet n.id) (n.split bet) g := by
  have hsecured := h.secured
  have hframe : ∀ e ∈ n.pivots, InFrame (n.cells + frame) (⟨n.id, true, true⟩ :: rest) e.2.child.id := by
    intro e he
    refine ⟨_, List.mem_cons_self, n.payload, ?_, List.mem_map.mpr ⟨e, he, rfl⟩⟩
    exact Multiset.mem_add.mpr (Or.inl n.cell_mem_cells)
  refine follows_readNode h n.cell_mem_cells ?_
  rw [shallow_size]
  refine follows_require (fun _ => ?_)
  refine (follows_splitCounts n.size).bind (fun counts counts' g₁ _ hr₁ => ?_)
  obtain ⟨rfl, rfl⟩ := hr₁
  -- the node and its children are left alone while the new nodes are filled
  have h₁ : Owned (tops ([] : PivotMap K V) + 0) (n.cells + frame) base
      (pointersOf ([] : PivotMap K V) + extra) (⟨n.id, true, true⟩ :: rest) g₁ :=
    Owned.narrow (h.congr (Multiset.zero_add _) (Multiset.zero_add _))
  refine (follows_splitLoop hr hn h₁ hframe hn.start (fun _ _ e he => absurd he List.not_mem_nil)).bind
    (fun sr sr' g₂ _ hr₂ => ?_)
  obtain ⟨st, result⟩ := sr'
  obtain ⟨⟨rfl, j, done, hrounds⟩, h₂⟩ := hr₂
  refine (follows_refreshSizes h₂ (fun e he => ?_)).bind (fun res res' g₃ _ hr₃ => ?_)
  · exact Multiset.mem_add.mpr (Or.inr (Multiset.mem_add.mpr (Or.inl (mem_pointersOf he))))
  obtain ⟨⟨rfl, hres⟩, h₃⟩ := hr₃
  dsimp only [flatState]
  rw [flat_isEmpty]
  refine follows_require (fun hp => follows_require (fun he => ?_))
  have hkids : res'.map (fun e => e.2.child) = result.map (fun e => e.2.child) := by
    rw [hres, List.map_map]
    rfl
  obtain ⟨hcells, _, hptrs⟩ := of_kids hkids
  have h₄ : Owned (n.cell ::ₘ cellsOf res') frame base (pointersOf res' + extra)
      (⟨n.id, true, true⟩ :: rest) g₃ := by
    refine (Owned.widen hsecured h₃).congr ?_ (by rw [hptrs])
    rw [hcells, ← hrounds.cells_pieces (List.isEmpty_iff.mp hp) (List.isEmpty_iff.mp he), cells_eq,
      Multiset.add_zero, Multiset.add_cons]
  -- `pivots.clear()` lets go of the children, which the pieces hold on to
  refine follows_writeNode ⟨n.id, [], n.elements⟩ _ h₄ rfl rfl (Multiset.zero_add _) (fun g₄ h₄ => ?_)
  refine follows_destroyAll h₄ (fun g₅ h₅ => ?_)
  refine follows_writeBuffer ⟨n.id, [], []⟩ h₅ rfl rfl rfl (fun g₆ h₆ => ?_)
  refine follows_pure ⟨⟨rfl, rfl⟩, h₆.congr ?_ rfl⟩
  rw [cells_eq, cellsOf_nil, Multiset.cons_add, Multiset.zero_add]

end BeTree
