import BeTree.Pointer.Node
import BeTree.Proof.Rename

/-!
# Nodes without their subtrees

What the code computes from one node alone does not look into the children. So it gives the
same on the node that was read from its object as on the node with all that is below it.
-/

namespace BeTree

variable {K V : Type}

/-- A child of which only the id is known. -/
def shape (c : ChildInfo (Node K V)) : ChildInfo (Node K V) := ⟨⟨c.child.id, [], []⟩, c.childSize⟩

/-- A pivot map without what is below it. -/
def flat (ps : PivotMap K V) : PivotMap K V := ps.map (Prod.map id shape)

/-- A position in a pivot map without what is below it. -/
abbrev flatCursor : OrdMap.Cursor K (ChildInfo (Node K V)) → OrdMap.Cursor K (ChildInfo (Node K V)) :=
  OrdMap.Cursor.map id shape

/-- A node as it is read from its object. -/
def Node.shallow (n : Node K V) : Node K V := ⟨n.id, flat n.pivots, n.elements⟩

@[simp]
theorem Node.node_image (n : Node K V) : n.image.node n.id = n.shallow := by
  unfold NodeImage.node Node.image Node.shallow flat
  rw [List.map_map]
  rfl

@[simp]
theorem Node.shallow_id (n : Node K V) : n.shallow.id = n.id := rfl

@[simp]
theorem Node.shallow_pivots (n : Node K V) : n.shallow.pivots = flat n.pivots := rfl

@[simp]
theorem Node.shallow_elements (n : Node K V) : n.shallow.elements = n.elements := rfl

@[simp]
theorem shape_id (c : ChildInfo (Node K V)) : (shape c).child.id = c.child.id := rfl

@[simp]
theorem shape_size (c : ChildInfo (Node K V)) : (shape c).childSize = c.childSize := rfl

@[simp]
theorem flat_nil : flat ([] : PivotMap K V) = [] := rfl

@[simp]
theorem flat_cons (e : K × ChildInfo (Node K V)) (ps : PivotMap K V) :
    flat (e :: ps) = (e.1, shape e.2) :: flat ps := rfl

@[simp]
theorem flat_append (ps qs : PivotMap K V) : flat (ps ++ qs) = flat ps ++ flat qs :=
  List.map_append

@[simp]
theorem flat_isEmpty (ps : PivotMap K V) : (flat ps).isEmpty = ps.isEmpty := List.isEmpty_map

@[simp]
theorem flat_length (ps : PivotMap K V) : (flat ps).length = ps.length := List.length_map _

theorem flat_head (ps : PivotMap K V) : (flat ps).head?.map Prod.fst = ps.head?.map Prod.fst := by
  cases ps <;> rfl

@[simp]
theorem Node.shallow_size (n : Node K V) : n.shallow.size = n.size := by
  unfold Node.size
  rw [Node.shallow_pivots, flat_length, Node.shallow_elements]

@[simp]
theorem Node.shallow_isLeaf (n : Node K V) : n.shallow.isLeaf = n.isLeaf := flat_isEmpty n.pivots

/-- The content of an object does not tell what is below the children. -/
theorem payload_flat {n : Node K V} {ps : PivotMap K V} (h : n.pivots = flat ps) :
    n.payload = (⟨n.id, ps, n.elements⟩ : Node K V).payload := by
  obtain ⟨i, pivots, es⟩ := n
  subst h
  unfold Node.payload Node.image Node.children flat
  rw [List.map_map, List.map_map]
  rfl

section Maps

variable [LinearOrder K] (ps : PivotMap K V) (k : K)

theorem lt_id_iff (a b : K) : id a < id b ↔ a < b := Iff.rfl

theorem embeds_id : Embeds (id : K → K) := ⟨fun _ _ => Iff.rfl, fun _ _ => rfl⟩

theorem assign_flat (c : ChildInfo (Node K V)) :
    OrdMap.assign (flat ps) k (shape c) = flat (OrdMap.assign ps k c) :=
  OrdMap.assign_map lt_id_iff shape ps k c

theorem insert_flat (c : ChildInfo (Node K V)) :
    OrdMap.insert (flat ps) k (shape c) = flat (OrdMap.insert ps k c) :=
  OrdMap.insert_map lt_id_iff shape ps k c

theorem erase_flat : OrdMap.erase (flat ps) k = flat (OrdMap.erase ps k) :=
  OrdMap.erase_map lt_id_iff shape ps k

theorem find_flat : OrdMap.find (flat ps) k = (OrdMap.find ps k).map (Prod.map id shape) :=
  OrdMap.find_map lt_id_iff shape ps k

theorem getPivot_flat : Node.getPivot (flat ps) k = (Node.getPivot ps k).map flatCursor :=
  Node.getPivot_rename embeds_id shape ps k

omit [LinearOrder K] in
theorem set_flat (c : OrdMap.Cursor K (ChildInfo (Node K V))) (v : ChildInfo (Node K V)) :
    (flatCursor c).set (shape v) = flat (c.set v) := OrdMap.Cursor.set_map id shape c v

omit [LinearOrder K] in
theorem cursor_erase_flat (c : OrdMap.Cursor K (ChildInfo (Node K V))) :
    (flatCursor c).erase = flat c.erase := OrdMap.Cursor.erase_map id shape c

omit [LinearOrder K] in
theorem key_flat (c : OrdMap.Cursor K (ChildInfo (Node K V))) : (flatCursor c).key = c.key := rfl

omit [LinearOrder K] in
theorem nextKey_flat (c : OrdMap.Cursor K (ChildInfo (Node K V))) :
    (flatCursor c).nextKey = c.nextKey := by
  rw [OrdMap.Cursor.nextKey_map, Option.map_id_fun]
  rfl

theorem setChildSize_flat (size : Nat) :
    Node.setChildSize (flat ps) k size = flat (Node.setChildSize ps k size) := by
  unfold Node.setChildSize flat
  rw [List.map_map, List.map_map]
  refine List.map_congr_left (fun e _ => ?_)
  show (if (e.1 == k) = true then _ else _) = Prod.map id shape (if (e.1 == k) = true then _ else _)
  split <;> rfl

theorem childElts_shallow (n : Node K V) (c : OrdMap.Cursor K (ChildInfo (Node K V))) :
    n.shallow.childElts (flatCursor c) = n.childElts c := by
  unfold Node.childElts
  rw [nextKey_flat]
  rfl

theorem otherElts_shallow (n : Node K V) (c : OrdMap.Cursor K (ChildInfo (Node K V))) :
    n.shallow.otherElts (flatCursor c) = n.otherElts c := by
  unfold Node.otherElts
  rw [nextKey_flat]
  rfl

theorem largestChild_flat (es : MessageMap K V) (before rest : PivotMap K V)
    (best : OrdMap.Cursor K (ChildInfo (Node K V)) × Nat) :
    Node.largestChild es (flat before) (flat rest) (Prod.map flatCursor id best)
      = Prod.map flatCursor id (Node.largestChild es before rest best) := by
  induction rest generalizing before best with
  | nil => rfl
  | cons e rest ih =>
      have hbest : ∀ dist, (if best.2 < dist then (flatCursor ⟨before, e.1, e.2, rest⟩, dist)
            else Prod.map flatCursor id best)
          = Prod.map flatCursor id (if best.2 < dist then (⟨before, e.1, e.2, rest⟩, dist) else best) := by
        intro dist
        split <;> rfl
      rw [flat_cons, Node.largestChild, Node.largestChild, ← ih, ← hbest, flat_append, flat_head]
      rfl

omit [LinearOrder K] in
theorem splitKey_flat (st : Node.SplitState K V) :
    Node.splitKey (⟨flat st.pivotIdx, st.eltIdx, st.thingsMoved⟩ : Node.SplitState K V)
      = Node.splitKey st := by
  obtain ⟨ps, es, moved⟩ := st
  cases ps <;> rfl

theorem belowFirstPivot_flat (m : MessageKey K) :
    Node.belowFirstPivot (flat ps) m = Node.belowFirstPivot ps m := by
  cases ps <;> rfl

theorem lowerFirstPivot_shallow (n : Node K V) (elts : MessageMap K V) :
    n.shallow.lowerFirstPivot elts = (n.lowerFirstPivot elts).shallow := by
  obtain ⟨i, ps, es⟩ := n
  rcases ps with _ | ⟨⟨oldmin, c⟩, ps⟩
  · rfl
  rcases elts with _ | ⟨⟨newmin, m⟩, elts⟩
  · rfl
  have hlower : OrdMap.erase (OrdMap.assign (flat ((oldmin, c) :: ps)) newmin.key (shape c)) oldmin
      = flat (OrdMap.erase (OrdMap.assign ((oldmin, c) :: ps) newmin.key c) oldmin) := by
    rw [assign_flat, erase_flat]
  show (if newmin.key < oldmin then (⟨i, OrdMap.erase (OrdMap.assign (flat ((oldmin, c) :: ps))
    newmin.key (shape c)) oldmin, es⟩ : Node K V) else _)
      = Node.shallow (if newmin.key < oldmin then _ else _)
  rw [hlower]
  split <;> rfl

/-- A message is applied to the buffer, whatever the children are. -/
theorem apply_shallow [Add V] (n : Node K V) (mkey : MessageKey K) (elt : Message V) (d : V) :
    n.shallow.apply mkey elt d = (n.apply mkey elt d).shallow := by
  have habsent : n.shallow.applyAbsent mkey elt d = (n.applyAbsent mkey elt d).shallow := by
    unfold Node.applyAbsent
    rw [Node.shallow_isLeaf]
    split <;> rfl
  unfold Node.apply
  rw [Node.shallow_elements, Node.shallow_isLeaf]
  cases elt.opcode with
  | insert => rfl
  | delete => rfl
  | update =>
      dsimp only
      split
      · split
        · split <;> rfl
        · exact habsent
      · exact habsent

theorem applyAll_shallow [Add V] (n : Node K V) (elts : MessageMap K V) (d : V) :
    n.shallow.applyAll elts d = (n.applyAll elts d).shallow := by
  induction elts generalizing n with
  | nil => rfl
  | cons e elts ih =>
      show (n.shallow.apply e.1 e.2 d).applyAll elts d = _
      rw [apply_shallow, ih]
      rfl

end Maps

end BeTree
