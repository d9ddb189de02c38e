import BeTree.Tree.Betree

/-!
# A tree over other keys

The code does nothing with keys but compare them with `<` and `==`. So when the keys are
replaced by others that compare in the same way, every operation does the same, on the tree
with the keys replaced: it asks the same of the swap space and gives the same answers.

The two trees may read nodes back in different ways. They do the same as long as only nodes
without entries are read back, and both read these back as they were.
-/

namespace BeTree

open Prog

variable {K L V : Type}

/-- The other key, at the same time. -/
def MessageKey.rename (f : K → L) (m : MessageKey K) : MessageKey L := ⟨f m.key, m.timestamp⟩

/-- A message under the other key. -/
abbrev renameMessage (f : K → L) : MessageKey K × Message V → MessageKey L × Message V :=
  Prod.map (MessageKey.rename f) id

/-- A message map over the other keys. -/
def renameMessages (f : K → L) (es : MessageMap K V) : MessageMap L V := es.map (renameMessage f)

mutual

/-- A node over the other keys. -/
def Node.rename (f : K → L) : Node K V → Node L V
  | ⟨id, pivots, elements⟩ => ⟨id, renamePivots f pivots, renameMessages f elements⟩

/-- A pivot map over the other keys. -/
def renamePivots (f : K → L) : List (K × ChildInfo (Node K V)) → List (L × ChildInfo (Node L V))
  | [] => []
  | e :: rest => renameEntry f e :: renamePivots f rest

/-- An entry of a pivot map over the other keys. -/
def renameEntry (f : K → L) : K × ChildInfo (Node K V) → L × ChildInfo (Node L V)
  | (k, c) => (f k, renameChild f c)

/-- A child over the other keys. -/
def renameChild (f : K → L) : ChildInfo (Node K V) → ChildInfo (Node L V)
  | ⟨n, size⟩ => ⟨n.rename f, size⟩

end

/-- A position in a pivot map over the other keys. -/
abbrev renameCursor (f : K → L) :
    OrdMap.Cursor K (ChildInfo (Node K V)) → OrdMap.Cursor L (ChildInfo (Node L V)) :=
  OrdMap.Cursor.map f (renameChild f)

/-- The keys compare as those they are replaced by. -/
structure Embeds [LT K] [BEq K] [LT L] [BEq L] (f : K → L) : Prop where
  lt : ∀ a b, f a < f b ↔ a < b
  beq : ∀ a b, (f a == f b) = (a == b)

/-- The parameters of the two trees: they agree on nodes without entries. -/
structure Agree (f : K → L) (bet : Params K V) (bet' : Params L V) : Prop where
  maxNodeSize : bet'.maxNodeSize = bet.maxNodeSize
  minFlushSize : bet'.minFlushSize = bet.minFlushSize
  defaultValue : bet'.defaultValue = bet.defaultValue
  reload : ∀ n, n.size = 0 → bet'.reload (n.rename f) = (bet.reload n).map (Node.rename f)

/-- No node with entries was read back. -/
def Op.Plain : (o : Op) → o.Ans → Prop
  | .access _ _ size _, loaded => loaded = true → size = 0
  | _, _ => True

/-! ## Maps and nodes -/

section Nodes

variable (f : K → L)

theorem renamePivots_eq (ps : PivotMap K V) :
    renamePivots f ps = ps.map (Prod.map f (renameChild f)) := by
  induction ps with
  | nil => rfl
  | cons e ps ih =>
      obtain ⟨k, c⟩ := e
      rw [renamePivots, ih]
      rfl

theorem head_pivots (ps : PivotMap K V) :
    (renamePivots f ps).head?.map Prod.fst = (ps.head?.map Prod.fst).map f := by
  rcases ps with _ | ⟨⟨k, c⟩, ps⟩ <;> rfl

theorem isEmpty_pivots (ps : PivotMap K V) : (renamePivots f ps).isEmpty = ps.isEmpty := by
  cases ps <;> rfl

theorem isEmpty_pivots_iff (ps : PivotMap K V) :
    (renamePivots f ps).isEmpty = true ↔ ps.isEmpty = true := by
  rw [isEmpty_pivots]

theorem isEmpty_messages (es : MessageMap K V) : (renameMessages f es).isEmpty = es.isEmpty :=
  List.isEmpty_map

theorem range_messages (a b : MessageMap K V) :
    OrdMap.range (renameMessages f a) (renameMessages f b) = renameMessages f (OrdMap.range a b) :=
  OrdMap.range_map _ a b

theorem eraseRange_messages (m a b : MessageMap K V) :
    OrdMap.eraseRange (renameMessages f m) (renameMessages f a) (renameMessages f b)
      = renameMessages f (OrdMap.eraseRange m a b) :=
  OrdMap.eraseRange_map _ a b m

theorem length_messages (es : MessageMap K V) : (renameMessages f es).length = es.length :=
  List.length_map _

theorem drop_messages (es : MessageMap K V) (i : Nat) :
    (renameMessages f es).drop i = renameMessages f (es.drop i) := List.map_drop.symm

@[simp]
theorem renameChild_child (c : ChildInfo (Node K V)) : (renameChild f c).child = c.child.rename f := by
  cases c; rfl

@[simp]
theorem renameChild_size (c : ChildInfo (Node K V)) : (renameChild f c).childSize = c.childSize := by
  cases c; rfl

namespace Node

variable (n : Node K V)

@[simp]
theorem rename_id : (n.rename f).id = n.id := by cases n; rfl

@[simp]
theorem rename_pivots : (n.rename f).pivots = renamePivots f n.pivots := by cases n; rfl

@[simp]
theorem rename_elements : (n.rename f).elements = renameMessages f n.elements := by cases n; rfl

theorem rename_mk (id : Nat) (ps : PivotMap K V) (es : MessageMap K V) :
    (⟨id, ps, es⟩ : Node K V).rename f = ⟨id, renamePivots f ps, renameMessages f es⟩ := rfl

theorem rename_withPivots (ps : PivotMap K V) :
    ({ n with pivots := ps } : Node K V).rename f
      = { n.rename f with pivots := renamePivots f ps } := by cases n; rfl

theorem rename_withElements (es : MessageMap K V) :
    ({ n with elements := es } : Node K V).rename f
      = { n.rename f with elements := renameMessages f es } := by cases n; rfl

@[simp]
theorem rename_size : (n.rename f).size = n.size := by
  simp [size, renamePivots_eq, renameMessages]

@[simp]
theorem rename_isLeaf : (n.rename f).isLeaf = n.isLeaf := by
  simp [isLeaf, renamePivots_eq]

@[simp]
theorem rename_children : (n.rename f).children = n.children := by
  simp [children, renamePivots_eq]

mutual

theorem height_rename : ∀ n : Node K V, (n.rename f).height = n.height
  | ⟨_, pivots, _⟩ => heightPivots_rename pivots

theorem heightPivots_rename : ∀ ps : PivotMap K V, heightPivots (renamePivots f ps) = heightPivots ps
  | [] => rfl
  | e :: rest => congrArg₂ (fun a b => max (a + 1) b) (heightEntry_rename e) (heightPivots_rename rest)

theorem heightEntry_rename : ∀ e : K × ChildInfo (Node K V), heightEntry (renameEntry f e) = heightEntry e
  | (_, c) => heightChild_rename c

theorem heightChild_rename : ∀ c : ChildInfo (Node K V), heightChild (renameChild f c) = heightChild c
  | ⟨n, _⟩ => height_rename n

end

mutual

theorem nodes_rename : ∀ n : Node K V, (n.rename f).nodes = n.nodes.map (Node.rename f)
  | ⟨_, pivots, _⟩ => congrArg (List.cons _) (nodesPivots_rename pivots)

theorem nodesPivots_rename : ∀ ps : PivotMap K V,
    nodesPivots (renamePivots f ps) = (nodesPivots ps).map (Node.rename f)
  | [] => rfl
  | e :: rest => by
      rw [nodesPivots, List.map_append, ← nodesEntry_rename e, ← nodesPivots_rename rest]
      rfl

theorem nodesEntry_rename : ∀ e : K × ChildInfo (Node K V),
    nodesEntry (renameEntry f e) = (nodesEntry e).map (Node.rename f)
  | (_, c) => nodesChild_rename c

theorem nodesChild_rename : ∀ c : ChildInfo (Node K V),
    nodesChild (renameChild f c) = (nodesChild c).map (Node.rename f)
  | ⟨n, _⟩ => nodes_rename n

end

theorem messages_rename : (n.rename f).messages = renameMessages f n.messages := by
  unfold messages renameMessages
  rw [nodes_rename, List.flatMap_map, List.map_flatMap]
  congr
  funext m
  exact rename_elements f m

end Node

end Nodes

section Keys

variable [LT K] [DecidableLT K] [BEq K] [LT L] [DecidableLT L] [BEq L] {f : K → L}

omit [DecidableLT K] [DecidableLT L] in
/-- The keys of messages compare as those they are replaced by, too. -/
theorem Embeds.messages (hf : Embeds f) : Embeds (MessageKey.rename f) where
  lt a b := by
    show f a.key < f b.key ∨ _ ↔ _
    rw [hf.lt]
    refine or_congr_right (and_congr_left (fun _ => ?_))
    show (f a.key == f b.key) = true ↔ _
    rw [hf.beq]
  beq a b := by
    show (f a.key == f b.key && _) = _
    rw [hf.beq]
    rfl

variable (hf : Embeds f)

include hf

namespace Node

theorem getPivot_rename {C D : Type} (g : C → D) (mp : List (K × C)) (k : K) :
    getPivot (mp.map (Prod.map f g)) (f k) = (getPivot mp k).map (OrdMap.Cursor.map f g) := by
  unfold getPivot
  rw [List.isEmpty_map, OrdMap.lowerBound_map hf.lt, OrdMap.front_map hf.lt, OrdMap.Cursor.ofLast_map]
  split
  · rfl
  · generalize OrdMap.Cursor.ofLast (OrdMap.front mp k) (OrdMap.lowerBound mp k) = back
    cases OrdMap.lowerBound mp k with
    | nil => cases back <;> rfl
    | cons e rest =>
        simp only [List.map_cons, Prod.map_fst, hf.lt]
        split
        · cases back <;> rfl
        · rfl

theorem getElementBegin_rename (es : MessageMap K V) (k : K) :
    getElementBegin (renameMessages f es) (f k) = renameMessages f (getElementBegin es k) :=
  OrdMap.lowerBound_map hf.messages.lt _ es (MessageKey.rangeStart k)

theorem getElementBeginAt_rename (es : MessageMap K V) (k : Option K) :
    getElementBeginAt (renameMessages f es) (k.map f) = renameMessages f (getElementBeginAt es k) := by
  cases k with
  | none => rfl
  | some k => exact getElementBegin_rename hf es k

/-- Where the messages of the child under a cursor start. -/
theorem cursorBegin_rename (es : MessageMap K V) (c : OrdMap.Cursor K (ChildInfo (Node K V))) :
    getElementBeginAt (renameMessages f es) (some (renameCursor f c).key)
      = renameMessages f (getElementBeginAt es (some c.key)) :=
  getElementBeginAt_rename hf es (some c.key)

/-- Where they end. -/
theorem cursorEnd_rename (es : MessageMap K V) (c : OrdMap.Cursor K (ChildInfo (Node K V))) :
    getElementBeginAt (renameMessages f es) (renameCursor f c).nextKey
      = renameMessages f (getElementBeginAt es c.nextKey) := by
  rw [OrdMap.Cursor.nextKey_map, getElementBeginAt_rename hf]

theorem assign_messages (es : MessageMap K V) (m : MessageKey K) (v : Message V) :
    OrdMap.assign (renameMessages f es) (m.rename f) v = renameMessages f (OrdMap.assign es m v) :=
  OrdMap.assign_map hf.messages.lt _ es m v

theorem eraseKey_rename (es : MessageMap K V) (k : K) :
    eraseKey (renameMessages f es) (f k) = renameMessages f (eraseKey es k) :=
  OrdMap.eraseBetween_map hf.messages.lt _ es (MessageKey.rangeStart k) (MessageKey.rangeEnd k)

variable (n : Node K V) (mkey : MessageKey K)

theorem applyInsert_rename (v : V) :
    (n.rename f).applyInsert (mkey.rename f) v = (n.applyInsert mkey v).rename f := by
  unfold applyInsert
  rw [rename_mk, ← assign_messages hf, ← eraseKey_rename hf]
  simp only [rename_id, rename_pivots, rename_elements]
  rfl

theorem updateEntry_rename (es : MessageMap K V) (k : K) :
    updateEntry (renameMessages f es) (f k)
      = (updateEntry es k).map (renameMessage f) := by
  have hupTo : OrdMap.upTo (renameMessages f es) (MessageKey.rangeEnd (f k))
      = renameMessages f (OrdMap.upTo es (MessageKey.rangeEnd k)) :=
    OrdMap.upTo_map hf.messages.lt _ es (MessageKey.rangeEnd k)
  unfold updateEntry
  rw [hupTo, renameMessages, List.getLast?_map]
  cases (OrdMap.upTo es (MessageKey.rangeEnd k)).getLast? with
  | some e => rfl
  | none => exact List.head?_map

variable [Add V]

theorem applyAbsent_rename (elt : Message V) (d : V) :
    (n.rename f).applyAbsent (mkey.rename f) elt d = (n.applyAbsent mkey elt d).rename f := by
  unfold applyAbsent
  rw [rename_isLeaf, applyInsert_rename hf]
  split
  · rfl
  · rw [rename_mk, ← assign_messages hf]
    simp only [rename_id, rename_pivots, rename_elements]

theorem apply_rename (elt : Message V) (d : V) :
    (n.rename f).apply (mkey.rename f) elt d = (n.apply mkey elt d).rename f := by
  have hassign : (⟨(n.rename f).id, (n.rename f).pivots,
      OrdMap.assign (n.rename f).elements (mkey.rename f) elt⟩ : Node L V)
      = (⟨n.id, n.pivots, OrdMap.assign n.elements mkey elt⟩ : Node K V).rename f := by
    rw [rename_mk, ← assign_messages hf]
    simp only [rename_id, rename_pivots, rename_elements]
  unfold apply
  cases elt.opcode with
  | insert => exact applyInsert_rename hf n mkey elt.val
  | delete =>
      dsimp only
      rw [rename_mk, rename_isLeaf, rename_elements, show (mkey.rename f).key = f mkey.key from rfl,
        eraseKey_rename hf, assign_messages hf, rename_id, rename_pivots]
      split <;> rfl
  | update =>
      dsimp only
      rw [rename_elements, show (mkey.rename f).key = f mkey.key from rfl, updateEntry_rename hf]
      cases updateEntry n.elements mkey.key with
      | none => exact applyAbsent_rename hf n mkey elt d
      | some e =>
          have hkey : ((renameMessage f e).1.key == f mkey.key) = (e.1.key == mkey.key) := hf.beq _ _
          simp only [Option.map_some, hkey]
          split
          · cases ho : e.2.opcode with
            | insert =>
                rw [show (renameMessage f e).2.opcode = .insert from ho]
                exact applyInsert_rename hf n mkey _
            | delete =>
                rw [show (renameMessage f e).2.opcode = .delete from ho, ← rename_elements]
                exact hassign
            | update =>
                rw [show (renameMessage f e).2.opcode = .update from ho, ← rename_elements]
                exact hassign
          · exact applyAbsent_rename hf n mkey elt d

theorem applyAll_rename (elts : MessageMap K V) (d : V) :
    (n.rename f).applyAll (renameMessages f elts) d = (n.applyAll elts d).rename f := by
  induction elts generalizing n with
  | nil => rfl
  | cons e elts ih =>
      show ((n.rename f).apply (e.1.rename f) e.2 d).applyAll (renameMessages f elts) d = _
      rw [apply_rename hf, ih]
      rfl

end Node

/-! ## Pivot maps -/

variable (ps : PivotMap K V) (k : K)

theorem assign_pivots (c : ChildInfo (Node K V)) :
    OrdMap.assign (renamePivots f ps) (f k) (renameChild f c) = renamePivots f (OrdMap.assign ps k c) := by
  rw [renamePivots_eq, renamePivots_eq, OrdMap.assign_map hf.lt]

theorem erase_pivots : OrdMap.erase (renamePivots f ps) (f k) = renamePivots f (OrdMap.erase ps k) := by
  rw [renamePivots_eq, renamePivots_eq, OrdMap.erase_map hf.lt]

theorem find_pivots :
    OrdMap.find (renamePivots f ps) (f k) = (OrdMap.find ps k).map (Prod.map f (renameChild f)) := by
  rw [renamePivots_eq, OrdMap.find_map hf.lt]

theorem insertAll_pivots (qs : PivotMap K V) :
    OrdMap.insertAll (renamePivots f ps) (renamePivots f qs) = renamePivots f (OrdMap.insertAll ps qs) := by
  rw [renamePivots_eq, renamePivots_eq, renamePivots_eq, OrdMap.insertAll_map hf.lt]

theorem getPivot_pivots :
    Node.getPivot (renamePivots f ps) (f k) = (Node.getPivot ps k).map (renameCursor f) := by
  rw [renamePivots_eq]
  exact Node.getPivot_rename hf (renameChild f) ps k

omit [LT K] [DecidableLT K] [BEq K] [LT L] [DecidableLT L] [BEq L] hf in
theorem set_cursor (c : OrdMap.Cursor K (ChildInfo (Node K V))) (v : ChildInfo (Node K V)) :
    (renameCursor f c).set (renameChild f v) = renamePivots f (c.set v) := by
  rw [renamePivots_eq, OrdMap.Cursor.set_map]

omit [LT K] [DecidableLT K] [BEq K] [LT L] [DecidableLT L] [BEq L] hf in
/-- Another child under a cursor. -/
theorem setChild_cursor (c : OrdMap.Cursor K (ChildInfo (Node K V))) (n : Node K V) :
    (renameCursor f c).set { (renameCursor f c).val with child := n.rename f }
      = renamePivots f (c.set { c.val with child := n }) := by
  rw [← set_cursor]
  show (renameCursor f c).set ⟨n.rename f, (renameChild f c.val).childSize⟩ = _
  rw [renameChild_size]
  rfl

omit [LT K] [DecidableLT K] [BEq K] [LT L] [DecidableLT L] [BEq L] hf in
theorem erase_cursor (c : OrdMap.Cursor K (ChildInfo (Node K V))) :
    (renameCursor f c).erase = renamePivots f c.erase := by
  rw [renamePivots_eq, OrdMap.Cursor.erase_map]

/-! ## Flushing -/

theorem lowerFirstPivot_rename (n : Node K V) (elts : MessageMap K V) :
    (n.rename f).lowerFirstPivot (renameMessages f elts) = (n.lowerFirstPivot elts).rename f := by
  obtain ⟨id, ps, es⟩ := n
  rcases ps with _ | ⟨⟨oldmin, c⟩, ps⟩
  · rfl
  rcases elts with _ | ⟨⟨newmin, m⟩, elts⟩
  · rfl
  have hpivots := assign_pivots hf ((oldmin, c) :: ps) newmin.key c
  have hlower : OrdMap.erase (OrdMap.assign (renamePivots f ((oldmin, c) :: ps)) (f newmin.key)
      (renameChild f c)) (f oldmin)
      = renamePivots f (OrdMap.erase (OrdMap.assign ((oldmin, c) :: ps) newmin.key c) oldmin) := by
    rw [hpivots, erase_pivots hf]
  show (if f newmin.key < f oldmin then (⟨id, OrdMap.erase (OrdMap.assign (renamePivots f ((oldmin, c) :: ps))
    (f newmin.key) (renameChild f c)) (f oldmin), renameMessages f es⟩ : Node L V) else _)
      = Node.rename f (if newmin.key < oldmin then _ else _)
  rw [hlower]
  by_cases h : newmin.key < oldmin
  · rw [if_pos h, if_pos ((hf.lt _ _).mpr h)]
    rfl
  · rw [if_neg h, if_neg (fun h' => h ((hf.lt _ _).mp h'))]

theorem largestChild_rename (es : MessageMap K V) (before rest : PivotMap K V)
    (best : OrdMap.Cursor K (ChildInfo (Node K V)) × Nat) :
    Node.largestChild (renameMessages f es) (renamePivots f before) (renamePivots f rest)
        (Prod.map (renameCursor f) id best)
      = Prod.map (renameCursor f) id (Node.largestChild es before rest best) := by
  induction rest generalizing before best with
  | nil => rfl
  | cons e rest ih =>
      obtain ⟨k, c⟩ := e
      have hdist : OrdMap.distance (Node.getElementBeginAt (renameMessages f es) (some (f k)))
            (Node.getElementBeginAt (renameMessages f es) ((renamePivots f rest).head?.map Prod.fst))
          = OrdMap.distance (Node.getElementBeginAt es (some k))
            (Node.getElementBeginAt es (rest.head?.map Prod.fst)) := by
        rw [head_pivots, Node.getElementBeginAt_rename hf,
          show some (f k) = (some k).map f from rfl, Node.getElementBeginAt_rename hf]
        unfold OrdMap.distance
        rw [length_messages, length_messages]
      have hentry : renameEntry f (k, c) = (f k, renameChild f c) := rfl
      have hbefore : renamePivots f before ++ [(f k, renameChild f c)]
          = renamePivots f (before ++ [(k, c)]) := by
        rw [renamePivots_eq, renamePivots_eq, List.map_append]
        rfl
      have hcursor : (⟨renamePivots f before, f k, renameChild f c, renamePivots f rest⟩ :
          OrdMap.Cursor L (ChildInfo (Node L V))) = renameCursor f ⟨before, k, c, rest⟩ := by
        rw [renamePivots_eq, renamePivots_eq]
        rfl
      have hbest : ∀ dist, (if best.2 < dist then (renameCursor f ⟨before, k, c, rest⟩, dist)
            else Prod.map (renameCursor f) id best)
          = Prod.map (renameCursor f) id (if best.2 < dist then (⟨before, k, c, rest⟩, dist) else best) := by
        intro dist
        split <;> rfl
      rw [renamePivots, hentry, Node.largestChild, Node.largestChild, hbefore, ← ih]
      dsimp only
      rw [hdist, hcursor, ← hbest]
      rfl

omit [DecidableLT K] [DecidableLT L] in
theorem filter_keys (first : Option K) :
    (first.map f).filter (fun k' => !(k' == f k)) = (first.filter (fun k' => !(k' == k))).map f := by
  cases first with
  | none => rfl
  | some k' =>
      simp only [Option.map_some, Option.filter, hf.beq]
      split <;> rfl

omit [DecidableLT K] [DecidableLT L] in
theorem setChildSize_rename (size : Nat) :
    Node.setChildSize (renamePivots f ps) (f k) size = renamePivots f (Node.setChildSize ps k size) := by
  unfold Node.setChildSize
  rw [renamePivots_eq, renamePivots_eq, List.map_map, List.map_map]
  refine List.map_congr_left (fun e _ => ?_)
  show (if (f e.1 == f k) = true then _ else _) = Prod.map f (renameChild f) (if _ then _ else _)
  rw [hf.beq]
  split
  · obtain ⟨k', ⟨n, s⟩⟩ := e
    rfl
  · rfl

/-! ## Reading -/

omit [LT K] [DecidableLT K] [BEq K] [LT L] [DecidableLT L] [BEq L] hf in
theorem setChild_rename (n : Node K V) (c : OrdMap.Cursor K (ChildInfo (Node K V)))
    (child : Node K V) :
    (n.rename f).setChild (renameCursor f c) (child.rename f) = (n.setChild c child).rename f := by
  obtain ⟨id, ps, es⟩ := n
  unfold Node.setChild
  rw [setChild_cursor]
  rfl

theorem belowFirstPivot_rename (m : MessageKey K) :
    Node.belowFirstPivot (renamePivots f ps) (m.rename f) = Node.belowFirstPivot ps m := by
  rcases ps with _ | ⟨⟨k', c⟩, ps⟩
  · rfl
  · exact decide_eq_decide.mpr (hf.lt m.key k')

theorem elementsAfter_rename (es : MessageMap K V) (mkey : Option (MessageKey K)) :
    Node.elementsAfter (renameMessages f es) (mkey.map (MessageKey.rename f))
      = renameMessages f (Node.elementsAfter es mkey) := by
  cases mkey with
  | none => rfl
  | some m => exact OrdMap.upperBound_map hf.messages.lt _ es m

theorem earlierMessage_rename (own kids : Option (MessageKey K × Message V)) :
    Node.earlierMessage (own.map (renameMessage f)) (kids.map (renameMessage f))
      = (Node.earlierMessage own kids).map (renameMessage f) := by
  cases own with
  | none => rfl
  | some e =>
      cases kids with
      | none => rfl
      | some kid =>
          show (if kid.1.rename f < e.1.rename f then _ else _) = Option.map _ (if kid.1 < e.1 then _ else _)
          simp only [hf.messages.lt]
          split <;> rfl

end Keys

end BeTree
