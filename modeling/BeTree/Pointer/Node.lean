import BeTree.Codec.NodeText
import BeTree.Pointer.Shadow
import BeTree.Tree.Flush
import BeTree.Tree.Read

/-!
# Nodes that hold pointers

The node functions as they run over the swap space: `this` is the object under the newest
pin, its children are pointers, and every copy of a `node_pointer` is made and destroyed where
the source does it: the parameter and the member of a `child_info`, the temporary it is
assigned from, the entries that are overwritten, erased or cleared, and the maps and variables
that go out of scope.

A node that has been read is a node whose children are known by their ids only, so what the
source computes from one node alone is computed by the same functions as before.
-/

namespace BeTree

variable {K V : Type}

/-- The content of an object as a node, with nothing known of the children but their ids. -/
def NodeImage.node (id : Nat) (n : NodeImage K V) : Node K V :=
  ⟨id, n.pivots.map (fun e => (e.1, ⟨⟨e.2.child, [], []⟩, e.2.childSize⟩)), n.elements⟩

/-- What an object holds that is a node. -/
def Node.payload (n : Node K V) : Payload (NodeImage K V) := ⟨n.image, n.children⟩

namespace Pointer

/-- Programs that hold pointers to nodes. -/
abbrev PProg (K V α : Type) : Type := Prog (HeapOp (NodeImage K V)) HeapOp.Ans Fault α

/-- `ss->allocate(new node)`. -/
def allocate : PProg K V Nat := Prog.perform (HeapOp.allocate ⟨[], []⟩)

/-- The copy of a `node_pointer`. -/
def copy (id : Nat) : PProg K V Unit := Prog.perform (HeapOp.copy id)

/-- The destruction of a `node_pointer`. -/
def destroy (id : Nat) : PProg K V Unit := Prog.perform (HeapOp.destroy id)

/-- The construction of a pin. -/
def pin (id : Nat) : PProg K V Unit := Prog.perform (HeapOp.pin id)

/-- `operator->` of a pin. -/
def access (id : Nat) (dirty : Bool) : PProg K V Unit := Prog.perform (HeapOp.access id dirty)

/-- The destruction of a pin. -/
def unpin (id : Nat) : PProg K V Unit := Prog.perform (HeapOp.unpin id)

/-- Look at the node under a pin. -/
def read (id : Nat) : PProg K V (Node K V) := do
  let p ← (Prog.perform (HeapOp.read id) : PProg K V (Payload (NodeImage K V)))
  return p.data.node id

/-- Write the node under a pin. -/
def write (n : Node K V) : PProg K V Unit := Prog.perform (HeapOp.store n.id n.payload)

/-- `is_dirty()`. -/
def isDirty (id : Nat) : PProg K V Bool := Prog.perform (HeapOp.isDirty id)

/-- `is_in_memory()`. -/
def isInMemory (id : Nat) : PProg K V Bool := Prog.perform (HeapOp.isInMemory id)

/-- `p->…`: the node is pinned and accessed, used, and unpinned. -/
def deref {α : Type} (dirty : Bool) (id : Nat) (body : PProg K V α) : PProg K V α := do
  pin id
  access id dirty
  let a ← body
  unpin id
  return a

/-- `p->pivots.size() + p->elements.size()`: the first pin is held over the second access. -/
def derefSize (id : Nat) : PProg K V Nat :=
  deref true id (deref true id (do
    let n ← read id
    return n.size))

/-- The destruction of the pointers in a pivot map. -/
def destroyAll : PivotMap K V → PProg K V Unit
  | [] => return ()
  | e :: es => do
    destroy e.2.child.id
    destroyAll es

/-- The copies of the pointers in a pivot map. -/
def copyAll : PivotMap K V → PProg K V Unit
  | [] => return ()
  | e :: es => do
    copy e.2.child.id
    copyAll es

section Code

variable [LT K] [DecidableLT K] [BEq K] (bet : Params K V)

/-! ## Splitting -/

/-- The child of an entry that is assigned to is let go before the new one is copied. -/
def overwrite (n : Node K V) (k : K) : PProg K V Unit :=
  match OrdMap.find n.pivots k with
  | none => return ()
  | some old => do
    write { n with pivots := OrdMap.erase n.pivots k }
    destroy old.2.child.id

/-- `new_node->pivots[e.first] = e.second`. -/
def putPivot (id : Nat) (e : K × ChildInfo (Node K V)) : PProg K V Unit :=
  deref true id (do
    let n ← read id
    overwrite n e.1
    copy e.2.child.id
    write { n with pivots := OrdMap.assign n.pivots e.1 e.2 })

/-- `new_node->elements[e.first] = e.second`. -/
def putElement (id : Nat) (e : MessageKey K × Message V) : PProg K V Unit :=
  deref true id (do
    let n ← read id
    write { n with elements := OrdMap.assign n.elements e.1 e.2 })

/-- The inner loop: move elements up to `elt_end`. -/
def putElements : MessageMap K V → Nat → PProg K V Unit
  | [], _ => return ()
  | e :: es, id => do
    putElement id e
    putElements es id

/-- The `while` loop of `split` once the pivots are used up. -/
def fillElements (leaf : Bool) (target : Nat) :
    MessageMap K V → Nat → Nat → PProg K V (Node.SplitState K V)
  | [], moved, _ => return ⟨[], [], moved⟩
  | e :: es, moved, id =>
    if moved < target then do
      Prog.require leaf (.assertion .splitMustBeLeaf)
      putElement id e
      fillElements leaf target es (moved + 1) id
    else return ⟨[], e :: es, moved⟩

/-- The `while` loop of `split`: fill one new node up to the target. -/
def fill (this : Node K V) (target : Nat) :
    PivotMap K V → MessageMap K V → Nat → Nat → PProg K V (Node.SplitState K V)
  | [], elts, moved, id => fillElements this.isLeaf target elts moved id
  | e :: ps, elts, moved, id =>
    if moved < target then do
      putPivot id e
      let eltEnd := Node.getElementBeginAt this.elements (ps.head?.map Prod.fst)
      let batch := OrdMap.range elts eltEnd
      putElements batch id
      fill this target ps (elts.drop batch.length) (moved + 1 + batch.length) id
    else return ⟨e :: ps, elts, moved⟩

/-- `depoint()` of the child of an entry of `result` that is assigned to. -/
def letGo (result : PivotMap K V) (key : K) : PProg K V Unit :=
  match OrdMap.find result key with
  | some old => destroy old.2.child.id
  | none => return ()

/--
`result[key] = child_info(new_node, …)`. The pointer is copied into the parameter, from there
into the member of the temporary, and from there into the entry.
-/
def enterResult (result : PivotMap K V) (key : K) (id : Nat) : PProg K V Nat :=
  deref true id (deref true id (do
    let n ← read id
    copy id
    copy id
    destroy id
    letGo result key
    copy id
    destroy id
    return n.size))

/-- The `for` loop of `split`; `new_node` goes out of scope at the end of a round. -/
def splitLoop (this : Node K V) (things : Nat) :
    Nat → Nat → Node.SplitState K V → PivotMap K V →
      PProg K V (Node.SplitState K V × PivotMap K V)
  | 0, _, st, result => return (st, result)
  | left + 1, i, st, result =>
    match Node.splitKey st with
    | none => return (st, result)
    | some key => do
      let id ← allocate
      let size ← enterResult result key id
      let st ← fill this ((i + 1) * things) st.pivotIdx st.eltIdx st.thingsMoved id
      destroy id
      splitLoop this things left (i + 1) st (OrdMap.assign result key ⟨⟨id, [], []⟩, size⟩)

/-- The closing loop: record the size of every child. -/
def refreshSizes : PivotMap K V → PProg K V (PivotMap K V)
  | [] => return []
  | e :: es => do
    let size ← derefSize e.2.child.id
    let es ← refreshSizes es
    return (e.1, { e.2 with childSize := size }) :: es

/-- `split`: the new nodes under their keys. -/
def split (id : Nat) : PProg K V (PivotMap K V) := do
  let this ← read id
  Prog.require (decide (bet.maxNodeSize ≤ this.size)) (.assertion .splitSize)
  let (numNewLeaves, thingsPerNewLeaf) ← Node.splitCounts bet this.size
  let (st, result) ← splitLoop this thingsPerNewLeaf numNewLeaves 0
    ⟨this.pivots, this.elements, 0⟩ []
  let result ← refreshSizes result
  Prog.require st.pivotIdx.isEmpty (.assertion .splitPivotsMoved)
  Prog.require st.eltIdx.isEmpty (.assertion .splitElementsMoved)
  -- `pivots.clear(); elements.clear()`
  write { this with pivots := [] }
  destroyAll this.pivots
  write { this with pivots := [], elements := [] }
  return result

/-! ## Flushing -/

/-- Lower the first pivot to the smallest incoming key, if necessary. -/
def lowerFirstPivot (n : Node K V) (elts : MessageMap K V) : PProg K V Unit :=
  match n.pivots, elts with
  | (oldmin, c) :: _, (newmin, _) :: _ =>
    if newmin.key < oldmin then do
      -- `pivots[newmin.key] = pivots[oldmin]; pivots.erase(oldmin)`
      copy c.child.id
      write { n with pivots := OrdMap.assign n.pivots newmin.key c }
      write (n.lowerFirstPivot elts)
      destroy c.child.id
    else return ()
  | _, _ => return ()

/-- `pivots.insert(new_children.begin(), new_children.end())`. -/
def insertChildren : Node K V → PivotMap K V → PProg K V Unit
  | _, [] => return ()
  | n, e :: es =>
    match OrdMap.find n.pivots e.1 with
    -- a key that is taken keeps its child
    | some _ => insertChildren n es
    | none => do
      copy e.2.child.id
      write { n with pivots := OrdMap.insert n.pivots e.1 e.2 }
      insertChildren { n with pivots := OrdMap.insert n.pivots e.1 e.2 } es

/-- `pivots.erase(c); pivots.insert(…)`, and then `new_children` goes out of scope. -/
def replaceChild (n : Node K V) (c : OrdMap.Cursor K (ChildInfo (Node K V)))
    (newChildren : PivotMap K V) : PProg K V Unit := do
  write { n with pivots := c.erase }
  destroy c.val.child.id
  insertChildren { n with pivots := c.erase } newChildren
  destroyAll newChildren

/-- Everything goes to a single dirty child: put it there. -/
def flushDirty (flushChild : Nat → MessageMap K V → PProg K V (PivotMap K V))
    (n : Node K V) (first : OrdMap.Cursor K (ChildInfo (Node K V))) (elts : MessageMap K V) :
    PProg K V Unit := do
  n.assertUnbuffered first
  let newChildren ← deref true first.val.child.id (flushChild first.val.child.id elts)
  if newChildren.isEmpty then do
    let size ← derefSize first.val.child.id
    write { n with pivots := first.set { first.val with childSize := size } }
  else replaceChild n first newChildren

/-- `first_pivot_idx->second.child_size = size` in the flush loop; `none` if it has been erased. -/
def writeFirstSize (n : Node K V) (first : Option K) (size : Nat) : PProg K V Unit :=
  match first with
  | some k => write { n with pivots := Node.setChildSize n.pivots k size }
  | none => Prog.stop .erasedEntry

/-- One round of the flush loop: flush the messages of the child under the cursor. -/
def flushRound (flushChild : Nat → MessageMap K V → PProg K V (PivotMap K V))
    (n : Node K V) (c : OrdMap.Cursor K (ChildInfo (Node K V))) (first : Option K) :
    PProg K V (Option K) := do
  let newChildren ← deref true c.val.child.id (flushChild c.val.child.id (n.childElts c))
  let n := { n with elements := n.otherElts c }
  write n
  if newChildren.isEmpty then do
    let size ← derefSize c.val.child.id
    writeFirstSize n first size
    return first
  else do
    replaceChild n c newChildren
    return first.filter (fun k => !(k == c.key))

/-- Flush to out-of-core or clean children as necessary. -/
def flushLoop (flushChild : Nat → MessageMap K V → PProg K V (PivotMap K V)) :
    Nat → Nat → Option K → PProg K V Unit
  | 0, _, _ => Prog.stop .fuel
  | fuel + 1, id, first => do
    let n ← read id
    if bet.maxNodeSize ≤ n.size then
      match n.pivots with
      | [] => return ()
      | e :: rest => do
        let (c, maxSize) := Node.largestChild n.elements [] n.pivots (⟨[], e.1, e.2, rest⟩, 0)
        if ← Node.worthFlushing bet isInMemory maxSize c.val.child.id then do
          let first ← flushRound flushChild n c first
          flushLoop flushChild fuel id first
        else return ()
    else return ()

/-- `flush` on an inner node, with the flush of its children. -/
def flushInner [Add V] (flushChild : Nat → MessageMap K V → PProg K V (PivotMap K V))
    (this : Node K V) (newmin newmax : K) (elts : MessageMap K V) :
    PProg K V (PivotMap K V) := do
  lowerFirstPivot this elts
  let n := this.lowerFirstPivot elts
  let first ← Prog.ofExcept (Node.getPivot n.pivots newmin)
  let last ← Prog.ofExcept (Node.getPivot n.pivots newmax)
  if ← Node.goesToDirtyChild isDirty first last then do
    flushDirty flushChild n first elts
    return []
  else do
    let n := n.applyAll elts bet.defaultValue
    write n
    flushLoop bet flushChild (n.elements.length + 1) n.id (some first.key)
    let n ← read n.id
    if bet.maxNodeSize < n.size then split bet n.id else return []

/-- `flush`: the nodes that the node was split into, if it was. -/
def flush [Add V] : Nat → Nat → MessageMap K V → PProg K V (PivotMap K V)
  | 0, _, _ => Prog.stop .fuel
  | fuel + 1, id, elts => do
    let n ← read id
    match elts.head?, elts.getLast? with
    | some lo, some hi =>
      if n.isLeaf then do
        let n := n.applyAll elts bet.defaultValue
        write n
        if bet.maxNodeSize ≤ n.size then split bet id else return []
      else flushInner bet (flush fuel) n lo.1.key hi.1.key elts
    | _, _ => return []

/-! ## Reading -/

/-- `get_pivot(k)->second.child->query(bet, k)`. -/
def queryChild (query : Nat → PProg K V (Option V)) (n : Node K V) (k : K) :
    PProg K V (Option V) :=
  match Node.getPivot n.pivots k with
  | .error .outOfRange => return none
  | .error e => Prog.stop e
  | .ok c => deref false c.val.child.id (query c.val.child.id)

/-- `query` on a leaf. -/
def queryLeaf (n : Node K V) (k : K) : PProg K V (Option V) :=
  match OrdMap.lowerBound n.elements (MessageKey.rangeStart k) with
  | [] => return none
  | e :: _ =>
    if e.1.key == k then do
      Prog.require (e.2.opcode == .insert) (.assertion .queryInsert)
      return some e.2.val
    else return none

/-- `query` on an inner node, with the query of its children. -/
def queryInner [Add V] (query : Nat → PProg K V (Option V)) (n : Node K V) (k : K) :
    PProg K V (Option V) := do
  let messageIter := Node.getElementBegin n.elements k
  match messageIter with
  | [] => queryChild query n k
  | e :: rest =>
    if k < e.1.key then
      match ← queryChild query n k with
      | none => return none
      | some v => return some (← Node.applyUpdates k v messageIter)
    else
      match e.2.opcode with
      | .update =>
        let r ← queryChild query n k
        return some (← Node.applyUpdates k (r.getD bet.defaultValue) messageIter)
      | .delete =>
        match rest with
        | [] => return none
        | e' :: _ =>
          if k < e'.1.key then return none
          else return some (← Node.applyUpdates k bet.defaultValue rest)
      | .insert => return some (← Node.applyUpdates k e.2.val rest)

/-- `query`. -/
def query [Add V] : Nat → K → Nat → PProg K V (Option V)
  | 0, _, _ => Prog.stop .fuel
  | fuel + 1, k, id => do
    let n ← read id
    if n.isLeaf then queryLeaf n k else queryInner bet (query fuel k) n k

/-- The loop of `get_next_message_from_children`: the first child that has a message. -/
def nextInChildren (next : Nat → PProg K V (Option (MessageKey K × Message V))) :
    PivotMap K V → PProg K V (Option (MessageKey K × Message V))
  | [] => return none
  | e :: rest => do
    match ← deref false e.2.child.id (next e.2.child.id) with
    | some m => return some m
    | none => nextInChildren next rest

/-- `get_next_message_from_children`. -/
def getNextMessageFromChildren
    (next : Option (MessageKey K) → Nat → PProg K V (Option (MessageKey K × Message V)))
    (n : Node K V) (mkey : Option (MessageKey K)) : PProg K V (Option (MessageKey K × Message V)) :=
  match mkey.filter (fun m => !Node.belowFirstPivot n.pivots m) with
  | none => nextInChildren (next none) n.pivots
  | some m =>
    match Node.getPivot n.pivots m.key with
    | .error .outOfRange => return none
    | .error e => Prog.stop e
    | .ok c => nextInChildren (next (some m)) ((c.key, c.val) :: c.after)

/-- `get_next_message`: the smallest message above `mkey`, or the smallest one of all. -/
def getNextMessage : Nat → Option (MessageKey K) → Nat → PProg K V (Option (MessageKey K × Message V))
  | 0, _, _ => Prog.stop .fuel
  | fuel + 1, mkey, id => do
    let n ← read id
    let it := Node.elementsAfter n.elements mkey
    if n.isLeaf then return it.head?
    else
      let kids ← getNextMessageFromChildren (getNextMessage fuel) n mkey
      return Node.earlierMessage it.head? kids

end Code

end Pointer

end BeTree
