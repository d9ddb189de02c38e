import BeTree.Tree.Split

/-!
# Flushing a batch into a node

`flush` receives a batch of messages and performs recursive flushes or splits as
necessary. A leaf applies the batch. An inner node hands the whole batch to a
single dirty child when there is one, and otherwise takes it into its own buffer
and, while it is too large, flushes the child with the most messages.

The recursion is on the height of the tree, given as a bound, and the flush loop
on the number of buffered messages, each round taking some of them out.
-/

namespace BeTree.Node

variable {K V : Type} [LT K] [DecidableLT K] [BEq K]

/-- Lower the first pivot to the smallest incoming key, if necessary. -/
def lowerFirstPivot (n : Node K V) (elts : MessageMap K V) : Node K V :=
  match n.pivots, elts with
  | (oldmin, c) :: _, (newmin, _) :: _ =>
    if newmin.key < oldmin then
      { n with pivots := OrdMap.erase (OrdMap.assign n.pivots newmin.key c) oldmin }
    else n
  | _, _ => n

/--
`pivots.insert(new_children.begin(), new_children.end())`. A key that is taken
would keep its old child and the new one would be lost, so that is a fault.
-/
def insertChildren (pivots newChildren : PivotMap K V) : BProg (PivotMap K V) := do
  Prog.require (newChildren.all (fun e => (OrdMap.find pivots e.1).isNone)) .keyTaken
  return OrdMap.insertAll pivots newChildren

/-- `assert(elt_start == elt_end)`: there shouldn't be anything in our buffer for this child. -/
def assertUnbuffered {O : Type} {A : O → Type} (n : Node K V)
    (first : OrdMap.Cursor K (ChildInfo (Node K V))) : Prog O A Fault Unit :=
  let eltStart := getElementBeginAt n.elements (some first.key)
  let eltEnd := getElementBeginAt n.elements first.nextKey
  Prog.require (eltStart.length == eltEnd.length) (.assertion .dirtyChildBuffered)

/-- What becomes of a dirty child that has been flushed: it is kept, or its new children are. -/
def settleDirty (bet : Params K V) (n : Node K V)
    (first : OrdMap.Cursor K (ChildInfo (Node K V))) (child : Node K V)
    (newChildren : PivotMap K V) : BProg (Node K V) :=
  if newChildren.isEmpty then do
    let (child, size) ← child.derefSize bet
    return { n with pivots := first.set ⟨child, size⟩ }
  else do
    depoint child.id
    return { n with pivots := ← insertChildren first.erase newChildren }

/-- Everything goes to a single dirty child: put it there. -/
def flushDirty (bet : Params K V)
    (flushChild : Node K V → MessageMap K V → BProg (Node K V × PivotMap K V))
    (n : Node K V) (first : OrdMap.Cursor K (ChildInfo (Node K V))) (elts : MessageMap K V) :
    BProg (Node K V) := do
  n.assertUnbuffered first
  let (child, newChildren) ← first.val.child.deref bet true (flushChild · elts)
  n.settleDirty bet first child newChildren

/--
The child with the largest set of messages in the buffer. Sizes are compared as
32-bit `unsigned int`s.
-/
def largestChild (elements : MessageMap K V) :
    PivotMap K V → PivotMap K V → OrdMap.Cursor K (ChildInfo (Node K V)) × Nat →
      OrdMap.Cursor K (ChildInfo (Node K V)) × Nat
  | _, [], best => best
  | before, e :: rest, best =>
    let dist := OrdMap.distance (getElementBeginAt elements (some e.1))
      (getElementBeginAt elements (rest.head?.map Prod.fst)) % 2 ^ 32
    largestChild elements (before ++ [e]) rest
      (if best.2 < dist then (⟨before, e.1, e.2, rest⟩, dist) else best)

/-- `it->second.child_size = size`, for the entry under key `k`. -/
def setChildSize (pivots : PivotMap K V) (k : K) (size : Nat) : PivotMap K V :=
  pivots.map (fun e => if e.1 == k then (e.1, { e.2 with childSize := size }) else e)

/--
`first_pivot_idx->second.child_size = size` in the flush loop. The entry the
iterator pointed to may have been erased by an earlier round (`none`); then the
write is one to freed memory.
-/
def writeFirstSize (pivots : PivotMap K V) (first : Option K) (size : Nat) :
    BProg (PivotMap K V) :=
  match first with
  | some k => return setChildSize pivots k size
  | none => Prog.stop .erasedEntry

/-- `message_map child_elts(elt_child_it, elt_next_it)`. -/
def childElts (n : Node K V) (c : OrdMap.Cursor K (ChildInfo (Node K V))) : MessageMap K V :=
  OrdMap.range (getElementBeginAt n.elements (some c.key)) (getElementBeginAt n.elements c.nextKey)

/-- The buffer after `elements.erase(elt_child_it, elt_next_it)`. -/
def otherElts (n : Node K V) (c : OrdMap.Cursor K (ChildInfo (Node K V))) : MessageMap K V :=
  OrdMap.eraseRange n.elements (getElementBeginAt n.elements (some c.key))
    (getElementBeginAt n.elements c.nextKey)

/-- What becomes of a child that a round has flushed, and of the messages that are left. -/
def settleRound (bet : Params K V) (n : Node K V)
    (c : OrdMap.Cursor K (ChildInfo (Node K V))) (first : Option K) (elements : MessageMap K V)
    (child : Node K V) (newChildren : PivotMap K V) : BProg (Node K V × Option K) :=
  if newChildren.isEmpty then do
    let (child, size) ← child.derefSize bet
    -- the size is written through `first_pivot_idx`, not through this child's iterator
    let pivots ← writeFirstSize (c.set { c.val with child := child }) first size
    return ({ n with pivots := pivots, elements := elements }, first)
  else do
    depoint child.id
    -- erasing the child's entry invalidates the iterator if it points there
    let first := first.filter (fun k => !(k == c.key))
    let pivots ← insertChildren c.erase newChildren
    return ({ n with pivots := pivots, elements := elements }, first)

/-- One round of the flush loop: flush the messages of the child under the cursor. -/
def flushRound (bet : Params K V)
    (flushChild : Node K V → MessageMap K V → BProg (Node K V × PivotMap K V))
    (n : Node K V) (c : OrdMap.Cursor K (ChildInfo (Node K V))) (first : Option K) :
    BProg (Node K V × Option K) := do
  let (child, newChildren) ← c.val.child.deref bet true (flushChild · (n.childElts c))
  n.settleRound bet c first (n.otherElts c) child newChildren

/-- Whether the largest set of messages is flushed: a smaller one will do for a child in memory. -/
def worthFlushing {O : Type} {A : O → Type} (bet : Params K V)
    (isInMemory : Nat → Prog O A Fault Bool) (maxSize id : Nat) : Prog O A Fault Bool :=
  if bet.minFlushSize < maxSize then return true
  else if bet.minFlushSize / 2 < maxSize then isInMemory id
  else return false

/-- Flush to out-of-core or clean children as necessary. -/
def flushLoop (bet : Params K V)
    (flushChild : Node K V → MessageMap K V → BProg (Node K V × PivotMap K V)) :
    Nat → Node K V → Option K → BProg (Node K V)
  | 0, _, _ => Prog.stop .fuel
  | fuel + 1, n, first =>
    if bet.maxNodeSize ≤ n.size then
      match n.pivots with
      | [] => return n
      | e :: rest => do
        let (c, maxSize) := largestChild n.elements [] n.pivots (⟨[], e.1, e.2, rest⟩, 0)
        if ← worthFlushing bet isInMemory maxSize c.val.child.id then do
          let (n, first) ← flushRound bet flushChild n c first
          flushLoop bet flushChild fuel n first
        else return n
    else return n

/-- `first_pivot_idx == last_pivot_idx && first_pivot_idx->second.child.is_dirty()`. -/
def goesToDirtyChild {O : Type} {A : O → Type} (isDirty : Nat → Prog O A Fault Bool)
    (first last : OrdMap.Cursor K (ChildInfo (Node K V))) : Prog O A Fault Bool :=
  if first.before.length = last.before.length then isDirty first.val.child.id else return false

/-- `flush` on an inner node, with the flush of its children. -/
def flushInner [Add V] (bet : Params K V)
    (flushChild : Node K V → MessageMap K V → BProg (Node K V × PivotMap K V))
    (this : Node K V) (newmin newmax : K) (elts : MessageMap K V) :
    BProg (Node K V × PivotMap K V) := do
  let n := this.lowerFirstPivot elts
  let first ← Prog.ofExcept (getPivot n.pivots newmin)
  let last ← Prog.ofExcept (getPivot n.pivots newmax)
  if ← goesToDirtyChild isDirty first last then do
    let n ← n.flushDirty bet flushChild first elts
    -- the size of the node is not checked again on this path
    return (n, [])
  else do
    let n := n.applyAll elts bet.defaultValue
    let n ← flushLoop bet flushChild (n.elements.length + 1) n (some first.key)
    -- too many pivots to flush efficiently
    if bet.maxNodeSize < n.size then n.split bet else return (n, [])

/-- `flush`: the node afterwards, and the nodes it was split into, if it was. -/
def flush [Add V] (bet : Params K V) : Nat → Node K V → MessageMap K V →
    BProg (Node K V × PivotMap K V)
  | 0, _, _ => Prog.stop .fuel
  | fuel + 1, n, elts =>
    match elts.head?, elts.getLast? with
    | some lo, some hi =>
      if n.isLeaf then
        let n := n.applyAll elts bet.defaultValue
        if bet.maxNodeSize ≤ n.size then n.split bet else return (n, [])
      else flushInner bet (flush bet fuel) n lo.1.key hi.1.key elts
    | _, _ => return (n, [])

end BeTree.Node
