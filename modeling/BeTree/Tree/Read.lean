import BeTree.Tree.Node

/-!
# Reading a tree

`query` walks down to the newest message of a key that decides its value, and
applies the updates above it on the way back. `get_next_message` finds the
smallest message above a given one, merging each node's buffer with its children.

Both signal a missing result by throwing `std::out_of_range`, which their callers
catch; here that is `none`. A read may load nodes, so it gives back the node.
-/

namespace BeTree.Node

variable {K V : Type} [LT K] [DecidableLT K] [BEq K]

/-- Replace the child under the cursor. -/
def setChild (n : Node K V) (c : OrdMap.Cursor K (ChildInfo (Node K V))) (child : Node K V) :
    Node K V :=
  { n with pivots := c.set { c.val with child := child } }

/-- Apply the updates of `k` found from an iterator on. -/
def applyUpdates {O : Type} {A : O → Type} [Add V] (k : K) : V → MessageMap K V → Prog O A Fault V
  | v, [] => return v
  | v, e :: rest =>
    if e.1.key == k then do
      Prog.require (e.2.opcode == .update) (.assertion .queryUpdate)
      applyUpdates k (v + e.2.val) rest
    else return v

/-- `get_pivot(k)->second.child->query(bet, k)`. -/
def queryChild (bet : Params K V) (query : Node K V → BProg (Node K V × Option V))
    (n : Node K V) (k : K) : BProg (Node K V × Option V) :=
  match getPivot n.pivots k with
  | .error .outOfRange => return (n, none)
  | .error e => Prog.stop e
  | .ok c => do
    let (child, r) ← c.val.child.deref bet false query
    return (n.setChild c child, r)

/-- `query` on a leaf. -/
def queryLeaf (n : Node K V) (k : K) : BProg (Node K V × Option V) :=
  match OrdMap.lowerBound n.elements (MessageKey.rangeStart k) with
  | [] => return (n, none)
  | e :: _ =>
    if e.1.key == k then do
      Prog.require (e.2.opcode == .insert) (.assertion .queryInsert)
      return (n, some e.2.val)
    else return (n, none)

/-- `query` on an inner node, with the query of its children. -/
def queryInner [Add V] (bet : Params K V) (query : Node K V → BProg (Node K V × Option V))
    (n : Node K V) (k : K) : BProg (Node K V × Option V) := do
  let messageIter := getElementBegin n.elements k
  match messageIter with
  | [] => n.queryChild bet query k
  | e :: rest =>
    if k < e.1.key then
      -- no messages for this key, so search further down the tree
      match ← n.queryChild bet query k with
      | (n, none) => return (n, none)
      | (n, some v) => return (n, some (← applyUpdates k v messageIter))
    else
      match e.2.opcode with
      | .update =>
        let (n, r) ← n.queryChild bet query k
        return (n, some (← applyUpdates k (r.getD bet.defaultValue) messageIter))
      | .delete =>
        match rest with
        | [] => return (n, none)
        | e' :: _ =>
          if k < e'.1.key then return (n, none)
          else return (n, some (← applyUpdates k bet.defaultValue rest))
      | .insert => return (n, some (← applyUpdates k e.2.val rest))

/-- `query`. -/
def query [Add V] (bet : Params K V) : Nat → K → Node K V → BProg (Node K V × Option V)
  | 0, _, _ => Prog.stop .fuel
  | fuel + 1, k, n => if n.isLeaf then n.queryLeaf k else n.queryInner bet (query bet fuel k) k

/-- The loop of `get_next_message_from_children`: the first child that has a message. -/
def nextInChildren (bet : Params K V)
    (next : Node K V → BProg (Node K V × Option (MessageKey K × Message V))) :
    PivotMap K V → BProg (PivotMap K V × Option (MessageKey K × Message V))
  | [] => return ([], none)
  | e :: rest => do
    let (child, r) ← e.2.child.deref bet false next
    let e := (e.1, { e.2 with child := child })
    match r with
    | some m => return (e :: rest, some m)
    | none =>
      let (rest, r) ← nextInChildren bet next rest
      return (e :: rest, r)

/-- `*mkey < pivots.begin()->first`. -/
def belowFirstPivot (pivots : PivotMap K V) (m : MessageKey K) : Bool :=
  match pivots with
  | [] => false
  | e :: _ => decide (m.key < e.1)

/-- `get_next_message_from_children`. -/
def getNextMessageFromChildren (bet : Params K V)
    (next : Option (MessageKey K) → Node K V →
      BProg (Node K V × Option (MessageKey K × Message V)))
    (n : Node K V) (mkey : Option (MessageKey K)) :
    BProg (Node K V × Option (MessageKey K × Message V)) :=
  match mkey.filter (fun m => !belowFirstPivot n.pivots m) with
  | none => do
    let (pivots, r) ← nextInChildren bet (next none) n.pivots
    return ({ n with pivots := pivots }, r)
  | some m =>
    match getPivot n.pivots m.key with
    | .error .outOfRange => return (n, none)
    | .error e => Prog.stop e
    | .ok c => do
      let (pivots, r) ← nextInChildren bet (next (some m)) ((c.key, c.val) :: c.after)
      return ({ n with pivots := c.before ++ pivots }, r)

/-- `mkey ? elements.upper_bound(*mkey) : elements.begin()`. -/
def elementsAfter (elements : MessageMap K V) : Option (MessageKey K) → MessageMap K V
  | none => elements
  | some m => OrdMap.upperBound elements m

/-- The smaller of the next own message and the next message of the children. -/
def earlierMessage (own kids : Option (MessageKey K × Message V)) :
    Option (MessageKey K × Message V) :=
  match own, kids with
  | none, kids => kids
  | some e, none => some e
  | some e, some kid => if kid.1 < e.1 then some kid else some e

/-- `get_next_message`: the smallest message above `mkey`, or the smallest one of all. -/
def getNextMessage (bet : Params K V) : Nat → Option (MessageKey K) → Node K V →
    BProg (Node K V × Option (MessageKey K × Message V))
  | 0, _, _ => Prog.stop .fuel
  | fuel + 1, mkey, n => do
    let it := elementsAfter n.elements mkey
    if n.isLeaf then return (n, it.head?)
    else
      let (n, kids) ← n.getNextMessageFromChildren bet (getNextMessage bet fuel) mkey
      return (n, earlierMessage it.head? kids)

end BeTree.Node
