import BeTree.Lib.Prog
import BeTree.Tree.Message

/-!
# Nodes

A node has a map from pivot keys to child pointers and a map from message keys to
messages. A `node_pointer` is modelled by the node it refers to: following it
gives the content that was last written through it. What the swap space does
about it is left to an environment, which is told of every allocation, pin,
access, unpin and release, and is asked whether a child is dirty or in memory.

An access may have to read the node back from its serialized form. `reload` says
what that gives, if the text can be read; a codec that round-trips gives the node back.
-/

namespace BeTree

/-- An entry of a pivot map: the child, and a cached copy of its size. -/
structure ChildInfo (N : Type) where
  child : N
  childSize : Nat
deriving DecidableEq, Repr

/-- A node, under the identifier the swap space gave it. -/
structure Node (K V : Type) where
  id : Nat
  pivots : List (K × ChildInfo (Node K V))
  elements : MessageMap K V

/-- `pivot_map`. -/
abbrev PivotMap (K V : Type) : Type := List (K × ChildInfo (Node K V))

/-- The asserts of `betree.hpp` that a run could fail. -/
inductive Assertion where
  /-- `get_pivot`: `mp.size() > 0`. -/
  | pivotsNonempty
  /-- `split`: the node has reached the maximum size. -/
  | splitSize
  /-- `split`: elements are moved one by one only from a leaf. -/
  | splitMustBeLeaf
  /-- `split`: every pivot has been moved. -/
  | splitPivotsMoved
  /-- `split`: every element has been moved. -/
  | splitElementsMoved
  /-- `flush`: `elt_start == elt_end`, nothing is buffered for a dirty child. -/
  | dirtyChildBuffered
  /-- `query`: a message of a leaf is an `INSERT`. -/
  | queryInsert
  /-- `query`: a message after the first one is an `UPDATE`. -/
  | queryUpdate
deriving DecidableEq, Repr

/-- The ways a run can stop without returning. -/
inductive Fault where
  /-- An uncaught `std::out_of_range`. -/
  | outOfRange
  | assertion (a : Assertion)
  /-- A division by zero in `split`, in a node of the given size. -/
  | divideByZero (size : Nat)
  /-- An `int` of `split` does not hold its value, in a node of the given size. -/
  | intOverflow (size : Nat)
  /-- `pivots.insert` of new children meets a key that is taken. The source has no check here. -/
  | keyTaken
  /--
  A write through an iterator to an entry that has been erased. The source has no check here
  either: what the write does is undefined.
  -/
  | erasedEntry
  /-- The bound on the depth of a recursion was too small. -/
  | fuel
  /-- An assert of the environment. -/
  | environment
deriving DecidableEq, Repr

/-- What the tree asks of the swap space. -/
inductive Op where
  /-- `ss->allocate(new node)`. -/
  | allocate
  /-- The construction of a pin. -/
  | pin (id : Nat)
  /-- `pin::operator->`, with the node's number of entries and the pointers in it. -/
  | access (id : Nat) (dirty : Bool) (size : Nat) (children : List Nat)
  /-- The destruction of a pin, with the pointers the node now holds. -/
  | unpin (id : Nat) (children : List Nat)
  /-- The destruction of the last pointer to a node. -/
  | depoint (id : Nat)
  | isDirty (id : Nat)
  | isInMemory (id : Nat)
  /-- `ss->evict_all()`. -/
  | evictAll

/-- What each operation answers. An access says whether the node had to be loaded. -/
@[reducible]
def Op.Ans : Op → Type
  | .allocate => Nat
  | .pin _ => Unit
  | .access _ _ _ _ => Bool
  | .unpin _ _ => Unit
  | .depoint _ => Unit
  | .isDirty _ => Bool
  | .isInMemory _ => Bool
  | .evictAll => Unit

/-- Programs of the tree. -/
abbrev BProg (α : Type) : Type := Prog Op Op.Ans Fault α

/-- The fields of `betree` that stay fixed, and what reading a node back gives. -/
structure Params (K V : Type) where
  maxNodeSize : Nat
  minFlushSize : Nat
  defaultValue : V
  reload : Node K V → Option (Node K V)

/-- The construction of a pin. -/
def pin (id : Nat) : BProg Unit := Prog.perform (Op.pin id)

/-- `access(target, dirty)`; answers whether the node was loaded. -/
def access (id : Nat) (dirty : Bool) (size : Nat) (children : List Nat) : BProg Bool :=
  Prog.perform (Op.access id dirty size children)

/-- The destruction of a pin. -/
def unpin (id : Nat) (children : List Nat) : BProg Unit := Prog.perform (Op.unpin id children)

/-- `is_dirty()`. -/
def isDirty (id : Nat) : BProg Bool := Prog.perform (Op.isDirty id)

/-- `is_in_memory()`. -/
def isInMemory (id : Nat) : BProg Bool := Prog.perform (Op.isInMemory id)

/-- `evict_all()`. -/
def evictAll : BProg Unit := Prog.perform Op.evictAll

/-- `depoint()` on the last pointer to a node. -/
def depoint (id : Nat) : BProg Unit := Prog.perform (Op.depoint id)

namespace Node

variable {K V : Type}

/-- `pivots.size() + elements.size()`. -/
def size (n : Node K V) : Nat := n.pivots.length + n.elements.length

/-- `is_leaf()`. -/
def isLeaf (n : Node K V) : Bool := n.pivots.isEmpty

/-- The identifiers of the children. -/
def children (n : Node K V) : List Nat := n.pivots.map (fun e => e.2.child.id)

/-- `ss->allocate(new node)`. -/
def allocate : BProg (Node K V) := do
  let id ← (Prog.perform Op.allocate : BProg Nat)
  return ⟨id, [], []⟩

/-- What an access finds: the node, or what reading it back gives. Reading asserts that it can. -/
def found (bet : Params K V) (loaded : Bool) (n : Node K V) : BProg (Node K V) :=
  if loaded then
    match bet.reload n with
    | some n => return n
    | none => Prog.stop .environment
  else return n

/-- `p->…`: the node is pinned and accessed, used, and unpinned. -/
def deref {α : Type} (bet : Params K V) (dirty : Bool) (n : Node K V)
    (body : Node K V → BProg (Node K V × α)) : BProg (Node K V × α) := do
  pin n.id
  let loaded ← access n.id dirty n.size n.children
  let (n, a) ← body (← n.found bet loaded)
  unpin n.id n.children
  return (n, a)

/-- `p->pivots.size() + p->elements.size()`: the first pin is held over the second access. -/
def derefSize (bet : Params K V) (n : Node K V) : BProg (Node K V × Nat) :=
  n.deref bet true fun n => n.deref bet true fun n => return (n, n.size)

section Lookup

variable [LT K] [DecidableLT K] [BEq K]

/--
`get_pivot`: the entry whose child is responsible for `k`.

`it == mp.begin() && k < it->first` throws; otherwise the iterator is moved back
by one unless it stands on `k` itself.
-/
def getPivot {C : Type} (mp : List (K × C)) (k : K) : Except Fault (OrdMap.Cursor K C) :=
  if mp.isEmpty then .error (.assertion .pivotsNonempty)
  else
    let back : Except Fault (OrdMap.Cursor K C) :=
      match OrdMap.Cursor.ofLast (OrdMap.front mp k) (OrdMap.lowerBound mp k) with
      | some c => .ok c
      | none => .error .outOfRange
    match OrdMap.lowerBound mp k with
    | [] => back
    | e :: rest => if k < e.1 then back else .ok ⟨OrdMap.front mp k, e.1, e.2, rest⟩

/-- `get_element_begin(k)`. -/
def getElementBegin (elements : MessageMap K V) (k : K) : MessageMap K V :=
  OrdMap.lowerBound elements (MessageKey.rangeStart k)

/-- `get_element_begin(it)` for the pivot under key `k`; `none` is `pivots.end()`. -/
def getElementBeginAt (elements : MessageMap K V) : Option K → MessageMap K V
  | none => []
  | some k => getElementBegin elements k

end Lookup

section Apply

variable [LT K] [DecidableLT K] [BEq K]

/-- Drop every message of a key. -/
def eraseKey (elements : MessageMap K V) (k : K) : MessageMap K V :=
  OrdMap.eraseBetween elements (MessageKey.rangeStart k) (MessageKey.rangeEnd k)

/-- `apply` of an `INSERT`. -/
def applyInsert (n : Node K V) (mkey : MessageKey K) (v : V) : Node K V :=
  { n with elements := OrdMap.assign (eraseKey n.elements mkey.key) mkey ⟨.insert, v⟩ }

/--
The entry an `UPDATE` looks at: the one before `upper_bound(range_end)`, or
`begin()` when there is none before it.
-/
def updateEntry (elements : MessageMap K V) (k : K) : Option (MessageKey K × Message V) :=
  match (OrdMap.upTo elements (MessageKey.rangeEnd k)).getLast? with
  | some e => some e
  | none => elements.head?

/-- `apply` of an `UPDATE` of a key the node holds no message of. -/
def applyAbsent [Add V] (n : Node K V) (mkey : MessageKey K) (elt : Message V)
    (defaultValue : V) : Node K V :=
  if n.isLeaf then n.applyInsert mkey (defaultValue + elt.val)
  else { n with elements := OrdMap.assign n.elements mkey elt }

/-- `apply`: apply a message to ourself. -/
def apply [Add V] (n : Node K V) (mkey : MessageKey K) (elt : Message V) (defaultValue : V) :
    Node K V :=
  match elt.opcode with
  | .insert => n.applyInsert mkey elt.val
  | .delete =>
    let elements := eraseKey n.elements mkey.key
    { n with elements := if n.isLeaf then elements else OrdMap.assign elements mkey elt }
  | .update =>
    match updateEntry n.elements mkey.key with
    | some e =>
      if e.1.key == mkey.key then
        match e.2.opcode with
        | .insert => n.applyInsert mkey (e.2.val + elt.val)
        | _ => { n with elements := OrdMap.assign n.elements mkey elt }
      else n.applyAbsent mkey elt defaultValue
    | none => n.applyAbsent mkey elt defaultValue

/-- Apply a batch in order. -/
def applyAll [Add V] (n : Node K V) (elts : MessageMap K V) (defaultValue : V) : Node K V :=
  elts.foldl (fun n e => n.apply e.1 e.2 defaultValue) n

end Apply

/-! ## The whole subtree -/

mutual

/-- The node and every node below it. -/
def nodes : Node K V → List (Node K V)
  | ⟨id, pivots, elements⟩ => ⟨id, pivots, elements⟩ :: nodesPivots pivots

/-- The nodes under a pivot map. -/
def nodesPivots : List (K × ChildInfo (Node K V)) → List (Node K V)
  | [] => []
  | e :: rest => nodesEntry e ++ nodesPivots rest

/-- The nodes under an entry. -/
def nodesEntry : K × ChildInfo (Node K V) → List (Node K V)
  | (_, c) => nodesChild c

/-- The nodes under a child. -/
def nodesChild : ChildInfo (Node K V) → List (Node K V)
  | ⟨n, _⟩ => nodes n

end

/-- Every message stored in the subtree. -/
def messages (n : Node K V) : MessageMap K V := n.nodes.flatMap (fun m => m.elements)

mutual

/-- The number of levels below a node. -/
def height : Node K V → Nat
  | ⟨_, pivots, _⟩ => heightPivots pivots

/-- One more than the largest height in a pivot map, and 0 without pivots. -/
def heightPivots : List (K × ChildInfo (Node K V)) → Nat
  | [] => 0
  | e :: rest => max (heightEntry e + 1) (heightPivots rest)

/-- The height of an entry's child. -/
def heightEntry : K × ChildInfo (Node K V) → Nat
  | (_, c) => heightChild c

/-- The height of a child. -/
def heightChild : ChildInfo (Node K V) → Nat
  | ⟨n, _⟩ => height n

end

end Node

end BeTree
