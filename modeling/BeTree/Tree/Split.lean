import BeTree.Tree.Node

/-!
# Splitting a node

`split` distributes the pivots and elements of a node over new nodes. It walks
both maps with one iterator each. A pivot is moved together with the messages
that go to its child, so a step can move past several of the cumulative targets
`(i + 1) * things_per_new_leaf`; the new nodes created for the targets in between
are empty, and the entry the next one gets in `result` has the same key.

`num_new_leaves`, `things_per_new_leaf` and their products are `int`s. A value
that does not fit is a fault.
-/

namespace BeTree.Node

variable {K V : Type} [LT K] [DecidableLT K] [BEq K]

/-- `new_node->pivots[e.first] = e.second`. -/
def putPivot (bet : Params K V) (n : Node K V) (e : K × ChildInfo (Node K V)) :
    BProg (Node K V) := do
  let (n, _) ← n.deref bet true fun n =>
    return ({ n with pivots := OrdMap.assign n.pivots e.1 e.2 }, ())
  return n

/-- `new_node->elements[e.first] = e.second`. -/
def putElement (bet : Params K V) (n : Node K V) (e : MessageKey K × Message V) :
    BProg (Node K V) := do
  let (n, _) ← n.deref bet true fun n =>
    return ({ n with elements := OrdMap.assign n.elements e.1 e.2 }, ())
  return n

/-- The inner loop: move elements up to `elt_end`. -/
def putElements (bet : Params K V) : MessageMap K V → Node K V → BProg (Node K V)
  | [], n => return n
  | e :: es, n => do
    let n ← n.putElement bet e
    putElements bet es n

/-- Where the loops of `split` stand. -/
structure SplitState (K V : Type) where
  pivotIdx : PivotMap K V
  eltIdx : MessageMap K V
  thingsMoved : Nat

/-- The `while` loop of `split` once the pivots are used up. -/
def fillElements (bet : Params K V) (leaf : Bool) (target : Nat) :
    MessageMap K V → Nat → Node K V → BProg (SplitState K V × Node K V)
  | [], moved, n => return (⟨[], [], moved⟩, n)
  | e :: es, moved, n =>
    if moved < target then do
      Prog.require leaf (.assertion .splitMustBeLeaf)
      let n ← n.putElement bet e
      fillElements bet leaf target es (moved + 1) n
    else return (⟨[], e :: es, moved⟩, n)

/-- The `while` loop of `split`: fill one new node up to the target. -/
def fill (bet : Params K V) (this : Node K V) (target : Nat) :
    PivotMap K V → MessageMap K V → Nat → Node K V → BProg (SplitState K V × Node K V)
  | [], elts, moved, n => fillElements bet this.isLeaf target elts moved n
  | e :: ps, elts, moved, n =>
    if moved < target then do
      let n ← n.putPivot bet e
      let eltEnd := getElementBeginAt this.elements (ps.head?.map Prod.fst)
      -- all messages of the pivot go along, whatever room the target leaves
      let batch := OrdMap.range elts eltEnd
      let n ← putElements bet batch n
      fill bet this target ps (elts.drop batch.length) (moved + 1 + batch.length) n
    else return (⟨e :: ps, elts, moved⟩, n)

/-- The key of the next new node; `none` when everything has been moved. -/
def splitKey (st : SplitState K V) : Option K :=
  match st.pivotIdx with
  | e :: _ => some e.1
  | [] => st.eltIdx.head?.map (fun e => e.1.key)

/-- `result[key] = child_info(new_node, …)`: an empty node left there before is released. -/
def enterResult (bet : Params K V) (result : PivotMap K V) (key : K) (n : Node K V) :
    BProg (Node K V × Nat) :=
  n.deref bet true fun n => n.deref bet true fun n => do
    match OrdMap.find result key with
    | some old => depoint old.2.child.id
    | none => pure ()
    return (n, n.size)

/-- The `for` loop of `split`, with the iterations left and the index of the next. -/
def splitLoop (bet : Params K V) (this : Node K V) (things : Nat) :
    Nat → Nat → SplitState K V → PivotMap K V → BProg (SplitState K V × PivotMap K V)
  | 0, _, st, result => return (st, result)
  | left + 1, i, st, result =>
    match splitKey st with
    | none => return (st, result)
    | some key => do
      let n ← allocate
      let (n, size) ← enterResult bet result key n
      let (st, n) ← fill bet this ((i + 1) * things) st.pivotIdx st.eltIdx st.thingsMoved n
      splitLoop bet this things left (i + 1) st (OrdMap.assign result key ⟨n, size⟩)

/-- The closing loop: record the size of every child. -/
def refreshSizes (bet : Params K V) : PivotMap K V → BProg (PivotMap K V)
  | [] => return []
  | e :: es => do
    let (child, size) ← e.2.child.derefSize bet
    let es ← refreshSizes bet es
    return (e.1, ⟨child, size⟩) :: es

/-- A value stored in an `int`. -/
def toInt {O : Type} {A : O → Type} (size v : Nat) : Prog O A Fault Nat :=
  if v < 2 ^ 31 then return v else Prog.stop (.intOverflow size)

/-- The divisor of `num_new_leaves`, computed in 64 bits. -/
def leafQuota (maxNodeSize : Nat) : Nat := 10 * maxNodeSize % 2 ^ 64 / 24

/--
`num_new_leaves` and `things_per_new_leaf`. The largest target of the loop is
their product, which is computed as an `int` as well.
-/
def splitCounts {O : Type} {A : O → Type} (bet : Params K V) (size : Nat) :
    Prog O A Fault (Nat × Nat) := do
  if leafQuota bet.maxNodeSize = 0 then Prog.stop (.divideByZero size)
  let numNewLeaves ← toInt size (size / leafQuota bet.maxNodeSize)
  if numNewLeaves = 0 then Prog.stop (.divideByZero size)
  let thingsPerNewLeaf ← toInt size ((size + numNewLeaves - 1) / numNewLeaves)
  let _ ← toInt size (numNewLeaves * thingsPerNewLeaf)
  return (numNewLeaves, thingsPerNewLeaf)

/-- `split`: the emptied node, and the new nodes under their keys. -/
def split (bet : Params K V) (this : Node K V) : BProg (Node K V × PivotMap K V) := do
  Prog.require (decide (bet.maxNodeSize ≤ this.size)) (.assertion .splitSize)
  let (numNewLeaves, thingsPerNewLeaf) ← splitCounts bet this.size
  let (st, result) ← splitLoop bet this thingsPerNewLeaf numNewLeaves 0
    ⟨this.pivots, this.elements, 0⟩ []
  let result ← refreshSizes bet result
  Prog.require st.pivotIdx.isEmpty (.assertion .splitPivotsMoved)
  Prog.require st.eltIdx.isEmpty (.assertion .splitElementsMoved)
  return ({ this with pivots := [], elements := [] }, result)

end BeTree.Node
