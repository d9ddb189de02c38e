import BeTree.Tree.Node

/-!
# Merging children

`merge_small_children` walks along the pivots and replaces a run of consecutive children by
one new node. How far a run goes is decided by `total_size`: for every child it takes, the
inner loop adds the size of the run's first child.

`flush` does not call it.
-/

namespace BeTree.Node

variable {K V : Type} [LT K] [DecidableLT K] [BEq K]

/-- `6 * bet.max_node_size / 10`, computed in 64 bits. -/
def mergeLimit (maxNodeSize : Nat) : Nat := 6 * maxNodeSize % 2 ^ 64 / 10

/-- The inner loop: the children from `beginit` to `endit`, and the rest. -/
def mergeRun (limit firstSize : Nat) : PivotMap K V → Nat → PivotMap K V × PivotMap K V
  | [], _ => ([], [])
  | e :: rest, totalSize =>
    -- the size added is that of `beginit`, not of the child reached
    if limit < (totalSize + firstSize) % 2 ^ 64 then ([], e :: rest)
    else
      let (run, left) := mergeRun limit firstSize rest ((totalSize + firstSize) % 2 ^ 64)
      (e :: run, left)

/-- One round of `merge`. -/
def mergeChild (bet : Params K V) (n child : Node K V) : BProg (Node K V × Node K V) := do
  let (n, child) ← n.deref bet true fun n => do
    let (child, elements) ← child.deref bet true fun c => c.deref bet true fun c =>
      return (c, c.elements)
    return ({ n with elements := OrdMap.insertAll n.elements elements }, child)
  n.deref bet true fun n => do
    let (child, pivots) ← child.deref bet true fun c => c.deref bet true fun c =>
      return (c, c.pivots)
    return ({ n with pivots := OrdMap.insertAll n.pivots pivots }, child)

/-- The loop of `merge`: the new node, and the children that were read. -/
def mergeChildren (bet : Params K V) :
    PivotMap K V → Node K V → BProg (Node K V × PivotMap K V)
  | [], n => return (n, [])
  | e :: es, n => do
    let (n, child) ← mergeChild bet n e.2.child
    let (n, es) ← mergeChildren bet es n
    return (n, (e.1, { e.2 with child := child }) :: es)

/-- `merge`. -/
def merge (bet : Params K V) (run : PivotMap K V) : BProg (Node K V × PivotMap K V) := do
  let n ← allocate
  mergeChildren bet run n

/-- `elements.clear()` and `pivots.clear()` of the children that were merged. -/
def clearChildren (bet : Params K V) : PivotMap K V → BProg Unit
  | [] => return ()
  | e :: es => do
    let (child, _) ← e.2.child.deref bet true fun c => return ({ c with elements := [] }, ())
    let _ ← child.deref bet true fun c => return ({ c with pivots := [] }, ())
    clearChildren bet es

/-- `pivots.erase(beginit, endit)` releases the children. -/
def releaseChildren : PivotMap K V → BProg Unit
  | [] => return ()
  | e :: es => do
    depoint e.2.child.id
    releaseChildren es

/-- The loop of `merge_small_children`, with the pivots before and from `beginit` on. -/
def mergeLoop (bet : Params K V) : Nat → PivotMap K V → PivotMap K V → BProg (PivotMap K V)
  | _, front, [] => return front
  | 0, _, _ :: _ => Prog.stop .fuel
  | fuel + 1, front, e :: rest =>
    match mergeRun (mergeLimit bet.maxNodeSize) e.2.childSize (e :: rest) 0 with
    | ([], _) => mergeLoop bet fuel (front ++ [e]) rest
    | (run, left) => do
      let (merged, run) ← merge bet run
      clearChildren bet run
      releaseChildren run
      let (merged, size) ← merged.derefSize bet
      let pivots := OrdMap.assign (front ++ left) e.1 ⟨merged, size⟩
      -- the loop goes on behind the merged child
      let beginit := OrdMap.lowerBound pivots e.1
      mergeLoop bet fuel (OrdMap.front pivots e.1 ++ beginit.take 1) (beginit.drop 1)

/-- `merge_small_children`. -/
def mergeSmallChildren (bet : Params K V) (n : Node K V) : BProg (Node K V) :=
  if n.isLeaf then return n
  else do
    let pivots ← mergeLoop bet n.pivots.length [] n.pivots
    return { n with pivots := pivots }

end BeTree.Node
