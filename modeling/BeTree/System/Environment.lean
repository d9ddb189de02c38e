import BeTree.Swap.SwapSpace
import BeTree.Tree.Betree

/-!
# The tree over the swap space

The swap space as the environment of the tree. The nodes of the tree carry their
own entries, so an object in the swap space only has to hold the pointers of its
node; they are written when the pin of the node is removed, and until then the
object cannot be evicted. A pointer that the tree copies and destroys within one
step is not copied here.

Two histories are kept beside it, which nothing reads.
-/

namespace BeTree

/-- The objects of the tree have no data beside their pointers. -/
def pointerCodec : Codec Unit (Payload Unit) := ⟨id, id, fun _ => rfl⟩

/-- The swap space, and what has happened so far. -/
structure Environment where
  ss : SwapSpace Unit (Payload Unit)
  /-- An object has been accessed for writing that was clean and pointed to a dirty one. -/
  cleanOverDirty : Bool
  /-- A node with entries has been read back from disk. -/
  reloaded : Bool

namespace Environment

/-- An empty swap space for `n` objects in memory. -/
def create (n : Nat) : Environment := ⟨SwapSpace.create n, false, false⟩

/-- Whether an object is dirty. -/
def dirty (e : Environment) (id : Nat) : Bool :=
  match e.ss.isDirty id with
  | .ok b => b
  | .error _ => false

/-- Whether an object is in memory. -/
def inMemory (e : Environment) (id : Nat) : Bool :=
  match e.ss.isInMemory id with
  | .ok b => b
  | .error _ => false

/-- Answer with the result of an operation of the swap space. -/
def answer {α : Type} (e : Environment) (r : Except SwapFault α) (f : α → Environment) :
    Except Fault α × Environment :=
  match r with
  | .ok a => (.ok a, f a)
  | .error _ => (.error .environment, e)

/-- An operation that changes the swap space. -/
def update (e : Environment) (r : Except SwapFault (SwapSpace Unit (Payload Unit))) :
    Except Fault Unit × Environment :=
  match r with
  | .ok ss => (.ok (), { e with ss := ss })
  | .error _ => (.error .environment, e)

/-- `pin::access`, which answers whether the node was loaded. -/
def access (e : Environment) (id : Nat) (dirty : Bool) (size : Nat) (children : List Nat) :
    Except Fault Bool × Environment :=
  match e.ss.access pointerCodec id dirty with
  | .ok ss =>
    -- `e`, not `ss`: what the object was before the access
    let loaded := !e.inMemory id
    (.ok loaded, {
      ss := ss
      cleanOverDirty := e.cleanOverDirty || (dirty && !e.dirty id && children.any e.dirty)
      reloaded := e.reloaded || (loaded && decide (0 < size)) })
  | .error _ => (.error .environment, e)

/-- `pin::unpin`, of a node that now holds the given pointers. -/
def unpin (e : Environment) (id : Nat) (children : List Nat) : Except Fault Unit × Environment :=
  e.update (do
    let ss ← e.ss.store id ⟨(), children⟩
    ss.unpin pointerCodec id)

/-- The swap space as a handler. -/
def handler : Prog.Handler Op Op.Ans Fault Environment
  | .allocate, e =>
    match e.ss.allocate pointerCodec ⟨(), []⟩ with
    | .ok (id, ss) => (.ok id, { e with ss := ss })
    | .error _ => (.error .environment, e)
  | .pin id, e => e.update (e.ss.doPin id)
  | .access id dirty size children, e => e.access id dirty size children
  | .unpin id children, e => e.unpin id children
  | .depoint id, e => e.update (e.ss.release pointerCodec id)
  | .isDirty id, e => e.answer (e.ss.isDirty id) (fun _ => e)
  | .isInMemory id, e => e.answer (e.ss.isInMemory id) (fun _ => e)
  | .evictAll, e => e.update (e.ss.evictAll pointerCodec)

/-! ## What an answered operation did -/

variable {e e' : Environment}

theorem update_eq {r : Except SwapFault (SwapSpace Unit (Payload Unit))} {u : Unit}
    (h : e.update r = (.ok u, e')) : ∃ ss, r = .ok ss ∧ e' = { e with ss := ss } := by
  unfold update at h
  cases r with
  | error _ => exact absurd (congrArg Prod.fst h) (by simp)
  | ok ss => exact ⟨ss, rfl, (congrArg Prod.snd h).symm⟩

theorem answer_eq {α : Type} {r : Except SwapFault α} {a : α} {f : α → Environment}
    (h : e.answer r f = (.ok a, e')) : r = .ok a ∧ e' = f a := by
  unfold answer at h
  cases r with
  | error _ => exact absurd (congrArg Prod.fst h) (by simp)
  | ok b =>
      obtain ⟨hb, he⟩ := Prod.mk.inj h
      injection hb with hb
      subst hb
      exact ⟨rfl, he.symm⟩

theorem allocate_eq {id : Nat} (h : handler .allocate e = (.ok id, e')) :
    ∃ ss, e.ss.allocate pointerCodec ⟨(), []⟩ = .ok (id, ss) ∧ e' = { e with ss := ss } := by
  unfold handler at h
  dsimp only at h
  split at h
  · rename_i id' ss hss
    obtain ⟨hid, he⟩ := Prod.mk.inj h
    injection hid with hid
    subst hid
    exact ⟨ss, hss, he.symm⟩
  · exact absurd (congrArg Prod.fst h) (by simp)

theorem access_eq {id size : Nat} {dirty loaded : Bool} {children : List Nat}
    (h : e.access id dirty size children = (.ok loaded, e')) :
    ∃ ss, e.ss.access pointerCodec id dirty = .ok ss ∧ loaded = !e.inMemory id
      ∧ e' = ⟨ss, e.cleanOverDirty || (dirty && !e.dirty id && children.any e.dirty),
        e.reloaded || (loaded && decide (0 < size))⟩ := by
  unfold access at h
  split at h
  · rename_i ss hss
    obtain ⟨hl, he⟩ := Prod.mk.inj h
    injection hl with hl
    subst hl
    exact ⟨ss, hss, rfl, he.symm⟩
  · exact absurd (congrArg Prod.fst h) (by simp)

end Environment

section Runs

variable {K V : Type} [LT K] [DecidableLT K] [BEq K] [Add V] [BEq V] [Inhabited K] [Inhabited V]

/-- A sequence of operations on a fresh tree. -/
def session (bet : Params K V) (cs : List (Cmd K V)) : BProg (Betree K V × List (Reply K V)) := do
  let t ← Betree.create
  t.execAll bet cs

/-- The session over a swap space for `n` objects in memory. -/
def runSession (bet : Params K V) (n : Nat) (cs : List (Cmd K V)) :
    Except Fault (Betree K V × List (Reply K V)) × Environment :=
  (session bet cs).run Environment.handler (Environment.create n)

/-- What the session asks of the swap space, with the state after each operation. -/
def traceSession (bet : Params K V) (n : Nat) (cs : List (Cmd K V)) : List (Op × Environment) :=
  (session bet cs).trace Environment.handler (Environment.create n)

end Runs

end BeTree
