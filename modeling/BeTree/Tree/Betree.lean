import BeTree.Tree.Flush
import BeTree.Tree.Read

/-!
# The betree

The root, the clock, the public operations, and the iterator. `query` is called
on a root that is not `const`, so it accesses the root as a writer would; the
iterator holds the tree as `const`.
-/

namespace BeTree

/-- The fields of `betree` that change. -/
structure Betree (K V : Type) where
  root : Node K V
  nextTimestamp : Nat

/-- The upserts of the public interface. -/
inductive Upsert (K V : Type) where
  | insert (k : K) (v : V)
  | update (k : K) (v : V)
  | erase (k : K)
deriving DecidableEq, Repr

/-- Where a scan starts: `begin()`, `lower_bound(k)` or `upper_bound(k)`. -/
inductive Start (K : Type) where
  | first
  | lowerBound (k : K)
  | upperBound (k : K)
deriving DecidableEq, Repr

/-- `betree::iterator`, without the reference to the tree. -/
structure Iterator (K V : Type) where
  position : MessageKey K × Message V
  isValid : Bool
  posIsValid : Bool
  first : K
  second : V

namespace Betree

variable {K V : Type} [LT K] [DecidableLT K] [BEq K]

/-- The constructor. -/
def create : BProg (Betree K V) := do
  let root ← Node.allocate
  return ⟨root, 1⟩

section Operations

variable [Add V]

/-- `root = ss->allocate(new node); root->pivots = new_nodes`. -/
def growRoot (bet : Params K V) (root : Node K V) (newNodes : PivotMap K V) :
    BProg (Node K V) := do
  let n ← Node.allocate
  depoint root.id
  let (n, _) ← n.deref bet true fun n => return ({ n with pivots := newNodes }, ())
  return n

/-- Insert the specified message and handle a split of the root if it occurs. -/
def upsert (bet : Params K V) (t : Betree K V) (opcode : Opcode) (k : K) (v : V) :
    BProg (Betree K V) := do
  let tmp : MessageMap K V := [(⟨k, t.nextTimestamp⟩, ⟨opcode, v⟩)]
  let nextTimestamp := (t.nextTimestamp + 1) % 2 ^ 64
  let (root, newNodes) ← t.root.deref bet true
    fun n => n.flush bet (t.root.height + 1) tmp
  if newNodes.isEmpty then return ⟨root, nextTimestamp⟩
  else return ⟨← growRoot bet root newNodes, nextTimestamp⟩

/-- `insert`, `update` and `erase`. -/
def apply (bet : Params K V) (t : Betree K V) : Upsert K V → BProg (Betree K V)
  | .insert k v => t.upsert bet .insert k v
  | .update k v => t.upsert bet .update k v
  | .erase k => t.upsert bet .delete k bet.defaultValue

/-- A sequence of upserts. -/
def applyAll (bet : Params K V) : Betree K V → List (Upsert K V) → BProg (Betree K V)
  | t, [] => return t
  | t, u :: us => do
    let t ← t.apply bet u
    applyAll bet t us

/-- `query`; `none` is `std::out_of_range`. -/
def query (bet : Params K V) (t : Betree K V) (k : K) : BProg (Betree K V × Option V) := do
  let (root, r) ← t.root.deref bet true fun n => n.query bet (t.root.height + 1) k
  return ({ t with root := root }, r)

end Operations

/-- `root->get_next_message(mkey)` on a `const` tree. -/
def getNextMessage (bet : Params K V) (t : Betree K V) (mkey : Option (MessageKey K)) :
    BProg (Betree K V × Option (MessageKey K × Message V)) := do
  let (root, r) ← t.root.deref bet false
    fun n => n.getNextMessage bet (t.root.height + 1) mkey
  return ({ t with root := root }, r)

/-- The loop of `dump_messages`, which ends when there is no next message. -/
def dumpLoop (bet : Params K V) : Nat → Betree K V → Option (MessageKey K) →
    BProg (Betree K V × MessageMap K V)
  | 0, _, _ => Prog.stop .fuel
  | fuel + 1, t, mkey => do
    let (root, r) ← t.root.deref bet true
      fun n => n.getNextMessage bet (t.root.height + 1) mkey
    let t := { t with root := root }
    match r with
    | none => return (t, [])
    | some current =>
      let (t, rest) ← dumpLoop bet fuel t (some current.1)
      return (t, current :: rest)

/-- `dump_messages`: the messages it prints. Its `root` is not `const`. -/
def dumpMessages (bet : Params K V) (t : Betree K V) : BProg (Betree K V × MessageMap K V) :=
  dumpLoop bet (t.root.messages.length + 1) t none

end Betree

namespace Iterator

variable {K V : Type} [LT K] [DecidableLT K] [BEq K]

/-- `end()`, and the state every iterator starts from. -/
def finish [Inhabited K] [Inhabited V] : Iterator K V :=
  ⟨(⟨default, 0⟩, ⟨.insert, default⟩), false, false, default, default⟩

/-- `iterator::apply`. -/
def apply [Add V] (bet : Params K V) (it : Iterator K V) (msgkey : MessageKey K)
    (msg : Message V) : Iterator K V :=
  match msg.opcode with
  | .insert => { it with first := msgkey.key, second := msg.val, isValid := true }
  | .update =>
    let second := if it.isValid then it.second else bet.defaultValue
    { it with first := msgkey.key, second := second + msg.val, isValid := true }
  | .delete => { it with isValid := false }

/-- The loop of `setup_next_element`. -/
def setupLoop [Add V] (bet : Params K V) : Nat → Betree K V → Iterator K V →
    BProg (Betree K V × Iterator K V)
  | 0, _, _ => Prog.stop .fuel
  | fuel + 1, t, it =>
    if it.posIsValid && (!it.isValid || it.position.1.key == it.first) then do
      let it := it.apply bet it.position.1 it.position.2
      match ← t.getNextMessage bet (some it.position.1) with
      | (t, some m) => setupLoop bet fuel t { it with position := m }
      | (t, none) => setupLoop bet fuel t { it with posIsValid := false }
    else return (t, it)

/-- `setup_next_element`; every round but the last takes a message of the tree. -/
def setupNextElement [Add V] (bet : Params K V) (t : Betree K V) (it : Iterator K V) :
    BProg (Betree K V × Iterator K V) :=
  setupLoop bet (t.root.messages.length + 2) t { it with isValid := false }

/-- The constructor that positions the iterator. -/
def start [Add V] [Inhabited K] [Inhabited V] (bet : Params K V) (t : Betree K V)
    (mkey : Option (MessageKey K)) : BProg (Betree K V × Iterator K V) := do
  match ← t.getNextMessage bet mkey with
  | (t, some m) => setupNextElement bet t { finish with position := m, posIsValid := true }
  | (t, none) => return (t, finish)

/-- `begin()`, `lower_bound(k)` and `upper_bound(k)`. -/
def startAt [Add V] [Inhabited K] [Inhabited V] (bet : Params K V) (t : Betree K V) :
    Start K → BProg (Betree K V × Iterator K V)
  | .first => start bet t none
  | .lowerBound k => start bet t (some (MessageKey.rangeStart k))
  | .upperBound k => start bet t (some (MessageKey.rangeEnd k))

/-- `operator==`, for two iterators of one tree. -/
def equal [BEq V] (a b : Iterator K V) : Bool :=
  a.isValid == b.isValid && a.posIsValid == b.posIsValid
    && (!a.posIsValid || (a.position.1 == b.position.1 && a.position.2 == b.position.2))
    && (!a.isValid || (a.first == b.first && a.second == b.second))

/-- `for (; it != end(); ++it)`, collecting the entries. -/
def scanLoop [Add V] [BEq V] [Inhabited K] [Inhabited V] (bet : Params K V) :
    Nat → Betree K V → Iterator K V → BProg (Betree K V × List (K × V))
  | 0, _, _ => Prog.stop .fuel
  | fuel + 1, t, it =>
    if it.equal finish then return (t, [])
    else do
      let (t, next) ← setupNextElement bet t it
      let (t, rest) ← scanLoop bet fuel t next
      return (t, (it.first, it.second) :: rest)

/-- A scan from `start` to `end()`. -/
def scan [Add V] [BEq V] [Inhabited K] [Inhabited V] (bet : Params K V) (t : Betree K V)
    (start : Start K) : BProg (Betree K V × List (K × V)) := do
  let (t, it) ← startAt bet t start
  scanLoop bet (t.root.messages.length + 2) t it

end Iterator

/-! ## Sequences of operations -/

/-- An operation of a client. -/
inductive Cmd (K V : Type) where
  | upsert (u : Upsert K V)
  | query (k : K)
  | scan (start : Start K)
  | evictAll
deriving DecidableEq, Repr

/-- What an operation answers. -/
inductive Reply (K V : Type) where
  | done
  | value (v : Option V)
  | entries (es : List (K × V))
deriving DecidableEq, Repr

namespace Betree

variable {K V : Type} [LT K] [DecidableLT K] [BEq K] [Add V] [BEq V] [Inhabited K] [Inhabited V]

/-- Perform one operation. -/
def exec (bet : Params K V) (t : Betree K V) : Cmd K V → BProg (Betree K V × Reply K V)
  | .upsert u => do
    let t ← t.apply bet u
    return (t, .done)
  | .query k => do
    let (t, v) ← t.query bet k
    return (t, .value v)
  | .scan start => do
    let (t, es) ← Iterator.scan bet t start
    return (t, .entries es)
  | .evictAll => do
    BeTree.evictAll
    return (t, .done)

/-- Perform a sequence of operations. -/
def execAll (bet : Params K V) : Betree K V → List (Cmd K V) →
    BProg (Betree K V × List (Reply K V))
  | t, [] => return (t, [])
  | t, c :: cs => do
    let (t, r) ← t.exec bet c
    let (t, rs) ← execAll bet t cs
    return (t, r :: rs)

end Betree

/-! ## Running without a swap space -/

/-- The answers of a cache that writes everything back at once. -/
def neverDirty : Prog.Handler Op Op.Ans Fault Nat
  | .allocate, next => (.ok next, next + 1)
  | .pin _, next => (.ok (), next)
  | .access _ _ _ _, next => (.ok false, next)
  | .unpin _ _, next => (.ok (), next)
  | .depoint _, next => (.ok (), next)
  | .isDirty _, next => (.ok false, next)
  | .isInMemory _, next => (.ok false, next)
  | .evictAll, next => (.ok (), next)

/-- The fault that a run stopped with, if it did. -/
def stoppedWith {α σ : Type} (r : Except Fault α × σ) : Option Fault :=
  match r.1 with
  | .ok _ => none
  | .error e => some e

/-! ## The reference map -/

namespace Reference

variable {K V : Type} [LT K] [DecidableLT K] [Add V]

/-- The same upsert on a `std::map`, where an update of a missing key starts from the default. -/
def apply (defaultValue : V) (m : List (K × V)) : Upsert K V → List (K × V)
  | .insert k v => OrdMap.assign m k v
  | .update k v => OrdMap.assign m k ((OrdMap.lookup m k).getD defaultValue + v)
  | .erase k => OrdMap.erase m k

/-- The map after a sequence of upserts. -/
def applyAll (defaultValue : V) (m : List (K × V)) (us : List (Upsert K V)) : List (K × V) :=
  us.foldl (apply defaultValue) m

/-- The entries a scan is to yield. -/
def scan (m : List (K × V)) : Start K → List (K × V)
  | .first => m
  | .lowerBound k => m.filter (fun e => !decide (e.1 < k))
  | .upperBound k => m.filter (fun e => decide (k < e.1))

/-- The map after an operation, and what is to be answered. -/
def exec (defaultValue : V) (m : List (K × V)) : Cmd K V → List (K × V) × Reply K V
  | .upsert u => (apply defaultValue m u, .done)
  | .query k => (m, .value (OrdMap.lookup m k))
  | .scan start => (m, .entries (scan m start))
  | .evictAll => (m, .done)

/-- What is to be answered to a sequence of operations. -/
def execAll (defaultValue : V) : List (K × V) → List (Cmd K V) → List (Reply K V)
  | _, [] => []
  | m, c :: cs =>
    let (m, r) := exec defaultValue m c
    r :: execAll defaultValue m cs

end Reference

end BeTree
