import BeTree.Lib.Checked
import BeTree.Lib.Dict

/-!
# The swap space

`swap_space` keeps a table of objects, counts the pointers to each of them, and
moves the least recently used ones that are not pinned to a backing store when
too many are in memory. An object is swapped out by serializing it, which zeroes
the pointers in it; the references they stood for live on in the image on disk.

Ids, access times and the names of files are of type `uint64_t`. The members that count
them up are kept as the numbers they would be without wrapping around, and `uint64` gives
what the code reads. `current_in_memory_objects` is a `uint64_t` itself. A `refcount` or
`pincount` is a natural number: it is at most the number of pointers or pins there are.
-/

namespace BeTree

open Checked

/-- What an object holds: data of its own, and the targets of the pointers in it. -/
structure Payload (D : Type) where
  data : D
  ptrs : List Nat
deriving DecidableEq, Repr

/-- The content after its pointers have been zeroed. -/
def Payload.zeroed {D : Type} (p : Payload D) : Payload D :=
  { p with ptrs := p.ptrs.map (fun _ => 0) }

/-- `_serialize` and `_deserialize` of the objects, with pointers written by id. -/
structure Codec (D B : Type) where
  serialize : Payload D → B
  deserialize : B → Payload D
  deserialize_serialize : ∀ p, deserialize (serialize p) = p

/-- The ways an operation can stop. -/
inductive SwapFault where
  /-- `assert(objects.count(target) > 0)`. -/
  | missingObject
  /-- `assert(objects.count(target) == 0)` for a new object. -/
  | idTaken
  /-- `depoint`: `assert(obj->refcount > 0)`. -/
  | zeroRefcount
  /-- `depoint`: `assert(obj->bsid > 0)`. -/
  | zeroBsid
  /-- `pointer::_serialize`: `assert(target > 0)`. -/
  | nullPointer
  /-- `backing_store`: there is no file of that name. -/
  | missingFile
  /-- A `NULL` target is used. -/
  | nullTarget
  /-- A pin is removed that was not there. -/
  | notPinned
  /-- The temporary pointer of a deserialization was the last one. -/
  | temporaryFreed
  /-- The bound on a loop or a recursion was too small. -/
  | fuel
  /-- The client names a variable, a pin or a pointer that is not there. -/
  | malformed
deriving DecidableEq, Repr

/-! ## Machine integers -/

/-- What a `uint64_t` holds that has been counted up to `n`. -/
def uint64 (n : Nat) : Nat := n % 2 ^ 64

theorem uint64_of_lt {n : Nat} (h : n < 2 ^ 64) : uint64 n = n := Nat.mod_eq_of_lt h

/-- `n++` on a `uint64_t`. -/
def uint64Inc (n : Nat) : Nat := if n = 2 ^ 64 - 1 then 0 else n + 1

/-- `n--` on a `uint64_t`. -/
def uint64Dec (n : Nat) : Nat := if n = 0 then 2 ^ 64 - 1 else n - 1

/-! ## The backing store -/

/-- `one_file_per_object_backing_store`. The member `nextid` is `uint64 nextid`. -/
structure BackingStore (B : Type) where
  nextid : Nat
  files : Dict Nat B

namespace BackingStore

variable {B : Type}

/-- A store without files. -/
def create : BackingStore B := ⟨1, Dict.empty⟩

/-- `allocate`, and the writing of the buffer that follows it. A file of that name is replaced. -/
def allocate (bs : BackingStore B) (buffer : B) : Nat × BackingStore B :=
  (uint64 bs.nextid, ⟨bs.nextid + 1, bs.files.set (uint64 bs.nextid) buffer⟩)

/-- `get`, and the reading of the file. -/
def get (bs : BackingStore B) (id : Nat) : Except SwapFault B := need .missingFile (bs.files.get? id)

/-- `deallocate`: unlink the file, which must be there. -/
def deallocate (bs : BackingStore B) (id : Nat) : Except SwapFault (BackingStore B) := do
  check (bs.files.get? id).isSome .missingFile
  return { bs with files := bs.files.erase id }

/-- `if (obj->bsid > 0) backstore->deallocate(obj->bsid)`. -/
def discard (bs : BackingStore B) (bsid : Nat) : Except SwapFault (BackingStore B) :=
  if 0 < bsid then bs.deallocate bsid else return bs

end BackingStore

/-! ## Objects -/

/-- `swap_space::object`, under its id. -/
structure Object (D : Type) where
  target : Option (Payload D)
  bsid : Nat
  isLeaf : Bool
  refcount : Nat
  lastAccess : Nat
  targetIsDirty : Bool
  pincount : Nat

/-- A call of the storage client. -/
inductive Request (B : Type) where
  | getNodeId
  | evictNode (nodeId : Nat) (buffer : B)
deriving DecidableEq, Repr

/--
`swap_space`. `lruPqueue` gives the object under each `last_access`. The members `next_id` and
`next_access_time` are `uint64 nextId` and `uint64 nextAccessTime`.
-/
structure SwapSpace (D B : Type) where
  nextId : Nat
  nextAccessTime : Nat
  maxInMemoryObjects : Nat
  currentInMemoryObjects : Nat
  objects : Dict Nat (Object D)
  lruPqueue : Dict Nat Nat
  backstore : BackingStore B
  /-- The calls of the storage client so far. -/
  requests : List (Request B)
  /-- The objects that have been evicted so far. Nothing reads this. -/
  evictions : List Nat
  /-- Whether `depoint` has freed an object that was not in memory. Nothing reads this. -/
  freedUnloaded : Bool

namespace SwapSpace

variable {D B : Type}

/-- The constructor, over an empty backing store. -/
def create (n : Nat) : SwapSpace D B :=
  ⟨1, 0, n, 0, Dict.empty, Dict.empty, BackingStore.create, [], [], false⟩

/-- `objects[id]`, which must be there. -/
def object (s : SwapSpace D B) (id : Nat) : Except SwapFault (Object D) :=
  need .missingObject (s.objects.get? id)

/-- Write an object. -/
def setObject (s : SwapSpace D B) (id : Nat) (o : Object D) : SwapSpace D B :=
  { s with objects := s.objects.set id o }

/-- `current_in_memory_objects++`. -/
def countUp (s : SwapSpace D B) : SwapSpace D B :=
  { s with currentInMemoryObjects := uint64Inc s.currentInMemoryObjects }

/-- `current_in_memory_objects--`. -/
def countDown (s : SwapSpace D B) : SwapSpace D B :=
  { s with currentInMemoryObjects := uint64Dec s.currentInMemoryObjects }

/-! ## Loading -/

/-- `assert(objects.count(target) > 0); objects[target]->refcount++`, unless the pointer is null. -/
def addRef (s : SwapSpace D B) (id : Nat) : Except SwapFault (SwapSpace D B) := do
  if id = 0 then return s
  else
    let o ← s.object id
    return s.setObject id { o with refcount := o.refcount + 1 }

/--
A pointer read back from disk: it is read into a temporary, copied into the map
entry, and the temporary is destroyed.
-/
def revive (s : SwapSpace D B) (id : Nat) : Except SwapFault (SwapSpace D B) := do
  let o ← s.object id
  let s := s.setObject id { o with refcount := o.refcount + 1 }
  let o ← s.object id
  check (decide (1 < o.refcount)) .temporaryFreed
  return s.setObject id { o with refcount := o.refcount - 1 }

/-- `load`. -/
def load (codec : Codec D B) (s : SwapSpace D B) (id : Nat) :
    Except SwapFault (SwapSpace D B) := do
  let o ← s.object id
  match o.target with
  | some _ => return s
  | none =>
    let buffer ← s.backstore.get o.bsid
    let p := codec.deserialize buffer
    let s ← p.ptrs.foldlM revive s
    let o ← s.object id
    return (s.setObject id { o with target := some p }).countUp

/-! ## Releasing a pointer -/

/-- Load an object into memory so that it can be freed recursively. A leaf on disk is not loaded. -/
def loadToFree (codec : Codec D B) (s : SwapSpace D B) (id : Nat) (o : Object D) :
    Except SwapFault (SwapSpace D B) :=
  match o.target with
  | some _ => return s
  | none => do
    check (decide (0 < o.bsid)) .zeroBsid
    if o.isLeaf then return { s with freedUnloaded := true } else load codec s id

/-- `objects.erase(target); lru_pqueue.erase(obj)`. -/
def erased (s : SwapSpace D B) (id : Nat) (o : Object D) : SwapSpace D B :=
  { s with
    objects := s.objects.erase id
    lruPqueue := s.lruPqueue.erase o.lastAccess }

/-- `if (obj->target) delete obj->target`, destroying the pointers in it one by one. -/
def deleteTarget (depoint : SwapSpace D B → Nat → Except SwapFault (SwapSpace D B))
    (s : SwapSpace D B) : Option (Payload D) → Except SwapFault (SwapSpace D B)
  | some p => p.ptrs.foldlM depoint s
  | none => return s

/-- Free an object whose last pointer is gone. -/
def free (codec : Codec D B)
    (depoint : SwapSpace D B → Nat → Except SwapFault (SwapSpace D B))
    (s : SwapSpace D B) (id : Nat) (o : Object D) : Except SwapFault (SwapSpace D B) := do
  let s ← s.loadToFree codec id o
  let o ← s.object id
  let s ← (s.erased id o).deleteTarget depoint o.target
  -- counted down also when the object was not in memory
  let s := s.countDown
  let backstore ← s.backstore.discard o.bsid
  return { s with backstore := backstore }

/-- `pointer::depoint`, for a pointer to `id`. The recursion is bounded by the number of objects. -/
def depoint (codec : Codec D B) : Nat → SwapSpace D B → Nat → Except SwapFault (SwapSpace D B)
  | fuel, s, id =>
    if id = 0 then return s
    else match fuel with
    | 0 => .error .fuel
    | fuel + 1 => do
      let o ← s.object id
      check (decide (0 < o.refcount)) .zeroRefcount
      let o := { o with refcount := o.refcount - 1 }
      let s := s.setObject id o
      if o.refcount = 0 then s.free codec (depoint codec fuel) id o else return s

/-- The destruction of a pointer. -/
def release (codec : Codec D B) (s : SwapSpace D B) (id : Nat) :
    Except SwapFault (SwapSpace D B) :=
  depoint codec (s.objects.size + 1) s id

/-! ## Eviction -/

/-- `pointer::_serialize` on every pointer of an object. -/
def serializePointers (s : SwapSpace D B) (ptrs : List Nat) : Except SwapFault Unit :=
  ptrs.forM (fun id => do
    check (decide (0 < id)) .nullPointer
    let _ ← s.object id)

/--
The part of `write_back` that is done for a dirty object: write a new file for it, and
send it to the server.
-/
def writeFile (s : SwapSpace D B) (id : Nat) (o : Object D) (buffer : B) :
    Except SwapFault (SwapSpace D B) := do
  let (bsid, backstore) := s.backstore.allocate buffer
  -- the old file goes only once the new one is there
  let backstore ← backstore.discard o.bsid
  return { s.setObject id { o with bsid := bsid, targetIsDirty := false } with
    backstore := backstore
    requests := s.requests ++ [.evictNode id buffer] }

/-- `write_back`. The content is zeroed by being serialized, whether it is written or not. -/
def writeBack (codec : Codec D B) (s : SwapSpace D B) (id : Nat) :
    Except SwapFault (SwapSpace D B) := do
  let o ← s.object id
  let p ← need .nullTarget o.target
  s.serializePointers p.ptrs
  let o := { o with target := some p.zeroed, isLeaf := p.ptrs.isEmpty }
  if o.targetIsDirty then s.writeFile id o (codec.serialize p) else return s.setObject id o

/-- `delete obj->target; obj->target = NULL`. -/
def dropTarget (codec : Codec D B) (s : SwapSpace D B) (id : Nat) :
    Except SwapFault (SwapSpace D B) := do
  let o ← s.object id
  let s ← s.deleteTarget (release codec) o.target
  let o ← s.object id
  return s.setObject id { o with target := none }

/-- One round of the eviction loops, for the object they chose. -/
def evict (codec : Codec D B) (s : SwapSpace D B) (id : Nat) :
    Except SwapFault (SwapSpace D B) := do
  let o ← s.object id
  let s := { s with lruPqueue := s.lruPqueue.erase o.lastAccess }
  let s ← s.writeBack codec id
  let s ← s.dropTarget codec id
  return { s.countDown with evictions := s.evictions ++ [id] }

/-- The first object of `lru_pqueue` that is not pinned. -/
def firstUnpinned (s : SwapSpace D B) : List (Nat × Nat) → Except SwapFault (Option Nat)
  | [] => return none
  | e :: rest => do
    let o ← s.object e.2
    if o.pincount = 0 then return some e.2 else firstUnpinned s rest

/-- Evict while more than `limit` objects are in memory; every round takes one out of the queue. -/
def evictLoop (codec : Codec D B) (limit : Nat) :
    Nat → SwapSpace D B → Except SwapFault (SwapSpace D B)
  | 0, _ => .error .fuel
  | fuel + 1, s =>
    if limit < s.currentInMemoryObjects then do
      match ← s.firstUnpinned s.lruPqueue.entries with
      -- everything in memory is pinned
      | none => return s
      | some id =>
        let s ← s.evict codec id
        evictLoop codec limit fuel s
    else return s

/-- `maybe_evict_something`. -/
def maybeEvictSomething (codec : Codec D B) (s : SwapSpace D B) :
    Except SwapFault (SwapSpace D B) :=
  evictLoop codec s.maxInMemoryObjects (s.lruPqueue.size + 1) s

/-- `evict_all`. -/
def evictAll (codec : Codec D B) (s : SwapSpace D B) : Except SwapFault (SwapSpace D B) :=
  evictLoop codec 0 (s.lruPqueue.size + 1) s

/-! ## The operations of pointers and pins -/

/-- `new object(sspace, tgt)`. -/
def Object.create (p : Payload D) (now : Nat) : Object D :=
  { target := some p
    bsid := 0
    isLeaf := false
    refcount := 1
    lastAccess := now
    targetIsDirty := true
    pincount := 0 }

/-- The id of the next object. The constructor of `pointer` takes one before it and drops it. -/
def newId (s : SwapSpace D B) : Nat := uint64 (s.nextId + 1)

/-- The time of the next access. -/
def now (s : SwapSpace D B) : Nat := uint64 s.nextAccessTime

/-- A new object in the table and in the queue. -/
def entered (s : SwapSpace D B) (p : Payload D) : SwapSpace D B :=
  countUp { s with
    nextId := s.nextId + 2
    nextAccessTime := s.nextAccessTime + 1
    objects := s.objects.set s.newId (Object.create p s.now)
    lruPqueue := s.lruPqueue.insertNew s.now s.newId
    requests := s.requests ++ [.getNodeId] }

/-- `allocate`. -/
def allocate (codec : Codec D B) (s : SwapSpace D B) (p : Payload D) :
    Except SwapFault (Nat × SwapSpace D B) := do
  check (s.objects.get? s.newId).isNone .idTaken
  let s' ← (s.entered p).maybeEvictSomething codec
  return (s.newId, s')

/-- `pin::dopin`. -/
def doPin (s : SwapSpace D B) (id : Nat) : Except SwapFault (SwapSpace D B) := do
  if id = 0 then return s
  else
    let o ← s.object id
    return s.setObject id { o with pincount := o.pincount + 1 }

/-- `pin::unpin`. -/
def unpin (codec : Codec D B) (s : SwapSpace D B) (id : Nat) :
    Except SwapFault (SwapSpace D B) := do
  if id = 0 then return s
  else
    let o ← s.object id
    check (decide (0 < o.pincount)) .notPinned
    (s.setObject id { o with pincount := o.pincount - 1 }).maybeEvictSomething codec

/-- `access` up to the loading: the object goes to the end of the queue. -/
def touched (s : SwapSpace D B) (id : Nat) (o : Object D) (dirty : Bool) : SwapSpace D B :=
  { s with
    nextAccessTime := s.nextAccessTime + 1
    objects := s.objects.set id { o with
      lastAccess := s.now
      targetIsDirty := o.targetIsDirty || dirty }
    lruPqueue := (s.lruPqueue.erase o.lastAccess).insertNew s.now id }

/-- `pin::access`. -/
def access (codec : Codec D B) (s : SwapSpace D B) (id : Nat) (dirty : Bool) :
    Except SwapFault (SwapSpace D B) := do
  let o ← s.object id
  let s ← (s.touched id o dirty).load codec id
  s.maybeEvictSomething codec

/-- `is_in_memory()`. -/
def isInMemory (s : SwapSpace D B) (id : Nat) : Except SwapFault Bool := do
  let o ← s.object id
  return decide (0 < id) && o.target.isSome

/-- `is_dirty()`. -/
def isDirty (s : SwapSpace D B) (id : Nat) : Except SwapFault Bool := do
  let o ← s.object id
  return decide (0 < id) && o.target.isSome && o.targetIsDirty

/-- The content of an object in memory, as a plain C++ pointer to it shows it. -/
def deref (s : SwapSpace D B) (id : Nat) : Except SwapFault (Payload D) := do
  let o ← s.object id
  need .nullTarget o.target

/-- Write to an object in memory through a plain C++ pointer. -/
def store (s : SwapSpace D B) (id : Nat) (p : Payload D) : Except SwapFault (SwapSpace D B) := do
  let o ← s.object id
  check o.target.isSome .nullTarget
  return s.setObject id { o with target := some p }

end SwapSpace

end BeTree
