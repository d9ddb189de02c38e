import BeTree.Swap.Runs

/-!
# Programs over a heap

A program that uses the swap space holds pointers in variables and in the objects,
and reaches an object through a pin on it. Its commands run over anything that has
the operations of the swap space: over the swap space itself, and over an ideal heap
that keeps every object in memory for ever and counts nothing.

A pointer assignment `x = y` is the destruction of the old value and then a copy,
which is what `operator=` does. Pins nest in any way.
-/

namespace BeTree

open Checked

variable {H D B : Type}

/-- The operations of pointers and pins. -/
structure Heap (H D : Type) where
  allocate : H → Payload D → Except SwapFault (Nat × H)
  copy : H → Nat → Except SwapFault H
  destroy : H → Nat → Except SwapFault H
  pin : H → Nat → Except SwapFault H
  unpin : H → Nat → Except SwapFault H
  access : H → Nat → Bool → Except SwapFault H
  deref : H → Nat → Except SwapFault (Payload D)
  store : H → Nat → Payload D → Except SwapFault H
  evictAll : H → Except SwapFault H

/-- The swap space. -/
def swapHeap (codec : Codec D B) : Heap (Pinning D B) D where
  allocate m p := do
    let m' ← m.call codec (.allocate p)
    return (m.ss.newId, m')
  copy m id := m.call codec (.copy id)
  destroy m id := m.call codec (.destroy id)
  pin m id := m.call codec (.pin id)
  unpin m id := m.call codec (.unpin id)
  access m id dirty := m.call codec (.access id dirty)
  deref m id := m.ss.deref id
  store m id p := m.call codec (.store id p)
  evictAll m := m.call codec .evictAll

/-- A heap without a limit, in which nothing is ever moved or freed. -/
structure Ideal (D : Type) where
  nextId : Nat
  objects : Dict Nat (Payload D)

/-- Its operations. Only allocations and writes change anything. -/
def idealHeap : Heap (Ideal D) D where
  allocate t p := return (t.nextId + 1, ⟨t.nextId + 2, t.objects.set (t.nextId + 1) p⟩)
  copy t _ := return t
  destroy t _ := return t
  pin t _ := return t
  unpin t _ := return t
  access t _ _ := return t
  deref t id := need .missingObject (t.objects.get? id)
  store t id p := return { t with objects := t.objects.set id p }
  evictAll t := return t

/-- A pin: its target, whether it has been dereferenced, and whether as a non-const pointer. -/
structure Pin where
  id : Nat
  loaded : Bool
  dirty : Bool
deriving DecidableEq, Repr

/-- Where a pointer is: in a variable, or in the object that a pin gives access to. -/
inductive Loc where
  | var (x : Nat)
  | slot (h i : Nat)
deriving DecidableEq, Repr

/-- What a program does with the heap. -/
inductive HeapCmd (D : Type) where
  /-- `x = ss->allocate(new T(d))`, where `x` was null. -/
  | allocate (x : Nat) (d : D)
  /-- The copy of a pointer into a variable that was null. -/
  | copy (x : Nat) (l : Loc)
  /-- The destruction of the pointer in a variable, or the first half of an assignment to it. -/
  | destroy (x : Nat)
  /-- A pin on the target of a pointer. -/
  | pin (h : Nat) (l : Loc)
  /-- `operator->` of the pin. -/
  | access (h : Nat) (dirty : Bool)
  /-- Look at the object. -/
  | read (h : Nat)
  /-- Write to the data of the object. -/
  | modify (h : Nat) (d : D)
  /-- Put a copy of the pointer in `x` into the object, before its `i`-th. -/
  | link (h i x : Nat)
  /-- Take the `i`-th pointer out of the object. -/
  | unlink (h i : Nat)
  /-- The end of a pin. -/
  | unpin (h : Nat)
  /-- `evict_all`. -/
  | evictAll
deriving DecidableEq, Repr

/-- A heap, the pointers in the program's variables that are not null, and its pins. -/
structure Program (H : Type) where
  heap : H
  vars : Dict Nat Nat
  pins : Dict Nat Pin

namespace Program

/-- A program that has just started over a swap space for `n` objects in memory. -/
def create (n : Nat) : Program (Pinning D B) := ⟨Pinning.create n, Dict.empty, Dict.empty⟩

/-- The same over the ideal heap. -/
def ideal : Program (Ideal D) := ⟨⟨1, Dict.empty⟩, Dict.empty, Dict.empty⟩

/-- The object under a pin, and its content. The pin must have been dereferenced. -/
def view (ops : Heap H D) (m : Program H) (h : Nat) : Except SwapFault (Pin × Payload D) := do
  let pin ← need .malformed (m.pins.get? h)
  check pin.loaded .malformed
  let p ← ops.deref m.heap pin.id
  return (pin, p)

/-- The same for writing. -/
def viewDirty (ops : Heap H D) (m : Program H) (h : Nat) : Except SwapFault (Pin × Payload D) := do
  let (pin, p) ← m.view ops h
  check pin.dirty .malformed
  return (pin, p)

/-- The target of a pointer. -/
def target (ops : Heap H D) (m : Program H) : Loc → Except SwapFault Nat
  | .var x => need .malformed (m.vars.get? x)
  | .slot h i => do
    let (_, p) ← m.view ops h
    need .malformed p.ptrs[i]?

/-- One command, with what it shows of the heap. -/
def exec (ops : Heap H D) (m : Program H) :
    HeapCmd D → Except SwapFault (Option (Payload D) × Program H)
  | .allocate x d => do
    check (m.vars.get? x).isNone .malformed
    let (id, heap) ← ops.allocate m.heap ⟨d, []⟩
    return (none, { m with heap := heap, vars := m.vars.set x id })
  | .copy x l => do
    check (m.vars.get? x).isNone .malformed
    let id ← m.target ops l
    let heap ← ops.copy m.heap id
    return (none, { m with heap := heap, vars := m.vars.set x id })
  | .destroy x => do
    let id ← need .malformed (m.vars.get? x)
    let heap ← ops.destroy m.heap id
    return (none, { m with heap := heap, vars := m.vars.erase x })
  | .pin h l => do
    check (m.pins.get? h).isNone .malformed
    let id ← m.target ops l
    let heap ← ops.pin m.heap id
    return (none, { m with heap := heap, pins := m.pins.set h ⟨id, false, false⟩ })
  | .access h dirty => do
    let pin ← need .malformed (m.pins.get? h)
    let heap ← ops.access m.heap pin.id dirty
    return (none, { m with
      heap := heap
      pins := m.pins.set h ⟨pin.id, true, pin.dirty || dirty⟩ })
  | .read h => do
    let (_, p) ← m.view ops h
    return (some p, m)
  | .modify h d => do
    let (pin, p) ← m.viewDirty ops h
    let heap ← ops.store m.heap pin.id ⟨d, p.ptrs⟩
    return (none, { m with heap := heap })
  | .link h i x => do
    let (pin, p) ← m.viewDirty ops h
    check (decide (i ≤ p.ptrs.length)) .malformed
    let id ← need .malformed (m.vars.get? x)
    -- the copy of the pointer is counted before it is stored
    let heap ← ops.copy m.heap id
    let heap ← ops.store heap pin.id ⟨p.data, p.ptrs.insertIdx i id⟩
    return (none, { m with heap := heap })
  | .unlink h i => do
    let (pin, p) ← m.viewDirty ops h
    let id ← need .malformed p.ptrs[i]?
    -- the pointer is out of the object before its target is released
    let heap ← ops.store m.heap pin.id ⟨p.data, p.ptrs.eraseIdx i⟩
    let heap ← ops.destroy heap id
    return (none, { m with heap := heap })
  | .unpin h => do
    let pin ← need .malformed (m.pins.get? h)
    let heap ← ops.unpin m.heap pin.id
    return (none, { m with heap := heap, pins := m.pins.erase h })
  | .evictAll => do
    let heap ← ops.evictAll m.heap
    return (none, { m with heap := heap })

/-- A program, with everything that it sees. -/
def run (ops : Heap H D) :
    Program H → List (HeapCmd D) → Except SwapFault (List (Payload D) × Program H)
  | m, [] => return ([], m)
  | m, c :: cs => do
    let (seen, m) ← m.exec ops c
    let (rest, m) ← run ops m cs
    return (seen.toList ++ rest, m)

/-- An object that can be reached from a variable. -/
inductive Held (t : Program (Ideal D)) : Nat → Prop where
  | var {x i : Nat} : t.vars.get? x = some i → Held t i
  | slot {i j : Nat} {p : Payload D} : Held t i → t.heap.objects.get? i = some p → j ∈ p.ptrs →
      Held t j

/-- Every pin is on an object that some pointer keeps alive. -/
def Referenced (t : Program (Ideal D)) : Prop := ∀ h pin, t.pins.get? h = some pin → t.Held pin.id

/-- A program that destroys no object while it holds a pin on it. -/
def Legal : Program (Ideal D) → List (HeapCmd D) → Prop
  | t, [] => t.Referenced
  | t, c :: cs => t.Referenced ∧ ∀ seen t', t.exec idealHeap c = .ok (seen, t') → Legal t' cs

end Program

end BeTree
