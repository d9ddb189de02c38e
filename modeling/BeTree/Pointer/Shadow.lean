import BeTree.Lib.Refine
import BeTree.Swap.Program
import Mathlib.Data.Multiset.AddSub

/-!
# What a program with pointers may do

A program performs every operation of the swap space itself: each copy of a pointer and the
destruction of each, the pins with what is done through them, and the reads and writes of the
objects. The data of an object are of any type.

The shadow of a swap space is what the program knows of it: the contents of the objects, as
if all of them were in memory for ever, the pointers that are in no object, and the pins, the
newest first. `Shadow.rule` says what an operation needs. A pointer is copied or followed only
where there is one; an object is read or written only through a pin on it; what is written to
an object uses up pointers that are there; and no pin loses the pointer it was made from.
-/

namespace BeTree

/-- What a program asks of the swap space. -/
inductive HeapOp (D : Type) where
  /-- `ss->allocate(new T)`, for an object without pointers. -/
  | allocate (d : D)
  /-- The copy of a pointer. -/
  | copy (id : Nat)
  /-- The destruction of a pointer. -/
  | destroy (id : Nat)
  /-- The construction of a pin. -/
  | pin (id : Nat)
  /-- `operator->` of the newest pin. -/
  | access (id : Nat) (dirty : Bool)
  /-- Look at the object under a pin. -/
  | read (id : Nat)
  /-- Write to the object under a pin. -/
  | store (id : Nat) (p : Payload D)
  /-- The destruction of the newest pin. -/
  | unpin (id : Nat)
  | isDirty (id : Nat)
  | isInMemory (id : Nat)
  | evictAll
  | setCacheSize (size : Nat)

/-- What each operation answers. -/
@[reducible]
def HeapOp.Ans {D : Type} : HeapOp D → Type
  | .allocate _ => Nat
  | .copy _ => Unit
  | .destroy _ => Unit
  | .pin _ => Unit
  | .access _ _ => Unit
  | .read _ => Payload D
  | .store _ _ => Unit
  | .unpin _ => Unit
  | .isDirty _ => Bool
  | .isInMemory _ => Bool
  | .evictAll => Unit
  | .setCacheSize _ => Unit

/-- The contents of all objects, the pointers outside of them, and the pins. -/
structure Shadow (D : Type) where
  nextId : Nat
  objects : Dict Nat (Payload D)
  roots : Multiset Nat
  pins : List Pin

namespace Shadow

variable {D : Type}

/-- Nothing has been allocated. -/
def create : Shadow D := ⟨1, Dict.empty, 0, []⟩

/-- There is a pointer to the object, outside of all objects or in one that is pinned. -/
def Reaches (objects : Dict Nat (Payload D)) (roots : Multiset Nat) (pins : List Pin) (id : Nat) :
    Prop :=
  id ∈ roots ∨ ∃ q ∈ pins, ∃ p, objects.get? q.id = some p ∧ id ∈ p.ptrs

/-- Every pin is on an object that older pins, or the pointers outside, reach. -/
def Anchored (objects : Dict Nat (Payload D)) (roots : Multiset Nat) : List Pin → Prop
  | [] => True
  | pin :: rest => Reaches objects roots rest pin.id ∧ Anchored objects roots rest

/-- The object gets a new content, out of the pointers that are there. -/
def stored (g : Shadow D) (id : Nat) (old p : Payload D) : Shadow D :=
  { g with objects := g.objects.set id p, roots := g.roots + old.ptrs - p.ptrs }

/-- A new object, and the pointer to it. -/
def allocated (g : Shadow D) (d : D) : Shadow D :=
  ⟨g.nextId + 2, g.objects.set (g.nextId + 1) ⟨d, []⟩, (g.nextId + 1) ::ₘ g.roots, g.pins⟩

/-- What is needed for each operation. -/
def Pre : HeapOp D → Shadow D → Prop
  | .allocate _, _ => True
  | .copy id, g => Reaches g.objects g.roots g.pins id
  | .destroy id, g => id ∈ g.roots ∧ Anchored g.objects (g.roots.erase id) g.pins
  | .pin id, g => Reaches g.objects g.roots g.pins id
  | .access id _, g => ∃ pin rest, g.pins = pin :: rest ∧ pin.id = id
  | .read id, g => ∃ pin ∈ g.pins, pin.id = id ∧ pin.loaded = true
  | .store id p, g => (∃ pin ∈ g.pins, pin.id = id ∧ pin.loaded = true ∧ pin.dirty = true)
      ∧ ∀ old, g.objects.get? id = some old → (p.ptrs : Multiset Nat) ≤ g.roots + old.ptrs
        ∧ Anchored (g.stored id old p).objects (g.stored id old p).roots g.pins
  | .unpin id, g => ∃ pin rest, g.pins = pin :: rest ∧ pin.id = id
  | .isDirty id, g => Reaches g.objects g.roots g.pins id
  | .isInMemory id, g => Reaches g.objects g.roots g.pins id
  | .evictAll, _ => True
  | .setCacheSize size, _ => 0 < size

/-- What each operation does. -/
def Post : (o : HeapOp D) → Shadow D → o.Ans → Shadow D → Prop
  | .allocate d, g, r, g' => r = g.nextId + 1 ∧ g' = g.allocated d
  | .copy id, g, _, g' => g' = { g with roots := id ::ₘ g.roots }
  | .destroy id, g, _, g' => g' = { g with roots := g.roots.erase id }
  | .pin id, g, _, g' => g' = { g with pins := ⟨id, false, false⟩ :: g.pins }
  | .access id dirty, g, _, g' => ∀ pin rest, g.pins = pin :: rest →
      g' = { g with pins := ⟨id, true, pin.dirty || dirty⟩ :: rest }
  | .read id, g, r, g' => g.objects.get? id = some r ∧ g' = g
  | .store id p, g, _, g' => ∃ old, g.objects.get? id = some old ∧ g' = g.stored id old p
  | .unpin _, g, _, g' => g' = { g with pins := g.pins.tail }
  | .isDirty _, g, _, g' => g' = g
  | .isInMemory _, g, _, g' => g' = g
  | .evictAll, g, _, g' => g' = g
  | .setCacheSize _, g, _, g' => g' = g

/-- The rule of the operations. -/
def rule : Rule (HeapOp D) HeapOp.Ans (Shadow D) := ⟨Pre, Post⟩

variable {objects objects' : Dict Nat (Payload D)} {roots roots' : Multiset Nat} {pins : List Pin}

/-- Pointers in other objects, and other pointers outside, keep reaching what they did. -/
theorem Reaches.mono {id : Nat} (h : Reaches objects roots pins id) (hroots : id ∈ roots → id ∈ roots')
    (hobjects : ∀ q ∈ pins, objects'.get? q.id = objects.get? q.id) :
    Reaches objects' roots' pins id := by
  rcases h with h | ⟨q, hq, p, hp, hid⟩
  · exact Or.inl (hroots h)
  · exact Or.inr ⟨q, hq, p, (hobjects q hq).trans hp, hid⟩

theorem Anchored.mono (h : Anchored objects roots pins)
    (hroots : ∀ q ∈ pins, q.id ∈ roots → q.id ∈ roots')
    (hobjects : ∀ q ∈ pins, objects'.get? q.id = objects.get? q.id) :
    Anchored objects' roots' pins := by
  induction pins with
  | nil => trivial
  | cons pin rest ih =>
      refine ⟨h.1.mono (hroots pin List.mem_cons_self) (fun q hq => ?_), ih h.2 (fun q hq => ?_)
        (fun q hq => ?_)⟩
      · exact hobjects q (List.mem_cons_of_mem _ hq)
      · exact hroots q (List.mem_cons_of_mem _ hq)
      · exact hobjects q (List.mem_cons_of_mem _ hq)

end Shadow

end BeTree
