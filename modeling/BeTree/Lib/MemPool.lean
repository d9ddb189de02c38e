import Mathlib.Algebra.Order.Ring.Int
import Mathlib.Data.List.Nodup
import Mathlib.Data.List.Perm.Subperm
import Mathlib.Tactic.Common

/-!
# A pool of preallocated objects

Objects are numbered in the order in which they are created. `alloc` takes one from the
back of the pool, and creates more of them when the pool is empty, twice as many each
time; `free` puts one back. `Owns` says who has the objects: the pool, or whoever
holds them, and nobody else.
-/

/-- A pool. The head of `pool` is its back. -/
structure MemPool where
  numToAlloc : Nat
  created : Nat
  pool : List Nat
  pos : 0 < numToAlloc

namespace MemPool

/-- The pool at the start. -/
def init : MemPool := ⟨1, 0, [], Nat.one_pos⟩

/-- Create `numToAlloc` objects, and twice as many the next time. -/
def extendPool (p : MemPool) : MemPool :=
  { numToAlloc := p.numToAlloc * 2
    created := p.created + p.numToAlloc
    pool := (List.range' p.created p.numToAlloc).reverse ++ p.pool
    pos := Nat.mul_pos p.pos Nat.two_pos }

/-- Take the object at the back of a pool that is not empty. -/
def pop (p : MemPool) : Nat × MemPool := (p.pool.headD 0, { p with pool := p.pool.tail })

/-- Take an object. -/
def alloc (p : MemPool) : Nat × MemPool :=
  if p.pool = [] then p.extendPool.pop else p.pop

/-- Put an object back. -/
def free (p : MemPool) (t : Nat) : MemPool := { p with pool := t :: p.pool }

/-- Every object is in the pool or held, once, and has been created. -/
structure Owns (p : MemPool) (held : List Nat) : Prop where
  nodup : (p.pool ++ held).Nodup
  created : ∀ t ∈ p.pool ++ held, t < p.created

variable {p : MemPool} {held held' : List Nat} {t : Nat}

theorem Owns.perm (h : p.Owns held) (hp : held.Perm held') : p.Owns held' where
  nodup := ((hp.append_left p.pool).nodup_iff).mp h.nodup
  created t ht := h.created t (((hp.append_left p.pool).mem_iff).mpr ht)

theorem Owns.extendPool (h : p.Owns held) : p.extendPool.Owns held := by
  refine ⟨?_, fun t ht => ?_⟩
  · show ((List.range' p.created p.numToAlloc).reverse ++ p.pool ++ held).Nodup
    rw [List.append_assoc]
    refine (List.nodup_reverse.mpr List.nodup_range').append h.nodup (fun t ht ht' => ?_)
    have hnew := (List.mem_range'_1.mp (List.mem_reverse.mp ht)).1
    have hold := h.created t ht'
    omega
  · show t < p.created + p.numToAlloc
    rw [MemPool.extendPool, List.append_assoc] at ht
    rcases List.mem_append.mp ht with ht | ht
    · exact (List.mem_range'_1.mp (List.mem_reverse.mp ht)).2
    · have := h.created t ht
      omega

theorem Owns.pop (h : p.Owns held) (hne : p.pool ≠ []) : p.pop.2.Owns (p.pop.1 :: held) := by
  obtain ⟨t, rest, hpool⟩ := List.exists_cons_of_ne_nil hne
  have hperm : (rest ++ t :: held).Perm (p.pool ++ held) := by
    rw [hpool]
    exact List.perm_middle
  unfold MemPool.pop
  rw [hpool]
  exact ⟨hperm.nodup_iff.mpr h.nodup, fun u hu => h.created u (hperm.mem_iff.mp hu)⟩

theorem extendPool_ne_nil (p : MemPool) : p.extendPool.pool ≠ [] := by
  intro hnil
  have hlen := congrArg List.length hnil
  have hpos := p.pos
  rw [MemPool.extendPool, List.length_append, List.length_reverse, List.length_range',
    List.length_nil] at hlen
  omega

/-- **An object that is taken** was held by nobody. -/
theorem Owns.alloc (h : p.Owns held) : p.alloc.2.Owns (p.alloc.1 :: held) := by
  unfold MemPool.alloc
  split
  · exact h.extendPool.pop p.extendPool_ne_nil
  · rename_i hne
    exact h.pop hne

theorem Owns.free (h : p.Owns (t :: held)) : (p.free t).Owns held := by
  have hperm : (p.pool ++ t :: held).Perm (t :: p.pool ++ held) := List.perm_middle
  exact ⟨hperm.nodup_iff.mp h.nodup, fun u hu => h.created u (hperm.mem_iff.mpr hu)⟩

theorem Owns.held_nodup (h : p.Owns held) : held.Nodup := h.nodup.of_append_right

theorem owns_init : init.Owns [] := ⟨List.nodup_nil, fun _ ht => absurd ht List.not_mem_nil⟩

/-- When the pool has everything back, it has everything there is. -/
theorem Owns.perm_range (h : p.Owns []) (hlen : p.pool.length = p.created) :
    p.pool.Perm (List.range p.created) := by
  have hnodup : p.pool.Nodup := h.nodup.of_append_left
  have hsub : p.pool ⊆ List.range p.created :=
    fun t ht => List.mem_range.mpr (h.created t (List.mem_append_left _ ht))
  refine (hnodup.subperm hsub).perm_of_length_le ?_
  rw [List.length_range, hlen]

/-! ## How many objects there are -/

/-- The objects that are held and those in the pool are all that were created, and the next
time one more is created than there are. -/
structure Balanced (p : MemPool) (held : Nat) : Prop where
  total : p.pool.length + held = p.created
  next : p.numToAlloc = p.created + 1

theorem balanced_init : init.Balanced 0 := ⟨rfl, rfl⟩

variable {n : Nat}

theorem Balanced.free (h : p.Balanced (n + 1)) (t : Nat) : (p.free t).Balanced n := by
  refine ⟨?_, h.next⟩
  show p.pool.length + 1 + n = p.created
  have htotal := h.total
  omega

theorem Balanced.extendPool (h : p.Balanced n) : p.extendPool.Balanced n := by
  have htotal := h.total
  have hnext := h.next
  refine ⟨?_, ?_⟩
  · show ((List.range' p.created p.numToAlloc).reverse ++ p.pool).length + n = p.created + p.numToAlloc
    rw [List.length_append, List.length_reverse, List.length_range']
    omega
  · show p.numToAlloc * 2 = p.created + p.numToAlloc + 1
    omega

theorem Balanced.pop (h : p.Balanced n) (hne : p.pool ≠ []) : p.pop.2.Balanced (n + 1) := by
  refine ⟨?_, h.next⟩
  show p.pool.tail.length + (n + 1) = p.created
  have hpos := List.length_pos_of_ne_nil hne
  have htotal := h.total
  rw [List.length_tail]
  omega

/-- Objects are created only when all of them are held. -/
theorem Balanced.alloc (h : p.Balanced n) : p.alloc.2.Balanced (n + 1)
    ∧ (p.alloc.2.created = p.created ∨ p.alloc.2.created = 2 * n + 1) := by
  unfold MemPool.alloc
  split
  · rename_i hnil
    have htotal := h.total
    have hnext := h.next
    rw [hnil, List.length_nil] at htotal
    refine ⟨h.extendPool.pop p.extendPool_ne_nil, Or.inr ?_⟩
    show p.created + p.numToAlloc = 2 * n + 1
    omega
  · rename_i hne
    exact ⟨h.pop hne, Or.inl rfl⟩

end MemPool
