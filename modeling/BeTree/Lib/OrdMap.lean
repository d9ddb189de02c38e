import Mathlib.Algebra.Order.Ring.Int
import Mathlib.Order.Lattice
import Mathlib.Data.List.Sort
import Mathlib.Tactic.Common

/-!
# Ordered maps as lists of entries

A `std::map` is the list of its entries in key order. The operations ask the key
type for nothing but a decidable `<`, as the C++ ones do, so they run on any
comparison at all; that they behave like a map is proved for a linear order.

An iterator is the list of entries from its position on: `begin()` is the whole
list, `end()` the empty one, and `distance` is a difference of lengths. An
iterator that has to be read, moved back and written through is a `Cursor`.

Under a linear order every operation is a `filter`, which is the form the proofs
use: a filter keeps the order, and membership in it is a conjunction.
-/

namespace OrdMap

variable {α β γ : Type}

section Ops

variable [LT α] [DecidableLT α]

/-- The entries in front of `lower_bound(k)`. -/
def front (m : List (α × β)) (k : α) : List (α × β) :=
  m.takeWhile (fun e => decide (e.1 < k))

/-- `lower_bound(k)`: from the first entry that is not less than `k`. -/
def lowerBound (m : List (α × β)) (k : α) : List (α × β) :=
  m.dropWhile (fun e => decide (e.1 < k))

/-- The entries in front of `upper_bound(k)`. -/
def upTo (m : List (α × β)) (k : α) : List (α × β) :=
  m.takeWhile (fun e => !decide (k < e.1))

/-- `upper_bound(k)`: from the first entry that `k` is less than. -/
def upperBound (m : List (α × β)) (k : α) : List (α × β) :=
  m.dropWhile (fun e => !decide (k < e.1))

/-- `m[k] = v`. An equivalent key already there stays, and only its value changes. -/
def assign (m : List (α × β)) (k : α) (v : β) : List (α × β) :=
  match lowerBound m k with
  | [] => front m k ++ [(k, v)]
  | e :: rest => if k < e.1 then front m k ++ (k, v) :: e :: rest else front m k ++ (e.1, v) :: rest

/-- `m.insert({k, v})`, which does nothing when the key is taken. -/
def insert (m : List (α × β)) (k : α) (v : β) : List (α × β) :=
  match lowerBound m k with
  | [] => front m k ++ [(k, v)]
  | e :: rest => if k < e.1 then front m k ++ (k, v) :: e :: rest else front m k ++ e :: rest

/-- `m.insert(first, last)`. -/
def insertAll (m es : List (α × β)) : List (α × β) :=
  es.foldl (fun m e => insert m e.1 e.2) m

/-- `m.find(k)`, as the entry it points to. -/
def find (m : List (α × β)) (k : α) : Option (α × β) :=
  match lowerBound m k with
  | [] => none
  | e :: _ => if k < e.1 then none else some e

/-- The value under `k`, if there is one. -/
def lookup (m : List (α × β)) (k : α) : Option β := (find m k).map Prod.snd

/-- `m.erase(m.lower_bound(a), m.upper_bound(b))`. -/
def eraseBetween (m : List (α × β)) (a b : α) : List (α × β) :=
  front m a ++ upperBound m b

/-- `m.erase(k)`. -/
def erase (m : List (α × β)) (k : α) : List (α × β) := eraseBetween m k k

end Ops

/-- `distance(a, b)`. -/
def distance (a b : List γ) : Nat := a.length - b.length

/-- The entries from `a` up to `b`. -/
def range (a b : List γ) : List γ := a.take (distance a b)

/-- `m.erase(a, b)`. -/
def eraseRange (m a b : List γ) : List γ := m.take (distance m a) ++ b

/-- Strictly increasing in key. -/
def Sorted [LT α] (m : List (α × β)) : Prop := m.Pairwise (fun a b => a.1 < b.1)

/-- A position inside a map, together with what stands before and after it. -/
structure Cursor (α β : Type) where
  before : List (α × β)
  key : α
  val : β
  after : List (α × β)

namespace Cursor

/-- The map the cursor is in. -/
def toMap (c : Cursor α β) : List (α × β) := c.before ++ (c.key, c.val) :: c.after

/-- The map with the value under the cursor replaced. -/
def set (c : Cursor α β) (v : β) : List (α × β) := c.before ++ (c.key, v) :: c.after

/-- The map with the entry under the cursor erased. -/
def erase (c : Cursor α β) : List (α × β) := c.before ++ c.after

/-- The key of the next entry; `none` is `end()`. -/
def nextKey (c : Cursor α β) : Option α := c.after.head?.map Prod.fst

/-- The cursor on the last entry of `m`, with `after` behind it: `--it` from the end of `m`. -/
def ofLast (m after : List (α × β)) : Option (Cursor α β) :=
  m.getLast?.map (fun e => ⟨m.dropLast, e.1, e.2, after⟩)

theorem ofLast_toMap {m after : List (α × β)} {c : Cursor α β} (h : ofLast m after = some c) :
    c.toMap = m ++ after ∧ c.after = after := by
  unfold ofLast at h
  rw [Option.map_eq_some_iff] at h
  obtain ⟨e, he, rfl⟩ := h
  refine ⟨?_, rfl⟩
  have hm := List.dropLast_append_getLast? e he
  show m.dropLast ++ e :: after = m ++ after
  conv => rhs; rw [← hm]
  simp

theorem mem_toMap (c : Cursor α β) : (c.key, c.val) ∈ c.toMap :=
  List.mem_append_right _ List.mem_cons_self

end Cursor

/-- An assignment enters its value in one place, and leaves the others or drops one. -/
theorem assign_split [LT α] [DecidableLT α] (m : List (α × β)) (k : α) (v : β) :
    ∃ a b k', assign m k v = a ++ (k', v) :: b ∧ (a ++ b).Sublist m := by
  have hm : front m k ++ lowerBound m k = m := List.takeWhile_append_dropWhile
  unfold assign
  cases hl : lowerBound m k with
  | nil =>
      refine ⟨front m k, [], k, rfl, ?_⟩
      rw [hl] at hm
      rw [hm]
  | cons e rest =>
      rw [hl] at hm
      dsimp only
      split
      · exact ⟨front m k, e :: rest, k, rfl, by rw [hm]⟩
      · refine ⟨front m k, rest, e.1, rfl, ?_⟩
        have hsub : (front m k ++ rest).Sublist (front m k ++ e :: rest) :=
          List.Sublist.append_left (List.sublist_cons_self e rest) _
        rw [hm] at hsub
        exact hsub

/-! ## Other keys

The operations do nothing with keys but compare them, so they commute with a change of
the keys that keeps the order.
-/

section Map

variable {α' β' : Type} [LT α] [DecidableLT α] [LT α'] [DecidableLT α'] {f : α → α'}
variable (hf : ∀ a b, f a < f b ↔ a < b) (g : β → β') (m : List (α × β)) (k : α)

include hf

theorem front_map : front (m.map (Prod.map f g)) (f k) = (front m k).map (Prod.map f g) := by
  unfold front
  rw [List.takeWhile_map]
  simp only [Function.comp_def, Prod.map_fst, hf]

theorem lowerBound_map :
    lowerBound (m.map (Prod.map f g)) (f k) = (lowerBound m k).map (Prod.map f g) := by
  unfold lowerBound
  rw [List.dropWhile_map]
  simp only [Function.comp_def, Prod.map_fst, hf]

theorem upTo_map : upTo (m.map (Prod.map f g)) (f k) = (upTo m k).map (Prod.map f g) := by
  unfold upTo
  rw [List.takeWhile_map]
  simp only [Function.comp_def, Prod.map_fst, hf]

theorem upperBound_map :
    upperBound (m.map (Prod.map f g)) (f k) = (upperBound m k).map (Prod.map f g) := by
  unfold upperBound
  rw [List.dropWhile_map]
  simp only [Function.comp_def, Prod.map_fst, hf]

theorem assign_map (v : β) :
    assign (m.map (Prod.map f g)) (f k) (g v) = (assign m k v).map (Prod.map f g) := by
  unfold assign
  rw [lowerBound_map hf, front_map hf]
  cases lowerBound m k with
  | nil => simp
  | cons e rest =>
      simp only [List.map_cons, Prod.map_fst, hf]
      split <;> simp

theorem insert_map (v : β) :
    insert (m.map (Prod.map f g)) (f k) (g v) = (insert m k v).map (Prod.map f g) := by
  unfold insert
  rw [lowerBound_map hf, front_map hf]
  cases lowerBound m k with
  | nil => simp
  | cons e rest =>
      simp only [List.map_cons, Prod.map_fst, hf]
      split <;> simp

theorem insertAll_map (es : List (α × β)) :
    insertAll (m.map (Prod.map f g)) (es.map (Prod.map f g))
      = (insertAll m es).map (Prod.map f g) := by
  induction es generalizing m with
  | nil => rfl
  | cons e es ih =>
      show insertAll (insert (m.map (Prod.map f g)) (f e.1) (g e.2)) (es.map (Prod.map f g)) = _
      rw [insert_map hf, ih]
      rfl

theorem find_map : find (m.map (Prod.map f g)) (f k) = (find m k).map (Prod.map f g) := by
  unfold find
  rw [lowerBound_map hf]
  cases lowerBound m k with
  | nil => rfl
  | cons e rest =>
      simp only [List.map_cons, Prod.map_fst, hf]
      split <;> rfl

theorem eraseBetween_map (k' : α) :
    eraseBetween (m.map (Prod.map f g)) (f k) (f k')
      = (eraseBetween m k k').map (Prod.map f g) := by
  unfold eraseBetween
  rw [front_map hf, upperBound_map hf, List.map_append]

theorem erase_map : erase (m.map (Prod.map f g)) (f k) = (erase m k).map (Prod.map f g) :=
  eraseBetween_map hf g m k k

end Map

section Positions

variable {γ' : Type} (f : γ → γ') (a b m : List γ)

theorem range_map : range (a.map f) (b.map f) = (range a b).map f := by
  unfold range distance
  rw [List.length_map, List.length_map, List.map_take]

theorem eraseRange_map : eraseRange (m.map f) (a.map f) (b.map f) = (eraseRange m a b).map f := by
  unfold eraseRange distance
  rw [List.length_map, List.length_map, List.map_append, List.map_take]

end Positions

/-- The position in the map with other keys and values. -/
def Cursor.map {α' β' : Type} (f : α → α') (g : β → β') (c : Cursor α β) : Cursor α' β' :=
  ⟨c.before.map (Prod.map f g), f c.key, g c.val, c.after.map (Prod.map f g)⟩

namespace Cursor

variable {α' β' : Type} (f : α → α') (g : β → β') (c : Cursor α β)

theorem set_map (v : β) : (c.map f g).set (g v) = (c.set v).map (Prod.map f g) := by
  simp [set, map]

theorem erase_map : (c.map f g).erase = c.erase.map (Prod.map f g) := by
  simp [erase, map]

theorem nextKey_map : (c.map f g).nextKey = c.nextKey.map f := by
  unfold nextKey map
  rw [List.head?_map, Option.map_map, Option.map_map]
  rfl

theorem ofLast_map (m after : List (α × β)) :
    ofLast (m.map (Prod.map f g)) (after.map (Prod.map f g))
      = (ofLast m after).map (Cursor.map f g) := by
  unfold ofLast
  rw [List.getLast?_map, Option.map_map, Option.map_map, ← List.map_dropLast]
  rfl

end Cursor

/-! ## Under a linear order -/

section Linear

variable [LinearOrder α] {m : List (α × β)} {k : α} {v : β}

@[simp]
theorem sorted_nil : Sorted ([] : List (α × β)) := List.Pairwise.nil

@[simp]
theorem sorted_singleton (e : α × β) : Sorted [e] := List.pairwise_singleton _ _

theorem sorted_cons {e : α × β} : Sorted (e :: m) ↔ (∀ x ∈ m, e.1 < x.1) ∧ Sorted m :=
  List.pairwise_cons

theorem sorted_append {a b : List (α × β)} :
    Sorted (a ++ b) ↔ Sorted a ∧ Sorted b ∧ ∀ x ∈ a, ∀ y ∈ b, x.1 < y.1 :=
  List.pairwise_append

theorem Sorted.sublist {a b : List (α × β)} (h : Sorted b) (hs : a.Sublist b) : Sorted a :=
  List.Pairwise.sublist hs h

theorem Sorted.filter (h : Sorted m) (p : α × β → Bool) : Sorted (m.filter p) :=
  h.sublist List.filter_sublist

/-- Two entries of a map with one key are one entry. -/
theorem Sorted.eq_of_key (h : Sorted m) {x y : α × β} (hx : x ∈ m) (hy : y ∈ m)
    (hk : x.1 = y.1) : x = y := by
  induction m with
  | nil => exact absurd hx (by simp)
  | cons e m ih =>
      obtain ⟨he, hm⟩ := sorted_cons.mp h
      rcases List.mem_cons.mp hx with rfl | hx' <;> rcases List.mem_cons.mp hy with rfl | hy'
      · rfl
      · exact absurd (he y hy') (by rw [hk]; exact lt_irrefl _)
      · exact absurd (he x hx') (by rw [hk]; exact lt_irrefl _)
      · exact ih hm hx' hy'

theorem Sorted.nodup (h : Sorted m) : m.Nodup :=
  h.imp (fun hlt heq => absurd (heq ▸ hlt) (lt_irrefl _))

/-- A map whose keys come from two lists is no longer than both. -/
theorem Sorted.length_le {γ δ : Type} {a : List (α × γ)} {b : List (α × δ)} (h : Sorted m)
    (hk : ∀ e ∈ m, (∃ x ∈ a, x.1 = e.1) ∨ ∃ x ∈ b, x.1 = e.1) :
    m.length ≤ a.length + b.length := by
  have hnodup : (m.map Prod.fst).Nodup := by
    rw [List.nodup_map_iff_inj_on h.nodup]
    exact fun x hx y hy hxy => h.eq_of_key hx hy hxy
  have hsub : m.map Prod.fst ⊆ a.map Prod.fst ++ b.map Prod.fst := by
    intro k hk'
    obtain ⟨e, he, rfl⟩ := List.mem_map.mp hk'
    rcases hk e he with ⟨x, hx, hxe⟩ | ⟨x, hx, hxe⟩
    · exact List.mem_append_left _ (List.mem_map.mpr ⟨x, hx, hxe⟩)
    · exact List.mem_append_right _ (List.mem_map.mpr ⟨x, hx, hxe⟩)
  have hle := (List.subperm_of_subset hnodup hsub).length_le
  rwa [List.length_append, List.length_map, List.length_map, List.length_map] at hle

/-- A map is determined by its entries. -/
theorem Sorted.ext {a b : List (α × β)} (ha : Sorted a) (hb : Sorted b)
    (h : ∀ e, e ∈ a ↔ e ∈ b) : a = b := by
  induction a generalizing b with
  | nil =>
      cases b with
      | nil => rfl
      | cons y b => exact absurd ((h y).mpr List.mem_cons_self) (by simp)
  | cons x a ih =>
      cases b with
      | nil => exact absurd ((h x).mp List.mem_cons_self) (by simp)
      | cons y b =>
          obtain ⟨hx, ha'⟩ := sorted_cons.mp ha
          obtain ⟨hy, hb'⟩ := sorted_cons.mp hb
          have hxy : x = y := by
            rcases List.mem_cons.mp ((h x).mp List.mem_cons_self) with rfl | hxb
            · rfl
            rcases List.mem_cons.mp ((h y).mpr List.mem_cons_self) with rfl | hya
            · rfl
            exact absurd (lt_trans (hx y hya) (hy x hxb)) (lt_irrefl _)
          subst hxy
          refine congrArg (x :: ·) (ih ha' hb' (fun e => ?_))
          constructor
          · intro he
            rcases List.mem_cons.mp ((h e).mp (List.mem_cons_of_mem _ he)) with rfl | h'
            · exact absurd (hx _ he) (lt_irrefl _)
            · exact h'
          · intro he
            rcases List.mem_cons.mp ((h e).mpr (List.mem_cons_of_mem _ he)) with rfl | h'
            · exact absurd (hy _ he) (lt_irrefl _)
            · exact h'

/-- On a map, `takeWhile` and `dropWhile` of a downward closed test are filters. -/
theorem while_eq_filter (p : α → Bool) (hp : ∀ a b, a < b → p b = true → p a = true)
    (h : Sorted m) :
    m.takeWhile (fun e => p e.1) = m.filter (fun e => p e.1)
      ∧ m.dropWhile (fun e => p e.1) = m.filter (fun e => !p e.1) := by
  induction m with
  | nil => exact ⟨rfl, rfl⟩
  | cons e m ih =>
      obtain ⟨he, hm⟩ := sorted_cons.mp h
      cases hpe : p e.1 with
      | true => simp [hpe, ih hm]
      | false =>
          have hall : ∀ x ∈ m, p x.1 = false := by
            intro x hx
            cases hpx : p x.1 with
            | false => rfl
            | true => exact absurd (hp _ _ (he x hx) hpx) (by simp [hpe])
          constructor
          · rw [List.takeWhile_cons, List.filter_cons, hpe]
            simp only [Bool.false_eq_true, if_false]
            exact (List.filter_eq_nil_iff.mpr (fun x hx => by simp [hall x hx])).symm
          · rw [List.dropWhile_cons, List.filter_cons, hpe]
            simp only [Bool.false_eq_true, if_false, Bool.not_false, if_true]
            exact congrArg (e :: ·) (List.filter_eq_self.mpr (fun x hx => by simp [hall x hx])).symm

theorem front_eq (h : Sorted m) : front m k = m.filter (fun e => decide (e.1 < k)) :=
  (while_eq_filter (fun a => decide (a < k))
    (fun a b hab hb => by simp only [decide_eq_true_eq] at *; exact lt_trans hab hb) h).1

theorem lowerBound_eq (h : Sorted m) : lowerBound m k = m.filter (fun e => decide (k ≤ e.1)) := by
  have hw := (while_eq_filter (fun a => decide (a < k))
    (fun a b hab hb => by simp only [decide_eq_true_eq] at *; exact lt_trans hab hb) h).2
  rw [lowerBound, hw]
  exact List.filter_congr (fun e _ => by simp only [Bool.not_eq_eq_eq_not]; simp [← not_lt])

theorem upTo_eq (h : Sorted m) : upTo m k = m.filter (fun e => decide (e.1 ≤ k)) := by
  have hw := (while_eq_filter (fun a => !decide (k < a))
    (fun a b hab hb => by simp at *; exact le_of_lt (lt_of_lt_of_le hab hb)) h).1
  rw [upTo, hw]
  exact List.filter_congr (fun e _ => by simp [← not_lt])

theorem upperBound_eq (h : Sorted m) : upperBound m k = m.filter (fun e => decide (k < e.1)) := by
  have hw := (while_eq_filter (fun a => !decide (k < a))
    (fun a b hab hb => by simp at *; exact le_of_lt (lt_of_lt_of_le hab hb)) h).2
  rw [upperBound, hw]
  exact List.filter_congr (fun e _ => by simp)

theorem front_append_lowerBound (m : List (α × β)) (k : α) : front m k ++ lowerBound m k = m :=
  List.takeWhile_append_dropWhile

/-- `m[k] = v` puts the one entry between the smaller and the larger ones. -/
theorem assign_eq (h : Sorted m) :
    assign m k v = m.filter (fun e => decide (e.1 < k))
      ++ (k, v) :: m.filter (fun e => decide (k < e.1)) := by
  have hlb := lowerBound_eq (k := k) h
  have hs : Sorted (lowerBound m k) := hlb ▸ h.filter _
  have hup : m.filter (fun e => decide (k < e.1))
      = (lowerBound m k).filter (fun e => decide (k < e.1)) := by
    rw [hlb, List.filter_filter]
    exact List.filter_congr (fun e _ => by
      by_cases hke : k < e.1
      · simp [hke, le_of_lt hke]
      · simp [hke])
  have hge : ∀ e ∈ lowerBound m k, k ≤ e.1 := fun e he => by
    rw [hlb] at he; simpa using (List.mem_filter.mp he).2
  unfold assign
  rw [hup, front_eq h]
  cases hq : lowerBound m k with
  | nil => simp
  | cons e rest =>
      rw [hq] at hs hge
      obtain ⟨he, _⟩ := sorted_cons.mp hs
      have hke := hge e List.mem_cons_self
      have hrest : rest.filter (fun x => decide (k < x.1)) = rest :=
        List.filter_eq_self.mpr (fun x hx => by simpa using lt_of_le_of_lt hke (he x hx))
      dsimp only
      split
      · rename_i hlt
        rw [List.filter_cons, if_pos (by simpa using hlt), hrest]
      · rename_i hlt
        have hek : e.1 = k := le_antisymm (not_lt.mp hlt) hke
        rw [List.filter_cons, if_neg (by simpa using hlt), hrest, hek]

theorem mem_assign (h : Sorted m) {e : α × β} :
    e ∈ assign m k v ↔ e = (k, v) ∨ (e ∈ m ∧ e.1 ≠ k) := by
  rw [assign_eq h, List.mem_append, List.mem_cons, List.mem_filter, List.mem_filter]
  simp only [decide_eq_true_eq]
  constructor
  · rintro (⟨hm, hlt⟩ | rfl | ⟨hm, hlt⟩)
    · exact Or.inr ⟨hm, ne_of_lt hlt⟩
    · exact Or.inl rfl
    · exact Or.inr ⟨hm, ne_of_gt hlt⟩
  · rintro (rfl | ⟨hm, hne⟩)
    · exact Or.inr (Or.inl rfl)
    · rcases lt_or_gt_of_ne hne with hlt | hlt
      · exact Or.inl ⟨hm, hlt⟩
      · exact Or.inr (Or.inr ⟨hm, hlt⟩)

theorem sorted_assign (h : Sorted m) : Sorted (assign m k v) := by
  rw [assign_eq h]
  refine sorted_append.mpr ⟨h.filter _, sorted_cons.mpr ⟨?_, h.filter _⟩, ?_⟩
  · intro x hx
    simpa using (List.mem_filter.mp hx).2
  · intro x hx y hy
    have hxk : x.1 < k := by simpa using (List.mem_filter.mp hx).2
    rcases List.mem_cons.mp hy with rfl | hy
    · exact hxk
    · exact lt_trans hxk (by simpa using (List.mem_filter.mp hy).2)

/-- Assigning past the last key appends. -/
theorem assign_append (h : Sorted m) (hk : ∀ e ∈ m, e.1 < k) : assign m k v = m ++ [(k, v)] := by
  rw [assign_eq h, List.filter_eq_self.mpr (fun e he => by simpa using hk e he),
    List.filter_eq_nil_iff.mpr (fun e he => by simpa using le_of_lt (hk e he))]

/-- Assigning to the last key replaces its value. -/
theorem assign_last {w : β} (h : Sorted (m ++ [(k, w)])) :
    assign (m ++ [(k, w)]) k v = m ++ [(k, v)] := by
  obtain ⟨_, _, hlt⟩ := sorted_append.mp h
  have hm : ∀ e ∈ m, e.1 < k := fun e he => hlt e he (k, w) List.mem_cons_self
  have hbelow : m.filter (fun e => decide (e.1 < k)) = m :=
    List.filter_eq_self.mpr (fun e he => by simpa using hm e he)
  have habove : m.filter (fun e => decide (k < e.1)) = [] :=
    List.filter_eq_nil_iff.mpr (fun e he => by simpa using le_of_lt (hm e he))
  rw [assign_eq h, List.filter_append, List.filter_append, hbelow, habove]
  simp

/-- Assigning a key that is not there puts it in its place. -/
theorem assign_between {a b : List (α × β)} (h : Sorted (a ++ (k, v) :: b)) :
    assign (a ++ b) k v = a ++ (k, v) :: b := by
  obtain ⟨ha, hkb, hlt⟩ := sorted_append.mp h
  obtain ⟨hk, hb⟩ := sorted_cons.mp hkb
  have hbelow : a.filter (fun e => decide (e.1 < k)) = a :=
    List.filter_eq_self.mpr (fun e he => by simpa using hlt e he (k, v) List.mem_cons_self)
  have habove : b.filter (fun e => decide (k < e.1)) = b :=
    List.filter_eq_self.mpr (fun e he => by simpa using hk e he)
  have hno : a.filter (fun e => decide (k < e.1)) = [] :=
    List.filter_eq_nil_iff.mpr
      (fun e he => by simpa using le_of_lt (hlt e he (k, v) List.mem_cons_self))
  have hno' : b.filter (fun e => decide (e.1 < k)) = [] :=
    List.filter_eq_nil_iff.mpr (fun e he => by simpa using le_of_lt (hk e he))
  rw [assign_eq (h.sublist ((List.sublist_cons_self _ _).append_left a)), List.filter_append,
    List.filter_append, hbelow, habove, hno, hno', List.append_nil, List.nil_append]

/-- The position of a key that is there. -/
theorem front_at {a b : List (α × β)} (h : Sorted (a ++ (k, v) :: b)) :
    front (a ++ (k, v) :: b) k = a ∧ lowerBound (a ++ (k, v) :: b) k = (k, v) :: b := by
  have hlt : ∀ e ∈ a, decide (e.1 < k) = true := by
    intro e he
    simpa using (sorted_append.mp h).2.2 e he (k, v) List.mem_cons_self
  unfold front lowerBound
  rw [List.takeWhile_append_of_pos hlt, List.dropWhile_append_of_pos hlt]
  simp

/-- On a key that is not there, `insert` is `m[k] = v`. -/
theorem insert_eq_assign (h : Sorted m) (hk : ∀ e ∈ m, e.1 ≠ k) : insert m k v = assign m k v := by
  unfold insert assign
  cases hq : lowerBound m k with
  | nil => rfl
  | cons e rest =>
      have hmem : e ∈ lowerBound m k := by rw [hq]; exact List.mem_cons_self
      rw [lowerBound_eq h, List.mem_filter] at hmem
      have hlt : k < e.1 := lt_of_le_of_ne (by simpa using hmem.2) (Ne.symm (hk e hmem.1))
      simp only [if_pos hlt]

/-- Inserting entries with new keys, in any position, gives the union. -/
theorem insertAll_spec {es : List (α × β)} (hm : Sorted m) (hes : Sorted es)
    (hd : ∀ x ∈ m, ∀ y ∈ es, x.1 ≠ y.1) :
    Sorted (insertAll m es) ∧ ∀ e, e ∈ insertAll m es ↔ e ∈ m ∨ e ∈ es := by
  induction es generalizing m with
  | nil => exact ⟨hm, fun e => by simp [insertAll]⟩
  | cons y es ih =>
      obtain ⟨hy, hes'⟩ := sorted_cons.mp hes
      have hins : insert m y.1 y.2 = assign m y.1 y.2 :=
        insert_eq_assign hm (fun x hx => hd x hx y List.mem_cons_self)
      have hstep : insertAll m (y :: es) = insertAll (assign m y.1 y.2) es := by
        rw [← hins]; rfl
      have hd' : ∀ x ∈ assign m y.1 y.2, ∀ z ∈ es, x.1 ≠ z.1 := by
        intro x hx z hz
        rcases (mem_assign hm).mp hx with rfl | ⟨hx, _⟩
        · exact ne_of_lt (hy z hz)
        · exact hd x hx z (List.mem_cons_of_mem _ hz)
      obtain ⟨hs, hmem⟩ := ih (sorted_assign hm) hes' hd'
      rw [hstep]
      refine ⟨hs, fun e => ?_⟩
      rw [hmem e, mem_assign hm, List.mem_cons]
      constructor
      · rintro ((rfl | ⟨he, _⟩) | he)
        · exact Or.inr (Or.inl rfl)
        · exact Or.inl he
        · exact Or.inr (Or.inr he)
      · rintro (he | rfl | he)
        · exact Or.inl (Or.inr ⟨he, hd e he y List.mem_cons_self⟩)
        · exact Or.inl (Or.inl rfl)
        · exact Or.inr he

theorem length_insertAll {es : List (α × β)} (hm : Sorted m) (hes : Sorted es)
    (hd : ∀ x ∈ m, ∀ y ∈ es, x.1 ≠ y.1) : (insertAll m es).length = m.length + es.length := by
  obtain ⟨hs, hmem⟩ := insertAll_spec hm hes hd
  have hnodup : (m ++ es).Nodup := by
    refine List.nodup_append.mpr ⟨hm.nodup, hes.nodup, fun x hx y hy hxy => ?_⟩
    exact hd x hx y hy (congrArg Prod.fst hxy)
  have hperm : (insertAll m es).Perm (m ++ es) :=
    (List.perm_ext_iff_of_nodup hs.nodup hnodup).mpr (fun e => by
      rw [hmem e, List.mem_append])
  rw [hperm.length_eq, List.length_append]

/-- Inserting entries past the last key appends them. -/
theorem insertAll_append {es : List (α × β)} (h : Sorted (m ++ es)) : insertAll m es = m ++ es := by
  obtain ⟨hm, hes, hlt⟩ := sorted_append.mp h
  obtain ⟨hs, hmem⟩ := insertAll_spec hm hes (fun x hx y hy => ne_of_lt (hlt x hx y hy))
  refine hs.ext h (fun e => ?_)
  rw [hmem e, List.mem_append]

theorem mem_eraseBetween (h : Sorted m) {a b : α} {e : α × β} :
    e ∈ eraseBetween m a b ↔ e ∈ m ∧ (e.1 < a ∨ b < e.1) := by
  rw [eraseBetween, front_eq h, upperBound_eq h, List.mem_append, List.mem_filter,
    List.mem_filter]
  simp only [decide_eq_true_eq]
  tauto

theorem sorted_eraseBetween (h : Sorted m) {a b : α} (hab : a ≤ b) :
    Sorted (eraseBetween m a b) := by
  rw [eraseBetween, front_eq h, upperBound_eq h]
  refine sorted_append.mpr ⟨h.filter _, h.filter _, fun x hx y hy => ?_⟩
  have hx' : x.1 < a := by simpa using (List.mem_filter.mp hx).2
  have hy' : b < y.1 := by simpa using (List.mem_filter.mp hy).2
  exact lt_trans hx' (lt_of_le_of_lt hab hy')

/-- `find` is membership. -/
theorem find_eq_some (h : Sorted m) {e : α × β} : find m k = some e ↔ e ∈ m ∧ e.1 = k := by
  have hlb := lowerBound_eq (k := k) h
  have hmem : ∀ x, x ∈ lowerBound m k ↔ x ∈ m ∧ k ≤ x.1 := fun x => by
    rw [hlb, List.mem_filter]; simp
  have hs : Sorted (lowerBound m k) := hlb ▸ h.filter _
  unfold find
  cases hq : lowerBound m k with
  | nil =>
      refine ⟨fun hf => absurd hf (by simp), fun ⟨he, hek⟩ => ?_⟩
      have := (hmem e).mpr ⟨he, le_of_eq hek.symm⟩
      rw [hq] at this
      exact absurd this (by simp)
  | cons x rest =>
      rw [hq] at hs hmem
      obtain ⟨hx, _⟩ := sorted_cons.mp hs
      obtain ⟨hxm, hkx⟩ := (hmem x).mp List.mem_cons_self
      dsimp only
      split
      · rename_i hlt
        refine ⟨fun hf => absurd hf (by simp), fun ⟨he, hek⟩ => ?_⟩
        rcases List.mem_cons.mp ((hmem e).mpr ⟨he, le_of_eq hek.symm⟩) with rfl | hr
        · exact absurd hlt (by rw [hek]; exact lt_irrefl _)
        · exact absurd (lt_trans hlt (hx e hr)) (by rw [hek]; exact lt_irrefl _)
      · rename_i hlt
        have hxk : x.1 = k := le_antisymm (not_lt.mp hlt) hkx
        constructor
        · intro hf
          injection hf with hf
          subst hf
          exact ⟨hxm, hxk⟩
        · rintro ⟨he, hek⟩
          rw [h.eq_of_key he hxm (hek.trans hxk.symm)]

/-- An absent key. -/
theorem find_eq_none (h : Sorted m) : find m k = none ↔ ∀ e ∈ m, e.1 ≠ k := by
  rw [Option.eq_none_iff_forall_ne_some]
  refine ⟨fun hf e he hk => hf e ((find_eq_some h).mpr ⟨he, hk⟩), fun hk e hf => ?_⟩
  obtain ⟨he, hek⟩ := (find_eq_some h).mp hf
  exact hk e he hek

/-- A key that is not found is entered, and nothing is lost. -/
theorem insert_perm (h : find m k = none) : (insert m k v).Perm ((k, v) :: m) := by
  have hm : front m k ++ lowerBound m k = m := List.takeWhile_append_dropWhile
  unfold find at h
  unfold insert
  cases hl : lowerBound m k with
  | nil =>
      rw [hl, List.append_nil] at hm
      rw [hm]
      exact List.perm_append_singleton _ _
  | cons e rest =>
      rw [hl] at h hm
      dsimp only at h ⊢
      split at h
      · rename_i hlt
        rw [if_pos hlt]
        exact List.perm_middle.trans (by rw [hm])
      · exact absurd h (by simp)

theorem lookup_eq_some (h : Sorted m) : lookup m k = some v ↔ (k, v) ∈ m := by
  unfold lookup
  rw [Option.map_eq_some_iff]
  refine ⟨fun hx => ?_, fun hx => ⟨(k, v), (find_eq_some h).mpr ⟨hx, rfl⟩, rfl⟩⟩
  obtain ⟨e, he, rfl⟩ := hx
  obtain ⟨hmem, rfl⟩ := (find_eq_some h).mp he
  exact hmem

theorem lookup_assign (h : Sorted m) {k' : α} :
    lookup (assign m k v) k' = if k' = k then some v else lookup m k' := by
  refine Option.ext (fun w => ?_)
  rw [lookup_eq_some (sorted_assign h), mem_assign h]
  by_cases hk : k' = k
  · subst hk
    simp [eq_comm]
  · rw [if_neg hk, lookup_eq_some h]
    simp [hk]

theorem sorted_erase (h : Sorted m) : Sorted (erase m k) := sorted_eraseBetween h (le_refl k)

theorem lookup_erase (h : Sorted m) {k' : α} :
    lookup (erase m k) k' = if k' = k then none else lookup m k' := by
  refine Option.ext (fun w => ?_)
  rw [lookup_eq_some (sorted_erase h), erase, mem_eraseBetween h]
  by_cases hk : k' = k
  · subst hk
    simp
  · rw [if_neg hk, lookup_eq_some h]
    exact and_iff_left (lt_or_gt_of_ne hk)

/-- What stands before a suffix is what a `take` of the distance leaves. -/
theorem take_distance {a b : List γ} : (a ++ b).take (distance (a ++ b) b) = a := by
  rw [distance, List.length_append, Nat.add_sub_cancel]
  exact List.take_left

/-- The lower bound of a larger key, looked for from that of a smaller one. -/
theorem lowerBound_lowerBound (h : Sorted m) {a b : α} (hab : a ≤ b) :
    lowerBound (lowerBound m a) b = lowerBound m b := by
  have hs : Sorted (lowerBound m a) := lowerBound_eq (k := a) h ▸ h.filter _
  rw [lowerBound_eq hs, lowerBound_eq h, lowerBound_eq h, List.filter_filter]
  exact List.filter_congr (fun e _ => by
    by_cases hbe : b ≤ e.1
    · simp [hbe, le_trans hab hbe]
    · simp [hbe])

theorem lowerBound_suffix (h : Sorted m) {a b : α} (hab : a ≤ b) :
    lowerBound m b <:+ lowerBound m a := by
  rw [← lowerBound_lowerBound h hab]
  exact List.dropWhile_suffix _

/-- The entries between two lower bounds. -/
theorem range_lowerBound (h : Sorted m) {a b : α} (hab : a ≤ b) :
    range (lowerBound m a) (lowerBound m b)
      = m.filter (fun e => decide (a ≤ e.1) && decide (e.1 < b)) := by
  have hs : Sorted (lowerBound m a) := lowerBound_eq (k := a) h ▸ h.filter _
  have htake : range (lowerBound m a) (lowerBound m b) = front (lowerBound m a) b := by
    rw [← lowerBound_lowerBound h hab, range]
    have := take_distance (a := front (lowerBound m a) b) (b := lowerBound (lowerBound m a) b)
    rwa [front_append_lowerBound] at this
  rw [htake, front_eq hs, lowerBound_eq h, List.filter_filter]
  exact List.filter_congr (fun e _ => by rw [Bool.and_comm])

theorem Cursor.sorted_set {c : Cursor α β} (h : Sorted c.toMap) : Sorted (c.set v) := by
  obtain ⟨hb, ha, hlt⟩ := sorted_append.mp h
  obtain ⟨hk, ha'⟩ := sorted_cons.mp ha
  refine sorted_append.mpr ⟨hb, sorted_cons.mpr ⟨hk, ha'⟩, fun x hx y hy => ?_⟩
  rcases List.mem_cons.mp hy with rfl | hy
  · exact hlt x hx (c.key, c.val) List.mem_cons_self
  · exact hlt x hx y (List.mem_cons_of_mem _ hy)

theorem Cursor.sorted_erase {c : Cursor α β} (h : Sorted c.toMap) : Sorted c.erase :=
  h.sublist (List.Sublist.append_left (List.sublist_cons_self _ _) _)

theorem Cursor.mem_erase {c : Cursor α β} (h : Sorted c.toMap) {e : α × β} :
    e ∈ c.erase ↔ e ∈ c.toMap ∧ e.1 ≠ c.key := by
  obtain ⟨_, ha, hlt⟩ := sorted_append.mp h
  obtain ⟨hk, _⟩ := sorted_cons.mp ha
  unfold erase toMap
  rw [List.mem_append, List.mem_append, List.mem_cons]
  refine ⟨fun he => ?_, fun he => ?_⟩
  · rcases he with he | he
    · exact ⟨Or.inl he, ne_of_lt (hlt e he (c.key, c.val) List.mem_cons_self)⟩
    · exact ⟨Or.inr (Or.inr he), ne_of_gt (hk e he)⟩
  · rcases he with ⟨he | rfl | he, hne⟩
    · exact Or.inl he
    · exact absurd rfl hne
    · exact Or.inr he

theorem Cursor.mem_set {c : Cursor α β} (h : Sorted c.toMap) {e : α × β} :
    e ∈ c.set v ↔ (e ∈ c.toMap ∧ e.1 ≠ c.key) ∨ e = (c.key, v) := by
  rw [← Cursor.mem_erase h]
  unfold set erase
  rw [List.mem_append, List.mem_append, List.mem_cons]
  tauto

end Linear

end OrdMap
