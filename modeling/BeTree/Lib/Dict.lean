import BeTree.Lib.OrdMap

/-!
# Finite maps

An ordered map bundled with the proof that it is in order, so that looking up
what was stored needs no side condition. `total` adds up a weight over the
entries; every change of one entry changes it by the difference.
-/

/-- A finite map. -/
structure Dict (α β : Type) [LinearOrder α] where
  entries : List (α × β)
  sorted : OrdMap.Sorted entries

namespace Dict

variable {α β : Type} [LinearOrder α]

/-- The map with no entries. -/
def empty : Dict α β := ⟨[], OrdMap.sorted_nil⟩

/-- The value under a key. -/
def get? (m : Dict α β) (k : α) : Option β := OrdMap.lookup m.entries k

/-- Store a value under a key. -/
def set (m : Dict α β) (k : α) (v : β) : Dict α β :=
  ⟨OrdMap.assign m.entries k v, OrdMap.sorted_assign m.sorted⟩

/-- Remove a key. -/
def erase (m : Dict α β) (k : α) : Dict α β :=
  ⟨OrdMap.erase m.entries k, OrdMap.sorted_erase m.sorted⟩

/-- Store a value under a key that is free; otherwise do nothing. -/
def insertNew (m : Dict α β) (k : α) (v : β) : Dict α β :=
  if (m.get? k).isSome then m else m.set k v

/-- The values, in the order of their keys. -/
def values (m : Dict α β) : List β := m.entries.map Prod.snd

/-- The number of entries. -/
def size (m : Dict α β) : Nat := m.entries.length

/-- The sum of a weight over the entries. -/
def total (f : α → β → Nat) (m : Dict α β) : Nat := (m.entries.map (fun e => f e.1 e.2)).sum

variable {m : Dict α β} {k k' : α} {v v' : β} {f g : α → β → Nat}

/-! ## Lookup -/

theorem mem_entries : (k, v) ∈ m.entries ↔ m.get? k = some v :=
  (OrdMap.lookup_eq_some m.sorted).symm

@[simp]
theorem get?_empty : (empty : Dict α β).get? k = none := rfl

@[simp]
theorem get?_set : (m.set k v).get? k' = if k' = k then some v else m.get? k' :=
  OrdMap.lookup_assign m.sorted

@[simp]
theorem get?_erase : (m.erase k).get? k' = if k' = k then none else m.get? k' :=
  OrdMap.lookup_erase m.sorted

theorem get?_set_eq_some {w : β} :
    (m.set k v).get? k' = some w ↔ (k' = k ∧ w = v) ∨ (k' ≠ k ∧ m.get? k' = some w) := by
  rw [get?_set]
  by_cases hk : k' = k
  · rw [if_pos hk]
    refine ⟨fun hw => Or.inl ⟨hk, (Option.some.inj hw).symm⟩, fun hw => ?_⟩
    rcases hw with ⟨_, rfl⟩ | ⟨hne, _⟩
    · rfl
    · exact absurd hk hne
  · rw [if_neg hk]
    refine ⟨fun hw => Or.inr ⟨hk, hw⟩, fun hw => ?_⟩
    rcases hw with ⟨heq, _⟩ | ⟨_, hw⟩
    · exact absurd heq hk
    · exact hw

theorem get?_erase_eq_some {w : β} :
    (m.erase k).get? k' = some w ↔ k' ≠ k ∧ m.get? k' = some w := by
  rw [get?_erase]
  by_cases hk : k' = k
  · rw [if_pos hk]
    exact ⟨fun hw => absurd hw (by simp), fun hw => absurd hk hw.1⟩
  · rw [if_neg hk]
    exact ⟨fun hw => ⟨hk, hw⟩, fun hw => hw.2⟩

theorem insertNew_of_free (h : m.get? k = none) : m.insertNew k v = m.set k v := by
  rw [insertNew, h]
  rfl

@[ext]
theorem ext {a b : Dict α β} (h : ∀ k, a.get? k = b.get? k) : a = b := by
  have hent : a.entries = b.entries := by
    refine a.sorted.ext b.sorted (fun e => ?_)
    rw [show e = (e.1, e.2) from rfl, mem_entries, mem_entries, h]
  cases a
  cases b
  cases hent
  rfl

theorem eq_empty_of_get? (h : ∀ k, m.get? k = none) : m = empty :=
  ext (fun k => (h k).trans get?_empty.symm)

@[simp]
theorem set_set : (m.set k v).set k v' = m.set k v' := by
  ext k' w
  rw [get?_set, get?_set, get?_set]
  split <;> rfl

theorem set_of_get? (h : m.get? k = some v) : m.set k v = m := by
  ext k' w
  rw [get?_set]
  split
  · rename_i hk
    rw [hk, h]
  · rfl

@[simp]
theorem erase_set : (m.set k v).erase k = m.erase k := by
  ext k' w
  rw [get?_erase, get?_erase, get?_set]
  split <;> rfl

@[simp]
theorem set_erase : (m.erase k).set k v = m.set k v := by
  ext k' w
  rw [get?_set, get?_set, get?_erase]
  split <;> rfl

theorem erase_of_free (h : m.get? k = none) : m.erase k = m := by
  ext k' w
  rw [get?_erase]
  split
  · rename_i hk
    rw [hk, h]
  · rfl

/-! ## Totals -/

theorem total_congr (h : ∀ k v, m.get? k = some v → f k v = g k v) : m.total f = m.total g := by
  unfold total
  congr 1
  exact List.map_congr_left (fun e he => h e.1 e.2 (mem_entries.mp he))

/-- An entry stands at one place, between the smaller ones and the larger ones. -/
theorem entries_split (h : m.get? k = some v) :
    ∃ a b, m.entries = a ++ (k, v) :: b ∧ (∀ v', (m.set k v').entries = a ++ (k, v') :: b)
      ∧ (m.erase k).entries = a ++ b := by
  have hs := m.sorted
  obtain ⟨a, b, hab⟩ := List.append_of_mem (mem_entries.mpr h)
  rw [hab] at hs
  obtain ⟨ha, hb, hlt⟩ := OrdMap.sorted_append.mp hs
  obtain ⟨hkb, hb'⟩ := OrdMap.sorted_cons.mp hb
  refine ⟨a, b, hab, fun v' => ?_, ?_⟩
  · have hs' : OrdMap.Sorted (a ++ (k, v') :: b) :=
      OrdMap.sorted_append.mpr ⟨ha, OrdMap.sorted_cons.mpr ⟨hkb, hb'⟩, fun x hx y hy => by
        rcases List.mem_cons.mp hy with rfl | hy
        · exact hlt x hx (k, v) List.mem_cons_self
        · exact hlt x hx y (List.mem_cons_of_mem _ hy)⟩
    -- two sorted lists with the same members are equal
    refine (m.set k v').sorted.ext hs' (fun e => ?_)
    show e ∈ OrdMap.assign m.entries k v' ↔ _
    rw [OrdMap.mem_assign m.sorted, hab, List.mem_append, List.mem_append, List.mem_cons,
      List.mem_cons]
    refine ⟨fun he => ?_, fun he => ?_⟩
    · rcases he with rfl | ⟨he | rfl | he, hne⟩
      · exact Or.inr (Or.inl rfl)
      · exact Or.inl he
      · exact absurd rfl hne
      · exact Or.inr (Or.inr he)
    · rcases he with he | rfl | he
      · exact Or.inr ⟨Or.inl he, ne_of_lt (hlt e he (k, v) List.mem_cons_self)⟩
      · exact Or.inl rfl
      · exact Or.inr ⟨Or.inr (Or.inr he), ne_of_gt (hkb e he)⟩
  · have hs' : OrdMap.Sorted (a ++ b) := OrdMap.sorted_append.mpr
      ⟨ha, hb', fun x hx y hy => hlt x hx y (List.mem_cons_of_mem _ hy)⟩
    refine (m.erase k).sorted.ext hs' (fun e => ?_)
    rw [show e = (e.1, e.2) from rfl, mem_entries, get?_erase, List.mem_append]
    refine ⟨fun he => ?_, fun he => ?_⟩
    · split at he
      · cases he
      · rename_i hne
        rw [← mem_entries, hab, List.mem_append, List.mem_cons] at he
        rcases he with he | he | he
        · exact Or.inl he
        · exact absurd (congrArg Prod.fst he) hne
        · exact Or.inr he
    · have hne : e.1 ≠ k := by
        rcases he with he | he
        · exact ne_of_lt (hlt e he (k, v) List.mem_cons_self)
        · exact ne_of_gt (hkb e he)
      rw [if_neg hne, ← mem_entries, hab, List.mem_append, List.mem_cons]
      rcases he with he | he
      · exact Or.inl he
      · exact Or.inr (Or.inr he)

theorem total_set (h : m.get? k = some v) :
    (m.set k v').total f + f k v = m.total f + f k v' := by
  obtain ⟨a, b, hm, hset, _⟩ := entries_split h
  unfold total
  rw [hm, hset]
  simp only [List.map_append, List.map_cons, List.sum_append, List.sum_cons]
  omega

theorem total_erase (h : m.get? k = some v) : (m.erase k).total f + f k v = m.total f := by
  obtain ⟨a, b, hm, _, herase⟩ := entries_split h
  unfold total
  rw [hm, herase]
  simp only [List.map_append, List.map_cons, List.sum_append, List.sum_cons]
  omega

theorem total_set_of_free (h : m.get? k = none) :
    (m.set k v).total f = m.total f + f k v := by
  have hget : (m.set k v).get? k = some v := by rw [get?_set, if_pos rfl]
  have herase := total_erase (f := f) hget
  rw [erase_set, erase_of_free h] at herase
  exact herase.symm

theorem le_total (h : m.get? k = some v) : f k v ≤ m.total f := by
  have := total_erase (f := f) h
  omega

/-- A positive total comes from some entry. -/
theorem exists_of_total_pos (h : 0 < m.total f) : ∃ k v, m.get? k = some v ∧ 0 < f k v := by
  by_contra hno
  have hzero : m.total f = m.total (fun _ _ => 0) := total_congr (fun k v hk => by
    by_contra hne
    exact hno ⟨k, v, hk, Nat.pos_of_ne_zero hne⟩)
  rw [hzero] at h
  unfold total at h
  simp at h

theorem total_mono (h : ∀ k v, m.get? k = some v → f k v ≤ g k v) : m.total f ≤ m.total g := by
  have hle : ∀ e ∈ m.entries, f e.1 e.2 ≤ g e.1 e.2 := fun e he => h e.1 e.2 (mem_entries.mp he)
  unfold total
  generalize m.entries = l at hle
  induction l with
  | nil => exact Nat.le_refl _
  | cons e es ih =>
      rw [List.map_cons, List.map_cons, List.sum_cons, List.sum_cons]
      exact Nat.add_le_add (hle e List.mem_cons_self)
        (ih (fun x hx => hle x (List.mem_cons_of_mem _ hx)))

theorem total_add : m.total (fun k v => f k v + g k v) = m.total f + m.total g := by
  unfold total
  induction m.entries with
  | nil => rfl
  | cons e es ih =>
      rw [List.map_cons, List.map_cons, List.map_cons, List.sum_cons, List.sum_cons, List.sum_cons, ih]
      dsimp only
      omega

/-- A total is bounded by that of a list with the weights of all entries that have one. -/
theorem total_le_sum {γ : Type} {w : α × γ → Nat} {l : List (α × γ)} (hl : (l.map Prod.fst).Nodup)
    (h : ∀ k v, m.get? k = some v → f k v = 0 ∨ ∃ c ∈ l, c.1 = k ∧ f k v = w c) :
    m.total f ≤ (l.map w).sum := by
  induction l generalizing m with
  | nil =>
      refine Nat.le_of_not_lt (fun hpos => ?_)
      obtain ⟨k, v, hk, hpos⟩ := exists_of_total_pos hpos
      rcases h k v hk with hz | ⟨c, hc, _⟩
      · exact absurd hz (Nat.pos_iff_ne_zero.mp hpos)
      · exact absurd hc (by simp)
  | cons c l ih =>
      rw [List.map_cons, List.nodup_cons] at hl
      rw [List.map_cons, List.sum_cons]
      -- without the entry under the first key, the rest of the list will do
      have hrest : (m.erase c.1).total f ≤ (l.map w).sum := by
        refine ih hl.2 (fun k v hk => ?_)
        obtain ⟨hne, hk⟩ := get?_erase_eq_some.mp hk
        rcases h k v hk with hz | ⟨x, hx, hxk, hxw⟩
        · exact Or.inl hz
        · rcases List.mem_cons.mp hx with rfl | hx
          · exact absurd hxk.symm hne
          · exact Or.inr ⟨x, hx, hxk, hxw⟩
      cases hk : m.get? c.1 with
      | none =>
          rw [erase_of_free hk] at hrest
          omega
      | some v =>
          have hsum := total_erase (f := f) hk
          have hw : f c.1 v ≤ w c := by
            rcases h c.1 v hk with hz | ⟨x, hx, hxk, hxw⟩
            · omega
            · rcases List.mem_cons.mp hx with rfl | hx
              · exact Nat.le_of_eq hxw
              · exact absurd (List.mem_map.mpr ⟨x, hx, hxk⟩) hl.1
          omega

theorem size_eq_total : m.size = m.total (fun _ _ => 1) := by
  unfold size total
  simp

theorem size_erase (h : m.get? k = some v) : (m.erase k).size + 1 = m.size := by
  rw [size_eq_total, size_eq_total]
  exact total_erase (f := fun _ _ => 1) h

/-- A map with numbers below `n` as keys has at most `n` entries. -/
theorem size_le {m : Dict Nat β} {n : Nat} (h : ∀ k v, m.get? k = some v → k < n) : m.size ≤ n := by
  have hlen := m.sorted.length_le (a := (List.range n).map (fun k => (k, ()))) (b := ([] : List (Nat × Unit)))
    (fun e he => Or.inl ⟨(e.1, ()), List.mem_map.mpr
      ⟨e.1, List.mem_range.mpr (h e.1 e.2 (mem_entries.mp he)), rfl⟩, rfl⟩)
  rw [List.length_map, List.length_range] at hlen
  exact hlen

/-- How often a value occurs. -/
theorem count_values [DecidableEq β] :
    m.values.count v = m.total (fun _ w => if w = v then 1 else 0) := by
  unfold values total
  induction m.entries with
  | nil => rfl
  | cons e l ih =>
      rw [List.map_cons, List.map_cons, List.count_cons, List.sum_cons, ih, Nat.add_comm]
      dsimp only
      congr 1
      by_cases he : e.2 = v
      · rw [if_pos he, if_pos (beq_iff_eq.mpr he)]
      · rw [if_neg he, if_neg (fun hb => he (beq_iff_eq.mp hb))]

theorem count_values_set_of_free [DecidableEq β] {w : β} (h : m.get? k = none) :
    (m.set k v).values.count w = (v :: m.values).count w := by
  rw [count_values, total_set_of_free h, ← count_values, List.count_cons]
  congr 1
  by_cases hv : v = w
  · rw [if_pos hv, if_pos (beq_iff_eq.mpr hv)]
  · rw [if_neg hv, if_neg (fun hb => hv (beq_iff_eq.mp hb))]

theorem count_values_erase [DecidableEq β] {w : β} (h : m.get? k = some v) :
    (v :: (m.erase k).values).count w = m.values.count w := by
  have hfree : (m.erase k).get? k = none := get?_erase.trans (if_pos rfl)
  rw [← count_values_set_of_free hfree, set_erase, set_of_get? h]

theorem mem_values : v ∈ m.values ↔ ∃ k, m.get? k = some v := by
  unfold values
  rw [List.mem_map]
  exact ⟨fun ⟨e, he, hv⟩ => ⟨e.1, mem_entries.mp (hv ▸ he)⟩, fun ⟨k, hk⟩ => ⟨(k, v), mem_entries.mpr hk, rfl⟩⟩

end Dict
