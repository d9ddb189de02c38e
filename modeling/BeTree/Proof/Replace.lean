import BeTree.Proof.Pieces

/-!
# What a flush does to an inner node

Four things happen to an inner node in a flush: its first pivot is lowered, a
batch is applied to its buffer, the subtree under one pivot is replaced by what
came back from a flush of it, and cached sizes are written. Each keeps the
invariant, and what it does to the value of every key is said here once, for the
fast path and for the rounds of the flush loop alike.
-/

namespace BeTree

open Node

variable {K V : Type} [LinearOrder K] {fresh : Prop} {h : Nat} {R : K → Prop} {n n' : Node K V}
  {ps ps' : PivotMap K V}

/-! ## Cached sizes -/

section Sizes

variable (hps : subtrees ps' = subtrees ps)

include hps

omit [LinearOrder K] in
theorem mem_of_subtrees {e : K × ChildInfo (Node K V)} (he : e ∈ ps') :
    ∃ x ∈ ps, x.1 = e.1 ∧ x.2.child = e.2.child := by
  have hmem : (e.1, e.2.child) ∈ subtrees ps := hps ▸ List.mem_map.mpr ⟨e, he, rfl⟩
  obtain ⟨x, hx, hxe⟩ := List.mem_map.mp hmem
  injection hxe with h1 h2
  exact ⟨x, hx, h1, h2⟩

theorem sorted_of_subtrees (hs : OrdMap.Sorted ps) : OrdMap.Sorted ps' := by
  have hiff : ∀ ps : PivotMap K V, OrdMap.Sorted ps ↔
      (subtrees ps).Pairwise (fun a b => a.1 < b.1) := fun ps => by
    rw [subtrees, List.pairwise_map]; rfl
  rw [hiff] at hs ⊢
  exact hps ▸ hs

theorem slot_of_subtrees {p k : K} (hs : Slot ps p k) : Slot ps' p k := by
  refine ⟨hs.1, fun e he hlt => ?_⟩
  obtain ⟨x, hx, hxe, _⟩ := mem_of_subtrees hps he
  exact hxe ▸ hs.2 x hx (hxe ▸ hlt)

theorem Forest.of_subtrees {P : (K → Prop) → Node K V → Prop} (hP : RangeMono P)
    (hf : Forest P R ps) : Forest P R ps' := by
  refine ⟨sorted_of_subtrees hps hf.sorted, fun e he => ?_, fun e he => ?_⟩
  · obtain ⟨x, hx, hxe, _⟩ := mem_of_subtrees hps he
    exact hxe ▸ hf.range x hx
  · obtain ⟨x, hx, hxe, hxc⟩ := mem_of_subtrees hps he
    rw [← hxe, ← hxc]
    exact hP _ _ _ (fun k hk => ⟨hk.1, slot_of_subtrees hps hk.2⟩) (hf.child x hx)

theorem forestValue_of_subtrees (f : Node K V → K → Option V) (k : K) :
    forestValue f ps' k = forestValue f ps k := by
  have hlast : ∀ ps : PivotMap K V, forestValue f ps k
      = ((subtrees ps).takeWhile (fun e => !decide (k < e.1))).getLast?.elim none
        (fun e => f e.2 k) := fun ps => by
    rw [subtrees, List.takeWhile_map, List.getLast?_map, Option.elim_map]
    unfold forestValue OrdMap.upTo
    change _ = (ps.takeWhile (fun e => !decide (k < e.1))).getLast?.elim _ _
    cases (ps.takeWhile (fun e => !decide (k < e.1))).getLast? <;> rfl
  rw [hlast ps', hlast ps, hps]

/-- **Cached sizes do not matter** to the invariant. -/
theorem Inner.of_subtrees {P : (K → Prop) → Node K V → Prop} (hP : RangeMono P)
    (hn : Inner fresh P R n) (hpn : n.pivots = ps) (hpn' : n'.pivots = ps')
    (hes : n'.elements = n.elements) : Inner fresh P R n' := by
  refine ⟨hes ▸ hn.buffer, hpn' ▸ (hpn ▸ hn.forest).of_subtrees hps hP, ?_, fun e he => ?_,
    fun hf p hp => ?_⟩
  · rw [hpn']
    intro hnil
    have hne := hn.nonempty
    rw [hpn] at hne
    rw [hnil] at hps
    exact hne (List.map_eq_nil_iff.mp hps.symm)
  · obtain ⟨p, hp, hle⟩ := hn.covered e (hes ▸ he)
    rw [hpn] at hp
    obtain ⟨x, hx, hxp, _⟩ := mem_of_subtrees hps.symm hp
    exact ⟨x, hpn' ▸ hx, hxp ▸ hle⟩
  · rw [hpn'] at hp
    obtain ⟨x, hx, _, hxc⟩ := mem_of_subtrees hps hp
    rw [hes, ← hxc]
    exact hn.newer hf x (hpn ▸ hx)

end Sizes

/-! ## Replacing a subtree -/

/-- What came back from a flush of `child` with `batch`: the subtrees that replace it. -/
structure Replacement [Add V] (fresh : Prop) (d : V) (h : Nat) (R : K → Prop) (child : Node K V)
    (batch : MessageMap K V) (mid : PivotMap K V) : Prop where
  forest : Forest (Inv fresh h) R mid
  nonempty : mid ≠ []
  value : fresh → ∀ k,
    forestValue (value d h) mid k = effect d batch k (BeTree.value d h child k)
  messages : ∀ e ∈ mid, KeysFrom e.2.child.messages (child.messages ++ batch)

section Replace

variable [Add V] {d : V} {x : K × ChildInfo (Node K V)} {batch : MessageMap K V}
  {mid : PivotMap K V}

/-- **Replacing the subtree under a pivot** and dropping the messages in its slot. -/
theorem Inner.replace (hn : Inner fresh (Inv fresh h) R n) (hx : x ∈ n.pivots)
    (hbatch : ∀ e ∈ batch, Slot n.pivots x.1 e.1.key)
    (hmid : Replacement fresh d h (fun k => R k ∧ Slot n.pivots x.1 k) x.2.child batch mid)
    (hsp : Spliced n.pivots x.1 mid n'.pivots)
    (hes : n'.elements = n.elements.filter (fun e => decide (¬ Slot n.pivots x.1 e.1.key))) :
    Inner fresh (Inv fresh h) R n' := by
  have hmem : ∀ e ∈ n'.elements, e ∈ n.elements ∧ ¬ Slot n.pivots x.1 e.1.key := fun e he => by
    rw [hes, List.mem_filter, decide_eq_true_eq] at he
    exact he
  refine ⟨?_, hn.forest.splice (inv_mono h) hx hmid.forest hsp, ?_, fun e he => ?_,
    fun hf p hp => ?_⟩
  · rw [hes]
    exact hn.buffer.filter (fun k => decide (¬ Slot n.pivots x.1 k)) (fun k hk _ => hk)
  · obtain ⟨y, hy⟩ := List.exists_mem_of_ne_nil mid hmid.nonempty
    exact List.ne_nil_of_mem ((hsp.mem y).mpr (Or.inr hy))
  · -- a message outside the slot is at or above another pivot
    obtain ⟨hm, hns⟩ := hmem e he
    obtain ⟨p, hp, hpe⟩ := hn.covered e hm
    by_cases hpx : p.1 = x.1
    · have hnext : ∃ q ∈ n.pivots, x.1 < q.1 ∧ q.1 ≤ e.1.key := by
        by_contra hno
        refine hns ⟨hpx ▸ hpe, fun q hq hlt => ?_⟩
        exact lt_of_not_ge (fun hge => hno ⟨q, hq, hlt, hge⟩)
      obtain ⟨q, hq, hlt, hqe⟩ := hnext
      exact ⟨q, (hsp.mem q).mpr (Or.inl ⟨hq, ne_of_gt hlt⟩), hqe⟩
    · exact ⟨p, (hsp.mem p).mpr (Or.inl ⟨hp, hpx⟩), hpe⟩
  · intro e he m hm hkey
    obtain ⟨hem, hns⟩ := hmem e he
    rcases (hsp.mem p).mp hp with ⟨hp, _⟩ | hp
    · exact hn.newer hf p hp e hem m hm hkey
    · obtain ⟨m', hm', hmm⟩ := hmid.messages p hp m hm
      rw [← hmm] at hkey ⊢
      rcases List.mem_append.mp hm' with hm' | hm'
      · exact hn.newer hf x hx e hem m' hm' hkey
      · exact absurd (hkey ▸ hbatch m' hm') hns

/-- In the slot, the value is what the flush of the subtree made of it. -/
theorem value_replace_slot {k : K} (hfresh : fresh) (hn : Inner fresh (Inv fresh h) R n) (hx : x ∈ n.pivots)
    (hmid : Replacement fresh d h (fun k => R k ∧ Slot n.pivots x.1 k) x.2.child batch mid)
    (hsp : Spliced n.pivots x.1 mid n'.pivots)
    (hes : n'.elements = n.elements.filter (fun e => decide (¬ Slot n.pivots x.1 e.1.key)))
    (hk : Slot n.pivots x.1 k) :
    value d (h + 1) n' k = effect d batch k (value d h x.2.child k) := by
  have habs : ∀ e ∈ n'.elements, e.1.key ≠ k := by
    intro e he hek
    rw [hes, List.mem_filter, decide_eq_true_eq] at he
    exact he.2 (hek ▸ hk)
  rw [value, effect_of_absent habs, forestValue_splice_slot hn.forest hx hmid.forest hsp hk,
    hmid.value hfresh]

/-- Outside the slot, it is unchanged. -/
theorem value_replace_ne {k : K} (hn : Inner fresh (Inv fresh h) R n) (hx : x ∈ n.pivots)
    (hmid : Replacement fresh d h (fun k => R k ∧ Slot n.pivots x.1 k) x.2.child batch mid)
    (hsp : Spliced n.pivots x.1 mid n'.pivots)
    (hes : n'.elements = n.elements.filter (fun e => decide (¬ Slot n.pivots x.1 e.1.key)))
    (hk : ¬ Slot n.pivots x.1 k) : value d (h + 1) n' k = value d (h + 1) n k := by
  have hof : ofKey n'.elements k = ofKey n.elements k := by
    rw [hes, ofKey_filter (fun k => decide (¬ Slot n.pivots x.1 k)), if_pos (decide_eq_true hk)]
  rw [value, value, effect, effect, hof, forestValue_splice_ne hn.forest hx hmid.forest hsp hk]

/-- The value of a key in a slot. -/
theorem value_of_slot {k : K} (hn : Inner fresh (Inv fresh h) R n) (hx : x ∈ n.pivots)
    (hk : Slot n.pivots x.1 k) :
    value d (h + 1) n k = effect d n.elements k (value d h x.2.child k) := by
  rw [value, forestValue_of_slot hn.forest.sorted hx hk]

theorem messages_replace (hx : x ∈ n.pivots)
    (hmid : Replacement fresh d h (fun k => R k ∧ Slot n.pivots x.1 k) x.2.child batch mid)
    (hsp : Spliced n.pivots x.1 mid n'.pivots)
    (hes : n'.elements = n.elements.filter (fun e => decide (¬ Slot n.pivots x.1 e.1.key))) :
    KeysFrom n'.messages (n.messages ++ batch) := by
  intro m hm
  rcases mem_messages.mp hm with hm | ⟨p, hp, hm⟩
  · rw [hes] at hm
    exact ⟨m, List.mem_append_left _ (mem_messages.mpr (Or.inl (List.mem_filter.mp hm).1)), rfl⟩
  · rcases (hsp.mem p).mp hp with ⟨hp, _⟩ | hp
    · exact ⟨m, List.mem_append_left _ (mem_messages.mpr (Or.inr ⟨p, hp, hm⟩)), rfl⟩
    · obtain ⟨m', hm', hmm⟩ := hmid.messages p hp m hm
      rcases List.mem_append.mp hm' with hm' | hm'
      · exact ⟨m', List.mem_append_left _ (mem_messages.mpr (Or.inr ⟨x, hx, hm'⟩)), hmm⟩
      · exact ⟨m', List.mem_append_right _ hm', hmm⟩

/-- A child that was not split goes back under its pivot. -/
theorem replacement_single {c : ChildInfo (Node K V)} {child : Node K V} {p : K} (hp : R p)
    (hle : ∀ k, R k → p ≤ k) (hchild : Inv fresh h R child) (hc : Inv fresh h R c.child)
    (hb : ∀ e ∈ batch, R e.1.key)
    (hv : fresh → ∀ k, value d h c.child k = effect d batch k (value d h child k))
    (hm : KeysFrom c.child.messages (child.messages ++ batch)) :
    Replacement fresh d h R child batch [(p, c)] := by
  refine ⟨forest_singleton (inv_mono h) hp hle hc, by simp, fun hf k => ?_, fun e he => ?_⟩
  · by_cases hk : p ≤ k
    · rw [← hv hf k]
      refine forestValue_of_slot (e := (p, c)) (OrdMap.sorted_singleton _) List.mem_cons_self
        ⟨hk, fun y hy hlt => ?_⟩
      rw [List.mem_singleton.mp hy] at hlt
      exact absurd hlt (lt_irrefl _)
    · -- nothing below the pivot is in the subtree's range
      have hnr : ¬ R k := fun hr => hk (hle k hr)
      have habs : ∀ e ∈ batch, e.1.key ≠ k := fun e he hek => hnr (hek ▸ hb e he)
      rw [hchild.value_of_not_range hnr, effect_of_absent habs]
      refine forestValue_of_below (OrdMap.sorted_singleton _) (fun e he => ?_)
      rw [List.mem_singleton.mp he]
      exact not_le.mp hk
  · rw [List.mem_singleton.mp he]
    exact hm

end Replace

/-! ## Lowering the first pivot -/

/-- What lowering the first pivot gives. -/
theorem lowerFirstPivot_pivots (e : MessageKey K × Message V) (elts : MessageMap K V)
    {p : K × ChildInfo (Node K V)} {rest : PivotMap K V} (hs : OrdMap.Sorted (p :: rest))
    (hp : n.pivots = p :: rest) :
    (n.lowerFirstPivot (e :: elts)).pivots = (min e.1.key p.1, p.2) :: rest := by
  obtain ⟨hlt, _⟩ := OrdMap.sorted_cons.mp hs
  unfold lowerFirstPivot
  rw [hp]
  dsimp only
  split
  · rename_i hnew
    rw [min_eq_left (le_of_lt hnew)]
    have hbelow : ∀ x ∈ p :: rest, e.1.key < x.1 := by
      intro x hx
      rcases List.mem_cons.mp hx with rfl | hx
      · exact hnew
      · exact lt_trans hnew (hlt x hx)
    -- the new key goes in front, and then the old first key is erased
    have hassign : OrdMap.assign (p :: rest) e.1.key p.2 = (e.1.key, p.2) :: p :: rest := by
      rw [OrdMap.assign_eq hs,
        List.filter_eq_nil_iff.mpr (fun x hx => by simpa using le_of_lt (hbelow x hx)),
        List.filter_eq_self.mpr (fun x hx => by simpa using hbelow x hx)]
      rfl
    have hs' : OrdMap.Sorted ((e.1.key, p.2) :: p :: rest) :=
      OrdMap.sorted_cons.mpr ⟨hbelow, hs⟩
    have hs'' : OrdMap.Sorted ((e.1.key, p.2) :: rest) :=
      hs'.sublist (List.Sublist.cons_cons _ (List.sublist_cons_self _ _))
    show OrdMap.erase (OrdMap.assign (p :: rest) e.1.key p.2) p.1 = _
    rw [hassign]
    refine OrdMap.Sorted.ext (OrdMap.sorted_eraseBetween hs' (le_refl _)) hs'' (fun x => ?_)
    rw [OrdMap.erase, OrdMap.mem_eraseBetween hs', List.mem_cons, List.mem_cons, List.mem_cons]
    refine ⟨fun hx => ?_, fun hx => ?_⟩
    · rcases hx with ⟨rfl | rfl | hx, hne⟩
      · exact Or.inl rfl
      · rcases hne with hne | hne <;> exact absurd hne (lt_irrefl _)
      · exact Or.inr hx
    · rcases hx with rfl | hx
      · exact ⟨Or.inl rfl, Or.inl hnew⟩
      · exact ⟨Or.inr (Or.inr hx), Or.inr (hlt x hx)⟩
  · rename_i hnew
    rw [min_eq_right (not_lt.mp hnew), hp]

theorem lowerFirstPivot_elements (n : Node K V) (elts : MessageMap K V) :
    (n.lowerFirstPivot elts).elements = n.elements := by
  unfold lowerFirstPivot
  repeat' split
  all_goals rfl

theorem lowerFirstPivot_id (n : Node K V) (elts : MessageMap K V) :
    (n.lowerFirstPivot elts).id = n.id := by
  unfold lowerFirstPivot
  repeat' split
  all_goals rfl

section Lower

variable {p : K × ChildInfo (Node K V)} {rest : PivotMap K V} {q : K}

/-- The slots of a pivot map do not shrink when the first pivot is lowered. -/
theorem slot_lower {e : K × ChildInfo (Node K V)} {k : K} (hs : OrdMap.Sorted (p :: rest))
    (hq : q ≤ p.1) (he : e ∈ p :: rest) (hk : Slot (p :: rest) e.1 k) :
    Slot ((q, p.2) :: rest) e.1 k := by
  refine ⟨hk.1, fun x hx hlt => ?_⟩
  rcases List.mem_cons.mp hx with rfl | hx
  · -- nothing of the map lies below its first pivot
    have hpe : p.1 ≤ e.1 := by
      rcases List.mem_cons.mp he with rfl | he
      · exact le_refl _
      · exact le_of_lt ((OrdMap.sorted_cons.mp hs).1 e he)
    exact absurd hlt (not_lt.mpr (le_trans hq hpe))
  · exact hk.2 x (List.mem_cons_of_mem _ hx) hlt

theorem slot_lower_first {k : K} (hs : OrdMap.Sorted (p :: rest)) (hq : q ≤ p.1)
    (hk : Slot (p :: rest) p.1 k) : Slot ((q, p.2) :: rest) q k := by
  have h' := slot_lower hs hq List.mem_cons_self hk
  refine ⟨le_trans hq hk.1, fun x hx hlt => ?_⟩
  rcases List.mem_cons.mp hx with rfl | hx
  · exact absurd hlt (lt_irrefl _)
  · exact h'.2 x (List.mem_cons_of_mem _ hx) ((OrdMap.sorted_cons.mp hs).1 x hx)

theorem sorted_lower (hs : OrdMap.Sorted (p :: rest)) (hq : q ≤ p.1) :
    OrdMap.Sorted ((q, p.2) :: rest) := by
  obtain ⟨hlt, hrest⟩ := OrdMap.sorted_cons.mp hs
  exact OrdMap.sorted_cons.mpr ⟨fun x hx => lt_of_le_of_lt hq (hlt x hx), hrest⟩

theorem Forest.lower (hf : Forest (Inv fresh h) R (p :: rest)) (hq : q ≤ p.1) (hR : R q) :
    Forest (Inv fresh h) R ((q, p.2) :: rest) := by
  refine ⟨sorted_lower hf.sorted hq, fun e he => ?_, fun e he => ?_⟩
  · rcases List.mem_cons.mp he with rfl | he
    · exact hR
    · exact hf.range e (List.mem_cons_of_mem _ he)
  · rcases List.mem_cons.mp he with rfl | he
    · exact inv_mono h _ _ _ (fun k hk => ⟨hk.1, slot_lower_first hf.sorted hq hk.2⟩)
        (hf.child p List.mem_cons_self)
    · exact inv_mono h _ _ _
        (fun k hk => ⟨hk.1, slot_lower hf.sorted hq (List.mem_cons_of_mem _ he) hk.2⟩)
        (hf.child e (List.mem_cons_of_mem _ he))

theorem forestValue_lower [Add V] {d : V} (hf : Forest (Inv fresh h) R (p :: rest)) (hq : q ≤ p.1)
    (k : K) :
    forestValue (value d h) ((q, p.2) :: rest) k = forestValue (value d h) (p :: rest) k := by
  have hs' := sorted_lower hf.sorted hq
  rcases slot_or_below (p :: rest) k with ⟨e, he, hk⟩ | hb
  · rw [forestValue_of_slot hf.sorted he hk]
    rcases List.mem_cons.mp he with rfl | he'
    · exact forestValue_of_slot (e := (q, e.2)) hs' List.mem_cons_self
        (slot_lower_first hf.sorted hq hk)
    · exact forestValue_of_slot hs' (List.mem_cons_of_mem _ he') (slot_lower hf.sorted hq he hk)
  · rw [forestValue_of_below hf.sorted hb]
    by_cases hqk : q ≤ k
    · -- the keys between the new pivot and the old one have no value in the first child
      have hslot : Slot ((q, p.2) :: rest) q k := by
        refine ⟨hqk, fun x hx hlt => ?_⟩
        rcases List.mem_cons.mp hx with rfl | hx
        · exact absurd hlt (lt_irrefl _)
        · exact hb x (List.mem_cons_of_mem _ hx)
      rw [forestValue_of_slot (e := (q, p.2)) hs' List.mem_cons_self hslot]
      exact hf.value_of_not_slot (e := p) List.mem_cons_self
        (fun hsl => absurd (hb p List.mem_cons_self) (not_lt.mpr hsl.1))
    · refine forestValue_of_below hs' (fun x hx => ?_)
      rcases List.mem_cons.mp hx with rfl | hx
      · exact not_le.mp hqk
      · exact hb x (List.mem_cons_of_mem _ hx)

end Lower

/-! ## A node that stands for a given map -/

/-- Node `n` keeps the invariant, says `f` about the keys, and has its messages from `src`. -/
structure Represents [Add V] (fresh : Prop) (d : V) (h : Nat) (R : K → Prop) (src : MessageMap K V)
    (f : K → Option V) (n : Node K V) : Prop where
  inv : Inv fresh h R n
  value : fresh → ∀ k, value d h n k = f k
  messages : KeysFrom n.messages src

section Represents

variable [Add V] {d : V} {src : MessageMap K V} {f : K → Option V} {elts : MessageMap K V}

/-- Every node of a tree stands for what it says itself. -/
theorem represents_self (hn : Inv fresh h R n) :
    Represents fresh d h R n.messages (value d h n) n :=
  ⟨hn, fun _ _ => rfl, KeysFrom.of_subset (fun _ hm => hm)⟩

/-- Lowering the first pivot to the smallest key of a batch. -/
theorem Represents.lowerFirstPivot (elts : MessageMap K V) {e : MessageKey K × Message V}
    (hn : Represents fresh d (h + 1) R src f n) (hR : R e.1.key) :
    Represents fresh d (h + 1) R src f (n.lowerFirstPivot (e :: elts))
      ∧ ∃ p ∈ (n.lowerFirstPivot (e :: elts)).pivots, p.1 ≤ e.1.key := by
  have hinner : Inner fresh (Inv fresh h) R n := hn.inv
  obtain ⟨p, rest, hp⟩ := List.exists_cons_of_ne_nil hinner.nonempty
  have hf := hinner.forest
  rw [hp] at hf
  have hpiv := lowerFirstPivot_pivots e elts hf.sorted hp
  have hes := lowerFirstPivot_elements n (e :: elts)
  have hle : min e.1.key p.1 ≤ p.1 := min_le_right _ _
  have hq : R (min e.1.key p.1) := by
    rcases le_total e.1.key p.1 with hmin | hmin
    · rw [min_eq_left hmin]; exact hR
    · rw [min_eq_right hmin]; exact hf.range p List.mem_cons_self
  -- every child is still there
  have hkids : ∀ x ∈ (n.lowerFirstPivot (e :: elts)).pivots,
      ∃ y ∈ n.pivots, y.2 = x.2 := by
    rw [hpiv, hp]
    intro x hx
    rcases List.mem_cons.mp hx with rfl | hx
    · exact ⟨p, List.mem_cons_self, rfl⟩
    · exact ⟨x, List.mem_cons_of_mem _ hx, rfl⟩
  refine ⟨⟨⟨hes ▸ hinner.buffer, hpiv ▸ hf.lower hle hq, ?_, fun m hm => ?_, fun hfr x hx => ?_⟩,
    fun hfr k => ?_, fun m hm => ?_⟩, ?_⟩
  · rw [hpiv]; exact List.cons_ne_nil _ _
  · rw [hes] at hm
    obtain ⟨x, hx, hxm⟩ := hinner.covered m hm
    rw [hp] at hx
    rw [hpiv]
    rcases List.mem_cons.mp hx with rfl | hx
    · exact ⟨_, List.mem_cons_self, le_trans hle hxm⟩
    · exact ⟨x, List.mem_cons_of_mem _ hx, hxm⟩
  · obtain ⟨y, hy, hyx⟩ := hkids x hx
    rw [hes, ← hyx]
    exact hinner.newer hfr y hy
  · rw [← hn.value hfr k, BeTree.value, BeTree.value, hes, hpiv, hp, forestValue_lower hf hle]
  · refine hn.messages m ?_
    rcases mem_messages.mp hm with hm | ⟨x, hx, hm⟩
    · exact mem_messages.mpr (Or.inl (hes ▸ hm))
    · obtain ⟨y, hy, hyx⟩ := hkids x hx
      exact mem_messages.mpr (Or.inr ⟨y, hy, hyx ▸ hm⟩)
  · rw [hpiv]
    exact ⟨_, List.mem_cons_self, min_le_left _ _⟩

/-- Applying a batch to the buffer of an inner node. -/
theorem Represents.applyAll (hn : Represents fresh d (h + 1) R src f n) (hb : Batch fresh R elts)
    (hnew : fresh → Newer elts n.messages)
    (hcov : ∀ e ∈ elts, ∃ p ∈ n.pivots, p.1 ≤ e.1.key) :
    Represents fresh d (h + 1) R (src ++ elts) (fun k => effect d elts k (f k)) (n.applyAll elts d) := by
  have hinner : Inner fresh (Inv fresh h) R n := hn.inv
  have hl : n.isLeaf = false := by rw [hn.inv.isLeaf]; rfl
  have hown : fresh → Newer elts n.elements :=
    fun hf e he m hm => hnew hf e he m (mem_messages.mpr (Or.inl hm))
  have happ := applyAll_applied (d := d) (hl ▸ hinner.buffer) hb hown
  have hbuf := happ.buffer
  rw [hl] at hbuf
  refine ⟨⟨hbuf, happ.pivots ▸ hinner.forest, happ.pivots ▸ hinner.nonempty, fun m hm => ?_,
    fun hf x hx m hm y hy hkey => ?_⟩, fun hf k => ?_, fun m hm => ?_⟩
  · rw [happ.pivots]
    rcases happ.stored m hm with ⟨e, he, hem⟩ | hm
    · exact hem ▸ hcov e he
    · exact hinner.covered m hm
  · rw [happ.pivots] at hx
    rcases happ.stored m hm with ⟨e, he, hem⟩ | hm
    · rw [← hem] at hkey ⊢
      exact hnew hf e he y (mem_messages.mpr (Or.inr ⟨x, hx, hy⟩)) hkey
    · exact hinner.newer hf x hx m hm y hy hkey
  · have hv := hn.value hf k
    rw [BeTree.value] at hv ⊢
    rw [happ.composed hf k _ (by rw [hl]; exact fun hc => absurd hc (by simp)), happ.pivots, hv]
  · rcases mem_messages.mp hm with hm | ⟨x, hx, hm⟩
    · rcases happ.stored m hm with ⟨e, he, hem⟩ | hm
      · exact ⟨e, List.mem_append_right _ he, hem⟩
      · obtain ⟨m', hm', hmm⟩ := hn.messages m (mem_messages.mpr (Or.inl hm))
        exact ⟨m', List.mem_append_left _ hm', hmm⟩
    · rw [happ.pivots] at hx
      obtain ⟨m', hm', hmm⟩ := hn.messages m (mem_messages.mpr (Or.inr ⟨x, hx, hm⟩))
      exact ⟨m', List.mem_append_left _ hm', hmm⟩

/-- Applying a batch to a leaf. -/
theorem Represents.applyAll_leaf (hn : Represents fresh d 0 R src f n) (hb : Batch fresh R elts)
    (hnew : fresh → Newer elts n.messages) :
    Represents fresh d 0 R (src ++ elts) (fun k => effect d elts k (f k)) (n.applyAll elts d) := by
  have hl : n.isLeaf = true := by rw [hn.inv.isLeaf]; rfl
  have hinv : n.pivots = [] ∧ Buffer fresh true R n.elements := hn.inv
  have hown : fresh → Newer elts n.elements :=
    fun hf e he m hm => hnew hf e he m (mem_messages.mpr (Or.inl hm))
  have happ := applyAll_applied (d := d) (hl ▸ hinv.2) hb hown
  have hbuf := happ.buffer
  rw [hl] at hbuf
  refine ⟨⟨happ.pivots.trans hinv.1, hbuf⟩, fun hf k => ?_, fun m hm => ?_⟩
  · have hv := hn.value hf k
    rw [BeTree.value] at hv ⊢
    rw [happ.composed hf k none (fun _ => rfl), hv]
  · rcases mem_messages.mp hm with hm | ⟨x, hx, hm⟩
    · rcases happ.stored m hm with ⟨e, he, hem⟩ | hm
      · exact ⟨e, List.mem_append_right _ he, hem⟩
      · obtain ⟨m', hm', hmm⟩ := hn.messages m (mem_messages.mpr (Or.inl hm))
        exact ⟨m', List.mem_append_left _ hm', hmm⟩
    · rw [happ.pivots, hinv.1] at hx
      exact absurd hx (by simp)

theorem Represents.of_subtrees (hn : Represents fresh d (h + 1) R src f n)
    (hps : subtrees n'.pivots = subtrees n.pivots) (hes : n'.elements = n.elements) :
    Represents fresh d (h + 1) R src f n' := by
  refine ⟨Inner.of_subtrees hps (inv_mono h) hn.inv rfl rfl hes, fun hf k => ?_, fun m hm => ?_⟩
  · rw [← hn.value hf k, BeTree.value, BeTree.value, hes, forestValue_of_subtrees hps]
  · refine hn.messages m ?_
    rcases mem_messages.mp hm with hm | ⟨x, hx, hm⟩
    · exact mem_messages.mpr (Or.inl (hes ▸ hm))
    · obtain ⟨y, hy, _, hyx⟩ := mem_of_subtrees hps hx
      exact mem_messages.mpr (Or.inr ⟨y, hy, hyx ▸ hm⟩)

variable {x : K × ChildInfo (Node K V)} {mid : PivotMap K V}

/-- The messages in a slot and nothing else are flushed to the child under it. -/
theorem Represents.flush_slot (hn : Represents fresh d (h + 1) R src f n) (hx : x ∈ n.pivots)
    (hmid : Replacement fresh d h (fun k => R k ∧ Slot n.pivots x.1 k) x.2.child
      (n.elements.filter (fun e => decide (Slot n.pivots x.1 e.1.key))) mid)
    (hsp : Spliced n.pivots x.1 mid n'.pivots)
    (hes : n'.elements = n.elements.filter (fun e => decide (¬ Slot n.pivots x.1 e.1.key))) :
    Represents fresh d (h + 1) R src f n' := by
  have hinner : Inner fresh (Inv fresh h) R n := hn.inv
  refine ⟨hinner.replace hx (fun e he => by simpa using (List.mem_filter.mp he).2) hmid hsp hes,
    fun hf k => ?_, fun m hm => ?_⟩
  · rw [← hn.value hf k]
    by_cases hk : Slot n.pivots x.1 k
    · rw [value_replace_slot hf hinner hx hmid hsp hes hk, value_of_slot hinner hx hk, effect, effect,
        ofKey_filter (fun k => decide (Slot n.pivots x.1 k)), if_pos (decide_eq_true hk)]
    · exact value_replace_ne hinner hx hmid hsp hes hk
  · obtain ⟨m', hm', hmm⟩ := messages_replace hx hmid hsp hes m hm
    have hmem : m' ∈ n.messages := by
      rcases List.mem_append.mp hm' with hm' | hm'
      · exact hm'
      · exact mem_messages.mpr (Or.inl (List.mem_filter.mp hm').1)
    obtain ⟨m'', hm'', hmm'⟩ := hn.messages m' hmem
    exact ⟨m'', hm'', hmm'.trans hmm⟩

/-- A batch goes past the buffer to a child that has nothing buffered for it. -/
theorem Represents.flush_past (hn : Represents fresh d (h + 1) R src f n) (hx : x ∈ n.pivots)
    (hnone : ∀ e ∈ n.elements, ¬ Slot n.pivots x.1 e.1.key)
    (hbatch : ∀ e ∈ elts, Slot n.pivots x.1 e.1.key)
    (hmid : Replacement fresh d h (fun k => R k ∧ Slot n.pivots x.1 k) x.2.child elts mid)
    (hsp : Spliced n.pivots x.1 mid n'.pivots) (hes : n'.elements = n.elements) :
    Represents fresh d (h + 1) R (src ++ elts) (fun k => effect d elts k (f k)) n' := by
  have hinner : Inner fresh (Inv fresh h) R n := hn.inv
  have hes' : n'.elements
      = n.elements.filter (fun e => decide (¬ Slot n.pivots x.1 e.1.key)) := by
    rw [hes]
    exact (List.filter_eq_self.mpr (fun e he => decide_eq_true (hnone e he))).symm
  refine ⟨hinner.replace hx hbatch hmid hsp hes', fun hf k => ?_, fun m hm => ?_⟩
  · rw [← hn.value hf k]
    by_cases hk : Slot n.pivots x.1 k
    · have habs : ∀ e ∈ n.elements, e.1.key ≠ k := fun e he hek => hnone e he (hek ▸ hk)
      rw [value_replace_slot hf hinner hx hmid hsp hes' hk, value_of_slot hinner hx hk,
        effect_of_absent habs]
    · have habs : ∀ e ∈ elts, e.1.key ≠ k := fun e he hek => hk (hek ▸ hbatch e he)
      rw [value_replace_ne hinner hx hmid hsp hes' hk, effect_of_absent habs]
  · obtain ⟨m', hm', hmm⟩ := messages_replace hx hmid hsp hes' m hm
    rcases List.mem_append.mp hm' with hm' | hm'
    · obtain ⟨m'', hm'', hmm'⟩ := hn.messages m' hm'
      exact ⟨m'', List.mem_append_left _ hm'', hmm'.trans hmm⟩
    · exact ⟨m', List.mem_append_right _ hm', hmm⟩

end Represents

end BeTree
