import BeTree.Proof.Split

/-!
# The pieces of a split node

The nodes a split makes form a forest for the keys of the node that was split, and
that forest says about every key what the node said. A piece gets exactly the
messages and pivots in the slot of its key, so a key's messages stay together.
-/

namespace BeTree

variable {K V : Type} [LinearOrder K] {fresh : Prop} {h : Nat} {R : K → Prop} {this : Node K V}

/-- In a leaf every key has one message. -/
theorem Buffer.leaf_keys {es : MessageMap K V} (hb : Buffer fresh true R es) :
    es.Pairwise (fun a b => a.1.key < b.1.key) := by
  refine hb.sorted.imp_of_mem (fun {a b} ha hb' hlt => ?_)
  rcases MessageKey.lt_iff.mp hlt with hk | ⟨hk, _⟩
  · exact hk
  · exfalso
    have hma : a ∈ ofKey es b.1.key := mem_ofKey.mpr ⟨ha, hk⟩
    have hmb : b ∈ ofKey es b.1.key := mem_ofKey.mpr ⟨hb', rfl⟩
    have hab : a = b := by
      rcases hb.form (Or.inl rfl) b.1.key with hform | hform
      · rw [List.map_eq_nil_iff.mp hform] at hma
        exact absurd hma (by simp)
      · obtain ⟨x, hx, _⟩ := List.map_eq_singleton_iff.mp hform
        rw [hx] at hma hmb
        rw [List.mem_singleton.mp hma, List.mem_singleton.mp hmb]
    rw [hab] at hlt
    exact lt_irrefl _ hlt

theorem Inv.splittable (hn : Inv fresh h R this) : Node.Splittable this := by
  cases h with
  | zero =>
      refine ⟨by rw [hn.1]; exact OrdMap.sorted_nil, hn.2.sorted, fun _ => hn.2.leaf_keys,
        fun hl => ?_⟩
      rw [hn.isLeaf] at hl
      exact absurd hl (by simp)
  | succ h =>
      refine ⟨hn.forest.sorted, hn.buffer.sorted, fun hl => ?_, fun _ => hn.covered⟩
      rw [Inv.isLeaf (h := h + 1) hn] at hl
      exact absurd hl (by simp)

namespace Node

variable {st : SplitState K V} {res : PivotMap K V} {e : K × ChildInfo (Node K V)}

theorem Partition.piece_of (hp : Partition this st (subtrees res)) (he : e ∈ res) :
    Piece this.isLeaf (e.1, e.2.child) :=
  hp.piece _ (List.mem_map.mpr ⟨e, he, rfl⟩)

theorem Partition.below_of (hp : Partition this st (subtrees res)) (he : e ∈ res)
    {x : K × ChildInfo (Node K V)} (hx : x ∈ res) (hlt : e.1 < x.1) :
    Below (e.1, e.2.child) x.1 := by
  have hord := hp.ordered
  rw [subtrees, List.pairwise_map] at hord
  obtain ⟨l, r, hlr⟩ := List.append_of_mem he
  have hs := hp.sorted
  rw [hlr] at hord hs hx
  rcases List.mem_append.mp hx with hx | hx
  · exact absurd ((OrdMap.sorted_append.mp hs).2.2 x hx e List.mem_cons_self) (not_lt_of_gt hlt)
  rcases List.mem_cons.mp hx with rfl | hx
  · exact absurd hlt (lt_irrefl _)
  · exact (List.pairwise_cons.mp (List.pairwise_append.mp hord).2.1).1 x hx

/-- What is in a piece is in its slot. -/
theorem Partition.slot_elements (hp : Partition this st (subtrees res)) (he : e ∈ res)
    {m : MessageKey K × Message V} (hm : m ∈ e.2.child.elements) : Slot res e.1 m.1.key :=
  ⟨(hp.piece_of he).elements m hm, fun _ hx hlt => (hp.below_of he hx hlt).elements m hm⟩

theorem Partition.slot_pivots (hp : Partition this st (subtrees res)) (he : e ∈ res)
    {p : K × ChildInfo (Node K V)} (hm : p ∈ e.2.child.pivots) : Slot res e.1 p.1 :=
  ⟨(hp.piece_of he).pivots p hm, fun _ hx hlt => (hp.below_of he hx hlt).pivots p hm⟩

section Whole

variable (hp : Partition this ⟨[], [], this.size⟩ (subtrees res))

include hp

theorem Partition.mem_pivots {p : K × ChildInfo (Node K V)} :
    p ∈ this.pivots ↔ ∃ x ∈ res, p ∈ x.2.child.pivots := by
  have := hp.pivots
  rw [List.append_nil, subtrees, List.flatMap_map] at this
  rw [← this, List.mem_flatMap]

theorem Partition.mem_elements {m : MessageKey K × Message V} :
    m ∈ this.elements ↔ ∃ x ∈ res, m ∈ x.2.child.elements := by
  have := hp.elements
  rw [List.append_nil, subtrees, List.flatMap_map] at this
  rw [← this, List.mem_flatMap]

/-- Two entries whose slots hold one key are one entry. -/
theorem Partition.eq_of_slot {x : K × ChildInfo (Node K V)} {k : K} (he : e ∈ res) (hx : x ∈ res)
    (hs : Slot res e.1 k) (hs' : Slot res x.1 k) : e = x :=
  hp.sorted.eq_of_key he hx (Slot.unique he hx hs hs')

/-- A piece has the messages in its slot. -/
theorem Partition.elements_eq (hes : OrdMap.Sorted this.elements) (he : e ∈ res) :
    e.2.child.elements = this.elements.filter (fun m => decide (Slot res e.1 m.1.key)) := by
  have hsub : e.2.child.elements.Sublist this.elements := by
    have := hp.elements
    rw [List.append_nil, subtrees, List.flatMap_map] at this
    rw [← this]
    exact List.sublist_flatten_of_mem (List.mem_map.mpr ⟨e, he, rfl⟩)
  refine OrdMap.Sorted.ext (hes.sublist hsub) (hes.filter _) (fun m => ?_)
  rw [List.mem_filter, decide_eq_true_eq]
  refine ⟨fun hm => ⟨hsub.subset hm, hp.slot_elements he hm⟩, fun hm => ?_⟩
  obtain ⟨x, hx, hmx⟩ := hp.mem_elements.mp hm.1
  rw [hp.eq_of_slot he hx hm.2 (hp.slot_elements hx hmx)]
  exact hmx

/-- A piece has the pivots in its slot. -/
theorem Partition.mem_pivots_of_slot {p : K × ChildInfo (Node K V)} (he : e ∈ res)
    (hpm : p ∈ this.pivots) (hs : Slot res e.1 p.1) : p ∈ e.2.child.pivots := by
  obtain ⟨x, hx, hpx⟩ := hp.mem_pivots.mp hpm
  rw [hp.eq_of_slot he hx hs (hp.slot_pivots hx hpx)]
  exact hpx

theorem Partition.ne_nil (hsize : 0 < this.size) : res ≠ [] := by
  intro hnil
  have hpiv := hp.pivots
  have helt := hp.elements
  rw [hnil] at hpiv helt
  rw [Node.size, ← hpiv, ← helt] at hsize
  exact absurd hsize (by simp [subtrees])

/-- The messages of the pieces' subtrees are those of the node's. -/
theorem Partition.messages {m : MessageKey K × Message V} (he : e ∈ res)
    (hm : m ∈ e.2.child.messages) : m ∈ this.messages := by
  rcases mem_messages.mp hm with hm | ⟨p, hpm, hm⟩
  · exact mem_messages.mpr (Or.inl (hp.mem_elements.mpr ⟨e, he, hm⟩))
  · exact mem_messages.mpr (Or.inr ⟨p, hp.mem_pivots.mpr ⟨e, he, hpm⟩, hm⟩)

/-- The keys of a split inner node's pieces are pivots of the node. -/
theorem Partition.key_pivot (hl : this.isLeaf = false) (he : e ∈ res) :
    ∃ p ∈ this.pivots, p.1 = e.1 := by
  obtain ⟨p, hpm, hpe⟩ := (hp.piece_of he).ofInner hl
  exact ⟨p, hp.mem_pivots.mpr ⟨e, he, hpm⟩, hpe⟩

/-- The slot of a pivot lies in the slot of its piece. -/
theorem Partition.slot_of_pivot (hl : this.isLeaf = false) {p : K × ChildInfo (Node K V)} {k : K}
    (he : e ∈ res) (hpm : p ∈ e.2.child.pivots) (hk : Slot this.pivots p.1 k) :
    Slot res e.1 k := by
  refine ⟨le_trans ((hp.piece_of he).pivots p hpm) hk.1, fun x hx hlt => ?_⟩
  obtain ⟨q, hq, hqx⟩ := hp.key_pivot hl hx
  rw [← hqx]
  exact hk.2 q hq (hqx ▸ (hp.below_of he hx hlt).pivots p hpm)

theorem Partition.inv_piece (hn : Inv fresh h R this) (he : e ∈ res) :
    R e.1 ∧ Inv fresh h (fun k => R k ∧ Slot res e.1 k) e.2.child := by
  have hpiece := hp.piece_of he
  have hleaf := hn.isLeaf
  cases h with
  | zero =>
      obtain ⟨hpiv, m, hm, hme⟩ := hpiece.ofLeaf (by rw [hleaf]; rfl)
      refine ⟨hme ▸ hn.2.range m (hp.mem_elements.mpr ⟨e, he, hm⟩), hpiv, ?_⟩
      rw [hp.elements_eq hn.2.sorted he]
      exact hn.2.filter (fun k => decide (Slot res e.1 k))
        (fun k hk hs => ⟨hk, of_decide_eq_true hs⟩)
  | succ h =>
      have hl : this.isLeaf = false := by rw [hleaf]; rfl
      have hn : Inner fresh (Inv fresh h) R this := hn
      obtain ⟨p, hpm, hpe⟩ := hpiece.ofInner hl
      have hsub : ∀ q ∈ e.2.child.pivots, q ∈ this.pivots :=
        fun q hq => hp.mem_pivots.mpr ⟨e, he, hq⟩
      have hsubl : e.2.child.pivots.Sublist this.pivots := by
        have := hp.pivots
        rw [List.append_nil, subtrees, List.flatMap_map] at this
        rw [← this]
        exact List.sublist_flatten_of_mem (List.mem_map.mpr ⟨e, he, rfl⟩)
      have hels : ∀ m ∈ e.2.child.elements, m ∈ this.elements :=
        fun m hm => hp.mem_elements.mpr ⟨e, he, hm⟩
      refine ⟨hpe ▸ hn.forest.range p (hsub p hpm), ?_, ⟨hn.forest.sorted.sublist hsubl, ?_, ?_⟩,
        List.ne_nil_of_mem hpm, fun m hm => ⟨p, hpm, ?_⟩, fun hf q hq m hm x hx => ?_⟩
      · rw [hp.elements_eq hn.buffer.sorted he]
        exact hn.buffer.filter (fun k => decide (Slot res e.1 k))
          (fun k hk hs => ⟨hk, of_decide_eq_true hs⟩)
      · exact fun q hq => ⟨hn.forest.range q (hsub q hq), hp.slot_pivots he hq⟩
      · intro q hq
        -- a child keeps its slot, which lies within the slot of its piece
        refine inv_mono h _ _ _ (fun k hk => ?_) (hn.forest.child q (hsub q hq))
        exact ⟨⟨hk.1, hp.slot_of_pivot hl he hq hk.2⟩, hk.2.1,
          fun x hx hlt => hk.2.2 x (hsub x hx) hlt⟩
      · rw [hpe]
        exact hpiece.elements m hm
      · exact hn.newer hf q (hsub q hq) m (hels m hm) x hx

/-- **The pieces of a node** form a forest for its keys. -/
theorem Partition.forest (hn : Inv fresh h R this) : Forest (Inv fresh h) R res :=
  ⟨hp.sorted, fun _ he => (hp.inv_piece hn he).1, fun _ he => (hp.inv_piece hn he).2⟩

/-- **The pieces say** about every key what the node said. -/
theorem Partition.value [Add V] {d : V} (hn : Inv fresh h R this) (k : K) :
    forestValue (value d h) res k = BeTree.value d h this k := by
  have hes := hn.splittable.elements
  rcases slot_or_below res k with ⟨e, he, hs⟩ | hb
  · have heff : ∀ old, effect d e.2.child.elements k old = effect d this.elements k old := by
      intro old
      rw [effect, effect, hp.elements_eq hes he, ofKey_filter (fun k => decide (Slot res e.1 k)),
        if_pos (decide_eq_true hs)]
    rw [forestValue_of_slot hp.sorted he hs]
    cases h with
    | zero => exact heff none
    | succ h =>
        have hl : this.isLeaf = false := by rw [hn.isLeaf]; rfl
        have hn' : Inner fresh (Inv fresh h) R this := hn
        have hpe : Inner fresh (Inv fresh h) _ e.2.child := (hp.inv_piece hn he).2
        show effect d e.2.child.elements k _ = effect d this.elements k _
        rw [heff]
        -- the child responsible for `k` is in the piece responsible for `k`
        rcases slot_or_below this.pivots k with ⟨p, hpm, hps⟩ | hb
        · have hpe' : p ∈ e.2.child.pivots := by
            refine hp.mem_pivots_of_slot he hpm ?_
            obtain ⟨x, hx, hpx⟩ := hp.mem_pivots.mp hpm
            rw [hp.eq_of_slot he hx hs (hp.slot_of_pivot hl hx hpx hps)]
            exact hp.slot_pivots hx hpx
          rw [forestValue_of_slot hn'.forest.sorted hpm hps,
            forestValue_of_slot hpe.forest.sorted hpe'
              ⟨hps.1, fun x hx => hps.2 x (hp.mem_pivots.mpr ⟨e, he, hx⟩)⟩]
        · obtain ⟨q, hq, hqe⟩ := hp.key_pivot hl he
          exact absurd (hb q hq) (not_lt.mpr (hqe ▸ hs.1))
  · rw [forestValue_of_below hp.sorted hb]
    have habs : ∀ m ∈ this.elements, m.1.key ≠ k := by
      intro m hm
      obtain ⟨x, hx, hmx⟩ := hp.mem_elements.mp hm
      exact ne_of_gt (lt_of_lt_of_le (hb x hx) ((hp.piece_of hx).elements m hmx))
    cases h with
    | zero => exact (effect_of_absent habs).symm
    | succ h =>
        rw [BeTree.value, effect_of_absent habs, forestValue_of_below hn.splittable.pivots]
        intro p hpm
        obtain ⟨x, hx, hpx⟩ := hp.mem_pivots.mp hpm
        exact lt_of_lt_of_le (hb x hx) ((hp.piece_of hx).pivots p hpx)

end Whole

end Node

end BeTree
