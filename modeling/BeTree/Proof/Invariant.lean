import BeTree.Proof.Apply

/-!
# The invariant of the tree, and the map a tree stands for

`Inv fresh h R n`: node `n` roots a subtree of height `h` that is responsible for the
keys in `R`. Its own messages and pivots are for keys in `R`; a child under pivot
`p` is responsible for the keys of `R` from `p` up to the next pivot; every
buffered key has a pivot at or below it; and the messages of a node are newer
than the ones below it of the same key.

`value d h n k` is what the subtree says about `k`: the messages on the path to
`k`'s leaf, applied from the bottom up.

A flush replaces the subtree under one pivot by one or several others for the
same keys. `Forest.splice` and `forestValue_splice` say once what that does to
the rest, for every way it happens.
-/

namespace BeTree

variable {K V : Type}

namespace Node

theorem nodesPivots_eq (ps : List (K × ChildInfo (Node K V))) :
    nodesPivots ps = ps.flatMap (fun e => e.2.child.nodes) := by
  induction ps with
  | nil => rfl
  | cons e ps ih =>
      obtain ⟨k, c, s⟩ := e
      rw [nodesPivots, ih, List.flatMap_cons, nodesEntry, nodesChild]

theorem nodes_eq (n : Node K V) : n.nodes = n :: n.pivots.flatMap (fun e => e.2.child.nodes) := by
  obtain ⟨id, pivots, elements⟩ := n
  rw [nodes, nodesPivots_eq]

theorem mem_nodes_self (n : Node K V) : n ∈ n.nodes := by
  rw [nodes_eq]
  exact List.mem_cons_self

theorem mem_nodes_of_child {n x : Node K V} {e : K × ChildInfo (Node K V)} (he : e ∈ n.pivots)
    (hx : x ∈ e.2.child.nodes) : x ∈ n.nodes := by
  rw [nodes_eq]
  exact List.mem_cons_of_mem _ (List.mem_flatMap.mpr ⟨e, he, hx⟩)

theorem child_mem_nodes {n : Node K V} {e : K × ChildInfo (Node K V)} (he : e ∈ n.pivots) :
    e.2.child ∈ n.nodes := mem_nodes_of_child he (mem_nodes_self _)

/-- What holds of every node of a subtree holds of the node, and in the subtrees below it. -/
theorem forall_nodes {P : Node K V → Prop} {n : Node K V} :
    (∀ x ∈ n.nodes, P x) ↔ P n ∧ ∀ p ∈ n.pivots, ∀ x ∈ p.2.child.nodes, P x := by
  refine ⟨fun hn => ⟨hn n (mem_nodes_self n), fun p hp x hx => hn x (mem_nodes_of_child hp hx)⟩,
    fun hn x hx => ?_⟩
  rw [nodes_eq] at hx
  rcases List.mem_cons.mp hx with rfl | hx
  · exact hn.1
  · obtain ⟨p, hp, hx⟩ := List.mem_flatMap.mp hx
    exact hn.2 p hp x hx

/-- A message of the subtree is the node's own or one of a child's subtree. -/
theorem mem_messages {n : Node K V} {m : MessageKey K × Message V} :
    m ∈ n.messages ↔ m ∈ n.elements ∨ ∃ p ∈ n.pivots, m ∈ p.2.child.messages := by
  unfold messages
  rw [nodes_eq, List.flatMap_cons, List.mem_append, List.mem_flatMap]
  refine or_congr_right ⟨fun h => ?_, fun h => ?_⟩
  · obtain ⟨x, hx, hm⟩ := h
    obtain ⟨p, hp, hx⟩ := List.mem_flatMap.mp hx
    exact ⟨p, hp, List.mem_flatMap.mpr ⟨x, hx, hm⟩⟩
  · obtain ⟨p, hp, hm⟩ := h
    obtain ⟨x, hx, hm⟩ := List.mem_flatMap.mp hm
    exact ⟨x, List.mem_flatMap.mpr ⟨p, hp, hx⟩, hm⟩

theorem height_eq (n : Node K V) : n.height = heightPivots n.pivots := by
  obtain ⟨id, pivots, elements⟩ := n
  rw [height]

theorem heightPivots_eq {h : Nat} {ps : List (K × ChildInfo (Node K V))} (hne : ps ≠ [])
    (hc : ∀ e ∈ ps, e.2.child.height = h) : heightPivots ps = h + 1 := by
  induction ps with
  | nil => exact absurd rfl hne
  | cons e ps ih =>
      have he : heightEntry e = h := by
        obtain ⟨k, c, s⟩ := e
        rw [heightEntry, heightChild]
        exact hc (k, ⟨c, s⟩) List.mem_cons_self
      rw [heightPivots, he]
      by_cases hps : ps = []
      · rw [hps, heightPivots]; omega
      · rw [ih hps (fun x hx => hc x (List.mem_cons_of_mem _ hx))]; omega

/-- The keys and nodes of a pivot map, without the cached sizes. -/
def subtrees (ps : PivotMap K V) : List (K × Node K V) := ps.map (fun e => (e.1, e.2.child))

end Node

/-- Every message key of `es` is one of `es'`. -/
def KeysFrom (es es' : MessageMap K V) : Prop := ∀ e ∈ es, ∃ m ∈ es', m.1 = e.1

theorem KeysFrom.of_subset {a b : MessageMap K V} (h : a ⊆ b) : KeysFrom a b :=
  fun e he => ⟨e, h he, rfl⟩

section Linear

variable [LinearOrder K] {fresh : Prop}

/-- The keys routed to the child under pivot `p`: from `p` up to the next pivot. -/
def Slot {C : Type} (ps : List (K × C)) (p k : K) : Prop := p ≤ k ∧ ∀ e ∈ ps, p < e.1 → k < e.1

theorem slot_self {C : Type} (ps : List (K × C)) (p : K) : Slot ps p p :=
  ⟨le_refl _, fun _ _ h => h⟩

/-- Slots do not overlap. -/
theorem Slot.unique {C : Type} {ps : List (K × C)} {x y : K × C} {k : K} (hx : x ∈ ps)
    (hy : y ∈ ps) (h : Slot ps x.1 k) (h' : Slot ps y.1 k) : x.1 = y.1 := by
  rcases lt_trichotomy x.1 y.1 with hlt | heq | hlt
  · exact absurd (h.2 y hy hlt) (not_lt.mpr h'.1)
  · exact heq
  · exact absurd (h'.2 x hx hlt) (not_lt.mpr h.1)

/-- A key is in the slot of some pivot, or below all of them. -/
theorem slot_or_below {C : Type} (ps : List (K × C)) (k : K) :
    (∃ e ∈ ps, Slot ps e.1 k) ∨ ∀ e ∈ ps, k < e.1 := by
  induction ps with
  | nil => exact Or.inr (by simp)
  | cons x ps ih =>
      rcases lt_or_ge k x.1 with hx | hx
      · rcases ih with ⟨e, he, hs⟩ | hb
        · refine Or.inl ⟨e, List.mem_cons_of_mem _ he, hs.1, fun y hy hlt => ?_⟩
          rcases List.mem_cons.mp hy with rfl | hy
          · exact hx
          · exact hs.2 y hy hlt
        · refine Or.inr (fun y hy => ?_)
          rcases List.mem_cons.mp hy with rfl | hy
          · exact hx
          · exact hb y hy
      · rcases ih with ⟨e, he, hs⟩ | hb
        · rcases lt_or_ge e.1 x.1 with hex | hex
          · refine Or.inl ⟨x, List.mem_cons_self, hx, fun y hy hlt => ?_⟩
            rcases List.mem_cons.mp hy with rfl | hy
            · exact absurd hlt (lt_irrefl _)
            · exact hs.2 y hy (lt_trans hex hlt)
          · refine Or.inl ⟨e, List.mem_cons_of_mem _ he, hs.1, fun y hy hlt => ?_⟩
            rcases List.mem_cons.mp hy with rfl | hy
            · exact absurd hlt (not_lt.mpr hex)
            · exact hs.2 y hy hlt
        · refine Or.inl ⟨x, List.mem_cons_self, hx, fun y hy hlt => ?_⟩
          rcases List.mem_cons.mp hy with rfl | hy
          · exact absurd hlt (lt_irrefl _)
          · exact hb y hy

/-- A pivot map whose children each satisfy `P` for the keys routed to them. -/
structure Forest (P : (K → Prop) → Node K V → Prop) (R : K → Prop) (ps : PivotMap K V) :
    Prop where
  sorted : OrdMap.Sorted ps
  range : ∀ e ∈ ps, R e.1
  child : ∀ e ∈ ps, P (fun k => R k ∧ Slot ps e.1 k) e.2.child

/-- An inner node over children that satisfy `P`. -/
structure Inner (fresh : Prop) (P : (K → Prop) → Node K V → Prop) (R : K → Prop)
    (n : Node K V) : Prop where
  buffer : Buffer fresh false R n.elements
  forest : Forest P R n.pivots
  nonempty : n.pivots ≠ []
  covered : ∀ e ∈ n.elements, ∃ p ∈ n.pivots, p.1 ≤ e.1.key
  newer : fresh → ∀ p ∈ n.pivots, Node.Newer n.elements p.2.child.messages

/-- The invariant of a subtree of height `h` for the keys in `R`. -/
def Inv (fresh : Prop) : Nat → (K → Prop) → Node K V → Prop
  | 0, R, n => n.pivots = [] ∧ Buffer fresh true R n.elements
  | h + 1, R, n => Inner fresh (Inv fresh h) R n

/-! ## Larger ranges -/

/-- `P` holds for a larger range as well. -/
def RangeMono (P : (K → Prop) → Node K V → Prop) : Prop :=
  ∀ R R' n, (∀ k, R k → R' k) → P R n → P R' n

theorem Forest.mono {P : (K → Prop) → Node K V → Prop} (hP : RangeMono P) {R R' : K → Prop}
    {ps : PivotMap K V} (h : Forest P R ps) (hR : ∀ k, R k → R' k) : Forest P R' ps :=
  ⟨h.sorted, fun e he => hR _ (h.range e he),
    fun e he => hP _ _ _ (fun k hk => ⟨hR k hk.1, hk.2⟩) (h.child e he)⟩

theorem inv_mono (h : Nat) : RangeMono (Inv fresh h : (K → Prop) → Node K V → Prop) := by
  induction h with
  | zero => exact fun R R' n hR hn => ⟨hn.1, hn.2.mono hR⟩
  | succ h ih =>
      exact fun R R' n hR hn =>
        ⟨hn.buffer.mono hR, hn.forest.mono ih hR, hn.nonempty, hn.covered, hn.newer⟩

/-! ## The shape -/

theorem Inv.isLeaf {h : Nat} {R : K → Prop} {n : Node K V} (hn : Inv fresh h R n) :
    n.isLeaf = decide (h = 0) := by
  cases h with
  | zero => simp [Node.isLeaf, hn.1]
  | succ h =>
      have hne := hn.nonempty
      cases hp : n.pivots with
      | nil => exact absurd hp hne
      | cons e ps => simp [Node.isLeaf, hp]

theorem Inv.height {h : Nat} {R : K → Prop} {n : Node K V} (hn : Inv fresh h R n) : n.height = h := by
  induction h generalizing R n with
  | zero => rw [Node.height_eq, hn.1, Node.heightPivots]
  | succ h ih =>
      rw [Node.height_eq]
      exact Node.heightPivots_eq hn.nonempty (fun e he => ih (hn.forest.child e he))

/-- Every message of a subtree is for a key the subtree is responsible for. -/
theorem Inv.messages_range {h : Nat} {R : K → Prop} {n : Node K V} (hn : Inv fresh h R n) :
    ∀ m ∈ n.messages, R m.1.key := by
  induction h generalizing R n with
  | zero =>
      intro m hm
      rcases Node.mem_messages.mp hm with hm | ⟨p, hp, _⟩
      · exact hn.2.range m hm
      · rw [hn.1] at hp; exact absurd hp (by simp)
  | succ h ih =>
      intro m hm
      rcases Node.mem_messages.mp hm with hm | ⟨p, hp, hm⟩
      · exact hn.buffer.range m hm
      · exact (ih (hn.forest.child p hp) m hm).1

/-! ## What a tree says about a key -/

/-- The value of `k` under a pivot map: that of the child responsible for it. -/
def forestValue (f : Node K V → K → Option V) (ps : PivotMap K V) (k : K) : Option V :=
  match (OrdMap.upTo ps k).getLast? with
  | some e => f e.2.child k
  | none => none

/-- The value of `k` in a subtree of height `h`. -/
def value [Add V] (d : V) : Nat → Node K V → K → Option V
  | 0, n, k => effect d n.elements k none
  | h + 1, n, k => effect d n.elements k (forestValue (value d h) n.pivots k)

theorem forestValue_of_slot {f : Node K V → K → Option V} {ps : PivotMap K V}
    (hs : OrdMap.Sorted ps) {e : K × ChildInfo (Node K V)} {k : K} (he : e ∈ ps)
    (h : Slot ps e.1 k) : forestValue f ps k = f e.2.child k := by
  have hmem : ∀ x, x ∈ OrdMap.upTo ps k ↔ x ∈ ps ∧ x.1 ≤ k := fun x => by
    rw [OrdMap.upTo_eq hs, List.mem_filter, decide_eq_true_eq]
  have hsort : OrdMap.Sorted (OrdMap.upTo ps k) := OrdMap.upTo_eq (k := k) hs ▸ hs.filter _
  have hlast : (OrdMap.upTo ps k).getLast? = some e := by
    obtain ⟨l, r, hlr⟩ := List.append_of_mem ((hmem e).mpr ⟨he, h.1⟩)
    have hr : r = [] := by
      cases r with
      | nil => rfl
      | cons y r =>
          rw [hlr] at hsort
          have hlt := (OrdMap.sorted_cons.mp (OrdMap.sorted_append.mp hsort).2.1).1 y
            List.mem_cons_self
          obtain ⟨hy, hyk⟩ := (hmem y).mp (by rw [hlr]; simp)
          exact absurd (h.2 y hy hlt) (not_lt.mpr hyk)
    rw [hlr, hr]
    simp
  rw [forestValue, hlast]

theorem forestValue_of_below {f : Node K V → K → Option V} {ps : PivotMap K V} {k : K}
    (hs : OrdMap.Sorted ps) (h : ∀ e ∈ ps, k < e.1) : forestValue f ps k = none := by
  have hnil : OrdMap.upTo ps k = [] := by
    rw [OrdMap.upTo_eq hs, List.filter_eq_nil_iff]
    intro e he
    simpa using h e he
  rw [forestValue, hnil]
  rfl

/-- A key without a message has no value. -/
theorem value_of_absent [Add V] {d : V} {h : Nat} {n : Node K V} {k : K}
    (hk : ∀ m ∈ n.messages, m.1.key ≠ k) : value d h n k = none := by
  induction h generalizing n with
  | zero => exact effect_of_absent (fun e he => hk e (Node.mem_messages.mpr (Or.inl he)))
  | succ h ih =>
      rw [value, effect_of_absent (fun e he => hk e (Node.mem_messages.mpr (Or.inl he))),
        forestValue]
      split
      · rename_i e he
        have hmem : e ∈ n.pivots :=
          (List.takeWhile_sublist _).subset (List.mem_of_getLast? he)
        exact ih (fun m hm => hk m (Node.mem_messages.mpr (Or.inr ⟨e, hmem, hm⟩)))
      · rfl

/-- Outside its range a subtree has no values. -/
theorem Inv.value_of_not_range [Add V] {d : V} {h : Nat} {R : K → Prop} {n : Node K V} {k : K}
    (hn : Inv fresh h R n) (hk : ¬ R k) : value d h n k = none :=
  value_of_absent (fun m hm he => hk (he ▸ hn.messages_range m hm))

theorem Forest.value_of_not_slot [Add V] {d : V} {h : Nat} {R : K → Prop} {ps : PivotMap K V}
    {e : K × ChildInfo (Node K V)} {k : K} (hf : Forest (Inv fresh h) R ps) (he : e ∈ ps)
    (hk : ¬ Slot ps e.1 k) : value d h e.2.child k = none :=
  (hf.child e he).value_of_not_range (fun hr => hk hr.2)

/-! ## Replacing the subtree under one pivot -/

/-- `ps'` is `ps` with the entry under `p` replaced by the entries of `mid`. -/
structure Spliced (ps : PivotMap K V) (p : K) (mid ps' : PivotMap K V) : Prop where
  sorted : OrdMap.Sorted ps'
  mem : ∀ e, e ∈ ps' ↔ (e ∈ ps ∧ e.1 ≠ p) ∨ e ∈ mid

variable {ps mid ps' : PivotMap K V} {x : K × ChildInfo (Node K V)} {R : K → Prop}

/-- The slots of the other pivots do not shrink. -/
theorem Spliced.slot_of_ne (h : Spliced ps x.1 mid ps') (hx : x ∈ ps)
    (hm : ∀ y ∈ mid, Slot ps x.1 y.1) {z : K × ChildInfo (Node K V)} {k : K} (hz : z ∈ ps)
    (hne : z.1 ≠ x.1) (hk : Slot ps z.1 k) : Slot ps' z.1 k := by
  refine ⟨hk.1, fun y hy hlt => ?_⟩
  rcases (h.mem y).mp hy with ⟨hy, _⟩ | hy
  · exact hk.2 y hy hlt
  · obtain ⟨hxy, hnext⟩ := hm y hy
    rcases lt_or_gt_of_ne hne with hzx | hzx
    · exact lt_of_lt_of_le (hk.2 x hx hzx) hxy
    · -- the new entries lie below every pivot above `x`
      exact absurd hlt (not_lt_of_gt (hnext z hz hzx))

/-- The slot of a new entry, within the old slot. -/
theorem Spliced.slot_of_mid (h : Spliced ps x.1 mid ps') {y : K × ChildInfo (Node K V)} {k : K}
    (hy : Slot ps x.1 y.1) (hx : Slot ps x.1 k) (hk : Slot mid y.1 k) : Slot ps' y.1 k := by
  refine ⟨hk.1, fun z hz hlt => ?_⟩
  rcases (h.mem z).mp hz with ⟨hz, _⟩ | hz
  · exact hx.2 z hz (lt_of_le_of_lt hy.1 hlt)
  · exact hk.2 z hz hlt

/-- **Replacing one subtree** by others for the same keys leaves a forest. -/
theorem Forest.splice {P : (K → Prop) → Node K V → Prop} (hP : RangeMono P)
    (hf : Forest P R ps) (hx : x ∈ ps) (hm : Forest P (fun k => R k ∧ Slot ps x.1 k) mid)
    (h : Spliced ps x.1 mid ps') : Forest P R ps' := by
  refine ⟨h.sorted, fun e he => ?_, fun e he => ?_⟩
  · rcases (h.mem e).mp he with ⟨he, _⟩ | he
    · exact hf.range e he
    · exact (hm.range e he).1
  · rcases (h.mem e).mp he with ⟨he, hne⟩ | he
    · exact hP _ _ _ (fun k hk =>
        ⟨hk.1, h.slot_of_ne hx (fun y hy => (hm.range y hy).2) he hne hk.2⟩) (hf.child e he)
    · exact hP _ _ _ (fun k hk =>
        ⟨hk.1.1, h.slot_of_mid (hm.range e he).2 hk.1.2 hk.2⟩) (hm.child e he)

/-- In the slot of the replaced subtree, the new ones decide. -/
theorem forestValue_splice_slot [Add V] {d : V} {h : Nat} {k : K} (hf : Forest (Inv fresh h) R ps)
    (hx : x ∈ ps) (hm : Forest (Inv fresh h) (fun k => R k ∧ Slot ps x.1 k) mid)
    (hsp : Spliced ps x.1 mid ps') (hk : Slot ps x.1 k) :
    forestValue (value d h) ps' k = forestValue (value d h) mid k := by
  rcases slot_or_below mid k with ⟨e, he, hs⟩ | hb
  · rw [forestValue_of_slot hm.sorted he hs,
      forestValue_of_slot hsp.sorted ((hsp.mem e).mpr (Or.inr he))
        (hsp.slot_of_mid (hm.range e he).2 hk hs)]
  · rw [forestValue_of_below hm.sorted hb]
    rcases slot_or_below ps' k with ⟨e, he, hs⟩ | hb'
    · rw [forestValue_of_slot hsp.sorted he hs]
      rcases (hsp.mem e).mp he with ⟨he, hne⟩ | he
      · -- `k` now falls to the pivot before `x`, whose child has nothing for it
        exact hf.value_of_not_slot he (fun hs' => hne (Slot.unique he hx hs' hk))
      · exact absurd (hb e he) (not_lt.mpr hs.1)
    · exact forestValue_of_below hsp.sorted hb'

/-- Outside it, nothing changes. -/
theorem forestValue_splice_ne [Add V] {d : V} {h : Nat} {k : K} (hf : Forest (Inv fresh h) R ps)
    (hx : x ∈ ps) (hm : Forest (Inv fresh h) (fun k => R k ∧ Slot ps x.1 k) mid)
    (hsp : Spliced ps x.1 mid ps') (hk : ¬ Slot ps x.1 k) :
    forestValue (value d h) ps' k = forestValue (value d h) ps k := by
  rcases slot_or_below ps k with ⟨e, he, hs⟩ | hb
  · have hne : e.1 ≠ x.1 := fun heq => hk (heq ▸ hs)
    rw [forestValue_of_slot hf.sorted he hs,
      forestValue_of_slot hsp.sorted ((hsp.mem e).mpr (Or.inl ⟨he, hne⟩))
        (hsp.slot_of_ne hx (fun y hy => (hm.range y hy).2) he hne hs)]
  · rw [forestValue_of_below hf.sorted hb]
    refine forestValue_of_below hsp.sorted (fun e he => ?_)
    rcases (hsp.mem e).mp he with ⟨he, _⟩ | he
    · exact hb e he
    · exact lt_of_lt_of_le (hb x hx) (hm.range e he).2.1

/-- The forest of one child, put back under its pivot. -/
theorem forest_singleton {P : (K → Prop) → Node K V → Prop} (hP : RangeMono P) {p : K}
    {c : ChildInfo (Node K V)} (hp : R p) (hle : ∀ k, R k → p ≤ k) (hc : P R c.child) :
    Forest P R [(p, c)] := by
  refine ⟨OrdMap.sorted_singleton _, fun e he => ?_, fun e he => ?_⟩
  · rw [List.mem_singleton.mp he]; exact hp
  · rw [List.mem_singleton.mp he]
    refine hP _ _ _ (fun k hk => ⟨hk, hle k hk, fun y hy hlt => ?_⟩) hc
    rw [List.mem_singleton.mp hy] at hlt
    exact absurd hlt (lt_irrefl _)

end Linear

end BeTree
