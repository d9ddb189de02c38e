import BeTree.Proof.Upsert

/-!
# The shape of a reached tree, and of its messages

`Inv` carries a range of keys down the tree. Here it is read off node by node, in
terms of the tree alone: where the keys under a pivot lie, at which depth the
leaves are, and which messages of a key a node can hold and in which order.
-/

namespace BeTree

open Node

variable {K V : Type}

namespace Node

/-- Every key that occurs in the subtree, as a pivot or in a message. -/
def keys (n : Node K V) : List K :=
  n.nodes.flatMap (fun x => x.pivots.map Prod.fst ++ x.elements.map (fun e => e.1.key))

/-- The nodes at a depth below `n`. -/
def level : Nat → Node K V → List (Node K V)
  | 0, n => [n]
  | depth + 1, n => n.pivots.flatMap (fun e => level depth e.2.child)

/-- The nodes strictly below `n`. -/
def descendants (n : Node K V) : List (Node K V) := n.pivots.flatMap (fun e => e.2.child.nodes)

theorem mem_keys {n : Node K V} {k : K} :
    k ∈ n.keys ↔ (∃ p ∈ n.pivots, p.1 = k ∨ k ∈ p.2.child.keys)
      ∨ ∃ m ∈ n.elements, m.1.key = k := by
  unfold keys
  rw [nodes_eq, List.flatMap_cons, List.mem_append, List.mem_append, List.mem_map, List.mem_map,
    List.mem_flatMap]
  refine ⟨fun hk => ?_, fun hk => ?_⟩
  · rcases hk with (⟨p, hp, rfl⟩ | ⟨m, hm, hmk⟩) | ⟨x, hx, hk⟩
    · exact Or.inl ⟨p, hp, Or.inl rfl⟩
    · exact Or.inr ⟨m, hm, hmk⟩
    · obtain ⟨p, hp, hx⟩ := List.mem_flatMap.mp hx
      exact Or.inl ⟨p, hp, Or.inr (List.mem_flatMap.mpr ⟨x, hx, hk⟩)⟩
  · rcases hk with ⟨p, hp, rfl | hk⟩ | ⟨m, hm, hmk⟩
    · exact Or.inl (Or.inl ⟨p, hp, rfl⟩)
    · obtain ⟨x, hx, hk⟩ := List.mem_flatMap.mp hk
      exact Or.inr ⟨x, List.mem_flatMap.mpr ⟨p, hp, hx⟩, hk⟩
    · exact Or.inl (Or.inr ⟨m, hm, hmk⟩)

end Node

variable [LinearOrder K] {fresh : Prop} {h : Nat} {R : K → Prop} {root n : Node K V}

/-! ## The invariant at every node -/

/-- Every node of a subtree keeps the invariant, for some of the keys. -/
theorem Inv.nodes (hroot : Inv fresh h R root) (hn : n ∈ root.nodes) :
    ∃ h' R', Inv fresh h' R' n := by
  induction h generalizing R root with
  | zero =>
      rw [nodes_eq, hroot.1] at hn
      rw [List.mem_singleton.mp hn]
      exact ⟨0, R, hroot⟩
  | succ h ih =>
      rw [nodes_eq] at hn
      rcases List.mem_cons.mp hn with rfl | hn
      · exact ⟨h + 1, R, hroot⟩
      · obtain ⟨p, hp, hn⟩ := List.mem_flatMap.mp hn
        exact ih (hroot.forest.child p hp) hn

/-- The nodes at a depth are the roots of subtrees of the remaining height. -/
theorem Inv.level {depth : Nat} (hroot : Inv fresh h R root) (hn : n ∈ root.level depth) :
    depth ≤ h ∧ ∃ R', Inv fresh (h - depth) R' n := by
  induction depth generalizing h R root with
  | zero =>
      rw [List.mem_singleton.mp hn]
      exact ⟨Nat.zero_le _, R, hroot⟩
  | succ depth ih =>
      obtain ⟨p, hp, hn⟩ := List.mem_flatMap.mp hn
      cases h with
      | zero => rw [hroot.1] at hp; exact absurd hp (by simp)
      | succ h =>
          obtain ⟨hle, R', hinv⟩ := ih (hroot.forest.child p hp) hn
          exact ⟨Nat.succ_le_succ hle, R', by rw [Nat.succ_sub_succ]; exact hinv⟩

/-- Every key in a subtree is one the subtree is responsible for. -/
theorem Inv.keys_range (hn : Inv fresh h R n) : ∀ k ∈ n.keys, R k := by
  induction h generalizing R n with
  | zero =>
      intro k hk
      rcases mem_keys.mp hk with ⟨p, hp, _⟩ | ⟨m, hm, rfl⟩
      · rw [hn.1] at hp; exact absurd hp (by simp)
      · exact hn.2.range m hm
  | succ h ih =>
      intro k hk
      rcases mem_keys.mp hk with ⟨p, hp, rfl | hk⟩ | ⟨m, hm, rfl⟩
      · exact hn.forest.range p hp
      · exact (ih (hn.forest.child p hp) k hk).1
      · exact hn.buffer.range m hm

/-! ## The search tree -/

/-- The representation invariant of the tree under `root`. -/
structure SearchTree (root : Node K V) : Prop where
  pivots : ∀ n ∈ root.nodes, OrdMap.Sorted n.pivots
  /-- Nothing is buffered for a key below the first pivot. -/
  buffered : ∀ n ∈ root.nodes, ∀ p, n.pivots.head? = some p → ∀ m ∈ n.elements, p.1 ≤ m.1.key
  /-- The keys under a pivot lie between it and the next one. -/
  routed : ∀ n ∈ root.nodes, ∀ i p, n.pivots[i]? = some p → ∀ k ∈ p.2.child.keys,
    p.1 ≤ k ∧ ∀ q, n.pivots[i + 1]? = some q → k < q.1
  /-- All leaves are at one depth, and the nodes above it have pivots. -/
  depth : ∃ height, ∀ depth, ∀ n ∈ root.level depth,
    depth ≤ height ∧ (depth = height → n.pivots = []) ∧ (depth < height → n.pivots ≠ [])

theorem Inv.searchTree (hroot : Inv fresh h R root) : SearchTree root := by
  refine ⟨fun n hn => ?_, fun n hn p hp m hm => ?_, fun n hn i p hp k hk => ?_,
    ⟨h, fun depth n hn => ?_⟩⟩
  · obtain ⟨_, _, hinv⟩ := hroot.nodes hn
    exact hinv.splittable.pivots
  · obtain ⟨h', R', hinv⟩ := hroot.nodes hn
    have hmem := List.mem_of_head? hp
    cases h' with
    | zero => rw [hinv.1] at hmem; exact absurd hmem (by simp)
    | succ h' =>
        obtain ⟨q, hq, hqm⟩ := hinv.covered m hm
        have hs := hinv.forest.sorted
        obtain ⟨rest, hrest⟩ := List.head?_eq_some_iff.mp hp
        rw [hrest] at hq hs
        rcases List.mem_cons.mp hq with rfl | hq
        · exact hqm
        · exact le_trans (le_of_lt ((OrdMap.sorted_cons.mp hs).1 q hq)) hqm
  · obtain ⟨h', R', hinv⟩ := hroot.nodes hn
    have hmem := List.mem_of_getElem? hp
    cases h' with
    | zero => rw [hinv.1] at hmem; exact absurd hmem (by simp)
    | succ h' =>
        have hslot := ((hinv.forest.child p hmem).keys_range k hk).2
        refine ⟨hslot.1, fun q hq => hslot.2 q (List.mem_of_getElem? hq) ?_⟩
        obtain ⟨hi, rfl⟩ := List.getElem?_eq_some_iff.mp hp
        obtain ⟨hj, rfl⟩ := List.getElem?_eq_some_iff.mp hq
        exact List.pairwise_iff_getElem.mp hinv.forest.sorted i (i + 1) hi hj (Nat.lt_succ_self i)
  · obtain ⟨hle, R', hinv⟩ := hroot.level hn
    refine ⟨hle, fun heq => ?_, fun hlt => ?_⟩
    · rw [heq, Nat.sub_self] at hinv
      exact hinv.1
    · obtain ⟨j, hj⟩ := Nat.exists_eq_add_of_lt hlt
      rw [show h - depth = j + 1 by omega] at hinv
      exact hinv.nonempty

theorem SearchTree.sorted (hn : SearchTree n) : OrdMap.Sorted n.pivots :=
  hn.pivots n (mem_nodes_self n)

/-- The keys under a pivot are in its slot. -/
theorem SearchTree.slot (hroot : SearchTree root) (hn : n ∈ root.nodes)
    {e : K × ChildInfo (Node K V)} (he : e ∈ n.pivots) {k : K} (hk : k ∈ e.2.child.keys) :
    Slot n.pivots e.1 k := by
  have hs := List.pairwise_iff_getElem.mp (hroot.pivots n hn)
  obtain ⟨i, hi, rfl⟩ := List.getElem_of_mem he
  obtain ⟨hle, hnext⟩ := hroot.routed n hn i _ (List.getElem?_eq_getElem hi) k hk
  refine ⟨hle, fun y hy hlt => ?_⟩
  obtain ⟨j, hj, rfl⟩ := List.getElem_of_mem hy
  -- a larger pivot is the next one or comes after it
  have hij : i < j := by
    by_contra hji
    rcases Nat.lt_or_eq_of_le (Nat.le_of_not_lt hji) with hji | rfl
    · exact lt_asymm hlt (hs j i hj hi hji)
    · exact lt_irrefl _ hlt
  have hi' : i + 1 < n.pivots.length := by omega
  have hk' := hnext _ (List.getElem?_eq_getElem hi')
  rcases Nat.lt_or_eq_of_le hij with hij | rfl
  · exact lt_trans hk' (hs (i + 1) j hi' hj hij)
  · exact hk'

/--
**The search-tree invariant.** Every tree that a sequence of upserts reaches is a
search tree, whatever the environment answers; and no run stops because
`get_pivot` throws in a flush or because a new child's key is taken.
-/
theorem upserts_searchTree [Add V] (bet : Params K V) (hr : ∀ n, bet.reload n = some n)
    (hM : 3 ≤ bet.maxNodeSize) (us : List (Upsert K V)) :
    Prog.All (fun t => SearchTree t.root)
      (fun e => e.Excluded ∧ e ≠ .outOfRange ∧ e ≠ .assertion .pivotsNonempty ∧ e ≠ .keyTaken)
      (Betree.create >>= fun t => t.applyAll bet us) := by
  -- the shape does not depend on the timestamps, so the clock may wrap around
  refine (all_upserts False us hr hM False.elim).imp (fun t ht => ?_) (fun e he => ?_)
  · obtain ⟨h, hinv, _⟩ := ht.tree
    exact hinv.searchTree
  · refine ⟨he, ?_, ?_, ?_⟩ <;> intro heq <;> rw [heq] at he <;> simp [Fault.Excluded] at he

theorem upserts_searchTree_small :
    3 ≤ 4 ∧ Prog.All (fun t => SearchTree t.root)
      (fun e => e.Excluded ∧ e ≠ .outOfRange ∧ e ≠ .assertion .pivotsNonempty ∧ e ≠ .keyTaken)
      (Betree.create >>= fun t => t.applyAll (⟨4, 1, 0, some⟩ : Params Nat Nat)
        [.insert 3 1, .insert 1 1, .update 2 5, .erase 3, .insert 7 2, .insert 0 4]) :=
  ⟨by decide, upserts_searchTree _ (fun _ => rfl) (by decide) _⟩

/-- No tree is reached: the size of the third leaf is written to the entry that is gone. -/
theorem upserts_write_erased_entry :
    stoppedWith ((Betree.create >>= fun t => t.applyAll ⟨5, 0, 0, some⟩ erasingInserts).run
      neverDirty 1) = some .erasedEntry := by
  decide +kernel

/-! ## Well-formed trees -/

/--
A tree as `flush` expects it: a search tree whose message maps are in order, with timestamps
of 64 bits, and with one `INSERT` at most for each key in a leaf.
-/
structure WellFormedTree (root : Node K V) : Prop where
  search : SearchTree root
  ordered : ∀ n ∈ root.nodes, OrdMap.Sorted n.elements
  stamp : ∀ n ∈ root.nodes, ∀ m ∈ n.elements, m.1.timestamp ≤ uint64Max
  leaf : ∀ n ∈ root.nodes, n.isLeaf = true → ∀ k, LeafForm (opcodes (ofKey n.elements k))

theorem Inv.wellFormed (hroot : Inv fresh h R root) : WellFormedTree root := by
  refine ⟨hroot.searchTree, fun n hn => ?_, fun n hn => ?_, fun n hn hl k => ?_⟩
  · obtain ⟨_, _, hinv⟩ := hroot.nodes hn
    exact hinv.splittable.elements
  · obtain ⟨h', _, hinv⟩ := hroot.nodes hn
    cases h' with
    | zero => exact hinv.2.stamp
    | succ h' => exact hinv.buffer.stamp
  · obtain ⟨h', R', hinv⟩ := hroot.nodes hn
    rw [hinv.isLeaf, decide_eq_true_eq] at hl
    subst hl
    exact hinv.2.form (Or.inl rfl) k

/-- The subtrees of a well-formed tree keep the invariant, as far as it does not depend on the
clock. -/
theorem WellFormedTree.inv_nodes (hroot : WellFormedTree root) {height : Nat}
    (hsub : ∀ x ∈ n.nodes, x ∈ root.nodes)
    (hdepth : ∀ depth, ∀ x ∈ n.level depth, depth ≤ height ∧ (depth = height → x.pivots = [])
      ∧ (depth < height → x.pivots ≠ [])) (hR : ∀ k ∈ n.keys, R k) : Inv False height R n := by
  induction height generalizing n R with
  | zero =>
      have hn := hsub n (mem_nodes_self n)
      have hnil := (hdepth 0 n List.mem_cons_self).2.1 rfl
      refine ⟨hnil, hroot.ordered n hn, hroot.stamp n hn, False.elim,
        fun m hm => hR _ (mem_keys.mpr (.inr ⟨m, hm, rfl⟩)), fun _ k => hroot.leaf n hn ?_ k⟩
      rw [Node.isLeaf, hnil]
      rfl
  | succ height ih =>
      have hn := hsub n (mem_nodes_self n)
      have hne := (hdepth 0 n List.mem_cons_self).2.2 (Nat.succ_pos height)
      refine ⟨⟨hroot.ordered n hn, hroot.stamp n hn, False.elim,
          fun m hm => hR _ (mem_keys.mpr (.inr ⟨m, hm, rfl⟩)), fun hl => absurd hl (by simp)⟩,
        ⟨hroot.search.pivots n hn, fun p hp => hR _ (mem_keys.mpr (.inl ⟨p, hp, .inl rfl⟩)),
          fun p hp => ?_⟩,
        hne, fun m hm => ?_, False.elim⟩
      · refine ih (fun x hx => hsub x (mem_nodes_of_child hp hx)) (fun depth x hx => ?_)
          (fun k hk => ?_)
        · obtain ⟨hle, heq, hlt⟩ := hdepth (depth + 1) x (List.mem_flatMap.mpr ⟨p, hp, hx⟩)
          exact ⟨Nat.le_of_succ_le_succ hle, fun h => heq (congrArg _ h),
            fun h => hlt (Nat.succ_lt_succ h)⟩
        · exact ⟨hR k (mem_keys.mpr (.inl ⟨p, hp, .inr hk⟩)), hroot.search.slot hn hp hk⟩
      · -- the first pivot is at or below every buffered key
        obtain ⟨p, rest, hp⟩ := List.exists_cons_of_ne_nil hne
        exact ⟨p, hp ▸ List.mem_cons_self, hroot.search.buffered n hn p (by rw [hp]; rfl) m hm⟩

theorem WellFormedTree.inv (hroot : WellFormedTree root) :
    ∃ height, Inv False height (fun _ => True) root := by
  obtain ⟨height, hdepth⟩ := hroot.search.depth
  exact ⟨height, hroot.inv_nodes (fun _ hx => hx) hdepth (fun _ _ => trivial)⟩

/-! ## The messages -/

/-- Which messages of a key the nodes under `root` hold, and in which order. -/
structure MessageDiscipline (root : Node K V) : Prop where
  ordered : ∀ n ∈ root.nodes, OrdMap.Sorted n.elements
  leaf : ∀ n ∈ root.nodes, n.isLeaf = true → ∀ k,
    opcodes (ofKey n.elements k) = [] ∨ opcodes (ofKey n.elements k) = [.insert]
  inner : ∀ n ∈ root.nodes, n.isLeaf = false → ∀ k,
    opcodes (ofKey n.elements k) = [] ∨ opcodes (ofKey n.elements k) = [.insert]
      ∨ (∃ j, opcodes (ofKey n.elements k) = .delete :: List.replicate j .update)
      ∨ ∃ j, opcodes (ofKey n.elements k) = List.replicate (j + 1) .update
  /-- A message is newer than those of its key further down. -/
  newer : ∀ n ∈ root.nodes, ∀ x ∈ n.descendants, Newer n.elements x.elements

theorem innerForm_cases {us : List Opcode} (hu : InnerForm us) :
    us = [] ∨ us = [.insert] ∨ (∃ j, us = .delete :: List.replicate j .update)
      ∨ ∃ j, us = List.replicate (j + 1) .update := by
  cases us with
  | nil => exact Or.inl rfl
  | cons u us =>
      cases u with
      | insert => exact Or.inr (Or.inl (congrArg _ hu))
      | delete =>
          have hrep := List.eq_replicate_of_mem hu
          exact Or.inr (Or.inr (Or.inl ⟨us.length, congrArg _ hrep⟩))
      | update =>
          have hrep := List.eq_replicate_of_mem hu
          exact Or.inr (Or.inr (Or.inr ⟨us.length, congrArg _ hrep⟩))

theorem innerForm_of_cases {us : List Opcode}
    (hu : us = [] ∨ us = [.insert] ∨ (∃ j, us = .delete :: List.replicate j .update)
      ∨ ∃ j, us = List.replicate (j + 1) .update) : InnerForm us := by
  rcases hu with rfl | rfl | ⟨j, rfl⟩ | ⟨j, rfl⟩
  · trivial
  · rfl
  · exact fun u hu => List.eq_of_mem_replicate hu
  · exact fun u hu => List.eq_of_mem_replicate hu

/-- The messages of a node are in normal form, and newer than those of its key below. -/
structure Disciplined (n : Node K V) : Prop where
  form : n.isLeaf = false → ∀ k, InnerForm (opcodes (ofKey n.elements k))
  newer : ∀ p ∈ n.pivots, Newer n.elements p.2.child.messages

theorem MessageDiscipline.disciplined (hroot : MessageDiscipline root) (hn : n ∈ root.nodes) : Disciplined n := by
  refine ⟨fun hl k => innerForm_of_cases (hroot.inner n hn hl k), fun p hp e he m hm => ?_⟩
  obtain ⟨x, hx, hm⟩ := List.mem_flatMap.mp hm
  exact hroot.newer n hn x (List.mem_flatMap.mpr ⟨p, hp, hx⟩) e he m hm

/-- The discipline of a tree is that of its nodes. -/
theorem Inv.messageDiscipline_of_nodes (hroot : Inv fresh h R root)
    (ht : ∀ x ∈ root.nodes, Disciplined x) : MessageDiscipline root := by
  refine ⟨hroot.wellFormed.ordered, hroot.wellFormed.leaf, fun n hn hl k => ?_, fun n hn x hx => ?_⟩
  · exact innerForm_cases ((ht n hn).form hl k)
  · obtain ⟨p, hp, hx⟩ := List.mem_flatMap.mp hx
    intro e he m hm
    exact (ht n hn).newer p hp e he m (List.mem_flatMap.mpr ⟨x, hx, hm⟩)

theorem Inv.disciplined (hfresh : fresh) (hn : Inv fresh h R n) : Disciplined n := by
  cases h with
  | zero =>
      refine ⟨fun hl => ?_, fun p hp => ?_⟩
      · rw [hn.isLeaf] at hl
        exact absurd hl (by simp)
      · rw [hn.1] at hp
        exact absurd hp (by simp)
  | succ h => exact ⟨fun _ => hn.buffer.form (Or.inr hfresh), hn.newer hfresh⟩

theorem Inv.messageDiscipline (hfresh : fresh) (hroot : Inv fresh h R root) :
    MessageDiscipline root := by
  refine hroot.messageDiscipline_of_nodes (fun x hx => ?_)
  obtain ⟨_, _, hinv⟩ := hroot.nodes hx
  exact hinv.disciplined hfresh

/-! ## One message -/

section Apply

variable [Add V] {d : V} {mkey : MessageKey K} {elt : Message V}

/-- What the discipline asks of a node by itself, where timestamps are 64 bits wide. -/
structure InForm (n : Node K V) : Prop where
  ordered : OrdMap.Sorted n.elements
  stamp : ∀ e ∈ n.elements, e.1.timestamp ≤ uint64Max
  form : ∀ k, Form n.isLeaf (opcodes (ofKey n.elements k))

omit [Add V] in
theorem InForm.buffer (hn : InForm n) : Buffer False n.isLeaf (fun _ => True) n.elements :=
  ⟨hn.ordered, hn.stamp, False.elim, fun _ _ => trivial, fun _ => hn.form⟩

/-- The messages of the new message's key, and of every other key. -/
theorem InForm.ofKey_apply (hn : InForm n) (hnew : Newer [(mkey, elt)] n.elements) :
    ofKey (n.apply mkey elt d).elements mkey.key
        = push d n.isLeaf (ofKey n.elements mkey.key) mkey elt
      ∧ ∀ k, k ≠ mkey.key → ofKey (n.apply mkey elt d).elements k = ofKey n.elements k :=
  Node.ofKey_apply elt hn.buffer (hn.form mkey.key) (fun _ => hnew _ List.mem_cons_self)

theorem InForm.apply (hn : InForm n) (hst : mkey.timestamp ≤ uint64Max)
    (hnew : Newer [(mkey, elt)] n.elements) : InForm (n.apply mkey elt d) := by
  obtain ⟨hself, hne⟩ := hn.ofKey_apply (d := d) hnew
  obtain ⟨hs, hstored⟩ := apply_stored mkey elt d hn.buffer
  refine ⟨hs, fun e he => ?_, fun k => ?_⟩
  · rcases hstored e he with h' | h'
    · rw [h']
      exact hst
    · exact hn.stamp e h'
  · rw [apply_isLeaf]
    by_cases hk : k = mkey.key
    · rw [hk, hself]
      exact push_form (hn.form mkey.key)
    · rw [hne k hk]
      exact hn.form k

/-- A message newer than those of its key below keeps the discipline of the whole subtree. -/
theorem MessageDiscipline.apply (hd : MessageDiscipline n) (hn : InForm (n.apply mkey elt d))
    (hstored : ∀ e ∈ (n.apply mkey elt d).elements, e.1 = mkey ∨ e ∈ n.elements)
    (hbelow : ∀ x ∈ n.descendants, Newer [(mkey, elt)] x.elements) :
    MessageDiscipline (n.apply mkey elt d) := by
  have hdesc : (n.apply mkey elt d).descendants = n.descendants := by
    rw [descendants, apply_pivots, descendants]
  -- below the node nothing changes
  have hlower : ∀ {P : Node K V → Prop}, P (n.apply mkey elt d) → (∀ x ∈ n.nodes, P x) →
      ∀ x ∈ (n.apply mkey elt d).nodes, P x := by
    intro P hself hall
    refine forall_nodes.mpr ⟨hself, ?_⟩
    rw [apply_pivots]
    exact (forall_nodes.mp hall).2
  refine ⟨hlower hn.ordered hd.ordered, hlower (fun hl k => ?_) hd.leaf,
    hlower (fun hl k => ?_) hd.inner, hlower (fun x hx e he m hm hk => ?_) hd.newer⟩
  · have hform := hn.form k
    rw [hl] at hform
    exact hform
  · have hform := hn.form k
    rw [hl] at hform
    exact innerForm_cases hform
  · rw [hdesc] at hx
    rcases hstored e he with h' | h'
    · rw [h'] at hk ⊢
      exact hbelow x hx _ List.mem_cons_self m hm hk
    · exact hd.newer n (mem_nodes_self n) x hx e h' m hm hk

/--
**`apply` is composition.** In a leaf or an inner node with its messages in normal form, a
message newer than those of its key is applied after all that the node held for the key.
The messages of other keys stay, the normal form is kept, and so is the discipline of the
subtree when the message is newer than those of its key further down.
-/
theorem apply_composes (d : V) (n : Node K V) (hn : InForm n) (mkey : MessageKey K)
    (elt : Message V) (hst : mkey.timestamp ≤ uint64Max) (hnew : Newer [(mkey, elt)] n.elements) :
    (∀ old, (n.isLeaf = true → old = none) →
        effect d (n.apply mkey elt d).elements mkey.key old
          = elt.act d (effect d n.elements mkey.key old))
      ∧ (∀ k, k ≠ mkey.key → ofKey (n.apply mkey elt d).elements k = ofKey n.elements k)
      ∧ InForm (n.apply mkey elt d)
      ∧ (MessageDiscipline n → (∀ x ∈ n.descendants, Newer [(mkey, elt)] x.elements) →
        MessageDiscipline (n.apply mkey elt d)) := by
  obtain ⟨hself, hne⟩ := hn.ofKey_apply (d := d) hnew
  have happly : InForm (n.apply mkey elt d) := hn.apply hst hnew
  refine ⟨fun old hold => ?_, hne, happly, fun hd hbelow => ?_⟩
  · unfold effect
    rw [hself, push_denote (hn.form mkey.key) hold]
  · exact hd.apply happly (apply_stored mkey elt d hn.buffer).2 hbelow

/-- An inner node with messages of two keys, over a leaf. -/
def twoBuffered : Node Nat Nat :=
  ⟨2, [(0, ⟨⟨1, [], [(⟨5, 1⟩, ⟨.insert, 3⟩)]⟩, 1⟩)],
    [(⟨5, 2⟩, ⟨.delete, 0⟩), (⟨7, 4⟩, ⟨.insert, 1⟩)]⟩

/-- An update of the key 5 comes after its delete, and starts from the default value. -/
theorem apply_composes_update :
    effect 10 (twoBuffered.apply ⟨5, 3⟩ ⟨.update, 4⟩ 10).elements 5 (some 3) = some 14
      ∧ ofKey (twoBuffered.apply ⟨5, 3⟩ ⟨.update, 4⟩ 10).elements 7 = [(⟨7, 4⟩, ⟨.insert, 1⟩)]
      ∧ InForm (twoBuffered.apply ⟨5, 3⟩ ⟨.update, 4⟩ 10) := by
  have hform : InForm twoBuffered := by
    refine ⟨by unfold OrdMap.Sorted; decide, by decide, fun k => ?_⟩
    by_cases h5 : k = 5
    · subst h5
      exact fun u hu => absurd hu List.not_mem_nil
    by_cases h7 : k = 7
    · subst h7
      rfl
    · have hnil : ofKey twoBuffered.elements k = [] := by
        refine ofKey_eq_nil (fun e he hk => ?_)
        rcases List.mem_cons.mp he with rfl | he
        · exact h5 hk.symm
        · rw [List.mem_singleton.mp he] at hk
          exact h7 hk.symm
      rw [hnil]
      exact form_nil _
  have hnew : Newer [((⟨5, 3⟩ : MessageKey Nat), (⟨.update, 4⟩ : Message Nat))]
      twoBuffered.elements := by
    unfold Newer
    decide
  obtain ⟨hself, hother, hkept, _⟩ :=
    apply_composes 10 twoBuffered hform ⟨5, 3⟩ ⟨.update, 4⟩ (by decide) hnew
  exact ⟨hself (some 3) (fun hl => by cases hl), hother 7 (by decide), hkept⟩

end Apply

/-- A query of a reached tree gives the reference map's value and stops with no fault. -/
theorem Reached.query [Add V] {bet : Params K V} {count : Nat} {m : List (K × V)}
    {t : Betree K V} {E : Fault → Prop} (hfresh : fresh) (hr : ∀ n, bet.reload n = some n)
    (ht : Reached fresh bet.defaultValue count m t) (k : K) :
    Prog.All (fun r => r.1 = t ∧ r.2 = OrdMap.lookup m k) E (t.query bet k) := by
  obtain ⟨h, hinv, hval⟩ := ht.tree
  have hq := all_query (k := k) (E := E) hfresh hr
    (show h < t.root.height + 1 by rw [hinv.height]; exact Nat.lt_succ_self h) hinv
  refine (all_deref hr hq).bind (fun ⟨root, r⟩ hres => ?_)
  injection hres with hroot hv
  subst hroot hv
  exact ⟨rfl, hval hfresh k⟩

/--
**Message discipline.** In every tree that fewer than `2^64 - 1` upserts reach,
each node's messages of a key are in normal form and newer than those below; and
no query of it stops at an assert, or with any other fault.
-/
theorem upserts_messageDiscipline [Add V] (bet : Params K V) (hr : ∀ n, bet.reload n = some n)
    (hM : 3 ≤ bet.maxNodeSize) (us : List (Upsert K V)) (hlen : us.length < 2 ^ 64 - 1) :
    Prog.All (fun t => MessageDiscipline t.root
        ∧ ∀ k, Prog.All (fun _ => True) (fun _ => False) (t.query bet k))
      Fault.Excluded (Betree.create >>= fun t => t.applyAll bet us) := by
  refine (all_upserts True us hr hM (fun _ => hlen)).mono (fun t ht => ?_)
  obtain ⟨h, hinv, _⟩ := ht.tree
  exact ⟨hinv.messageDiscipline trivial,
    fun k => (ht.query trivial hr k).mono (fun _ _ => trivial)⟩

theorem upserts_messageDiscipline_small :
    3 ≤ 4 ∧ Prog.All (fun t => MessageDiscipline t.root
        ∧ ∀ k, Prog.All (fun _ => True) (fun _ => False)
          (t.query (⟨4, 1, 0, some⟩ : Params Nat Nat) k))
      Fault.Excluded (Betree.create >>= fun t => t.applyAll (⟨4, 1, 0, some⟩ : Params Nat Nat)
        [.insert 3 1, .insert 1 1, .update 2 5, .erase 3, .update 3 2, .insert 0 4]) :=
  ⟨by decide, upserts_messageDiscipline _ (fun _ => rfl) (by decide) _ (by decide)⟩

/-- The same with an update and an erase in the buffer. -/
theorem messages_write_erased_entry :
    stoppedWith ((Betree.create >>= fun t => t.applyAll (⟨5, 0, 0, some⟩ : Params Nat Nat)
      ([10, 20, 30, 40, 50, 60, 70, 80].map (Upsert.insert · 7)
        ++ [.update 41 2, .erase 70, .update 42 3])).run neverDirty 1) = some .erasedEntry := by
  decide +kernel

/-! ## The map -/

/--
**Refinement of a map.** After fewer than `2^64 - 1` upserts, a query of any key
answers as the reference map does after the same upserts, whatever the environment
answers; `none` is `std::out_of_range`.
-/
theorem query_refines_map [Add V] (bet : Params K V) (hr : ∀ n, bet.reload n = some n)
    (hM : 3 ≤ bet.maxNodeSize) (us : List (Upsert K V)) (hlen : us.length < 2 ^ 64 - 1) (k : K) :
    Prog.All (fun r => r.2 = OrdMap.lookup (Reference.applyAll bet.defaultValue [] us) k)
      Fault.Excluded (do
        let t ← Betree.create
        let t ← t.applyAll bet us
        t.query bet k) := by
  have hall := (all_upserts True us hr hM (fun _ => hlen)).bind
    (fun t ht => (ht.query (E := Fault.Excluded) trivial hr k).mono (fun _ hres => hres.2))
  rw [Prog.bind_assoc] at hall
  exact hall

theorem query_refines_map_small :
    3 ≤ 4 ∧ Prog.All (fun r => r.2 = some 7) Fault.Excluded (do
      let t ← Betree.create
      let t ← t.applyAll (⟨4, 1, 10, some⟩ : Params Nat Nat)
        [.insert 3 1, .erase 1, .insert 2 5, .erase 3, .update 2 2, .insert 0 4]
      t.query (⟨4, 1, 10, some⟩ : Params Nat Nat) 2) :=
  ⟨by decide, (query_refines_map (⟨4, 1, 10, some⟩ : Params Nat Nat) (fun _ => rfl) (by decide)
    [.insert 3 1, .erase 1, .insert 2 5, .erase 3, .update 2 2, .insert 0 4] (by decide) 2).mono
    (fun _ hres => hres.trans (by decide))⟩

/-- The query is never made: the last insert writes through an erased entry. -/
theorem query_past_erased_entry :
    stoppedWith (Prog.run neverDirty (do
        let t ← Betree.create
        let t ← t.applyAll (⟨5, 0, 0, some⟩ : Params Nat Nat) erasingInserts
        t.query ⟨5, 0, 0, some⟩ 42) 1) = some .erasedEntry
      ∧ OrdMap.lookup (Reference.applyAll 0 [] erasingInserts) 42 = some 7 := by
  decide +kernel

end BeTree
