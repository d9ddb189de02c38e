import BeTree.System.Footprint
import BeTree.Proof.Size

/-!
# Who owns the objects of a tree

Every node of a tree has an id of its own, so a run that works on one subtree leaves
the others as they are. `Settled` says of some subtrees that no id occurs twice in
them, that all of them are in use, and that no node has messages buffered for a child
that is dirty. `Made` says that a run has brought them about, out of given objects and
new ones, and has made nothing else dirty.

A flush puts subtrees in the place of a child, splits a node into pieces, or puts a new
root over the pieces of the old one. Each of these is a lemma about `Made`.
-/

namespace BeTree

open Node Environment

variable {K V : Type}

namespace Node

/-- The ids of the nodes of a subtree. -/
def ids (n : Node K V) : List Nat := n.nodes.map Node.id

/-- The ids of the nodes of several subtrees. -/
def idsOf (ns : List (Node K V)) : List Nat := ns.flatMap ids

/-- The nodes in a pivot map. -/
def kids (ps : PivotMap K V) : List (Node K V) := ps.map (fun p => p.2.child)

/-- The children of some nodes. -/
def childrenOf (ns : List (Node K V)) : List (Node K V) := ns.flatMap (fun n => kids n.pivots)

theorem ids_eq (n : Node K V) : n.ids = n.id :: idsOf (kids n.pivots) := by
  unfold ids idsOf kids
  rw [nodes_eq, List.map_cons, List.map_flatMap, List.flatMap_map]
  rfl

theorem mem_idsOf {ns : List (Node K V)} {i : Nat} : i ∈ idsOf ns ↔ ∃ n ∈ ns, i ∈ n.ids :=
  List.mem_flatMap

theorem mem_kids {ps : PivotMap K V} {p : K × ChildInfo (Node K V)} (hp : p ∈ ps) :
    p.2.child ∈ kids ps := List.mem_map.mpr ⟨p, hp, rfl⟩

theorem idsOf_singleton (n : Node K V) : idsOf [n] = n.ids := List.flatMap_singleton ..

theorem childrenOf_singleton (n : Node K V) : childrenOf [n] = kids n.pivots :=
  List.flatMap_singleton ..

theorem id_mem_ids (n : Node K V) : n.id ∈ n.ids := by
  rw [ids_eq]
  exact List.mem_cons_self

theorem mem_ids_of_below {n : Node K V} {i : Nat} (hi : i ∈ idsOf (kids n.pivots)) : i ∈ n.ids := by
  rw [ids_eq]
  exact List.mem_cons_of_mem _ hi

/-- The ids of the children are below the node. -/
theorem child_ids_below {n x : Node K V} {i : Nat} (hx : x ∈ kids n.pivots) (hi : i ∈ x.ids) :
    i ∈ idsOf (kids n.pivots) := mem_idsOf.mpr ⟨x, hx, hi⟩

theorem idsOf_perm {ns ns' : List (Node K V)} (h : ns.Perm ns') : (idsOf ns).Perm (idsOf ns') :=
  h.flatMap_right _

theorem idsOf_append (ns ns' : List (Node K V)) : idsOf (ns ++ ns') = idsOf ns ++ idsOf ns' :=
  List.flatMap_append

/-- The ids of some subtrees are those of their roots and those below. -/
theorem idsOf_roots (ns : List (Node K V)) :
    (idsOf ns).Perm (ns.map Node.id ++ idsOf (childrenOf ns)) := by
  induction ns with
  | nil => exact List.Perm.refl _
  | cons n ns ih =>
      have hn : idsOf (n :: ns) = n.id :: (idsOf (kids n.pivots) ++ idsOf ns) := by
        show n.ids ++ idsOf ns = _
        rw [ids_eq, List.cons_append]
      rw [hn, List.map_cons, childrenOf, List.flatMap_cons, idsOf_append, List.cons_append]
      refine List.Perm.cons _ ?_
      refine (List.Perm.append_left _ ih).trans ?_
      rw [← List.append_assoc, ← List.append_assoc]
      exact List.Perm.append_right _ List.perm_append_comm

end Node

section Clear

variable [LinearOrder K] {d d' : Nat → Prop} {h : Nat} {n : Node K V}

/-- Nothing is buffered for a child in `d`. -/
def Unbuffered (d : Nat → Prop) (n : Node K V) : Prop :=
  ∀ p ∈ n.pivots, d p.2.child.id → ∀ m ∈ n.elements, ¬ Slot n.pivots p.1 m.1.key

/-- In no node of a subtree of height `h` something is buffered for a child in `d`. -/
def Clear (d : Nat → Prop) : Nat → Node K V → Prop
  | 0, _ => True
  | h + 1, n => Unbuffered d n ∧ ∀ x ∈ kids n.pivots, Clear d h x

theorem Unbuffered.mono (hn : Unbuffered d n) (hd : ∀ i ∈ idsOf (kids n.pivots), d' i → d i) :
    Unbuffered d' n :=
  fun p hp hdp => hn p hp (hd _ (child_ids_below (mem_kids hp) (id_mem_ids _)) hdp)

/-- Only what is below a node matters, not its own id. -/
theorem Clear.mono (hn : Clear d h n) (hd : ∀ i ∈ idsOf (kids n.pivots), d' i → d i) :
    Clear d' h n := by
  induction h generalizing n with
  | zero => trivial
  | succ h ih =>
      refine ⟨hn.1.mono hd, fun x hx => ih (hn.2 x hx) (fun i hi => ?_)⟩
      exact hd i (child_ids_below hx (mem_ids_of_below hi))

end Clear

/-! ## Subtrees that share nothing -/

section Settled

variable [LinearOrder K] {h : Nat} {e e' b : Environment} {F G : Nat → Prop}
variable {n x : Node K V} {ns : List (Node K V)}

/-- No object is in two places, and nothing is buffered for a dirty child. -/
structure Settled (e : Environment) (h : Nat) (ns : List (Node K V)) : Prop where
  nodup : (idsOf ns).Nodup
  used : ∀ i ∈ idsOf ns, i < e.fresh
  clear : ∀ n ∈ ns, Clear e.Dirty h n

theorem Settled.perm {ns' : List (Node K V)} (hs : Settled e h ns) (hp : ns.Perm ns') :
    Settled e h ns' :=
  ⟨(idsOf_perm hp).nodup_iff.mp hs.nodup, fun i hi => hs.used i ((idsOf_perm hp).mem_iff.mpr hi),
    fun n hn => hs.clear n (hp.mem_iff.mpr hn)⟩

theorem settled_append {ns' : List (Node K V)} :
    Settled e h (ns ++ ns')
      ↔ Settled e h ns ∧ Settled e h ns' ∧ ∀ i ∈ idsOf ns, i ∉ idsOf ns' := by
  refine ⟨fun hs => ?_, fun ⟨hs, hs', hdisj⟩ => ⟨?_, fun i hi => ?_, fun n hn => ?_⟩⟩
  · have hnd := hs.nodup
    rw [idsOf_append] at hnd
    obtain ⟨hnd, hnd', hdisj⟩ := List.nodup_append.mp hnd
    have hused : ∀ i, i ∈ idsOf ns ∨ i ∈ idsOf ns' → i < e.fresh := fun i hi =>
      hs.used i (by rw [idsOf_append]; exact List.mem_append.mpr hi)
    exact ⟨⟨hnd, fun i hi => hused i (Or.inl hi), fun n hn => hs.clear n (List.mem_append_left _ hn)⟩,
      ⟨hnd', fun i hi => hused i (Or.inr hi), fun n hn => hs.clear n (List.mem_append_right _ hn)⟩,
      fun i hi hi' => hdisj i hi i hi' rfl⟩
  · rw [idsOf_append]
    exact List.nodup_append.mpr
      ⟨hs.nodup, hs'.nodup, fun i hi j hj hij => hdisj i hi (hij ▸ hj)⟩
  · rw [idsOf_append] at hi
    exact (List.mem_append.mp hi).elim (hs.used i) (hs'.used i)
  · exact (List.mem_append.mp hn).elim (hs.clear n) (hs'.clear n)

/-- Subtrees are settled if the ones below are, and the roots are besides. -/
theorem settled_succ :
    Settled e (h + 1) ns ↔ Settled e h (childrenOf ns) ∧ (∀ n ∈ ns, Unbuffered e.Dirty n)
      ∧ (ns.map Node.id).Nodup ∧ ∀ n ∈ ns, n.id ∉ idsOf (childrenOf ns) ∧ n.id < e.fresh := by
  have hroots := idsOf_roots ns
  have hroot : ∀ n ∈ ns, n.id ∈ ns.map Node.id := fun n hn => List.mem_map.mpr ⟨n, hn, rfl⟩
  refine ⟨fun hs => ?_, fun ⟨hs, hun, hnd, hids⟩ => ⟨?_, fun i hi => ?_, fun n hn => ?_⟩⟩
  · obtain ⟨hnd, hndb, hdisj⟩ := List.nodup_append.mp (hroots.nodup_iff.mp hs.nodup)
    have hused : ∀ i ∈ ns.map Node.id ++ idsOf (childrenOf ns), i < e.fresh :=
      fun i hi => hs.used i (hroots.mem_iff.mpr hi)
    refine ⟨⟨hndb, fun i hi => hused i (List.mem_append_right _ hi), fun x hx => ?_⟩,
      fun n hn => (hs.clear n hn).1, hnd, fun n hn => ⟨fun hc => hdisj _ (hroot n hn) _ hc rfl, ?_⟩⟩
    · obtain ⟨n, hn, hx⟩ := List.mem_flatMap.mp hx
      exact (hs.clear n hn).2 x hx
    · exact hused _ (List.mem_append_left _ (hroot n hn))
  · refine hroots.nodup_iff.mpr (List.nodup_append.mpr ⟨hnd, hs.nodup, fun i hi j hj hij => ?_⟩)
    obtain ⟨n, hn, rfl⟩ := List.mem_map.mp hi
    exact (hids n hn).1 (hij ▸ hj)
  · rcases List.mem_append.mp (hroots.mem_iff.mp hi) with hi | hi
    · obtain ⟨n, hn, rfl⟩ := List.mem_map.mp hi
      exact (hids n hn).2
    · exact hs.used i hi
  · exact ⟨hun n hn, fun x hx => hs.clear x (List.mem_flatMap.mpr ⟨n, hn, hx⟩)⟩

theorem Settled.id_not_below (hs : Settled e h [n]) : n.id ∉ idsOf (kids n.pivots) := by
  have hnd := hs.nodup
  rw [idsOf_singleton, ids_eq] at hnd
  exact (List.nodup_cons.mp hnd).1

theorem Settled.child (hs : Settled e (h + 1) [n]) (hx : x ∈ kids n.pivots) : Settled e h [x] := by
  have hkids := (settled_succ.mp hs).1
  rw [childrenOf_singleton] at hkids
  obtain ⟨l, r, hlr⟩ := List.append_of_mem hx
  rw [hlr] at hkids
  exact (settled_append.mp (hkids.perm List.perm_middle)).1

/-- What becomes dirty elsewhere, or is a root, does not matter. -/
theorem Settled.step (hs : Settled e h ns) (ht : Touches G e e')
    (hG : ∀ i, G i → ∀ n ∈ ns, i ∉ idsOf (kids n.pivots)) : Settled e' h ns := by
  refine ⟨hs.nodup, fun i hi => Nat.lt_of_lt_of_le (hs.used i hi) ht.fresh, fun n hn => ?_⟩
  refine (hs.clear n hn).mono (fun i hi hd => ?_)
  have hused : i < e.fresh := hs.used i (mem_idsOf.mpr ⟨n, hn, mem_ids_of_below hi⟩)
  by_contra hc
  exact ht.not_dirty hc (fun hg => hG i hg n hn hi) hused hd

/-- A run from `b` to `e` has made the subtrees `ns`, out of the objects in `F` and new ones. -/
structure Made (F : Nat → Prop) (b : Environment) (h : Nat) (ns : List (Node K V))
    (e : Environment) : Prop where
  touches : Touches F b e
  settled : Settled e h ns
  ids : ∀ i ∈ idsOf ns, F i ∨ b.fresh ≤ i

theorem Made.refl (he : Tame e) (hs : Settled e h [n]) : Made (· ∈ n.ids) e h [n] e :=
  ⟨Touches.refl he, hs, fun _ hi => Or.inl (idsOf_singleton n ▸ hi)⟩

theorem Made.step (hm : Made F b h ns e) (ht : Touches G e e')
    (hG : ∀ i, G i → (F i ∨ b.fresh ≤ i) ∧ ∀ n ∈ ns, i ∉ idsOf (kids n.pivots)) :
    Made F b h ns e' :=
  ⟨hm.touches.trans ht (fun i hi => (hG i hi).1), hm.settled.step ht (fun i hi => (hG i hi).2),
    hm.ids⟩

theorem Made.calm (hm : Made F b h ns e) (ht : Touches (fun _ => False) e e') :
    Made F b h ns e' := hm.step ht (fun _ hi => hi.elim)

/-- The root may be written. -/
theorem Made.root (hm : Made F b h [n] e) (ht : Touches (· = n.id) e e') :
    Made F b h [n] e' := by
  refine hm.step ht (fun _ hi => ⟨hm.ids _ ?_, fun y hy => ?_⟩)
  · rw [idsOf_singleton, hi]
    exact id_mem_ids n
  · rw [List.mem_singleton.mp hy, hi]
    exact hm.settled.id_not_below

theorem Made.root_used (hm : Made F b h [n] e) : n.id < e.fresh :=
  hm.settled.used _ (by rw [idsOf_singleton]; exact id_mem_ids n)

/-- What was done before, within the same objects. -/
theorem Made.after (ht : Touches F b e) (hm : Made F e h ns e') : Made F b h ns e' := by
  refine ⟨ht.trans hm.touches (fun i hi => Or.inl hi), hm.settled, fun i hi => ?_⟩
  exact (hm.ids i hi).imp_right (Nat.le_trans ht.fresh)

/-- The same children under the same root, with another buffer or other keys. -/
theorem Made.update (n' : Node K V) (hm : Made F b h [n] e) (hid : n'.id = n.id)
    (hk : kids n'.pivots = kids n.pivots) (hun : 0 < h → Unbuffered e.Dirty n') :
    Made F b h [n'] e := by
  have hids : idsOf [n'] = idsOf [n] := by
    rw [idsOf_singleton, idsOf_singleton, ids_eq, ids_eq, hid, hk]
  refine ⟨hm.touches, ⟨hids ▸ hm.settled.nodup, hids ▸ hm.settled.used, fun y hy => ?_⟩, hids ▸ hm.ids⟩
  rw [List.mem_singleton.mp hy]
  cases h with
  | zero => trivial
  | succ h => exact ⟨hun (Nat.succ_pos h), hk ▸ (hm.settled.clear n List.mem_cons_self).2⟩

end Settled

/-! ## Putting subtrees in the place of a child -/

section Splice

variable [LinearOrder K] {d : Nat → Prop} {n n' : Node K V} {x : K × ChildInfo (Node K V)}
variable {mid : PivotMap K V}

/-- The children that stay are those under the other pivots. -/
theorem Spliced.exists_perm (hsp : Spliced n.pivots x.1 mid n'.pivots) (hs : OrdMap.Sorted n.pivots)
    (hsm : OrdMap.Sorted mid) (hx : x ∈ n.pivots) (hmid : ∀ y ∈ mid, Slot n.pivots x.1 y.1) :
    ∃ rest, n.pivots.Perm (x :: rest) ∧ n'.pivots.Perm (rest ++ mid) := by
  have hmem : ∀ p, p ∈ n.pivots.filter (fun p => decide (p.1 ≠ x.1)) ↔ p ∈ n.pivots ∧ p.1 ≠ x.1 := by
    intro p
    rw [List.mem_filter, decide_eq_true_eq]
  have hrest := (hs.filter (fun p => decide (p.1 ≠ x.1))).nodup
  refine ⟨n.pivots.filter (fun p => decide (p.1 ≠ x.1)), ?_, ?_⟩
  · refine (List.perm_ext_iff_of_nodup hs.nodup (List.nodup_cons.mpr ⟨?_, hrest⟩)).mpr (fun p => ?_)
    · exact fun hc => ((hmem x).mp hc).2 rfl
    · rw [List.mem_cons, hmem]
      refine ⟨fun hp => ?_, fun hp => ?_⟩
      · by_cases hkey : p.1 = x.1
        · exact Or.inl (hs.eq_of_key hp hx hkey)
        · exact Or.inr ⟨hp, hkey⟩
      · rcases hp with rfl | hp
        · exact hx
        · exact hp.1
  · refine (List.perm_ext_iff_of_nodup hsp.sorted.nodup (List.nodup_append.mpr
      ⟨hrest, hsm.nodup, fun p hp q hq hpq => ?_⟩)).mpr (fun p => ?_)
    · -- a new entry has no other pivot's key
      obtain ⟨hpn, hne⟩ := (hmem p).mp hp
      subst hpq
      exact hne (Slot.unique hpn hx (slot_self _ _) (hmid p hq))
    · rw [hsp.mem, List.mem_append, hmem]

/-- Messages outside the slot of the replaced child are buffered for the others as before. -/
theorem Unbuffered.splice {d' : Nat → Prop} (hn : Unbuffered d n)
    (hsp : Spliced n.pivots x.1 mid n'.pivots) (hmid : ∀ y ∈ mid, Slot n.pivots x.1 y.1)
    (hes : ∀ m ∈ n'.elements, m ∈ n.elements ∧ ¬ Slot n.pivots x.1 m.1.key)
    (hd : ∀ p ∈ n.pivots, p.1 ≠ x.1 → d' p.2.child.id → d p.2.child.id) : Unbuffered d' n' := by
  intro p hp hdp m hm hslot
  obtain ⟨hmn, hout⟩ := hes m hm
  -- every other pivot is still there
  have hkeep : ∀ q ∈ n.pivots, q.1 ≠ x.1 → p.1 < q.1 → m.1.key < q.1 :=
    fun q hq hne hlt => hslot.2 q ((hsp.mem q).mpr (Or.inl ⟨hq, hne⟩)) hlt
  rcases (hsp.mem p).mp hp with ⟨hpn, hne⟩ | hpm
  · refine hn p hpn (hd p hpn hne hdp) m hmn ⟨hslot.1, fun q hq hlt => ?_⟩
    by_cases hqx : q.1 = x.1
    · -- at or above the replaced child, the message would be in its slot
      rw [hqx] at hlt ⊢
      by_contra hge
      refine hout ⟨not_lt.mp hge, fun r hr hxr => ?_⟩
      exact hkeep r hr (ne_of_gt hxr) (lt_trans hlt hxr)
    · exact hkeep q hq hqx hlt
  · obtain ⟨hxp, hnext⟩ := hmid p hpm
    refine hout ⟨le_trans hxp hslot.1, fun q hq hlt => ?_⟩
    exact hkeep q hq (ne_of_gt hlt) (hnext q hq hlt)

/-- **Putting subtrees in the place of a child.** -/
theorem Made.splice {h : Nat} {F : Nat → Prop} {b e e' : Environment}
    (hm : Made F b (h + 1) [n] e) (hs : OrdMap.Sorted n.pivots) (hx : x ∈ n.pivots)
    (hmade : Made (· ∈ x.2.child.ids) e h (kids mid) e') (hsm : OrdMap.Sorted mid)
    (hmid : ∀ y ∈ mid, Slot n.pivots x.1 y.1) (hsp : Spliced n.pivots x.1 mid n'.pivots)
    (hid : n'.id = n.id)
    (hes : ∀ m ∈ n'.elements, m ∈ n.elements ∧ ¬ Slot n.pivots x.1 m.1.key) :
    Made F b (h + 1) [n'] e' := by
  obtain ⟨rest, hperm, hperm'⟩ := hsp.exists_perm hs hsm hx hmid
  obtain ⟨hkids, hun, _, hroot⟩ := settled_succ.mp hm.settled
  obtain ⟨hroot, hused⟩ := hroot n List.mem_cons_self
  rw [childrenOf_singleton] at hkids hroot
  have hkperm : (kids n.pivots).Perm ([x.2.child] ++ kids rest) := hperm.map _
  obtain ⟨_, hrest, hdisj⟩ := settled_append.mp (hkids.perm hkperm)
  rw [idsOf_singleton] at hdisj
  have hown : ∀ i ∈ n.ids, F i ∨ b.fresh ≤ i := fun i hi => hm.ids i (idsOf_singleton n ▸ hi)
  have hxids : ∀ i ∈ x.2.child.ids, i ∈ idsOf (kids n.pivots) :=
    fun i hi => child_ids_below (mem_kids hx) hi
  have hrids : ∀ i ∈ idsOf (kids rest), i ∈ idsOf (kids n.pivots) := fun i hi =>
    (idsOf_perm hkperm).mem_iff.mpr (by rw [idsOf_append]; exact List.mem_append_right _ hi)
  -- the other children's objects are not in the footprint
  have hrest' : Settled e' h (kids rest) := hrest.step hmade.touches
    (fun i hi y hy hc => hdisj i hi (mem_idsOf.mpr ⟨y, hy, mem_ids_of_below hc⟩))
  have hdisj' : ∀ i ∈ idsOf (kids rest), i ∉ idsOf (kids mid) := by
    intro i hi hc
    rcases hmade.ids i hc with hix | hge
    · exact hdisj i hix hi
    · have := hrest.used i hi
      omega
  have hkperm' : (kids rest ++ kids mid).Perm (kids n'.pivots) := by
    unfold kids
    rw [← List.map_append]
    exact (hperm'.map _).symm
  have hkids' := (settled_append.mpr ⟨hrest', hmade.settled, hdisj'⟩).perm hkperm'
  have hids : ∀ i ∈ idsOf (kids n'.pivots), i ∈ idsOf (kids n.pivots) ∨ e.fresh ≤ i := by
    intro i hi
    have hi := (idsOf_perm hkperm').mem_iff.mpr hi
    rw [idsOf_append] at hi
    rcases List.mem_append.mp hi with hi | hi
    · exact Or.inl (hrids i hi)
    · exact (hmade.ids i hi).imp_left (hxids i)
  refine ⟨hm.touches.trans hmade.touches (fun i hi => hown i (mem_ids_of_below (hxids i hi))),
    settled_succ.mpr ⟨by rw [childrenOf_singleton]; exact hkids', fun y hy => ?_,
      List.nodup_singleton _, fun y hy => ?_⟩, fun i hi => ?_⟩
  · rw [List.mem_singleton.mp hy]
    refine (hun n List.mem_cons_self).splice hsp hmid hes (fun p hp hne hd => ?_)
    have hpr : p ∈ rest := by
      rcases List.mem_cons.mp (hperm.mem_iff.mp hp) with rfl | hpr
      · exact absurd rfl hne
      · exact hpr
    have hpid : p.2.child.id ∈ idsOf (kids rest) :=
      mem_idsOf.mpr ⟨_, mem_kids hpr, id_mem_ids _⟩
    by_contra hc
    exact hmade.touches.not_dirty hc (fun hix => hdisj _ hix hpid) (hrest.used _ hpid) hd
  · rw [List.mem_singleton.mp hy, hid, childrenOf_singleton]
    refine ⟨fun hc => ?_, Nat.lt_of_lt_of_le hused hmade.touches.fresh⟩
    rcases hids _ hc with hc | hge
    · exact hroot hc
    · omega
  · rw [idsOf_singleton, ids_eq, hid] at hi
    rcases List.mem_cons.mp hi with rfl | hi
    · exact hown n.id (id_mem_ids n)
    · rcases hids i hi with hi | hge
      · exact hown i (mem_ids_of_below hi)
      · exact Or.inr (Nat.le_trans hm.touches.fresh hge)

end Splice

/-! ## New nodes -/

section New

variable [LinearOrder K] {h : Nat} {F : Nat → Prop} {b e e' : Environment} {n : Node K V}
variable {ps : PivotMap K V}

/-- The nodes of a pivot map are different objects, all of them new since `b`. -/
structure AllNew (b e : Environment) (ps : PivotMap K V) : Prop where
  nodup : ((kids ps).map Node.id).Nodup
  new : ∀ x ∈ kids ps, b.fresh ≤ x.id ∧ x.id < e.fresh

theorem Node.Partition.childrenOf_eq (hp : Partition n ⟨[], [], n.size⟩ (subtrees ps)) :
    childrenOf (kids ps) = kids n.pivots := by
  have hpiv := hp.pivots
  rw [List.append_nil, subtrees, List.flatMap_map] at hpiv
  unfold childrenOf kids
  rw [← hpiv, List.flatMap_map, List.map_flatMap]

/-- The pieces of a node have nothing buffered that the node had not. -/
theorem Node.Partition.unbuffered {d : Nat → Prop}
    (hp : Partition n ⟨[], [], n.size⟩ (subtrees ps)) (hn : Unbuffered d n)
    {x : K × ChildInfo (Node K V)} (hx : x ∈ ps) : Unbuffered d x.2.child := by
  intro p hpx hd m hm hslot
  refine hn p (hp.mem_pivots.mpr ⟨x, hx, hpx⟩) hd m (hp.mem_elements.mpr ⟨x, hx, hm⟩)
    ⟨hslot.1, fun q hq hlt => ?_⟩
  obtain ⟨y, hy, hqy⟩ := hp.mem_pivots.mp hq
  rcases lt_trichotomy x.1 y.1 with hxy | hxy | hxy
  · -- the next pieces begin above everything in this one
    exact lt_of_lt_of_le ((hp.below_of hx hy hxy).elements m hm) ((hp.piece_of hy).pivots q hqy)
  · have hxy := hp.sorted.eq_of_key hx hy hxy
    subst hxy
    exact hslot.2 q hqy hlt
  · have hqx := (hp.below_of hy hx hxy).pivots q hqy
    exact absurd (lt_of_lt_of_le hqx ((hp.piece_of hx).pivots p hpx)) (not_lt_of_gt hlt)

/-- **Splitting a node** into new ones. -/
theorem Made.pieces (hm : Made F b h [n] e) (ht : Touches (fun _ => False) e e')
    (hp : Partition n ⟨[], [], n.size⟩ (subtrees ps)) (hnew : AllNew e e' ps) :
    Made F b h (kids ps) e' := by
  have hm' := hm.calm ht
  have hbelow : idsOf (childrenOf (kids ps)) = idsOf (kids n.pivots) := by rw [hp.childrenOf_eq]
  have hused : ∀ i ∈ idsOf (kids n.pivots), i < e.fresh :=
    fun i hi => hm.settled.used i (by rw [idsOf_singleton]; exact mem_ids_of_below hi)
  have hndb : (idsOf (kids n.pivots)).Nodup := by
    have hnd := hm.settled.nodup
    rw [idsOf_singleton, ids_eq] at hnd
    exact (List.nodup_cons.mp hnd).2
  have hfresh := hm.touches.fresh
  refine ⟨hm'.touches, ⟨?_, fun i hi => ?_, fun x hx => ?_⟩, fun i hi => ?_⟩
  · refine (idsOf_roots _).nodup_iff.mpr (List.nodup_append.mpr
      ⟨hnew.nodup, hbelow ▸ hndb, fun i hi j hj hij => ?_⟩)
    obtain ⟨x, hx, rfl⟩ := List.mem_map.mp hi
    -- the pieces have ids that were not in use when the old children got theirs
    have hge := (hnew.new x hx).1
    have hlt := hused _ (hbelow ▸ hj)
    omega
  · rcases List.mem_append.mp ((idsOf_roots _).mem_iff.mp hi) with hi | hi
    · obtain ⟨x, hx, rfl⟩ := List.mem_map.mp hi
      exact (hnew.new x hx).2
    · exact Nat.lt_of_lt_of_le (hused i (hbelow ▸ hi)) ht.fresh
  · have hclear := hm'.settled.clear n List.mem_cons_self
    cases h with
    | zero => trivial
    | succ h =>
        obtain ⟨p, hpm, rfl⟩ := List.mem_map.mp hx
        refine ⟨hp.unbuffered hclear.1 hpm, fun y hy => hclear.2 y ?_⟩
        rw [← hp.childrenOf_eq]
        exact List.mem_flatMap.mpr ⟨_, hx, hy⟩
  · rcases List.mem_append.mp ((idsOf_roots _).mem_iff.mp hi) with hi | hi
    · obtain ⟨x, hx, rfl⟩ := List.mem_map.mp hi
      exact Or.inr (Nat.le_trans hfresh (hnew.new x hx).1)
    · refine hm.ids i ?_
      rw [idsOf_singleton]
      exact mem_ids_of_below (hbelow ▸ hi)

/-- **A new root** over given subtrees. -/
theorem Made.over {id : Nat} (hm : Made F b h (kids ps) e) (ht : Touches (fun _ => False) e e')
    (hid : e.fresh ≤ id ∧ id < e'.fresh) : Made F b (h + 1) [⟨id, ps, []⟩] e' := by
  have hm' := hm.calm ht
  have hfresh := hm.touches.fresh
  refine ⟨hm'.touches, settled_succ.mpr ⟨?_, fun y hy => ?_, List.nodup_singleton _, fun y hy => ?_⟩,
    fun i hi => ?_⟩
  · rw [childrenOf_singleton]
    exact hm'.settled
  · rw [List.mem_singleton.mp hy]
    exact fun _ _ _ m hmem => absurd hmem (by simp)
  · rw [List.mem_singleton.mp hy, childrenOf_singleton]
    refine ⟨fun hc => ?_, hid.2⟩
    have := hm.settled.used _ hc
    dsimp only at this
    omega
  · rw [idsOf_singleton, ids_eq] at hi
    rcases List.mem_cons.mp hi with rfl | hi
    · exact Or.inr (Nat.le_trans hfresh hid.1)
    · exact hm.ids i hi

end New

end BeTree
