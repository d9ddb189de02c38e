import BeTree.Pointer.Session

/-!
# What the swap space holds

A tree is the only owner of its nodes, and each node has one pointer to it: that of the tree
for the root, and the one in its parent for any other. Every object has a pointer to it, so the
objects are the nodes and nothing is leaked; every pointer leads to an object, so none dangles.

When the tree gives up its pointer to the root, the same count tells that nothing is left: an
object would need a parent that is left as well, and that one another above it, past the root.
-/

namespace BeTree

open Prog Shadow Node SwapSpace

variable {K V B : Type}

/-! ## The nodes and the pointers to them -/

namespace Node

/-- The pointers in the nodes of a subtree. -/
def links (n : Node K V) : List Nat := n.nodes.flatMap Node.children

theorem links_eq (n : Node K V) :
    n.links = n.children ++ n.pivots.flatMap (fun e => e.2.child.links) := by
  unfold links
  rw [nodes_eq, List.flatMap_cons, List.flatMap_assoc]

theorem mem_cells {n : Node K V} {c : Nat × Payload (NodeImage K V)} :
    c ∈ n.cells ↔ ∃ x ∈ n.nodes, x.cell = c := by
  unfold cells
  rw [Multiset.mem_coe, List.mem_map]

end Node

section Shape

variable [LinearOrder K] {fresh : Prop} {h : Nat} {R : K → Prop} {root n : Node K V}

/-- Every node but the root has one pointer to it. -/
theorem Inv.links_perm (hn : Inv fresh h R n) : (n.nodes.map Node.id).Perm (n.id :: n.links) := by
  induction h generalizing R n with
  | zero =>
      rw [nodes_eq, links_eq, Node.children, hn.1]
      exact List.Perm.refl _
  | succ h ih =>
      have hbelow : (n.pivots.flatMap (fun e => e.2.child.nodes.map Node.id)).Perm
          (n.pivots.flatMap (fun e => e.2.child.id :: e.2.child.links)) :=
        List.Perm.flatMap_left _ (fun e he => ih (hn.forest.child e he))
      rw [nodes_eq, links_eq, List.map_cons, List.map_flatMap]
      exact (hbelow.trans (List.map_append_flatMap_perm _ _ _).symm).cons _

/-- The children of a node are nodes below it, and no node is above the root. -/
theorem Inv.children_nodes (hroot : Inv fresh h R root) (hn : n ∈ root.nodes) :
    n.height ≤ h ∧ ∀ e ∈ n.pivots, e.2.child ∈ root.nodes ∧ e.2.child.height < n.height := by
  induction h generalizing R root with
  | zero =>
      rw [nodes_eq, hroot.1] at hn
      rw [List.mem_singleton.mp hn, hroot.height, hroot.1]
      exact ⟨Nat.le_refl 0, fun e he => absurd he List.not_mem_nil⟩
  | succ h ih =>
      rw [nodes_eq] at hn
      rcases List.mem_cons.mp hn with rfl | hn
      · rw [hroot.height]
        refine ⟨Nat.le_refl _, fun e he => ⟨child_mem_nodes he, ?_⟩⟩
        rw [(hroot.forest.child e he).height]
        exact Nat.lt_succ_self h
      · obtain ⟨p, hp, hn⟩ := List.mem_flatMap.mp hn
        obtain ⟨hle, hchildren⟩ := ih (hroot.forest.child p hp) hn
        exact ⟨Nat.le_succ_of_le hle,
          fun e he => (hchildren e he).imp_left (fun hx => mem_nodes_of_child hp hx)⟩

end Shape

/-! ## The pointers to an object -/

section Count

variable {codec : Codec (NodeImage K V) B} {g : Shadow (NodeImage K V)}
variable {m : Pinning (NodeImage K V) B} {root n : Node K V} {i j : Nat} {o : Object (NodeImage K V)}

theorem Shadow.Live.ids_nodup (hlive : g.Live root.cells) : (root.nodes.map Node.id).Nodup := by
  have hnodup := hlive.nodup
  unfold Node.cells at hnodup
  rw [Multiset.map_coe, Multiset.coe_nodup, List.map_map] at hnodup
  exact hnodup

namespace Tracks

/-- The object of a node holds the node. -/
theorem content_node (h : Tracks codec g m) (hlive : g.Live root.cells) (hn : n ∈ root.nodes)
    (ho : m.ss.objects.get? n.id = some o) : m.ss.content codec o = some n.payload :=
  (h.shows n.id o ho).trans (hlive.object n.cell (mem_cells.mpr ⟨n, hn, rfl⟩))

/-- What is not a node of the tree holds no pointers. -/
theorem pointers_cases (h : Tracks codec g m) (hlive : g.Live root.cells)
    (ho : m.ss.objects.get? i = some o) :
    m.ss.pointers codec o = [] ∨ ∃ x ∈ root.nodes, x.id = i ∧ m.ss.pointers codec o = x.children := by
  by_cases hi : ∃ x ∈ root.nodes, x.id = i
  · obtain ⟨x, hx, rfl⟩ := hi
    exact Or.inr ⟨x, hx, rfl, pointers_eq (h.content_node hlive hx ho)⟩
  · refine Or.inl ?_
    have hshows := h.shows i o ho
    cases hp : g.objects.get? i with
    | none => rw [pointers, hshows, hp]
    | some p =>
        rw [pointers_eq (hshows.trans hp)]
        refine hlive.stale i p hp (fun c hc hci => hi ?_)
        obtain ⟨x, hx, rfl⟩ := mem_cells.mp hc
        exact ⟨x, hx, hci⟩

/-- The pointers in the objects are among those in the nodes of the tree. -/
theorem refs_le (h : Tracks codec g m) (hlive : g.Live root.cells) (j : Nat) :
    m.ss.refs codec j ≤ root.links.count j := by
  have hle : m.ss.refs codec j ≤
      ((root.nodes.map (fun x => (x.id, x.children))).map (fun c => c.2.count j)).sum := by
    refine Dict.total_le_sum ?_ (fun i o ho => ?_)
    · rw [List.map_map]
      exact hlive.ids_nodup
    · rcases h.pointers_cases hlive ho with hnil | ⟨x, hx, hxi, hptrs⟩
      · exact Or.inl (by rw [hnil, List.count_nil])
      · exact Or.inr ⟨(x.id, x.children), List.mem_map.mpr ⟨x, hx, rfl⟩, hxi, by rw [hptrs]⟩
  rw [List.map_map] at hle
  rw [links, List.count_flatMap]
  exact hle

/-- Without a pointer from outside, what is there has a node above it that is there. -/
theorem exists_parent (h : Tracks codec g m) (hlive : g.Live root.cells) (hroots : g.roots = 0)
    (ho : m.ss.objects.get? i = some o) :
    ∃ y ∈ root.nodes, i ∈ y.children ∧ ∃ o', m.ss.objects.get? y.id = some o' := by
  have hpos := h.exact.live i o ho
  rw [← refcountOf_eq ho, h.exact.counts i (h.pos ho), count_toList, hroots,
    Multiset.count_zero, Nat.zero_add] at hpos
  obtain ⟨z, o', ho', hcount⟩ := Dict.exists_of_total_pos hpos
  have hptr := List.count_pos_iff.mp hcount
  rcases h.pointers_cases hlive ho' with hnil | ⟨y, hy, rfl, hptrs⟩
  · rw [hnil] at hptr
    exact absurd hptr List.not_mem_nil
  · exact ⟨y, hy, hptrs ▸ hptr, o', ho'⟩

/-- A node of the tree is there if the root is. -/
theorem exists_node [LinearOrder K] {fresh : Prop} {height : Nat} {R : K → Prop} {x : Node K V}
    (h : Tracks codec g m) (hlive : g.Live root.cells) (hx : Inv fresh height R x)
    (hsub : ∀ y ∈ x.nodes, y ∈ root.nodes) (ho : ∃ o, m.ss.objects.get? x.id = some o)
    (hn : n ∈ x.nodes) : ∃ o, m.ss.objects.get? n.id = some o := by
  induction height generalizing R x with
  | zero =>
      rw [nodes_eq, hx.1] at hn
      rw [List.mem_singleton.mp hn]
      exact ho
  | succ height ih =>
      rw [nodes_eq] at hn
      rcases List.mem_cons.mp hn with rfl | hn
      · exact ho
      · obtain ⟨e, he, hn⟩ := List.mem_flatMap.mp hn
        refine ih (hx.forest.child e he) (fun y hy => hsub y (mem_nodes_of_child he hy)) ?_ hn
        -- the pointer to the child is in the object of its node
        obtain ⟨o, ho⟩ := ho
        have hptr : e.2.child.id ∈ m.ss.pointers codec o := by
          rw [pointers_eq (h.content_node hlive (hsub x (mem_nodes_self x)) ho)]
          exact List.mem_map.mpr ⟨e, he, rfl⟩
        obtain ⟨o', ho', _⟩ := h.exact.exists_of_pointer ho (h.full _ o ho _ hptr) hptr
        exact ⟨o', ho'⟩

end Tracks

end Count

/-! ## Nothing but the tree -/

/-- The swap space holds the nodes of a tree and nothing else, and nothing is pinned. -/
structure Holding (codec : Codec (NodeImage K V) B) (root : Node K V)
    (m : Pinning (NodeImage K V) B) : Prop where
  unpinned : m.pins = []
  distinct : (root.nodes.map Node.id).Nodup
  node : ∀ n ∈ root.nodes, ∃ o, m.ss.objects.get? n.id = some o
    ∧ m.ss.content codec o = some n.payload ∧ o.refcount = 1 ∧ o.pincount = 0
  object : ∀ i o, m.ss.objects.get? i = some o → ∃ n ∈ root.nodes, n.id = i
  file : ∀ b, (m.ss.backstore.files.get? b).isSome →
    ∃ n ∈ root.nodes, ∃ o, m.ss.objects.get? n.id = some o ∧ o.bsid = b

section Held

variable [LinearOrder K] {codec : Codec (NodeImage K V) B} {g : Shadow (NodeImage K V)}
variable {m : Pinning (NodeImage K V) B} {root : Node K V} {h : Nat} {R : K → Prop}

/-- A swap space with one pointer outside the objects, to the root of a tree. -/
theorem Tracks.holding (htracks : Tracks codec g m) (howned : Owned root.cells 0 0 {root.id} [] g)
    (hinv : Inv False h R root) : Holding codec root m := by
  have hlive : g.Live root.cells := Multiset.add_zero root.cells ▸ howned.live
  have hroots : g.roots = {root.id} := by
    rw [howned.roots]
    exact Multiset.zero_add _
  have hpins : m.pins = [] := by
    have hperm := htracks.pinned
    rw [howned.pinned] at hperm
    exact hperm.eq_nil
  -- every object has one pointer, and the tree has a node for it
  have hcount : ∀ i o, m.ss.objects.get? i = some o → o.refcount = 1 ∧ i ∈ root.nodes.map Node.id := by
    intro i o ho
    have hpos := htracks.exact.live i o ho
    have hle : o.refcount ≤ (root.nodes.map Node.id).count i := by
      rw [hinv.links_perm.count_eq, List.count_cons, ← refcountOf_eq ho,
        htracks.exact.counts i (htracks.pos ho), count_toList, hroots, Multiset.count_singleton]
      have hrefs := htracks.refs_le hlive i
      have hsame : (if i = root.id then 1 else 0) = if root.id == i then 1 else 0 := by
        simp only [beq_iff_eq, eq_comm (a := i)]
      omega
    have hone := List.nodup_iff_count_le_one.mp hlive.ids_nodup i
    exact ⟨by omega, List.count_pos_iff.mp (by omega)⟩
  refine ⟨hpins, hlive.ids_nodup, fun n hn => ?_, fun i o ho => List.mem_map.mp (hcount i o ho).2,
    fun b hb => ?_⟩
  · have hroot : root.id ∈ g.roots := by
      rw [hroots]
      exact Multiset.mem_singleton_self _
    obtain ⟨o, ho, _⟩ := htracks.exact.exists_of_root (htracks.positive _ hroot)
      (Multiset.mem_toList.mpr hroot)
    obtain ⟨o, ho⟩ := htracks.exists_node hlive hinv (fun _ hy => hy) ⟨o, ho⟩ hn
    refine ⟨o, ho, htracks.content_node hlive hn ho, (hcount _ o ho).1, ?_⟩
    rw [htracks.orderly.pincount _ o ho, hpins]
    exact List.count_nil
  · rcases htracks.exact.files.owned b hb with hmem | ⟨i, o, ho, hbsid⟩
    · exact absurd hmem List.not_mem_nil
    · obtain ⟨n, hn, rfl⟩ := List.mem_map.mp (hcount i o ho).2
      exact ⟨n, hn, o, ho, hbsid⟩

/-- Without a pointer to the root, no node is there: going up from it would not end. -/
theorem Tracks.no_node (htracks : Tracks codec g m) (hlive : g.Live root.cells)
    (hinv : Inv False h R root) (hroots : g.roots = 0) {x : Node K V} (hx : x ∈ root.nodes) :
    m.ss.objects.get? x.id = none := by
  induction hk : h - x.height using Nat.strongRecOn generalizing x with
  | ind k ih =>
      cases ho : m.ss.objects.get? x.id with
      | none => rfl
      | some o =>
          obtain ⟨y, hy, hchild, o', ho'⟩ := htracks.exists_parent hlive hroots ho
          obtain ⟨e, he, hid⟩ := List.mem_map.mp hchild
          obtain ⟨hle, hchildren⟩ := hinv.children_nodes hy
          obtain ⟨hnode, hlt⟩ := hchildren e he
          -- the child with this id is the node itself
          obtain rfl : e.2.child = x := List.inj_on_of_nodup_map hlive.ids_nodup hnode hx hid
          have habove := ih (h - y.height) (by omega) hy rfl
          rw [habove] at ho'
          cases ho'

/-- A swap space without pointers outside the objects. -/
theorem Tracks.empty (htracks : Tracks codec g m) (howned : Owned root.cells 0 0 0 [] g)
    (hinv : Inv False h R root) :
    m.pins = [] ∧ m.ss.objects = Dict.empty ∧ m.ss.lruPqueue = Dict.empty
      ∧ m.ss.backstore.files = Dict.empty := by
  have hlive : g.Live root.cells := Multiset.add_zero root.cells ▸ howned.live
  have hobjects : ∀ i, m.ss.objects.get? i = none := by
    intro i
    cases ho : m.ss.objects.get? i with
    | none => rfl
    | some o =>
        obtain ⟨y, hy, _, o', ho'⟩ := htracks.exists_parent hlive howned.roots ho
        rw [htracks.no_node hlive hinv howned.roots hy] at ho'
        cases ho'
  refine ⟨?_, Dict.eq_empty_of_get? hobjects, Dict.eq_empty_of_get? (fun t => ?_),
    Dict.eq_empty_of_get? (fun b => ?_)⟩
  · have hperm := htracks.pinned
    rw [howned.pinned] at hperm
    exact hperm.eq_nil
  · cases ht : m.ss.lruPqueue.get? t with
    | none => rfl
    | some i =>
        obtain ⟨o, ho, _⟩ := (htracks.exact.consistent.lru t i).mp ht
        rw [hobjects i] at ho
        cases ho
  · cases hb : m.ss.backstore.files.get? b with
    | none => rfl
    | some x =>
        rcases htracks.exact.files.owned b (by rw [hb]; rfl) with hmem | ⟨i, o, ho, _⟩
        · exact absurd hmem List.not_mem_nil
        · rw [hobjects i] at ho
          cases ho

end Held

/-! ## After a session -/

namespace Pointer

/-- The destructor gives up the pointer to the root. -/
def close (t : Tree) : PProg K V Unit := destroy t.root

/-- A new tree, what happens to it, and its end. -/
def lifetime [LT K] [DecidableLT K] [BEq K] [Add V] [BEq V] [Inhabited K] [Inhabited V]
    (bet : Params K V) (fuel : Nat) (es : List (Event K V)) : PProg K V (List (Reply K V)) := do
  let (t, replies) ← session bet fuel es
  close t
  return replies

end Pointer

section Sessions

variable [LinearOrder K] [Add V] [BEq V] [Inhabited K] [Inhabited V]

/-- **No garbage and no dangling pointers.** After a session the objects of the swap space are the
nodes of a search tree, each with one pointer to it and none of them pinned, and every file of the
backing store is the image of one of them. -/
theorem session_holding (codec : Codec (NodeImage K V) B)
    (size maxNodeSize minFlushSize fuel : Nat) (d : V) (es : List (Event K V))
    (hlen : es.length < uint64Max) (hfuel : es.length + 2 ≤ fuel) (hes : ∀ e ∈ es, e.Valid)
    {p : Pointer.Tree} {replies : List (Reply K V)} {m : Pinning (NodeImage K V) B}
    (hrun : (Pointer.session ⟨maxNodeSize, minFlushSize, d, some⟩ fuel es).run
      (swapHandler codec (fun _ => .environment)) (Pinning.create size) = (.ok (p, replies), m))
    (hrange : m.ss.InRange) :
    ∃ root, root.id = p.root ∧ SearchTree root ∧ Holding codec root m := by
  obtain ⟨g, ⟨_, t, hp, hserves⟩, htracks⟩ :=
    run_session codec size (fun _ => rfl) hlen hfuel hes hrun hrange
  have hinv := hserves.grown.tree
  exact ⟨t.root, hp.root.symm, hinv.searchTree, htracks.holding hp.owned hinv⟩

/-- Splits have replaced the first root, and nodes have been evicted. -/
theorem session_holding_small :
    let codec : Codec (NodeImage Nat Nat) (Payload (NodeImage Nat Nat)) := ⟨id, id, fun _ => rfl⟩
    let es : List (Event Nat Nat) := [.command (.upsert (.insert 3 1)), .command (.upsert (.insert 5 1)),
      .setCacheSize 1, .command (.upsert (.insert 1 2)), .command (.upsert (.insert 7 2))]
    ∃ r m, (Pointer.session ⟨3, 1, 0, some⟩ 7 es).run
        (swapHandler codec (fun _ => .environment)) (Pinning.create 2) = (.ok r, m)
      ∧ m.ss.InRange ∧ ∃ root, root.id = r.1.root ∧ SearchTree root ∧ Holding codec root m := by
  intro codec es
  obtain ⟨r, m, hrun⟩ := exists_of_isOk (x := (Pointer.session ⟨3, 1, 0, some⟩ 7 es).run
    (swapHandler codec (fun _ => .environment)) (Pinning.create 2)) (by decide +kernel)
  have hrange : m.ss.InRange := by
    have hfinal : ((Pointer.session ⟨3, 1, 0, some⟩ 7 es).run
      (swapHandler codec (fun _ => .environment)) (Pinning.create 2)).2.ss.InRange := by decide +kernel
    rw [hrun] at hfinal
    exact hfinal
  exact ⟨r, m, hrun, hrange, session_holding codec 2 3 1 7 0 es (by decide) (by decide) (by decide)
    hrun hrange⟩

/-- **Nothing is left behind.** When the tree is destroyed after a session, no object and no file
is left. -/
theorem lifetime_empty (codec : Codec (NodeImage K V) B)
    (size maxNodeSize minFlushSize fuel : Nat) (d : V) (es : List (Event K V))
    (hlen : es.length < uint64Max) (hfuel : es.length + 2 ≤ fuel) (hes : ∀ e ∈ es, e.Valid)
    {replies : List (Reply K V)} {m : Pinning (NodeImage K V) B}
    (hrun : (Pointer.lifetime ⟨maxNodeSize, minFlushSize, d, some⟩ fuel es).run
      (swapHandler codec (fun _ => .environment)) (Pinning.create size) = (.ok replies, m))
    (hrange : m.ss.InRange) :
    replies = Reference.serveAll d [] es ∧ m.pins = [] ∧ m.ss.objects = Dict.empty
      ∧ m.ss.lruPqueue = Dict.empty ∧ m.ss.backstore.files = Dict.empty := by
  have hclose : (Pointer.lifetime ⟨maxNodeSize, minFlushSize, d, some⟩ fuel es).Wp rule
      (fun a g => a = Reference.serveAll d [] es ∧ ∃ t : Betree K V, Owned t.root.cells 0 0 0 [] g
        ∧ Inv False t.root.height (fun _ => True) t.root) (Fault.Stops maxNodeSize) Shadow.create := by
    refine (wp_session ⟨maxNodeSize, minFlushSize, d, some⟩ (fun _ => rfl) hlen hfuel hes).bind
      (fun a g ha => ?_)
    obtain ⟨p, replies⟩ := a
    obtain ⟨hreplies, t, hp, hserves⟩ := ha
    obtain ⟨hpre, howned⟩ := hp.owned.destroyed
    rw [← hp.root] at hpre howned
    refine ⟨hpre, fun _ g' hpost => ⟨hreplies, t, ?_, hserves.grown.tree⟩⟩
    have hpost : g' = _ := hpost
    subst hpost
    exact howned
  have hwp := run_of_wp (obeys_swapHandler codec (fun _ => Fault.environment)) hclose
    (Tracks.create codec size) (by rw [hrun]; exact hrange)
  rw [hrun] at hwp
  obtain ⟨g, ⟨hreplies, t, howned, hinv⟩, htracks⟩ := hwp
  exact ⟨hreplies, htracks.empty howned hinv⟩

theorem lifetime_empty_small :
    let codec : Codec (NodeImage Nat Nat) (Payload (NodeImage Nat Nat)) := ⟨id, id, fun _ => rfl⟩
    let es : List (Event Nat Nat) := [.command (.upsert (.insert 3 1)), .command (.upsert (.insert 5 1)),
      .setCacheSize 1, .command (.upsert (.insert 1 2)), .command (.upsert (.insert 7 2))]
    ∃ replies m, (Pointer.lifetime ⟨3, 1, 0, some⟩ 7 es).run
        (swapHandler codec (fun _ => .environment)) (Pinning.create 2) = (.ok replies, m)
      ∧ m.ss.InRange ∧ m.ss.objects = Dict.empty ∧ m.ss.backstore.files = Dict.empty := by
  intro codec es
  obtain ⟨replies, m, hrun⟩ := exists_of_isOk (x := (Pointer.lifetime ⟨3, 1, 0, some⟩ 7 es).run
    (swapHandler codec (fun _ => .environment)) (Pinning.create 2)) (by decide +kernel)
  have hrange : m.ss.InRange := by
    have hfinal : ((Pointer.lifetime ⟨3, 1, 0, some⟩ 7 es).run
      (swapHandler codec (fun _ => .environment)) (Pinning.create 2)).2.ss.InRange := by decide +kernel
    rw [hrun] at hfinal
    exact hfinal
  obtain ⟨_, _, hobjects, _, hfiles⟩ := lifetime_empty codec 2 3 1 7 0 es (by decide) (by decide)
    (by decide) hrun hrange
  exact ⟨replies, m, hrun, hrange, hobjects, hfiles⟩

end Sessions

end BeTree
