import BeTree.Proof.Shape
import BeTree.Proof.Size
import Mathlib.Algebra.Order.BigOperators.Group.List
import Mathlib.Data.List.Dedup
import Mathlib.Data.List.Perm.Subperm

/-!
# How high the tree gets

A node is split when no child has more than `min_flush_size` messages in its buffer. So a piece
of an inner node, which has at least about 10/24 of `max_node_size` entries, has several pivots;
with the sizes that the source has as defaults, or larger ones, five at least. No pivot is ever
taken out of a node but to put the pieces of a child in its place. So every inner node but the
root has five children, and the tree is no higher than the logarithm of the number of keys.
-/

namespace BeTree

open Node Prog

variable {K V : Type} [LinearOrder K]

/-- The key of an upsert. -/
def Upsert.key : Upsert K V → K
  | .insert k _ => k
  | .update k _ => k
  | .erase k => k

/-! ## The smallest piece of a split -/

namespace Node

variable {bet : Params K V} {this : Node K V} {things bound num i : Nat} {st : SplitState K V}
  {done result : PivotMap K V}

/-- How full the nodes are after `i` of `num` rounds of the outer loop. -/
structure Filled (this : Node K V) (things bound num i : Nat) (st : SplitState K V)
    (result : PivotMap K V) : Prop where
  moved : st.thingsMoved ≤ i * things + bound
  least : ∀ e ∈ result, this.size ≤ e.2.child.size + ((num - 1) * things + bound)

/-- A round fills its node up to the target, or with all that is left. -/
theorem Filled.step {id : Nat} (size : Nat) {k : K} {ps : PivotMap K V} {es : MessageMap K V}
    {r : SplitState K V × Node K V} (h : Rounds this things bound i st done result)
    (hf : Filled this things bound num i st result) (hi : i < num)
    (hall : this.size ≤ num * things) (hk : splitKey st = some k)
    (hmoved : Moved st ⟨id, [], []⟩ ((i + 1) * things) bound ps es r) :
    Filled this things bound num (i + 1) r.1 (OrdMap.assign result k ⟨r.2, size⟩) := by
  have hover := hmoved.overshoot
  have hcount := hmoved.count
  have hbefore := hf.moved
  have hsize : r.2.size = ps.length + es.length := by rw [hmoved.node]; rfl
  have hnext : (i + 1) * things = i * things + things := Nat.succ_mul _ _
  refine ⟨by omega, fun e he => ?_⟩
  rw [h.assign hk] at he
  rcases List.mem_append.mp he with he | he
  · refine hf.least e ?_
    rcases h.result with hres | ⟨_, _, _, hres⟩
    · exact hres ▸ he
    · exact hres ▸ List.mem_append_left _ he
  · rw [List.mem_singleton.mp he]
    show this.size ≤ r.2.size + ((num - 1) * things + bound)
    have hlast : num * things = (num - 1) * things + things := by
      rw [← Nat.succ_mul, Nat.succ_eq_add_one, Nat.sub_add_cancel (by omega)]
    have hround : i * things ≤ (num - 1) * things := Nat.mul_le_mul_right _ (by omega)
    rcases hmoved.reached with ⟨hp, he'⟩ | hge
    · -- nothing is left
      have hc := h.count
      rw [hmoved.pivots, hmoved.elements, hp, he', List.append_nil, List.append_nil] at hc
      omega
    · omega

theorem all_splitLoop_filled {left : Nat} (hr : ∀ n, bet.reload n = some n) (hthis : Splittable this)
    (hbound : ∀ p ∈ this.pivots, slotCount this p.1 ≤ bound)
    (hall : this.size ≤ (i + left) * things) (h : Rounds this things bound i st done result)
    (hf : Filled this things bound (i + left) i st result) {E : Fault → Prop} :
    Prog.All (fun r => ∀ e ∈ r.2,
        this.size ≤ e.2.child.size + ((i + left - 1) * things + bound)) E
      (splitLoop bet this things left i st result) := by
  induction left generalizing i st done result with
  | zero => exact hf.least
  | succ left ih =>
      rw [splitLoop]
      split
      · exact hf.least
      · rename_i k hk
        intro id
        refine (all_enterResult hr).bind (fun r hn => ?_)
        obtain ⟨n, size⟩ := r
        have hn : n = ⟨id, [], []⟩ := hn
        subst hn
        have hps : OrdMap.Sorted ((⟨id, [], []⟩ : Node K V).pivots ++ st.pivotIdx) :=
          hthis.pivots.sublist h.midway.pivots.sublist
        have hes : OrdMap.Sorted ((⟨id, [], []⟩ : Node K V).elements ++ st.eltIdx) :=
          hthis.elements.sublist h.midway.elements.sublist
        refine (all_fill hr hthis hbound h.midway hps hes).bind (fun r hfill => ?_)
        obtain ⟨st', n'⟩ := r
        obtain ⟨hmid', ps', es', hmoved⟩ := hfill
        have hf' := hf.step size h (by omega) hall hk hmoved
        obtain ⟨done', h'⟩ := h.step size hthis hk hmid' hmoved
        rw [show i + (left + 1) = i + 1 + left by omega] at hall hf' ⊢
        exact ih hall h' hf'

/-- What the targets leave for the last piece is about a quota. -/
theorem leafQuota_lt {maxNodeSize size least : Nat} (hpos : 0 < numNewLeaves maxNodeSize size)
    (h : size ≤ least + ((numNewLeaves maxNodeSize size - 1)
      * thingsPerNewLeaf size (numNewLeaves maxNodeSize size) + bound)) :
    leafQuota maxNodeSize < least + (numNewLeaves maxNodeSize size + bound) := by
  obtain ⟨_, htop⟩ := ceilDiv_bounds size hpos
  have hquota : leafQuota maxNodeSize
      ≤ (size + numNewLeaves maxNodeSize size - 1) / numNewLeaves maxNodeSize size := by
    refine (Nat.le_div_iff_mul_le hpos).mpr ?_
    have := Nat.mul_div_le size (leafQuota maxNodeSize)
    unfold numNewLeaves at hpos ⊢
    omega
  unfold thingsPerNewLeaf at h
  generalize (size + numNewLeaves maxNodeSize size - 1) / numNewLeaves maxNodeSize size = things
    at h htop hquota
  generalize numNewLeaves maxNodeSize size = num at hpos h htop ⊢
  obtain ⟨j, rfl⟩ := Nat.exists_eq_add_of_lt hpos
  rw [Nat.zero_add, Nat.add_sub_cancel] at h
  rw [Nat.zero_add, Nat.succ_mul] at htop
  omega

/-- **The smallest piece** of a split has about a quota of entries. -/
theorem all_split_least (hr : ∀ n, bet.reload n = some n) (hM : 3 ≤ bet.maxNodeSize)
    (hsize : bet.maxNodeSize ≤ this.size) (hthis : Splittable this)
    (hbound : ∀ p ∈ this.pivots, slotCount this p.1 ≤ bound) :
    Prog.All (fun r => ∀ e ∈ r.2, leafQuota bet.maxNodeSize
        < e.2.child.size + (numNewLeaves bet.maxNodeSize this.size + bound))
      (fun _ => True) (this.split bet) := by
  refine (Prog.all_require (R := fun _ => True) (decide_eq_true hsize) trivial).bind (fun _ _ => ?_)
  refine ((all_splitCounts hM hsize).imp (fun _ h => h) (fun _ _ => trivial)).bind
    (fun r hcounts => ?_)
  obtain ⟨num, things⟩ := r
  obtain ⟨hnum, hthings, hpos, hcover, _⟩ := hcounts
  dsimp only at hnum hthings hpos hcover
  have hfilled : Filled this things bound (0 + num) 0 ⟨this.pivots, this.elements, 0⟩ [] :=
    ⟨Nat.zero_le _, fun e he => absurd he List.not_mem_nil⟩
  have hcover : this.size ≤ (0 + num) * things := by rw [Nat.zero_add]; exact hcover
  refine ((all_splitLoop hr hthis hbound hcover hthis.start).and
    (all_splitLoop_filled hr hthis hbound hcover hthis.start hfilled)).bind
    (fun r hloop => ?_)
  obtain ⟨st, result⟩ := r
  obtain ⟨⟨⟨hp, he⟩, _⟩, hleast⟩ := hloop
  dsimp only at hp he hleast
  refine (all_refreshSizes hr).bind (fun res hres => ?_)
  refine (Prog.all_require (R := fun _ => True) (by simp [hp]) trivial).bind (fun _ _ => ?_)
  refine (Prog.all_require (R := fun _ => True) (by simp [he]) trivial).bind (fun _ _ => ?_)
  intro e he'
  rw [hres] at he'
  obtain ⟨x, hx, rfl⟩ := List.mem_map.mp he'
  have hlow := hleast x hx
  rw [hthings, hnum, Nat.zero_add] at hlow
  exact leafQuota_lt (hnum ▸ hpos) hlow

/-! ## The pivots of a piece -/

omit [LinearOrder K] in
/-- Messages that all belong to one of some pivots are no more than those of each. -/
theorem length_le_of_covered {es : MessageMap K V} {ps : PivotMap K V} {P : K → K → Prop}
    [∀ p k, Decidable (P p k)]
    (hcov : ∀ m ∈ es, ∃ p ∈ ps, P p.1 m.1.key)
    (hle : ∀ p ∈ ps, (es.filter (fun m => decide (P p.1 m.1.key))).length ≤ bound) :
    es.length ≤ ps.length * bound := by
  induction ps generalizing es with
  | nil =>
      cases es with
      | nil => exact Nat.zero_le _
      | cons m es => obtain ⟨p, hp, _⟩ := hcov m List.mem_cons_self; exact absurd hp List.not_mem_nil
  | cons p ps ih =>
      have hsplit := List.length_eq_length_filter_add (l := es) (fun m => decide (P p.1 m.1.key))
      have hfirst := hle p List.mem_cons_self
      have hrest : (es.filter (fun m => !decide (P p.1 m.1.key))).length ≤ ps.length * bound := by
        refine ih (fun m hm => ?_) (fun q hq => ?_)
        · obtain ⟨hm, hnot⟩ := List.mem_filter.mp hm
          obtain ⟨q, hq, hqm⟩ := hcov m hm
          rcases List.mem_cons.mp hq with rfl | hq
          · exact absurd hqm (by simpa using hnot)
          · exact ⟨q, hq, hqm⟩
        · refine Nat.le_trans (List.Sublist.length_le ?_) (hle q (List.mem_cons_of_mem _ hq))
          exact List.Sublist.filter _ List.filter_sublist
      rw [List.length_cons, Nat.succ_mul]
      omega

variable {R : K → Prop} {h : Nat} {res : PivotMap K V} {e : K × ChildInfo (Node K V)}

/-- A message of a piece belongs to a pivot of the piece. -/
theorem Partition.covered (hp : Partition this ⟨[], [], this.size⟩ (subtrees res))
    (hn : Inv False (h + 1) R this) (he : e ∈ res) {m : MessageKey K × Message V}
    (hm : m ∈ e.2.child.elements) : ∃ p ∈ e.2.child.pivots, Slot this.pivots p.1 m.1.key := by
  have hinner : Inner False (Inv False h) R this := hn
  have hl : this.isLeaf = false := by rw [hn.isLeaf]; rfl
  obtain ⟨q, hq, hqm⟩ := hinner.covered m (hp.mem_elements.mpr ⟨e, he, hm⟩)
  rcases slot_or_below this.pivots m.1.key with ⟨p, hpm, hslot⟩ | hbelow
  · obtain ⟨x, hx, hpx⟩ := hp.mem_pivots.mp hpm
    have hxe := hp.eq_of_slot he hx (hp.slot_elements he hm) (hp.slot_of_pivot hl hx hpx hslot)
    exact ⟨p, hxe ▸ hpx, hslot⟩
  · exact absurd (hbelow q hq) (not_lt.mpr hqm)

/-- So a piece with many entries has many pivots. -/
theorem Partition.size_le (hp : Partition this ⟨[], [], this.size⟩ (subtrees res))
    (hn : Inv False (h + 1) R this) (hbound : ∀ p ∈ this.pivots, slotCount this p.1 ≤ bound)
    (he : e ∈ res) : e.2.child.size ≤ e.2.child.pivots.length * (bound + 1) := by
  have hsub : e.2.child.elements.Sublist this.elements := by
    rw [hp.elements_eq (show Inner False (Inv False h) R this from hn).buffer.sorted he]
    exact List.filter_sublist
  have hlen : e.2.child.elements.length ≤ e.2.child.pivots.length * bound := by
    refine length_le_of_covered (P := Slot this.pivots) (fun m hm => hp.covered hn he hm)
      (fun p hpm => ?_)
    exact Nat.le_trans (hsub.filter _).length_le (hbound p (hp.mem_pivots.mpr ⟨e, he, hpm⟩))
  unfold Node.size
  rw [Nat.mul_succ]
  omega

omit [LinearOrder K] in
/-- With the default sizes, or larger ones, a piece of an inner node has five pivots. -/
theorem five_le {maxNodeSize size least pivots : Nat} (hM : 2 ^ 18 ≤ maxNodeSize)
    (hflush : bound ≤ maxNodeSize / 16) (hle : maxNodeSize ≤ size) (hfits : size < 2 ^ 31)
    (hquota : leafQuota maxNodeSize < least + (numNewLeaves maxNodeSize size + bound))
    (hleast : least ≤ pivots * (bound + 1)) : 5 ≤ pivots := by
  by_contra hlt
  have hfour : pivots * (bound + 1) ≤ 4 * (bound + 1) := Nat.mul_le_mul_right _ (by omega)
  unfold numNewLeaves at hquota
  rw [leafQuota_eq (Nat.lt_of_le_of_lt hle hfits)] at hquota
  -- the number of pieces is bounded by the range of an `int`
  have hnum : 109226 * (size / (10 * maxNodeSize / 24)) ≤ size :=
    Nat.le_trans (Nat.mul_le_mul_right _ (by omega)) (Nat.mul_div_le _ _)
  omega

end Node

/-! ## Every inner node has several children -/

/-- Every inner node of the subtree has five children. -/
def Fans (n : Node K V) : Prop := ∀ x ∈ n.nodes, x.isLeaf = false → 5 ≤ x.pivots.length

/-- Every inner node below `n` has five children. -/
def Fans.Below (n : Node K V) : Prop := ∀ p ∈ n.pivots, Fans p.2.child

omit [LinearOrder K] in
theorem fans_iff {n : Node K V} :
    Fans n ↔ (n.isLeaf = false → 5 ≤ n.pivots.length) ∧ Fans.Below n := forall_nodes

section Fan

variable [Add V] {bet : Params K V} {h : Nat} {R : K → Prop} {n : Node K V}
  {elts : MessageMap K V}

/-- What a flush does to the pivots. -/
structure Fanned (n : Node K V) (r : Node K V × PivotMap K V) : Prop where
  below : r.2 = [] → Fans.Below r.1
  kept : r.2 = [] → n.pivots.length ≤ r.1.pivots.length
  parts : ∀ e ∈ r.2, Fans e.2.child
  two : r.2 ≠ [] → 2 ≤ r.2.length

/-- The pivots in a flush of subtrees of height `h`. -/
def FanSpec (h : Nat) (flush : Flush K V) : Prop :=
  ∀ (R : K → Prop) (n : Node K V) (elts : MessageMap K V), Inv False h R n → Batch False R elts →
    Fans.Below n → Prog.All (Fanned n) (fun _ => True) (flush n elts)

omit [LinearOrder K] [Add V] in
theorem fanned_whole {m : Node K V} (hbelow : Fans.Below m)
    (hkept : n.pivots.length ≤ m.pivots.length) : Fanned n (m, []) :=
  ⟨fun _ => hbelow, fun _ => hkept, fun _ he => absurd he List.not_mem_nil,
    fun hne => absurd rfl hne⟩

omit [Add V] in
/-- A node that is split has two pieces, if what a piece may have too much is little. -/
theorem fanned_split {m : Node K V} {r : Node K V × PivotMap K V} {bound : Nat}
    (hM : 2 ^ 18 ≤ bet.maxNodeSize) (hsize : bet.maxNodeSize ≤ m.size)
    (hbound : bound ≤ bet.maxNodeSize / 16) (hres : IsSplit bet.maxNodeSize m bound r.2)
    (hparts : ∀ e ∈ r.2, Fans e.2.child) : Fanned n r := by
  have hne : r.2 ≠ [] := hres.partition.ne_nil (by omega)
  have hthings := thingsPerNewLeaf_le (show 3 ≤ bet.maxNodeSize by omega)
    (Nat.lt_of_le_of_lt hsize hres.fits) hsize
  exact ⟨fun hnil => absurd hnil hne, fun hnil => absurd hnil hne, hparts,
    fun _ => hres.two_le (by omega)⟩

section Split

variable (hM : 2 ^ 18 ≤ bet.maxNodeSize) (hflush : bet.minFlushSize ≤ bet.maxNodeSize / 16)
  (hr : ∀ n, bet.reload n = some n)

include hM hr

omit [Add V] in
/-- The pieces of a leaf are leaves. -/
theorem all_split_leaf {m : Node K V} (hm : Inv False 0 R m) (hsize : bet.maxNodeSize ≤ m.size) :
    Prog.All (Fanned n) (fun _ => True) (m.split bet) := by
  have hbound : ∀ p ∈ m.pivots, slotCount m p.1 ≤ 0 := by
    intro p hp
    rw [hm.1] at hp
    exact absurd hp List.not_mem_nil
  have hl : m.isLeaf = true := by rw [hm.isLeaf]; rfl
  refine (all_split hr (by omega) hsize hm.splittable hbound).imp (fun r hres => ?_)
    (fun _ _ => trivial)
  refine fanned_split hM hsize (Nat.zero_le _) hres (fun e he => ?_)
  obtain ⟨hnone, _⟩ := (hres.partition.piece_of he).ofLeaf hl
  refine fans_iff.mpr ⟨fun hinner => ?_, fun p hpm => ?_⟩
  · rw [Node.isLeaf, hnone] at hinner
    exact absurd hinner (by simp)
  · rw [hnone] at hpm
    exact absurd hpm List.not_mem_nil

include hflush

omit [Add V] in
/-- The pieces of an inner node have five pivots each. -/
theorem all_split_inner {m : Node K V} (hm : Inv False (h + 1) R m)
    (hsize : bet.maxNodeSize ≤ m.size) (hbelow : Fans.Below m)
    (hslots : ∀ p ∈ m.pivots, slotCount m p.1 % 2 ^ 32 ≤ bet.minFlushSize) :
    Prog.All (Fanned n) (fun _ => True) (m.split bet) := by
  by_cases hbig : m.size < 2 ^ 31
  · have hbound : ∀ p ∈ m.pivots, slotCount m p.1 ≤ bet.minFlushSize :=
      fun p hp => slotCount_le_of_mod hbig (hslots p hp)
    refine ((all_split_least hr (by omega) hsize hm.splittable hbound).and_any
      (all_split hr (by omega) hsize hm.splittable hbound)).mono (fun r hres => ?_)
    obtain ⟨hleast, hres⟩ := hres
    have hp := hres.partition
    refine fanned_split hM hsize hflush hres (fun e he => fans_iff.mpr ⟨fun _ => ?_, ?_⟩)
    · exact five_le hM hflush hsize hbig (hleast e he) (hp.size_le hm hbound he)
    · exact fun p hpm => hbelow p (hp.mem_pivots.mpr ⟨e, he, hpm⟩)
  · -- a node too large for the `int`s of `split` is not split at all
    have hbound : ∀ p ∈ m.pivots, slotCount m p.1 ≤ m.elements.length :=
      fun p _ => List.length_filter_le _ _
    exact (all_split hr (by omega) hsize hm.splittable hbound).imp
      (fun r hres => absurd hres.fits hbig) (fun _ _ => trivial)

end Split

section Flush

variable {flushChild : Flush K V} {c : OrdMap.Cursor K (ChildInfo (Node K V))} {first : Option K}
  {mid ps' : PivotMap K V}

omit [Add V] in
/-- With several children in the place of one, or one in its own place, there are no fewer. -/
theorem Spliced.fans (h : Spliced n.pivots c.key mid ps') (hs : OrdMap.Sorted n.pivots)
    (hc : c.toMap = n.pivots) (hm : OrdMap.Sorted mid)
    (hslot : ∀ e ∈ mid, Slot n.pivots c.key e.1) (hne : mid ≠ []) (hbelow : Fans.Below n)
    (hmid : ∀ e ∈ mid, Fans e.2.child) :
    (∀ e ∈ ps', Fans e.2.child) ∧ n.pivots.length ≤ ps'.length := by
  refine ⟨fun e he => ?_, ?_⟩
  · rcases (h.mem e).mp he with ⟨he, _⟩ | he
    · exact hbelow e he
    · exact hmid e he
  · have hlen := h.length hs hc hm hslot
    have hpos := List.length_pos_iff.mpr hne
    omega

omit [Add V] in
/-- A child that was flushed and not split, in its own place. -/
theorem set_fans {v : ChildInfo (Node K V)} (hs : OrdMap.Sorted n.pivots)
    (hc : c.toMap = n.pivots) (hbelow : Fans.Below n) (hv : Fans v.child) :
    (∀ e ∈ c.set v, Fans e.2.child) ∧ n.pivots.length ≤ (c.set v).length :=
  (spliced_set hs hc v).fans hs hc (OrdMap.sorted_singleton _)
    (List.forall_mem_singleton.mpr (slot_self _ _)) (List.cons_ne_nil _ _) hbelow
    (List.forall_mem_singleton.mpr hv)

omit [Add V] in
/-- The pieces of a child that was split, in its place. -/
theorem all_insertChildren_fans {kids : (K → Prop) → Node K V → Prop}
    (hs : OrdMap.Sorted n.pivots) (hc : c.toMap = n.pivots) (hbelow : Fans.Below n)
    (hmid : Forest kids (fun k => R k ∧ Slot n.pivots c.key k) mid) (hne : mid ≠ [])
    (hparts : ∀ e ∈ mid, Fans e.2.child) :
    Prog.All (fun ps' => (∀ e ∈ ps', Fans e.2.child) ∧ n.pivots.length ≤ ps'.length)
      (fun _ => True) (insertChildren c.erase mid) := by
  have hslots : ∀ e ∈ mid, Slot n.pivots c.key e.1 := fun e he => (hmid.range e he).2
  exact all_insertChildren hs hc hmid.sorted hslots
    (fun ps' hsp => hsp.fans hs hc hmid.sorted hslots hne hbelow hparts)

/-- A child that is not split still has its children. -/
theorem Fanned.whole {r : Node K V × PivotMap K V} (hn : Inv False h R n) (hfans : Fans n)
    (hfl : Flushed False bet.defaultValue h R n elts r) (hr : Fanned n r) (hnil : r.2 = []) :
    Fans r.1 := by
  refine fans_iff.mpr ⟨fun hl => ?_, hr.below hnil⟩
  have hleaf : n.isLeaf = false := by
    rw [hn.isLeaf, ← (hfl.whole hnil).inv.isLeaf]
    exact hl
  exact Nat.le_trans ((fans_iff.mp hfans).1 hleaf) (hr.kept hnil)

variable (hr : ∀ n, bet.reload n = some n)
  (hspec : FlushSpec (fun _ => True) False bet.defaultValue h flushChild)
  (hfan : FanSpec h flushChild)

include hr hspec hfan

/-- The dirty path takes out one child at most, for its pieces. -/
theorem all_flushDirty_fans (hn : Inner False (Inv False h) R n) (hc : c.toMap = n.pivots)
    (hb : Batch False R elts) (hslot : ∀ e ∈ elts, Slot n.pivots c.key e.1.key)
    (hbelow : Fans.Below n) :
    Prog.All (fun n' => Fans.Below n' ∧ n.pivots.length ≤ n'.pivots.length) (fun _ => True)
      (n.flushDirty bet flushChild c elts) := by
  have hx : (c.key, c.val) ∈ n.pivots := hc ▸ c.mem_toMap
  have hsort := hn.forest.sorted
  have hchild := hn.forest.child _ hx
  have hfans : Fans c.val.child := hbelow _ hx
  have hb' := hb.slot hslot
  have hboth := (hspec _ _ _ hchild hb' False.elim).and
    (hfan _ _ _ hchild hb' (fans_iff.mp hfans).2)
  unfold flushDirty
  refine (Prog.all_true _).bind (fun _ _ => (all_deref hr hboth).bind (fun r hres => ?_))
  obtain ⟨child, news⟩ := r
  obtain ⟨hfl, hfd⟩ := hres
  refine all_settleDirty hr (fun hnil => ?_) (fun hne => ?_)
  · exact set_fans hsort hc hbelow (hfd.whole hchild hfans hfl hnil)
  · exact all_insertChildren_fans hsort hc hbelow (hfl.parts hne).forest hne hfd.parts

/-- So does a round of the flush loop. -/
theorem all_flushRound_fans (hn : Inner False (Inv False h) R n) (hc : c.toMap = n.pivots)
    (hbelow : Fans.Below n) :
    Prog.All (fun r => Fans.Below r.1 ∧ n.pivots.length ≤ r.1.pivots.length) (fun _ => True)
      (n.flushRound bet flushChild c first) := by
  have hx : (c.key, c.val) ∈ n.pivots := hc ▸ c.mem_toMap
  have hsort := hn.forest.sorted
  have hchild := hn.forest.child _ hx
  have hfans : Fans c.val.child := hbelow _ hx
  have hb := hn.slot_batch c.key
  have hboth := (hspec _ _ _ hchild hb False.elim).and
    (hfan _ _ _ hchild hb (fans_iff.mp hfans).2)
  rw [flushRound_eq hn.buffer.sorted hsort hc]
  refine (all_deref hr hboth).bind (fun r hres => ?_)
  obtain ⟨child, news⟩ := r
  obtain ⟨hfl, hfd⟩ := hres
  refine all_settleRound hr trivial (fun hnil k _ => ?_) (fun hne first' => ?_)
  · have hchild' : Fans ({ c.val with child := child } : ChildInfo (Node K V)).child :=
      hfd.whole hchild hfans hfl hnil
    obtain ⟨hfans', hlen⟩ := set_fans hsort hc hbelow hchild'
    -- the size may be that of another child; the children stay
    refine ⟨fun p hp => ?_, ?_⟩
    · obtain ⟨q, hq, _, hqp⟩ := mem_of_subtrees (subtrees_setChildSize _ k _) hp
      exact hqp ▸ hfans' q hq
    · show _ ≤ (setChildSize _ k child.size).length
      rw [setChildSize, List.length_map]
      exact hlen
  · exact all_insertChildren_fans hsort hc hbelow (hfl.parts hne).forest hne hfd.parts

/-- What the flush loop leaves too large has few messages for each child. -/
theorem all_flushLoop_fans {fuel : Nat} (hn : Inv False (h + 1) R n) (hbelow : Fans.Below n) :
    Prog.All (fun n' => (Fans.Below n' ∧ n.pivots.length ≤ n'.pivots.length)
        ∧ Inv False (h + 1) R n' ∧ (bet.maxNodeSize < n'.size →
          ∀ p ∈ n'.pivots, slotCount n' p.1 % 2 ^ 32 ≤ bet.minFlushSize))
      (fun _ => True)
      (loopBy bet (fun n c first => n.flushRound bet flushChild c first) fuel n first) := by
  induction fuel generalizing n first with
  | zero => exact trivial
  | succ fuel ih =>
      have hinner : Inner False (Inv False h) R n := hn
      rw [loopBy]
      refine all_loopStep hinner.buffer.sorted hinner.forest.sorted (fun c hc _ => ?_)
        (fun hslots => ⟨⟨hbelow, Nat.le_refl _⟩, hn, hslots⟩)
      have hself : Represents False bet.defaultValue (h + 1) R n.messages
          (value bet.defaultValue (h + 1) n) n :=
        represents_self hn
      refine ((all_flushRound hr (fun _ _ => trivial) hspec hself hc).and
        (all_flushRound_fans hr hspec hfan hinner hc hbelow)).mono (fun r hround => ?_)
      obtain ⟨⟨hrep, _⟩, hbelow', hlen⟩ := hround
      refine (ih hrep.inv hbelow').mono (fun n' hrest => ?_)
      exact ⟨⟨hrest.1.1, Nat.le_trans hlen hrest.1.2⟩, hrest.2⟩

omit hr hspec hfan [Add V] in
/-- Lowering the first pivot keeps the children. -/
theorem Fans.Below.lowerFirstPivot (hbelow : Fans.Below n) (hs : OrdMap.Sorted n.pivots)
    (elts : MessageMap K V) : Fans.Below (n.lowerFirstPivot elts) := by
  intro q hq
  have hmem := List.mem_map_of_mem (f := Prod.snd) hq
  rw [lowerFirstPivot_children hs] at hmem
  obtain ⟨q', hq', heq⟩ := List.mem_map.mp hmem
  exact heq ▸ hbelow q' hq'

/-- An inner node keeps its children, or is split into nodes that have five each. -/
theorem all_innerWith_fans {fuel : Node K V → Nat} {lo hi : MessageKey K × Message V}
    (hM : 2 ^ 18 ≤ bet.maxNodeSize) (hflush : bet.minFlushSize ≤ bet.maxNodeSize / 16)
    (hn : Inv False (h + 1) R n) (hb : Batch False R elts) (hbelow : Fans.Below n)
    (hlo : elts.head? = some lo) (hhi : elts.getLast? = some hi) :
    Prog.All (Fanned n) (fun _ => True)
      (innerWith bet (fun n first => do return (← n.flushDirty bet flushChild first elts, []))
        (fun n => loopBy bet (fun n c first => n.flushRound bet flushChild c first) (fuel n) n)
        (splitOver bet) n lo.1.key hi.1.key elts) := by
  have hsorted : OrdMap.Sorted n.pivots := (show Inner False (Inv False h) R n from hn).forest.sorted
  have hlen := lowerFirstPivot_length hsorted elts
  have hbelow₁ := hbelow.lowerFirstPivot hsorted elts
  refine all_innerWith hn hb False.elim hlo hhi (fun first n₁ heq hn₁ hmap hslot _ => ?_)
    (fun first n₂ heq hn₂ => ?_)
  · subst heq
    refine (all_flushDirty_fans hr hspec hfan hn₁.inv hmap hb hslot hbelow₁).bind (fun n' hn' => ?_)
    exact fanned_whole hn'.1 (hlen ▸ hn'.2)
  · have hpivots : n₂.pivots = (n.lowerFirstPivot elts).pivots := by rw [heq, applyAll_pivots]
    have hbelow₂ : Fans.Below n₂ := by
      unfold Fans.Below
      rw [hpivots]
      exact hbelow₁
    refine (all_flushLoop_fans hr hspec hfan hn₂.inv hbelow₂).mono (fun n₃ hres => ?_)
    obtain ⟨⟨hbelow₃, hkept⟩, hinv, hslots⟩ := hres
    rw [hpivots, hlen] at hkept
    unfold splitOver
    split
    · rename_i hlt
      exact all_split_inner hM hflush hr hinv (Nat.le_of_lt hlt) hbelow₃ (hslots hlt)
    · exact fanned_whole hbelow₃ hkept

end Flush

section Tree

variable (hr : ∀ n, bet.reload n = some n) (hM : 2 ^ 18 ≤ bet.maxNodeSize)
  (hflush : bet.minFlushSize ≤ bet.maxNodeSize / 16)

include hr hM hflush

/-- **The pivots in a flush**, by induction on the height. -/
theorem flush_fanSpec (fuel : Nat) (hfuel : h < fuel) : FanSpec h (flush bet fuel) := by
  induction fuel generalizing h with
  | zero => exact absurd hfuel (Nat.not_lt_zero _)
  | succ fuel ih =>
      intro R n elts hn hb hbelow
      rw [flush_succ]
      refine all_flushWith (fun hl _ => ?_) (fun lo hi hl hlo hhi => ?_)
        (fun _ => fanned_whole hbelow (Nat.le_refl _))
      · cases h with
        | succ h => exact absurd (hn.isLeaf.symm.trans hl) Bool.false_ne_true
        | zero =>
            have hself : Represents False bet.defaultValue 0 R n.messages
                (value bet.defaultValue 0 n) n :=
              represents_self hn
            have hn₁ := (hself.applyAll_leaf hb False.elim).inv
            unfold splitFull
            split
            · rename_i hsize
              exact all_split_leaf hM hr hn₁ hsize
            · refine fanned_whole (fun p hp => ?_) (by rw [hn.1]; exact Nat.zero_le _)
              rw [hn₁.1] at hp
              exact absurd hp List.not_mem_nil
      · cases h with
        | zero => exact absurd (hl.symm.trans hn.isLeaf) Bool.false_ne_true
        | succ h =>
            have hfuel' := Nat.lt_of_succ_lt_succ hfuel
            have hspec : FlushSpec (fun _ => True) False bet.defaultValue h (flush bet fuel) := by
              intro R n elts hn hb hnew
              exact (flush_spec fuel hr (by omega) hfuel' R n elts hn hb hnew).imp
                (fun _ hres => hres) (fun _ _ => trivial)
            exact all_innerWith_fans hr hspec (ih hfuel') hM hflush hn hb hbelow hlo hhi

/-! ## The tree -/

/-- The root may have two children; every other inner node has five. -/
structure Branching (n : Node K V) : Prop where
  root : n.isLeaf = false → 2 ≤ n.pivots.length
  below : Fans.Below n

/-- **One upsert** keeps the number of children, and the keys that are in the tree. -/
theorem all_upsert_branching {t : Betree K V} {opcode : Opcode} {k : K} {v : V} (hk : R k)
    (hinv : Inv False h R t.root) (hts : t.nextTimestamp ≤ uint64Max) (hb : Branching t.root) :
    Prog.All (fun t' => (∃ h', Inv False h' R t'.root) ∧ t'.nextTimestamp ≤ uint64Max
      ∧ Branching t'.root) Fault.Excluded
      (t.upsertWith bet (fun fuel n elts => n.flush bet fuel elts) id (fun t _ => t) opcode k v) := by
  have hfuel : h < t.root.height + 1 := by
    rw [hinv.height]
    exact Nat.lt_succ_self _
  have hbatch : Batch False R [((⟨k, t.nextTimestamp⟩ : MessageKey K), (⟨opcode, v⟩ : Message V))] :=
    batch_single hts False.elim hk
  have hclock : (t.nextTimestamp + 1) % 2 ^ 64 ≤ uint64Max :=
    Nat.le_of_lt_succ (Nat.mod_lt _ (by decide))
  refine Betree.all_upsertWith hr
    ((flush_spec _ hr (by omega) hfuel _ _ _ hinv hbatch False.elim).and_any
      (flush_fanSpec hr hM hflush _ hfuel _ _ _ hinv hbatch hb.below))
    (fun root made hres hnil => ?_) (fun root made hres hne => ?_)
  · obtain ⟨hfl, hfd⟩ := hres
    have hrep := (hfl.whole hnil).inv
    refine ⟨⟨h, hrep⟩, hclock, fun hl => ?_, hfd.below hnil⟩
    have hleaf : t.root.isLeaf = false := by
      rw [hinv.isLeaf, ← hrep.isLeaf]
      exact hl
    exact Nat.le_trans (hb.root hleaf) (hfd.kept hnil)
  · obtain ⟨hfl, hfd⟩ := hres
    refine ((all_growRoot hr (hfl.parts hne)).and (Betree.all_growRoot_eq hr)).mono (fun n hn => ?_)
    obtain ⟨hrep, hps, _⟩ := hn
    have hps : n.pivots = made := hps
    refine ⟨⟨h + 1, hrep.inv⟩, hclock, fun _ => ?_, fun p hp => ?_⟩
    · show 2 ≤ n.pivots.length
      rw [hps]
      exact hfd.two hne
    · have hp : p ∈ made := hps ▸ hp
      exact hfd.parts p hp

theorem all_applyAll_branching {t : Betree K V} (us : List (Upsert K V)) (hus : ∀ u ∈ us, R u.key)
    (hinv : Inv False h R t.root) (hts : t.nextTimestamp ≤ uint64Max) (hb : Branching t.root) :
    Prog.All (fun t' => (∃ h', Inv False h' R t'.root) ∧ Branching t'.root) Fault.Excluded
      (t.applyAll bet us) := by
  induction us generalizing h t with
  | nil => exact ⟨⟨h, hinv⟩, hb⟩
  | cons u us ih =>
      have hstep : Prog.All (fun t' => (∃ h', Inv False h' R t'.root)
          ∧ t'.nextTimestamp ≤ uint64Max ∧ Branching t'.root) Fault.Excluded (t.apply bet u) := by
        have hu := hus u List.mem_cons_self
        rw [Betree.apply_eq]
        cases u <;> exact all_upsert_branching hr hM hflush hu hinv hts hb
      refine hstep.bind (fun t' ht' => ?_)
      obtain ⟨⟨h', hinv'⟩, hts', hb'⟩ := ht'
      exact ih (fun u hu => hus u (List.mem_cons_of_mem _ hu)) hinv' hts' hb'

end Tree

end Fan

/-! ## The keys above the leaves -/

/-- The pivots of the nodes above the leaves, in a subtree of height `h + 1`. -/
def leafPivots : Nat → Node K V → List K
  | 0, n => n.pivots.map Prod.fst
  | h + 1, n => n.pivots.flatMap (fun e => leafPivots h e.2.child)

section LeafPivots

variable {h : Nat} {R : K → Prop} {n : Node K V}

theorem leafPivots_range (hn : Inv False (h + 1) R n) : ∀ k ∈ leafPivots h n, R k := by
  induction h generalizing R n with
  | zero =>
      intro k hk
      obtain ⟨p, hp, rfl⟩ := List.mem_map.mp hk
      exact hn.forest.range p hp
  | succ h ih =>
      intro k hk
      obtain ⟨p, hp, hk⟩ := List.mem_flatMap.mp hk
      exact (ih (hn.forest.child p hp) k hk).1

/-- No key is above two leaves. -/
theorem leafPivots_nodup (hn : Inv False (h + 1) R n) : (leafPivots h n).Nodup := by
  induction h generalizing R n with
  | zero =>
      refine List.pairwise_map.mpr (hn.forest.sorted.imp ?_)
      intro a b hlt
      exact ne_of_lt hlt
  | succ h ih =>
      have hinner : Inner False (Inv False (h + 1)) R n := hn
      refine List.nodup_flatMap.mpr ⟨fun p hp => ih (hinner.forest.child p hp), ?_⟩
      -- the keys of two children are in different slots
      refine hinner.forest.sorted.imp_of_mem (fun {a b} ha hb hlt => ?_)
      intro k hka hkb
      have hsa := (leafPivots_range (hinner.forest.child a ha) k hka).2
      have hsb := (leafPivots_range (hinner.forest.child b hb) k hkb).2
      exact absurd (Slot.unique ha hb hsa hsb) (ne_of_lt hlt)

/-- Five children each, level by level, below a node that has `least`. -/
theorem length_leafPivots {least : Nat} (hn : Inv False (h + 1) R n)
    (hleast : least ≤ n.pivots.length) (hbelow : Fans.Below n) :
    least * 5 ^ h ≤ (leafPivots h n).length := by
  induction h generalizing R n least with
  | zero =>
      rw [leafPivots, List.length_map, Nat.pow_zero, Nat.mul_one]
      exact hleast
  | succ h ih =>
      have hinner : Inner False (Inv False (h + 1)) R n := hn
      have hkids : ∀ x ∈ n.pivots.map (fun e => (leafPivots h e.2.child).length),
          5 ^ (h + 1) ≤ x := by
        intro x hx
        obtain ⟨e, he, rfl⟩ := List.mem_map.mp hx
        have hchild := hinner.forest.child e he
        obtain ⟨hfive, hbelow'⟩ := fans_iff.mp (hbelow e he)
        rw [Nat.pow_succ']
        exact ih hchild (hfive (by rw [hchild.isLeaf]; rfl)) hbelow'
      have hsum := List.card_nsmul_le_sum _ _ hkids
      rw [List.length_map, Nat.nsmul_eq_mul] at hsum
      calc least * 5 ^ (h + 1) ≤ n.pivots.length * 5 ^ (h + 1) := Nat.mul_le_mul_right _ hleast
        _ ≤ (n.pivots.map (fun e => (leafPivots h e.2.child).length)).sum := hsum
        _ = (leafPivots (h + 1) n).length := List.length_flatMap.symm

end LeafPivots

/--
**The height of the tree.** With the sizes that the source has as defaults, or larger ones with
the same proportion, and whatever is answered about nodes being dirty or in memory: the root of
a tree that upserts have made is a leaf, or it has two children and every other inner node has
five, and the height is no more than one and the logarithm to the base five of half the number
of different keys.
-/
theorem upserts_height [Add V] (bet : Params K V) (hr : ∀ n, bet.reload n = some n)
    (hM : 2 ^ 18 ≤ bet.maxNodeSize) (hflush : bet.minFlushSize ≤ bet.maxNodeSize / 16)
    (us : List (Upsert K V)) :
    Prog.All (fun t => t.root.isLeaf = true
        ∨ 2 ≤ t.root.pivots.length
          ∧ (∀ n ∈ t.root.descendants, n.isLeaf = false → 5 ≤ n.pivots.length)
          ∧ 2 * 5 ^ (t.root.height - 1) ≤ (us.map Upsert.key).dedup.length) Fault.Excluded
      (do let t ← Betree.create; t.applyAll bet us) := by
  intro id
  have hempty : Inv False 0 (fun k => k ∈ us.map Upsert.key) (⟨id, [], []⟩ : Node K V) :=
    ⟨rfl, Buffer.nil⟩
  have hb : Branching (⟨id, [], []⟩ : Node K V) :=
    ⟨fun hl => absurd hl (by simp [Node.isLeaf]), fun p hp => absurd hp List.not_mem_nil⟩
  have hkeys : ∀ u ∈ us, u.key ∈ us.map Upsert.key := fun u hu => List.mem_map_of_mem hu
  refine (all_applyAll_branching hr hM hflush (t := ⟨⟨id, [], []⟩, 1⟩) us hkeys hempty
    (Nat.le_of_ble_eq_true rfl) hb).mono (fun t ht => ?_)
  obtain ⟨⟨h, hinv⟩, hbranch⟩ := ht
  cases h with
  | zero => exact Or.inl (by rw [hinv.isLeaf]; rfl)
  | succ h =>
      have htwo := hbranch.root (by rw [hinv.isLeaf]; rfl)
      have hlen := length_leafPivots hinv htwo hbranch.below
      refine Or.inr ⟨htwo, fun n hn => ?_, ?_⟩
      · obtain ⟨p, hp, hnp⟩ := List.mem_flatMap.mp hn
        exact hbranch.below p hp n hnp
      · -- the keys above the leaves are different, and all have been upserted
        have hsub : leafPivots h t.root ⊆ (us.map Upsert.key).dedup :=
          fun k hk => List.mem_dedup.mpr (leafPivots_range hinv k hk)
        have hle := ((leafPivots_nodup hinv).subperm hsub).length_le
        rw [hinv.height]
        exact Nat.le_trans hlen hle

/-! ## A leaf that fills up -/

section Filling

variable [Add V] {bet : Params K V} {n : Node K V} {k : K} {v d : V} {ts : Nat}
  {elts : MessageMap K V} {R : K → Prop}

/-- An insert of a key above those of a leaf is put at the end. -/
theorem applyAll_above (hn : Inv False 0 (· < k) n) :
    (n.applyAll [(⟨k, ts⟩, ⟨.insert, v⟩)] d).elements = n.elements ++ [(⟨k, ts⟩, ⟨.insert, v⟩)] := by
  have hbuf := hn.2
  have herase : eraseKey n.elements k = n.elements := by
    refine OrdMap.Sorted.ext (sorted_eraseKey hbuf.sorted) hbuf.sorted (fun e => ?_)
    rw [mem_eraseKey hbuf.sorted hbuf.stamp]
    exact and_iff_left_of_imp (fun he => ne_of_lt (hbuf.range e he))
  show OrdMap.assign (eraseKey n.elements k) _ _ = _
  rw [herase]
  exact OrdMap.assign_append hbuf.sorted
    (fun e he => MessageKey.lt_iff.mpr (Or.inl (hbuf.range e he)))

/-- A leaf takes a batch without a stop, and is split when it has become too large. -/
theorem all_flush_leaf (fuel : Nat) (hr : ∀ n, bet.reload n = some n) (hM : 3 ≤ bet.maxNodeSize)
    (hl : n.isLeaf = true) (hne : elts ≠ []) (hn : Inv False 0 R (n.applyAll elts bet.defaultValue))
    (hfits : (n.applyAll elts bet.defaultValue).size < 2 ^ 30) :
    Prog.All (fun r => if bet.maxNodeSize ≤ (n.applyAll elts bet.defaultValue).size then r.2 ≠ []
        else r = (n.applyAll elts bet.defaultValue, [])) (fun _ => False)
      (n.flush bet (fuel + 1) elts) := by
  rw [flush_succ]
  refine all_flushWith (fun _ _ => ?_) (fun lo hi hinner _ _ => ?_) (fun hnil => absurd hnil hne)
  · have hbound : ∀ p ∈ (n.applyAll elts bet.defaultValue).pivots,
        slotCount (n.applyAll elts bet.defaultValue) p.1 ≤ 0 := by
      intro p hp
      rw [hn.1] at hp
      exact absurd hp List.not_mem_nil
    unfold splitFull
    split
    · rename_i hle
      refine (all_split_emptied hr hM hle hn.splittable hbound).imp (fun r hres => ?_)
        (fun e he => absurd he.1 (Nat.not_le_of_lt hfits))
      exact hres.2.partition.ne_nil (by omega)
    · rfl
  · exact absurd (hl.symm.trans hinner) Bool.false_ne_true.symm

end Filling

section Ascending

variable [Add V] {bet : Params Nat V} {t : Betree Nat V} {i : Nat} {v : V}

/-- The root is a leaf with an entry for every key below `i`. -/
structure LeafBelow (i : Nat) (t : Betree Nat V) : Prop where
  inv : Inv False 0 (· < i) t.root
  size : t.root.size = i
  stamp : t.nextTimestamp ≤ uint64Max

/-- The leaf with the next key in it. -/
theorem LeafBelow.next (v d : V) (ts : Nat) (ht : LeafBelow i t) :
    let n := t.root.applyAll [(⟨i, t.nextTimestamp⟩, ⟨.insert, v⟩)] d
    Inv False 0 (· < i + 1) n ∧ n.size = i + 1 ∧ (ts ≤ uint64Max → LeafBelow (i + 1) ⟨n, ts⟩) := by
  intro n
  have hself : Represents False d 0 (· < i + 1) t.root.messages (value d 0 t.root) t.root :=
    represents_self (inv_mono 0 _ _ _ (fun _ hk => Nat.lt_succ_of_lt hk) ht.inv)
  have hn : Inv False 0 (· < i + 1) n :=
    (hself.applyAll_leaf (batch_single ht.stamp False.elim (Nat.lt_succ_self i)) False.elim).inv
  have hsize : n.size = i + 1 := by
    have hold := ht.size
    unfold Node.size at hold ⊢
    rw [ht.inv.1, List.length_nil] at hold
    rw [hn.1, applyAll_above ht.inv, List.length_append, List.length_nil, List.length_singleton]
    omega
  exact ⟨hn, hsize, fun hts => ⟨hn, hsize, hts⟩⟩

/-- The next insert makes the leaf larger by one, and splits it when that makes it too large. -/
theorem all_apply_leafBelow (hr : ∀ n, bet.reload n = some n) (hM : 3 ≤ bet.maxNodeSize)
    (hfits : bet.maxNodeSize < 2 ^ 30) (hi : i + 1 ≤ bet.maxNodeSize) (ht : LeafBelow i t) :
    Prog.All (fun t' => if bet.maxNodeSize ≤ i + 1 then t'.root.isLeaf = false
        else LeafBelow (i + 1) t') (fun _ => False) (t.apply bet (.insert i v)) := by
  obtain ⟨hn, hsize, hnext⟩ := ht.next v bet.defaultValue ((t.nextTimestamp + 1) % 2 ^ 64)
  have hflush := all_flush_leaf t.root.height hr hM ht.inv.isLeaf (List.cons_ne_nil _ _) hn
    (by omega)
  rw [Betree.apply_eq, Betree.applyWith]
  refine Betree.all_upsertWith hr hflush (fun root made hres hnil => ?_)
    (fun root made hres hne => ?_)
  · rw [hsize] at hres
    split at hres
    · exact absurd hnil hres
    · rename_i hlt
      rw [if_neg hlt]
      injection hres with hroot
      subst hroot
      exact hnext (Nat.le_of_lt_succ (Nat.mod_lt _ (by decide)))
  · rw [hsize] at hres
    refine (Betree.all_growRoot_eq hr).mono (fun n hps => ?_)
    split at hres
    · rename_i hle
      rw [if_pos hle]
      show n.isLeaf = false
      rw [Node.isLeaf, hps.1]
      simpa using hne
    · injection hres with _ hmade
      exact absurd hmade hne

/-- As many inserts of ascending keys as a node has room for split the first leaf, without a stop. -/
theorem all_applyAll_ascending {left : Nat} (hr : ∀ n, bet.reload n = some n)
    (hM : 3 ≤ bet.maxNodeSize) (hfits : bet.maxNodeSize < 2 ^ 30)
    (hleft : i + (left + 1) = bet.maxNodeSize) (ht : LeafBelow i t) :
    Prog.All (fun t' => t'.root.isLeaf = false) (fun _ => False)
      (t.applyAll bet ((List.range' i (left + 1)).map (Upsert.insert · v))) := by
  induction left generalizing i t with
  | zero =>
      refine (all_apply_leafBelow hr hM hfits (by omega) ht).bind (fun t' ht' => ?_)
      rw [if_pos (by omega)] at ht'
      exact ht'
  | succ left ih =>
      refine (all_apply_leafBelow hr hM hfits (by omega) ht).bind (fun t' ht' => ?_)
      rw [if_neg (by omega)] at ht'
      exact ih (by omega) ht'

theorem all_ascending (hr : ∀ n, bet.reload n = some n) (hM : 3 ≤ bet.maxNodeSize)
    (hfits : bet.maxNodeSize < 2 ^ 30) :
    Prog.All (fun t => t.root.isLeaf = false) (fun _ => False)
      (do let t ← Betree.create
          t.applyAll bet ((List.range bet.maxNodeSize).map (Upsert.insert · v))) := by
  intro i
  obtain ⟨left, hleft⟩ := Nat.exists_eq_add_of_lt (show 0 < bet.maxNodeSize by omega)
  have hempty : LeafBelow 0 (⟨⟨i, [], []⟩, 1⟩ : Betree Nat V) :=
    ⟨⟨rfl, Buffer.nil⟩, rfl, Nat.le_of_ble_eq_true rfl⟩
  have hcount : 0 + (left + 1) = bet.maxNodeSize := by omega
  have hall := all_applyAll_ascending (v := v) hr hM hfits hcount hempty
  rw [← Nat.zero_add (left + 1), hcount, ← List.range_eq_range'] at hall
  exact hall

omit [Add V] in
theorem length_keys_ascending (count : Nat) :
    (((List.range count).map (Upsert.insert · v)).map Upsert.key).dedup.length = count := by
  have hkeys : ((List.range count).map (Upsert.insert · v)).map Upsert.key = List.range count := by
    rw [List.map_map]
    exact List.map_id _
  rw [hkeys, List.nodup_range.dedup, List.length_range]

end Ascending

/-- The default sizes. -/
def defaultSizes : Params Nat Nat := ⟨2 ^ 18, 2 ^ 14, 0, some⟩

/--
With the default sizes, as many inserts of different keys as a node has room for go through without
a stop, whatever is answered; the root of the tree is no leaf then.
-/
theorem upserts_height_default :
    Prog.All (fun t => t.root.isLeaf = false ∧ (t.root.isLeaf = true
        ∨ 2 ≤ t.root.pivots.length
          ∧ (∀ n ∈ t.root.descendants, n.isLeaf = false → 5 ≤ n.pivots.length)
          ∧ 2 * 5 ^ (t.root.height - 1) ≤ defaultSizes.maxNodeSize)) (fun _ => False)
      (do let t ← Betree.create
          t.applyAll defaultSizes
            ((List.range defaultSizes.maxNodeSize).map (Upsert.insert · 7))) := by
  have hr : ∀ n, defaultSizes.reload n = some n := fun _ => rfl
  have hM : 2 ^ 18 ≤ defaultSizes.maxNodeSize := by decide
  have hflush : defaultSizes.minFlushSize ≤ defaultSizes.maxNodeSize / 16 := by decide
  have hfits : defaultSizes.maxNodeSize < 2 ^ 30 := by decide
  generalize defaultSizes = bet at hr hM hflush hfits ⊢
  have hheight := upserts_height bet hr hM hflush
    ((List.range bet.maxNodeSize).map (Upsert.insert · 7))
  rw [length_keys_ascending] at hheight
  exact (all_ascending hr (by omega) hfits).and_any hheight

end BeTree
