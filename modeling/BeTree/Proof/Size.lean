import BeTree.Proof.SplitSize
import BeTree.Proof.Upsert
import BeTree.Proof.Variant

/-!
# How large nodes get

A flush of `e` messages into a subtree of nodes within the maximum size gives at
most `e + 1` nodes. So a round of the flush loop, which takes `b` messages out of
the buffer, adds at most `b` pivots, and the node does not grow; and when it is
split at the end it has at most `e` entries too many.

What can break the bound is the path to a single dirty child. It adds the pivots
of a split child to a node that takes nothing out of its buffer and is not split
afterwards. The results here are for runs in which that path is taken only where
there is room: the programs whose names start with `roomy` are those of the tree with
one assertion more, made where the path is about to be taken.
-/

namespace BeTree

open Node

variable {K V : Type}

/-- Every node of the subtree is within the maximum size. -/
def Sized (maxNodeSize : Nat) (n : Node K V) : Prop := ∀ x ∈ n.nodes, x.size ≤ maxNodeSize

theorem sized_iff {maxNodeSize : Nat} {n : Node K V} :
    Sized maxNodeSize n
      ↔ n.size ≤ maxNodeSize ∧ ∀ p ∈ n.pivots, Sized maxNodeSize p.2.child := forall_nodes

variable [LinearOrder K] [Add V] {bet : Params K V} {h : Nat} {R : K → Prop} {n : Node K V}
  {elts : MessageMap K V}

/-! ## Applying a batch -/

/-- A batch adds at most its length. -/
theorem Node.Applied.size_le {fresh : Prop} {d : V} {n' : Node K V}
    (happ : Applied fresh d n R elts n') : n'.size ≤ n.size + elts.length := by
  have hlen := happ.buffer.sorted.length_le (a := elts) (b := n.elements) (fun e he => by
    rcases happ.stored e he with hx | hx
    · exact Or.inl hx
    · exact Or.inr ⟨e, hx, rfl⟩)
  unfold Node.size
  rw [happ.pivots]
  omega

/-- What `apply` makes of the buffer depends on the buffer, and on whether it is a leaf's. -/
theorem apply_elements_congr {n' : Node K V} {mkey : MessageKey K} {elt : Message V} {d : V}
    (hes : n'.elements = n.elements) (hl : n'.isLeaf = n.isLeaf) :
    (n'.apply mkey elt d).elements = (n.apply mkey elt d).elements := by
  have habsent : (n'.applyAbsent mkey elt d).elements = (n.applyAbsent mkey elt d).elements := by
    unfold applyAbsent applyInsert
    rw [hes, hl]
    split <;> rfl
  cases hop : elt.opcode with
  | insert => simp only [apply, hop, applyInsert, hes]
  | delete => simp only [apply, hop, hes, hl]
  | update =>
      simp only [apply, hop, hes]
      split
      · split
        · split <;> simp only [applyInsert, hes]
        · exact habsent
      · exact habsent

theorem applyAll_elements_congr {n' : Node K V} {d : V} (hes : n'.elements = n.elements)
    (hl : n'.isLeaf = n.isLeaf) :
    (n'.applyAll elts d).elements = (n.applyAll elts d).elements := by
  induction elts generalizing n n' with
  | nil => exact hes
  | cons e elts ih =>
      refine ih (apply_elements_congr hes hl) ?_
      rw [apply_isLeaf, apply_isLeaf, hl]

omit [Add V] in
/-- Lowering the first pivot keeps the children. -/
theorem lowerFirstPivot_children (hs : OrdMap.Sorted n.pivots) (elts : MessageMap K V) :
    (n.lowerFirstPivot elts).pivots.map Prod.snd = n.pivots.map Prod.snd := by
  cases elts with
  | nil =>
      unfold lowerFirstPivot
      split
      · rename_i hc; exact absurd hc (by simp)
      · rfl
  | cons e elts =>
      cases hp : n.pivots with
      | nil =>
          unfold lowerFirstPivot
          rw [hp]
          exact congrArg (List.map Prod.snd) hp
      | cons p rest =>
          rw [lowerFirstPivot_pivots e elts (hp ▸ hs) hp]
          rfl

omit [Add V] in
theorem lowerFirstPivot_length (hs : OrdMap.Sorted n.pivots) (elts : MessageMap K V) :
    (n.lowerFirstPivot elts).pivots.length = n.pivots.length := by
  have h := congrArg List.length (lowerFirstPivot_children hs elts)
  rwa [List.length_map, List.length_map] at h

/-- Lowering the first pivot does not change how large the node gets. -/
theorem lowerFirstPivot_applyAll_size (elts : MessageMap K V) (d : V)
    (hs : OrdMap.Sorted n.pivots) :
    ((n.lowerFirstPivot elts).applyAll elts d).size = (n.applyAll elts d).size := by
  have hlen := lowerFirstPivot_length hs elts
  have hl : (n.lowerFirstPivot elts).isLeaf = n.isLeaf := by
    rw [isLeaf, isLeaf, Bool.eq_iff_iff, List.isEmpty_iff_length_eq_zero,
      List.isEmpty_iff_length_eq_zero, hlen]
  unfold Node.size
  rw [applyAll_pivots, applyAll_pivots, hlen,
    applyAll_elements_congr (lowerFirstPivot_elements n elts) hl]

/-- A batch in a node whose first pivot has been lowered for it. -/
theorem lowerFirstPivot_applied {d : V} {lo : MessageKey K × Message V} (hn : Inv False (h + 1) R n)
    (hb : Batch False R elts) (hlo : elts.head? = some lo) :
    Applied False d (n.lowerFirstPivot elts) R elts ((n.lowerFirstPivot elts).applyAll elts d) := by
  have hself : Represents False d (h + 1) R n.messages (value d (h + 1) n) n := represents_self hn
  obtain ⟨rest, helts⟩ := List.head?_eq_some_iff.mp hlo
  obtain ⟨hn₁, _⟩ := hself.lowerFirstPivot rest (hb.range lo (List.mem_of_head? hlo))
  rw [← helts] at hn₁
  have hinner : Inner False (Inv False h) R (n.lowerFirstPivot elts) := hn₁.inv
  have hbuffer : Buffer False (n.lowerFirstPivot elts).isLeaf R (n.lowerFirstPivot elts).elements := by
    rw [hn₁.inv.isLeaf]
    exact hinner.buffer
  exact applyAll_applied hbuffer hb False.elim

/-! ## Where there is room -/

/--
Whether a batch can be handed to a child without making the node too large: the
node has room for one more pivot for each message, or the child takes them all
without reaching the maximum size. Nothing in the source computes this.
-/
def Node.hasRoom (bet : Params K V) (n child : Node K V) (elts : MessageMap K V) : Bool :=
  decide (n.size + elts.length ≤ bet.maxNodeSize)
    || decide ((child.applyAll elts bet.defaultValue).size < bet.maxNodeSize)

/-- The path to a dirty child, with the assertion that there is room. -/
def roomyDirty (bet : Params K V) (flushChild : Flush K V) (n : Node K V)
    (first : OrdMap.Cursor K (ChildInfo (Node K V))) (elts : MessageMap K V) : BProg (Node K V) := do
  Prog.require (hasRoom bet n first.val.child elts) .environment
  n.flushDirty bet flushChild first elts

/-- `flush`, with this assertion. -/
def roomyFlush (bet : Params K V) : Nat → Flush K V :=
  flushBy bet (roomyDirty bet) (fun flushChild n c first => n.flushRound bet flushChild c first)

/-- The assertion is all that has been added. -/
theorem restricts_roomyFlush (fuel : Nat) (n : Node K V) (elts : MessageMap K V) :
    Prog.Restricts .environment (roomyFlush bet fuel n elts) (n.flush bet fuel elts) := by
  rw [flush_eq]
  unfold roomyFlush
  apply restricts_flushBy
  · exact fun flushChild flushChild' hchild n c elts => (restricts_flushDirty hchild).require _
  · exact fun flushChild flushChild' hchild n c first => restricts_flushRound hchild

/-! ## Sizes in a flush -/

/-- What a flush of `elts` into `n` does to the sizes. -/
structure SizedFlush (bet : Params K V) (n : Node K V) (elts : MessageMap K V)
    (r : Node K V × PivotMap K V) : Prop where
  whole : r.2 = [] → Sized bet.maxNodeSize r.1
  parts : ∀ e ∈ r.2, Sized bet.maxNodeSize e.2.child
  count : r.2.length ≤ elts.length + 1
  /-- A node that stays below the maximum size is not split. -/
  calm : (n.applyAll elts bet.defaultValue).size < bet.maxNodeSize → r.2 = []

/-- The sizes in a flush of subtrees of height `h`. -/
def SizeSpec (bet : Params K V) (h : Nat) (flush : Flush K V) : Prop :=
  ∀ (R : K → Prop) (n : Node K V) (elts : MessageMap K V), Inv False h R n → Batch False R elts →
    Sized bet.maxNodeSize n → Prog.All (SizedFlush bet n elts) (fun _ => True) (flush n elts)

omit [Add V] in
/-- A node of fewer entries than an `int` can count has no more messages than an `unsigned int`
can. -/
theorem slotCount_le_of_mod {m : Node K V} {p : K} {bound : Nat} (hfits : m.size < 2 ^ 31)
    (hmod : slotCount m p % 2 ^ 32 ≤ bound) : slotCount m p ≤ bound := by
  have hlen : slotCount m p ≤ m.elements.length := List.length_filter_le _ _
  have hlt : slotCount m p < 2 ^ 32 := by
    unfold Node.size at hfits
    omega
  rwa [Nat.mod_eq_of_lt hlt] at hmod

/-- A node that is returned whole. -/
theorem sizedFlush_whole {m : Node K V} (hm : Sized bet.maxNodeSize m) :
    SizedFlush bet n elts (m, []) :=
  ⟨fun _ => hm, fun _ h => absurd h List.not_mem_nil, Nat.zero_le _, fun _ => rfl⟩

/-- What the flush loop leaves of a node with at most `bound` entries. -/
structure Drained (bet : Params K V) (bound : Nat) (n : Node K V) : Prop where
  size : n.size ≤ bound
  kids : ∀ p ∈ n.pivots, Sized bet.maxNodeSize p.2.child
  /-- If it is still too large, no child has many messages. -/
  slots : bet.maxNodeSize < n.size → ∀ p ∈ n.pivots, slotCount n p.1 % 2 ^ 32 ≤ bet.minFlushSize

section

variable (hM : 24 ≤ bet.maxNodeSize) (hflush : bet.minFlushSize ≤ bet.maxNodeSize / 4)
  (hr : ∀ n, bet.reload n = some n)

include hM hflush hr

/-- Splitting a node that has at most `elts` entries too many. -/
theorem all_sizedSplit {m : Node K V} (hinv : Inv False h R m)
    (hkids : ∀ p ∈ m.pivots, Sized bet.maxNodeSize p.2.child)
    (hge : bet.maxNodeSize ≤ m.size) (hle : m.size ≤ bet.maxNodeSize + elts.length)
    (he : 0 < elts.length) (hcalm : bet.maxNodeSize ≤ (n.applyAll elts bet.defaultValue).size)
    (hslots : ∀ p ∈ m.pivots, slotCount m p.1 % 2 ^ 32 ≤ bet.minFlushSize) :
    Prog.All (SizedFlush bet n elts) (fun _ => True) (m.split bet) := by
  -- a node too large for the `int`s of `split` is not split at all
  by_cases hbig : m.size < 2 ^ 31
  · have hbound : ∀ p ∈ m.pivots, slotCount m p.1 ≤ bet.minFlushSize :=
      fun p hp => slotCount_le_of_mod hbig (hslots p hp)
    refine (all_split hr (by omega) hge hinv.splittable hbound).imp (fun r hres => ?_)
      (fun _ _ => trivial)
    have hp := hres.partition
    have hlt : bet.maxNodeSize < 2 ^ 31 := Nat.lt_of_le_of_lt hge hbig
    refine ⟨fun hnil => absurd hnil (hp.ne_nil (by omega)), fun x hx => sized_iff.mpr ⟨?_, fun p hpx => ?_⟩,
      ?_, fun hc => absurd hcalm (Nat.not_le_of_lt hc)⟩
    · have hsize := hres.size x hx
      have hthings := thingsPerNewLeaf_le (show 3 ≤ bet.maxNodeSize by omega) hlt hge
      omega
    · exact hkids p (hp.mem_pivots.mpr ⟨x, hx, hpx⟩)
    · exact Nat.le_trans hres.count (numNewLeaves_le hM hlt he hle)
  · have hbound : ∀ p ∈ m.pivots, slotCount m p.1 ≤ m.elements.length :=
      fun p _ => List.length_filter_le _ _
    refine (all_split hr (by omega) hge hinv.splittable hbound).imp (fun r hres => ?_)
      (fun _ _ => trivial)
    exact absurd hres.fits hbig

section Child

variable {flushChild : Flush K V} {c : OrdMap.Cursor K (ChildInfo (Node K V))}
  (hspec : FlushSpec (fun _ => True) False bet.defaultValue h flushChild)
  (hsize : SizeSpec bet h flushChild)

include hspec hsize

omit hM hflush in
/-- The dirty path, where there is room. -/
theorem all_roomyDirty (hn : Inner False (Inv False h) R n) (hc : c.toMap = n.pivots)
    (hb : Batch False R elts) (hslot : ∀ e ∈ elts, Slot n.pivots c.key e.1.key)
    (hsized : Sized bet.maxNodeSize n) :
    Prog.All (Sized bet.maxNodeSize) (fun _ => True) (roomyDirty bet flushChild n c elts) := by
  have hx : (c.key, c.val) ∈ n.pivots := hc ▸ c.mem_toMap
  have hsort := hn.forest.sorted
  obtain ⟨hsn, hkids⟩ := sized_iff.mp hsized
  have hchild := hn.forest.child _ hx
  have hb' := hb.slot hslot
  have hboth := (hspec _ _ _ hchild hb' False.elim).and (hsize _ _ _ hchild hb' (hkids _ hx))
  unfold roomyDirty flushDirty
  refine (Prog.all_require_of _ trivial).bind (fun _ hroom => ?_)
  refine (Prog.all_true _).bind (fun _ _ => (all_deref hr hboth).bind (fun r hres => ?_))
  obtain ⟨child, news⟩ := r
  obtain ⟨hfl, hsf⟩ := hres
  refine all_settleDirty hr (fun hnil => sized_iff.mpr ⟨?_, fun p hp => ?_⟩) (fun hne => ?_)
  · have hlen : (c.set ⟨child, child.size⟩).length = n.pivots.length := by
      rw [← hc]
      simp [OrdMap.Cursor.set, OrdMap.Cursor.toMap]
    show (c.set ⟨child, child.size⟩).length + n.elements.length ≤ bet.maxNodeSize
    rw [hlen]
    exact hsn
  · rcases (OrdMap.Cursor.mem_set (hc ▸ hsort)).mp hp with ⟨hp, _⟩ | rfl
    · exact hkids p (hc ▸ hp)
    · exact hsf.whole hnil
  · have hforest := (hfl.parts hne).forest
    have hslots : ∀ e ∈ news, Slot n.pivots c.key e.1 := fun e he => (hforest.range e he).2
    refine all_insertChildren hsort hc hforest.sorted hslots (fun ps' hsp => ?_)
    refine sized_iff.mpr ⟨?_, fun p hp => ?_⟩
    · -- the child was split, so it is the node that has the room
      have hcount := hsf.count
      have hlen := hsp.length hsort hc hforest.sorted hslots
      have hfits : n.size + elts.length ≤ bet.maxNodeSize := by
        unfold hasRoom at hroom
        rcases (Bool.or_eq_true _ _).mp hroom with hroom | hroom
        · exact of_decide_eq_true hroom
        · exact absurd (hsf.calm (of_decide_eq_true hroom)) hne
      unfold Node.size at hfits ⊢
      dsimp only at hcount hlen ⊢
      omega
    · rcases (hsp.mem p).mp hp with ⟨hp, _⟩ | hp
      · exact hkids p hp
      · exact hsf.parts p hp

omit hM hflush in
/-- A round of the flush loop does not make the node larger. -/
theorem all_flushRound_sized {first : Option K} (hn : Inner False (Inv False h) R n)
    (hc : c.toMap = n.pivots) (hkids : ∀ p ∈ n.pivots, Sized bet.maxNodeSize p.2.child) :
    Prog.All (fun r => r.1.size ≤ n.size ∧ ∀ p ∈ r.1.pivots, Sized bet.maxNodeSize p.2.child)
      (fun _ => True) (n.flushRound bet flushChild c first) := by
  have hx : (c.key, c.val) ∈ n.pivots := hc ▸ c.mem_toMap
  have hsort := hn.forest.sorted
  have hchild := hn.forest.child _ hx
  have hb := hn.slot_batch c.key
  have hlen := length_elements_slot n c.key
  have hboth := (hspec _ _ _ hchild hb False.elim).and (hsize _ _ _ hchild hb (hkids _ hx))
  rw [flushRound_eq hn.buffer.sorted hsort hc]
  refine (all_deref hr hboth).bind (fun r hres => ?_)
  obtain ⟨child, news⟩ := r
  obtain ⟨hfl, hsf⟩ := hres
  refine all_settleRound hr trivial (fun hnil k _ => ⟨?_, fun p hp => ?_⟩) (fun hne first' => ?_)
  · have hset : (setChildSize (c.set { c.val with child := child }) k child.size).length
        = n.pivots.length := by
      rw [← hc, setChildSize, List.length_map]
      simp [OrdMap.Cursor.set, OrdMap.Cursor.toMap]
    show (setChildSize _ k child.size).length
      + (n.elements.filter (fun e => decide (¬ Slot n.pivots c.key e.1.key))).length
        ≤ n.pivots.length + n.elements.length
    omega
  · obtain ⟨q, hq, _, hqp⟩ := mem_of_subtrees (subtrees_setChildSize _ k _) hp
    rw [← hqp]
    rcases (OrdMap.Cursor.mem_set (hc ▸ hsort)).mp hq with ⟨hq, _⟩ | rfl
    · exact hkids q (hc ▸ hq)
    · exact hsf.whole hnil
  · have hforest := (hfl.parts hne).forest
    have hslots : ∀ e ∈ news, Slot n.pivots c.key e.1 := fun e he => (hforest.range e he).2
    refine all_insertChildren hsort hc hforest.sorted hslots (fun ps' hsp => ⟨?_, fun p hp => ?_⟩)
    · -- the new pivots are no more than the messages that were flushed
      have hcount : news.length ≤ slotCount n c.key + 1 := hsf.count
      have hlen' := hsp.length hsort hc hforest.sorted hslots
      unfold Node.size
      dsimp only
      omega
    · rcases (hsp.mem p).mp hp with ⟨hp, _⟩ | hp
      · exact hkids p hp
      · exact hsf.parts p hp

omit hM hflush in
theorem all_flushLoop_sized {fuel bound : Nat} {first : Option K} (hn : Inv False (h + 1) R n)
    (hbound : n.size ≤ bound) (hkids : ∀ p ∈ n.pivots, Sized bet.maxNodeSize p.2.child) :
    Prog.All (fun n => Drained bet bound n ∧ Inv False (h + 1) R n) (fun _ => True)
      (loopBy bet (fun n c first => n.flushRound bet flushChild c first) fuel n first) := by
  induction fuel generalizing n first with
  | zero => exact trivial
  | succ fuel ih =>
      have hinner : Inner False (Inv False h) R n := hn
      rw [loopBy]
      refine all_loopStep hinner.buffer.sorted hinner.forest.sorted (fun c hc _ => ?_)
        (fun hslots => ⟨⟨hbound, hkids, hslots⟩, hn⟩)
      have hself : Represents False bet.defaultValue (h + 1) R n.messages
          (value bet.defaultValue (h + 1) n) n :=
        represents_self hn
      refine ((all_flushRound hr (fun _ _ => trivial) hspec hself hc).and
        (all_flushRound_sized hr hspec hsize hinner hc hkids)).mono (fun r hround => ?_)
      obtain ⟨⟨hn', _⟩, hle, hkids'⟩ := hround
      exact ih hn'.inv (Nat.le_trans hle hbound) hkids'

omit hM hflush hr hspec hsize [Add V] in
theorem Sized.lowerFirstPivot {max : Nat} (h : Sized max n) (hs : OrdMap.Sorted n.pivots)
    (elts : MessageMap K V) : Sized max (n.lowerFirstPivot elts) := by
  obtain ⟨hle, hkids⟩ := sized_iff.mp h
  refine sized_iff.mpr ⟨?_, fun q hq => ?_⟩
  · unfold Node.size at hle ⊢
    rw [lowerFirstPivot_length hs, lowerFirstPivot_elements]
    exact hle
  · have hmem := List.mem_map_of_mem (f := Prod.snd) hq
    rw [lowerFirstPivot_children hs] at hmem
    obtain ⟨q', hq', heq⟩ := List.mem_map.mp hmem
    exact heq ▸ hkids q' hq'

/-- An inner node: the fast path is taken where there is room, and what the loop leaves is split. -/
theorem all_innerWith_sized {fuel : Node K V → Nat} {lo hi : MessageKey K × Message V}
    (hn : Inv False (h + 1) R n) (hb : Batch False R elts) (hsized : Sized bet.maxNodeSize n)
    (hlo : elts.head? = some lo) (hhi : elts.getLast? = some hi) :
    Prog.All (SizedFlush bet n elts) (fun _ => True)
      (innerWith bet (fun n first => do return (← roomyDirty bet flushChild n first elts, []))
        (fun n => loopBy bet (fun n c first => n.flushRound bet flushChild c first) (fuel n) n)
        (splitOver bet) n lo.1.key hi.1.key elts) := by
  have hsorted : OrdMap.Sorted n.pivots := (show Inner False (Inv False h) R n from hn).forest.sorted
  -- the first pivot is lowered before the children are looked up; the size stays
  have hsize₁ := lowerFirstPivot_applyAll_size elts bet.defaultValue hsorted
  have hsized₁ := hsized.lowerFirstPivot hsorted elts
  have hpos : 0 < elts.length := List.length_pos_of_mem (List.mem_of_head? hlo)
  refine all_innerWith hn hb False.elim hlo hhi (fun first n₁ heq hn₁ hmap hslot _ => ?_)
    (fun first n₂ heq hn₂ => ?_)
  · subst heq
    exact (all_roomyDirty hr hspec hsize hn₁.inv hmap hb hslot hsized₁).bind
      (fun n' hn' => sizedFlush_whole hn')
  · have hkids : ∀ p ∈ n₂.pivots, Sized bet.maxNodeSize p.2.child := by
      rw [heq, applyAll_pivots]
      exact (sized_iff.mp hsized₁).2
    have hgrow : n₂.size ≤ bet.maxNodeSize + elts.length := by
      have happ := (lowerFirstPivot_applied (d := bet.defaultValue) hn hb hlo).size_le
      have hle := (sized_iff.mp hsized₁).1
      rw [heq]
      omega
    refine (all_flushLoop_sized hr hspec hsize hn₂.inv (Nat.le_refl _) hkids).mono
      (fun n₃ hres => ?_)
    obtain ⟨hn₃, hinv⟩ := hres
    have hle := hn₃.size
    rw [heq, hsize₁] at hle
    unfold splitOver
    split
    · rename_i hlt
      exact all_sizedSplit hM hflush hr hinv hn₃.kids (Nat.le_of_lt hlt)
        (Nat.le_trans hn₃.size hgrow) hpos (by omega) (hn₃.slots hlt)
    · rename_i hge
      exact sizedFlush_whole (sized_iff.mpr ⟨Nat.le_of_not_lt hge, hn₃.kids⟩)

end Child

/-- **Sizes in a flush**, by induction on the height. -/
theorem roomyFlush_sizeSpec (fuel : Nat) (hfuel : h < fuel) :
    SizeSpec bet h (roomyFlush bet fuel) := by
  induction fuel generalizing h with
  | zero => exact absurd hfuel (Nat.not_lt_zero _)
  | succ fuel ih =>
      intro R n elts hn hb hsized
      rw [roomyFlush, flushBy]
      refine all_flushWith (fun hl hne => ?_) (fun lo hi hl hlo hhi => ?_)
        (fun _ => sizedFlush_whole hsized)
      · cases h with
        | succ h => exact absurd (hn.isLeaf.symm.trans hl) Bool.false_ne_true
        | zero =>
            have hself : Represents False bet.defaultValue 0 R n.messages
                (value bet.defaultValue 0 n) n :=
              represents_self hn
            have hn₁ := (hself.applyAll_leaf hb False.elim).inv
            have hgrow := (applyAll_applied (d := bet.defaultValue) (hl ▸ hn.2) hb False.elim).size_le
            have hempty : ∀ p ∈ (n.applyAll elts bet.defaultValue).pivots, False := by
              rw [hn₁.1]
              exact fun p hp => List.not_mem_nil hp
            obtain ⟨hle, _⟩ := sized_iff.mp hsized
            unfold splitFull
            split
            · rename_i hge
              exact all_sizedSplit hM hflush hr hn₁ (fun p hp => (hempty p hp).elim) hge (by omega)
                (List.length_pos_iff.mpr hne) hge (fun p hp => (hempty p hp).elim)
            · rename_i hlt
              exact sizedFlush_whole (sized_iff.mpr
                ⟨Nat.le_of_lt (Nat.lt_of_not_le hlt), fun p hp => (hempty p hp).elim⟩)
      · cases h with
        | zero => exact absurd (hl.symm.trans hn.isLeaf) Bool.false_ne_true
        | succ h =>
            have hfuel' := Nat.lt_of_succ_lt_succ hfuel
            have hspec : FlushSpec (fun _ => True) False bet.defaultValue h (roomyFlush bet fuel) := by
              intro R n elts hn hb hnew
              exact ((restricts_roomyFlush fuel n elts).all
                (flush_spec fuel hr (by omega) hfuel' R n elts hn hb hnew)).imp (fun _ hres => hres)
                (fun _ _ => trivial)
            exact all_innerWith_sized hM hflush hr hspec (ih hfuel') hn hb hsized hlo hhi

/-! ## Sizes in the tree -/

/-- One upsert keeps every node within the maximum size. -/
theorem all_upsert_sized {t : Betree K V} {opcode : Opcode} {k : K} {v : V}
    (hinv : Inv False h (fun _ => True) t.root) (hts : t.nextTimestamp ≤ uint64Max)
    (hsized : Sized bet.maxNodeSize t.root) :
    Prog.All (fun t' => Sized bet.maxNodeSize t'.root) (fun _ => True)
      (t.upsertWith bet (roomyFlush bet) id (fun t _ => t) opcode k v) := by
  have hfuel : h < t.root.height + 1 := by
    rw [hinv.height]
    exact Nat.lt_succ_self _
  refine Betree.all_upsertWith hr (roomyFlush_sizeSpec hM hflush hr _ hfuel _ _ _ hinv
    (batch_single hts False.elim trivial) hsized) (fun root made hres hnil => hres.whole hnil)
    (fun root made hres hne => ?_)
  refine (Betree.all_growRoot_eq hr).mono (fun n hn => ?_)
  -- the root was split by one message, so into two at most
  have hcount : made.length ≤ 2 := hres.count
  have hps : n.pivots = made := hn.1
  refine sized_iff.mpr ⟨?_, fun p hp => hres.parts p (hps ▸ hp)⟩
  unfold Node.size
  rw [hn.2, hps, List.length_nil]
  omega

theorem all_applyAll_sized {count : Nat} {m : List (K × V)} {t : Betree K V}
    (us : List (Upsert K V)) (ht : Reached False bet.defaultValue count m t)
    (hsized : Sized bet.maxNodeSize t.root) :
    Prog.All (fun t' => Sized bet.maxNodeSize t'.root) (fun _ => True)
      (t.applyAllBy bet (roomyFlush bet) us) := by
  induction us generalizing count m t with
  | nil => exact hsized
  | cons u us ih =>
      obtain ⟨_, hinv, _⟩ := ht.tree
      have hstep : Prog.All (fun t' => Sized bet.maxNodeSize t'.root) (fun _ => True)
          (Betree.applyWith bet (t.upsertWith bet (roomyFlush bet) id (fun t _ => t)) u) := by
        cases u <;> exact all_upsert_sized hM hflush hr hinv ht.clock_le hsized
      have hreached := (Betree.restricts_applyWith restricts_roomyFlush u t).all
        (all_apply (u := u) hr (by omega) ht False.elim)
      refine (hstep.and_any hreached).bind (fun t' ht' => ?_)
      exact ih ht'.2 ht'.1

end

/--
**The maximum size.** If a sequence of upserts goes through with the assertion that the path to a
single dirty child is only taken where there is room, then it is a run of the tree, and every node
of the tree is within the maximum size.
-/
theorem upserts_maxSize (bet : Params K V) (hr : ∀ n, bet.reload n = some n)
    (hM : 24 ≤ bet.maxNodeSize) (hflush : bet.minFlushSize ≤ bet.maxNodeSize / 4)
    {σ : Type} (h : Prog.Handler Op Op.Ans Fault σ) (s s' : σ) (us : List (Upsert K V))
    (t : Betree K V)
    (hroomy : (Betree.create >>= fun t => t.applyAllBy bet (roomyFlush bet) us).run h s
      = (.ok t, s')) :
    (Betree.create >>= fun t => t.applyAll bet us).run h s = (.ok t, s')
      ∧ ∀ n ∈ t.root.nodes, n.size ≤ bet.maxNodeSize := by
  have hsame : Prog.Restricts .environment
      (Betree.create >>= fun t => t.applyAllBy bet (roomyFlush bet) us)
      (Betree.create >>= fun t => t.applyAll bet us) := by
    refine (Prog.Restricts.refl _).bind (fun t => ?_)
    rw [Betree.applyAll_eq]
    exact restricts_applyAllBy restricts_roomyFlush us t
  have hsized : Prog.All (fun t => Sized bet.maxNodeSize t.root) (fun _ => True)
      (Betree.create >>= fun t => t.applyAllBy bet (roomyFlush bet) us) := by
    intro id
    refine all_applyAll_sized hM hflush hr us
      (all_create (E := fun _ => True) False bet.defaultValue id) ?_
    exact sized_iff.mpr ⟨Nat.zero_le _, fun p hp => absurd hp List.not_mem_nil⟩
  have hall := Prog.run_of_all (h := h) hsized s
  rw [hroomy] at hall
  exact ⟨hsame.run hroomy, hall⟩

/-! ## Without room -/

/-- The answers of a cache so large that nothing is ever written back. -/
def alwaysDirty : Prog.Handler Op Op.Ans Fault Nat
  | .allocate, next => (.ok next, next + 1)
  | .pin _, next => (.ok (), next)
  | .access _ _ _ _, next => (.ok false, next)
  | .unpin _ _, next => (.ok (), next)
  | .depoint _, next => (.ok (), next)
  | .isDirty _, next => (.ok true, next)
  | .isInMemory _, next => (.ok true, next)
  | .evictAll, next => (.ok (), next)

/-- Sixty inserts in order, where every child is dirty: the root has room for the five leaves. -/
theorem upserts_maxSize_sixty :
    ∃ t s, (Betree.create >>= fun t => t.applyAll (⟨24, 6, 0, some⟩ : Params Nat Nat)
        ((List.range 60).map (.insert · 0))).run alwaysDirty 1 = (.ok t, s)
      ∧ t.root.pivots.length = 5 ∧ ∀ n ∈ t.root.nodes, n.size ≤ 24 := by
  have happly : ∀ us t s, (Betree.create >>= fun t => t.applyAllBy (⟨24, 6, 0, some⟩ : Params Nat Nat)
      (roomyFlush ⟨24, 6, 0, some⟩) us).run alwaysDirty 1 = (.ok t, s) → _ :=
    fun us t s => upserts_maxSize _ (fun _ => rfl) (by decide) (by decide) alwaysDirty 1 s us t
  have hok : ((Betree.create >>= fun t => t.applyAllBy (⟨24, 6, 0, some⟩ : Params Nat Nat)
      (roomyFlush ⟨24, 6, 0, some⟩) ((List.range 60).map (.insert · 0))).run alwaysDirty
        1).1.toOption.map (fun t => t.root.pivots.length) = some 5 := by
    decide +kernel
  rcases hrun : (Betree.create >>= fun t => t.applyAllBy (⟨24, 6, 0, some⟩ : Params Nat Nat)
      (roomyFlush ⟨24, 6, 0, some⟩) ((List.range 60).map (.insert · 0))).run alwaysDirty 1
    with ⟨f | t, s⟩
  · rw [hrun] at hok
    cases hok
  · rw [hrun] at hok
    obtain ⟨hsame, hsized⟩ := happly _ t s hrun
    exact ⟨t, s, hsame, Option.some.inj hok, hsized⟩

/--
Each leaf is split when it has 24 entries, and the second half goes on growing, so
every twelfth insert gives the root one more pivot; the root is never split.
-/
theorem ascending_inserts_exceed_maxSize :
    ((Prog.run alwaysDirty (do
        let t ← Betree.create
        t.applyAll (⟨24, 6, 0, some⟩ : Params Nat Nat) ((List.range 300).map (.insert · 0)))
      1).1.toOption.map (fun t => t.root.size)) = some 25 := by
  decide +kernel

end BeTree
