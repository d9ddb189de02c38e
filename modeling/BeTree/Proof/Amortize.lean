import BeTree.Proof.Size

/-!
# What an upsert costs in the long run

A message goes down one level at a time, and a round of the flush loop takes more than half of
`min_flush_size` messages down a level at once. So however large the tree is, the rounds of all
flush loops are few against the upserts: a message pays its share of a round once for each
level, and no round is taken before enough messages have paid. Messages that are handed to a
single dirty child go down for nothing.

The functions here are those of the tree with a count of what they do; without the count they
are the same programs.
-/

namespace BeTree

open Node Prog

variable {K V : Type}

/-- What has been done: rounds of flush loops, and nodes that were given a batch. -/
structure Work where
  rounds : Nat
  visits : Nat
deriving DecidableEq, Repr

namespace Work

/-- Nothing has been done. -/
def none : Work := ⟨0, 0⟩

/-- One after the other. -/
def plus (a b : Work) : Work := ⟨a.rounds + b.rounds, a.visits + b.visits⟩

/-- A round of a flush loop around what the child did. -/
def round (w : Work) : Work := ⟨w.rounds + 1, w.visits⟩

/-- A flush of a node around what was done in it. -/
def visit (w : Work) : Work := ⟨w.rounds, w.visits + 1⟩

end Work

/-! ## The functions, with the count -/

section Counted

variable [LinearOrder K] (bet : Params K V)
  (flushChild : Node K V → MessageMap K V → BProg (Node K V × PivotMap K V × Work))

namespace Node

/-- `flushDirty`. -/
def countedDirty (n : Node K V) (first : OrdMap.Cursor K (ChildInfo (Node K V)))
    (elts : MessageMap K V) : BProg (Node K V × Work) := do
  n.assertUnbuffered first
  let (child, newChildren, work) ← first.val.child.deref bet true (flushChild · elts)
  return (← n.settleDirty bet first child newChildren, work)

/-- `flushRound`. -/
def countedRound (n : Node K V) (c : OrdMap.Cursor K (ChildInfo (Node K V))) (first : Option K) :
    BProg (Node K V × Option K × Work) := do
  let (child, newChildren, work) ← c.val.child.deref bet true (flushChild · (n.childElts c))
  let (n, first) ← n.settleRound bet c first (n.otherElts c) child newChildren
  return (n, first, work.round)

/-- The flush loop, after what has been `done` in earlier rounds. -/
def countedLoop : Nat → Node K V → Option K → Work → BProg (Node K V × Work)
  | 0, _, _, _ => Prog.stop .fuel
  | fuel + 1, n, first, done =>
    loopStep bet (fun c => n.countedRound bet flushChild c first)
      (fun r => countedLoop fuel r.1 r.2.1 (done.plus r.2.2)) (n, done) n

/-- The end of a flush that has done `work`. -/
def countedEnd (work : Work) (x : BProg (Node K V × PivotMap K V)) :
    BProg (Node K V × PivotMap K V × Work) := do
  let (n, newNodes) ← x
  return (n, newNodes, work.visit)

/-- `flush`. -/
def countedFlush [Add V] : Nat → Node K V → MessageMap K V → BProg (Node K V × PivotMap K V × Work)
  | 0, _, _ => Prog.stop .fuel
  | fuel + 1, n, elts =>
    flushWith bet (fun n => countedEnd .none (splitFull bet n))
      (fun lo hi => innerWith bet
        (fun n first => do
          let (n, work) ← n.countedDirty bet (countedFlush fuel) first elts
          return (n, [], work.visit))
        (fun n first => countedLoop bet (countedFlush fuel) (n.elements.length + 1) n first .none)
        (fun r => countedEnd r.2 (splitOver bet r.1)) n lo hi elts)
      (n, [], Work.none.visit) n elts

end Node

/-- A sequence of upserts, after what has been `done` in earlier ones. -/
def Betree.countedApplyAll [Add V] (t : Betree K V) (us : List (Upsert K V)) (done : Work) :
    BProg (Betree K V × Work) :=
  us.foldlM (fun r u => do
    let (t, work) ← applyWith bet
      (r.1.upsertWith bet (fun fuel n elts => n.countedFlush bet fuel elts) Prod.fst
        (fun t made => (t, made.2))) u
    return (t, r.2.plus work)) (t, done)

end Counted

/-! ## The same programs -/

section Forget

variable [LinearOrder K] {bet : Params K V} {n : Node K V}
  {counted : Node K V → MessageMap K V → BProg (Node K V × PivotMap K V × Work)}
  {flushChild : Flush K V}

/-- The result of a flush, without the count. -/
def Work.forget (r : Node K V × PivotMap K V × Work) : Node K V × PivotMap K V := (r.1, r.2.1)

/-- Without the count the one program is the other. -/
abbrev Counts {α β : Type} (g : α → β) (x : BProg α) (y : BProg β) : Prop :=
  Mirrors (fun _ _ => True) g x y

omit [LinearOrder K] in
theorem counts_deref {dirty : Bool} {body : Node K V → BProg (Node K V × PivotMap K V × Work)}
    {body' : Node K V → BProg (Node K V × PivotMap K V)}
    (h : ∀ m, Counts Work.forget (body m) (body' m)) :
    Counts Work.forget (n.deref bet dirty body) (n.deref bet dirty body') := by
  unfold deref
  refine mirrors_perform _ (fun _ _ => mirrors_perform _ (fun loaded _ => ?_))
  refine (mirrors_refl _).bind (fun m => ?_)
  exact (h _).bind (fun r => mirrors_perform _ (fun _ _ => mirrors_pure rfl))

omit [LinearOrder K] in
theorem counts_end (work : Work) (x : BProg (Node K V × PivotMap K V)) :
    Counts Work.forget (countedEnd work x) x :=
  (mirrors_refl _).bind_left (fun _ => mirrors_pure rfl)

variable (hchild : ∀ m elts, Counts Work.forget (counted m elts) (flushChild m elts))
include hchild

theorem counts_dirty (first : OrdMap.Cursor K (ChildInfo (Node K V))) (elts : MessageMap K V) :
    Counts Prod.fst (n.countedDirty bet counted first elts)
      (n.flushDirty bet flushChild first elts) := by
  unfold countedDirty flushDirty
  refine (mirrors_refl _).bind (fun _ => ?_)
  refine (counts_deref (fun m => hchild m elts)).bind (fun r => ?_)
  exact (mirrors_refl _).bind_left (fun _ => mirrors_pure rfl)

theorem counts_round (c : OrdMap.Cursor K (ChildInfo (Node K V))) (first : Option K) :
    Counts (fun r => (r.1, r.2.1)) (n.countedRound bet counted c first)
      (n.flushRound bet flushChild c first) := by
  unfold countedRound flushRound
  refine (counts_deref (fun m => hchild m _)).bind (fun r => ?_)
  exact (mirrors_refl _).bind_left (fun _ => mirrors_pure rfl)

theorem counts_loop (fuel : Nat) (n : Node K V) (first : Option K) (done : Work) :
    Counts Prod.fst (countedLoop bet counted fuel n first done)
      (loopBy bet (fun n c first => n.flushRound bet flushChild c first) fuel n first) := by
  induction fuel generalizing n first done with
  | zero => exact Mirrors.stop _
  | succ fuel ih =>
      unfold countedLoop loopBy loopStep
      refine mirrors_ite Iff.rfl (fun _ => ?_) (fun _ => mirrors_pure rfl)
      cases n.pivots with
      | nil => exact mirrors_pure rfl
      | cons e rest =>
          refine (mirrors_refl _).bind (fun worth => ?_)
          refine mirrors_ite Iff.rfl (fun _ => ?_) (fun _ => mirrors_pure rfl)
          exact (counts_round hchild _ first).bind (fun r => ih r.1 r.2.1 _)

variable [Add V]

omit hchild in
theorem counts_flush (fuel : Nat) (n : Node K V) (elts : MessageMap K V) :
    Counts Work.forget (countedFlush bet fuel n elts) (flush bet fuel n elts) := by
  induction fuel generalizing n elts with
  | zero => exact Mirrors.stop _
  | succ fuel ih =>
      rw [flush_succ]
      unfold countedFlush flushWith
      rcases elts.head? with _ | lo
      · exact mirrors_pure rfl
      rcases elts.getLast? with _ | hi
      · exact mirrors_pure rfl
      refine mirrors_ite Iff.rfl (fun _ => counts_end _ _) (fun _ => ?_)
      unfold innerWith
      refine (mirrors_refl _).bind (fun first => (mirrors_refl _).bind (fun last => ?_))
      refine (mirrors_refl _).bind (fun dirty => ?_)
      refine mirrors_ite Iff.rfl (fun _ => ?_) (fun _ => ?_)
      · exact (counts_dirty ih first elts).bind (fun _ => mirrors_pure rfl)
      · exact (counts_loop ih _ _ _ _).bind (fun r => counts_end _ _)

omit hchild in
theorem counts_apply (t : Betree K V) (u : Upsert K V) :
    Counts Prod.fst (Betree.applyWith bet (t.upsertWith bet
        (fun fuel n elts => n.countedFlush bet fuel elts) Prod.fst (fun t made => (t, made.2))) u)
      (t.apply bet u) := by
  have hupsert : ∀ opcode k v, Counts Prod.fst (t.upsertWith bet
      (fun fuel n elts => n.countedFlush bet fuel elts) Prod.fst (fun t made => (t, made.2))
      opcode k v) (t.upsert bet opcode k v) := by
    intro opcode k v
    refine (counts_deref (fun m => counts_flush _ m _)).bind (fun r => ?_)
    refine mirrors_ite Iff.rfl (fun _ => mirrors_pure rfl) (fun _ => ?_)
    exact (mirrors_refl _).bind (fun _ => mirrors_pure rfl)
  cases u <;> exact hupsert _ _ _

omit hchild in
/-- **Without the count** a sequence of upserts is the sequence of upserts. -/
theorem counts_applyAll (us : List (Upsert K V)) (t : Betree K V) (done : Work) :
    Counts Prod.fst (t.countedApplyAll bet us done) (t.applyAll bet us) := by
  induction us generalizing t done with
  | nil => exact mirrors_pure rfl
  | cons u us ih =>
      refine Mirrors.bind (g := Prod.fst) ?_ (fun r => ih r.1 r.2)
      exact (counts_apply t u).bind_left (fun _ => mirrors_pure rfl)

end Forget

/-! ## How far the messages have to go -/

/-- What a function of nodes comes to over the children. -/
def childSum (f : Node K V → Nat) (ps : PivotMap K V) : Nat := (ps.map (fun e => f e.2.child)).sum

/-- How many levels the messages of a subtree of height `h` have to go down, in all. -/
def toGo : Nat → Node K V → Nat
  | 0, _ => 0
  | h + 1, n => (h + 1) * n.elements.length + childSum (toGo h) n.pivots

section ChildSum

variable {f : Node K V → Nat} {ps ps' mid : PivotMap K V}
  {c : OrdMap.Cursor K (ChildInfo (Node K V))}

theorem childSum_append : childSum f (ps ++ ps') = childSum f ps + childSum f ps' := by
  rw [childSum, List.map_append, List.sum_append]
  rfl

theorem childSum_perm (h : ps.Perm ps') : childSum f ps = childSum f ps' := (h.map _).sum_nat

theorem childSum_of_children (h : ps.map Prod.snd = ps'.map Prod.snd) :
    childSum f ps = childSum f ps' := by
  have hsum : ((ps.map Prod.snd).map (fun c => f c.child)).sum
      = ((ps'.map Prod.snd).map (fun c => f c.child)).sum := by rw [h]
  rwa [List.map_map, List.map_map] at hsum

theorem childSum_of_subtrees (h : subtrees ps = subtrees ps') : childSum f ps = childSum f ps' := by
  have hsum : ((subtrees ps).map (fun e => f e.2)).sum
      = ((subtrees ps').map (fun e => f e.2)).sum := by rw [h]
  rwa [subtrees, subtrees, List.map_map, List.map_map] at hsum

theorem childSum_toMap : childSum f c.toMap = childSum f c.erase + f c.val.child := by
  simp only [OrdMap.Cursor.toMap, OrdMap.Cursor.erase, childSum, List.map_append, List.map_cons,
    List.sum_append, List.sum_cons]
  omega

variable [LinearOrder K]

/-- Where a child has been replaced, its share has. -/
theorem Spliced.childSum (hs : OrdMap.Sorted ps) (hc : c.toMap = ps) (hm : OrdMap.Sorted mid)
    (hslot : ∀ e ∈ mid, Slot ps c.key e.1) (h : Spliced ps c.key mid ps') :
    childSum f ps' + f c.val.child = childSum f ps + childSum f mid := by
  rw [childSum_perm (h.perm hs hc hm hslot), childSum_append, ← hc, childSum_toMap]
  omega

omit [LinearOrder K] in
/-- The pieces of a node have as far to go as the node. -/
theorem toGo_pieces (h : Nat) (pieces : List (K × Node K V)) :
    (pieces.map (fun e => toGo (h + 1) e.2)).sum
      = (h + 1) * (pieces.flatMap (fun e => e.2.elements)).length
        + BeTree.childSum (toGo h) (pieces.flatMap (fun e => e.2.pivots)) := by
  induction pieces with
  | nil => rfl
  | cons e pieces ih =>
      rw [List.map_cons, List.sum_cons, ih, List.flatMap_cons, List.flatMap_cons, childSum_append,
        List.length_append, Nat.mul_add]
      simp only [toGo]
      omega

theorem Node.Partition.toGo {this : Node K V} {size h : Nat} {res : PivotMap K V}
    (hp : Partition this ⟨[], [], size⟩ (subtrees res)) :
    BeTree.childSum (toGo h) res = BeTree.toGo h this := by
  cases h with
  | zero => simp [BeTree.childSum, BeTree.toGo]
  | succ h =>
      have hps := hp.pivots
      have hes := hp.elements
      rw [List.append_nil] at hps hes
      have hsum := toGo_pieces h (subtrees res)
      rw [hps, hes, subtrees, List.map_map] at hsum
      exact hsum

end ChildSum

/-! ## Each round is paid for -/

section Charge

variable [LinearOrder K] [Add V] {bet : Params K V} {h : Nat} {R : K → Prop} {n : Node K V}
  {elts : MessageMap K V}

/-- The messages that pay for a round. -/
def fare (bet : Params K V) : Nat := bet.minFlushSize / 2 + 1

/-- What a flush of `elts` into `n` does, and what pays for it. -/
structure Charged (bet : Params K V) (h : Nat) (n : Node K V) (elts : MessageMap K V)
    (r : Node K V × PivotMap K V × Work) : Prop where
  whole : r.2.1 = [] → fare bet * r.2.2.rounds + toGo h r.1 ≤ toGo h n + h * elts.length
  parts : r.2.1 ≠ [] →
    fare bet * r.2.2.rounds + childSum (toGo h) r.2.1 ≤ toGo h n + h * elts.length
  visits : r.2.2.visits ≤ (r.2.2.rounds + 1) * (h + 1)

/-- The cost of flushing subtrees of height `h`. -/
def ChargeSpec (bet : Params K V) (h : Nat)
    (flush : Node K V → MessageMap K V → BProg (Node K V × PivotMap K V × Work)) : Prop :=
  ∀ (R : K → Prop) (n : Node K V) (elts : MessageMap K V), Inv False h R n → Batch False R elts →
    Prog.All (Charged bet h n elts) Fault.Excluded (flush n elts)

omit [LinearOrder K] [Add V] in
/-- A node that is returned whole. -/
theorem charged_whole {m : Node K V} {work : Work}
    (hpaid : fare bet * work.rounds + toGo h m ≤ toGo h n + h * elts.length)
    (hvisits : work.visits ≤ (work.rounds + 1) * (h + 1)) :
    Charged bet h n elts (m, [], work) :=
  ⟨fun _ => hpaid, fun hne => absurd rfl hne, hvisits⟩

omit [Add V] in
/-- A split at the end does not take messages down. -/
theorem all_countedEnd {m : Node K V} {work : Work} {p : Prop} [Decidable p]
    (hr : ∀ n, bet.reload n = some n) (hM : 3 ≤ bet.maxNodeSize)
    (hsize : p → bet.maxNodeSize ≤ m.size) (hm : Inv False h R m)
    (hpaid : fare bet * work.rounds + toGo h m ≤ toGo h n + h * elts.length)
    (hvisits : work.visits + 1 ≤ (work.rounds + 1) * (h + 1)) :
    Prog.All (Charged bet h n elts) Fault.Excluded
      (countedEnd work (if p then m.split bet else return (m, []))) := by
  have hbound : ∀ p ∈ m.pivots, slotCount m p.1 ≤ m.elements.length :=
    fun p _ => List.length_filter_le _ _
  unfold countedEnd
  split
  · rename_i hp
    refine (all_split hr hM (hsize hp) hm.splittable hbound).bind (fun r hres => ?_)
    have hpart := hres.partition
    refine ⟨fun hnil => absurd hnil (hpart.ne_nil (by have := hsize hp; omega)), fun _ => ?_, hvisits⟩
    show fare bet * work.rounds + childSum (toGo h) r.2 ≤ _
    rw [hpart.toGo]
    exact hpaid
  · exact charged_whole hpaid hvisits

/-- The messages of a batch have the whole way to go. -/
theorem Node.Applied.toGo_le {d : V} {n' : Node K V} (happ : Applied False d n R elts n') :
    toGo h n' ≤ toGo h n + h * elts.length := by
  cases h with
  | zero => exact Nat.zero_le _
  | succ h =>
      have hsize := happ.size_le
      unfold Node.size at hsize
      rw [happ.pivots] at hsize
      have hmul : (h + 1) * n'.elements.length
          ≤ (h + 1) * n.elements.length + (h + 1) * elts.length := by
        rw [← Nat.mul_add]
        exact Nat.mul_le_mul_left _ (by omega)
      simp only [toGo, happ.pivots]
      omega

section Child

variable {counted : Node K V → MessageMap K V → BProg (Node K V × PivotMap K V × Work)}
  {flushChild : Flush K V} {c : OrdMap.Cursor K (ChildInfo (Node K V))} {first : Option K}

variable (hr : ∀ n, bet.reload n = some n)
  (hchild : ∀ m elts, Counts Work.forget (counted m elts) (flushChild m elts))
  (hspec : FlushSpec Fault.Excluded False bet.defaultValue h flushChild)
  (hcharge : ChargeSpec bet h counted)

include hchild hspec hcharge in
/-- The flush of a child, with what it gives and what it costs. -/
theorem all_countedChild (hn : Inv False h R n) (hb : Batch False R elts) :
    Prog.All (fun r => Flushed False bet.defaultValue h R n elts (Work.forget r)
      ∧ Charged bet h n elts r) Fault.Excluded (counted n elts) :=
  ((hchild n elts).all (hspec R n elts hn hb False.elim)).and (hcharge R n elts hn hb)

omit [Add V] in
/-- What stands in the place of a child has as far to go as the flush of the child leaves. -/
theorem Charged.spliced {r : Node K V × PivotMap K V × Work} {mid ps' : PivotMap K V}
    (hch : Charged bet h c.val.child elts r) (hs : OrdMap.Sorted n.pivots)
    (hc : c.toMap = n.pivots) (hm : OrdMap.Sorted mid)
    (hslot : ∀ e ∈ mid, Slot n.pivots c.key e.1) (hsp : Spliced n.pivots c.key mid ps')
    (hmid : r.2.1 = [] ∧ childSum (toGo h) mid = toGo h r.1 ∨ r.2.1 ≠ [] ∧ mid = r.2.1) :
    fare bet * r.2.2.rounds + childSum (toGo h) ps'
      ≤ childSum (toGo h) n.pivots + h * elts.length := by
  have hsum := hsp.childSum (f := toGo h) hs hc hm hslot
  rcases hmid with ⟨hnil, hmid⟩ | ⟨hne, rfl⟩
  · have := hch.whole hnil
    omega
  · have := hch.parts hne
    omega

include hr hchild hspec hcharge

/-- The dirty path takes the batch down for nothing. -/
theorem all_countedDirty (hn : Inv False (h + 1) R n) (hc : c.toMap = n.pivots)
    (hb : Batch False R elts) (hslot : ∀ e ∈ elts, Slot n.pivots c.key e.1.key) :
    Prog.All (fun r => fare bet * r.2.rounds + toGo (h + 1) r.1
          ≤ toGo (h + 1) n + h * elts.length ∧ r.2.visits ≤ (r.2.rounds + 1) * (h + 1))
      Fault.Excluded (n.countedDirty bet counted c elts) := by
  have hinner : Inner False (Inv False h) R n := hn
  have hx : (c.key, c.val) ∈ n.pivots := hc ▸ c.mem_toMap
  have hsort := hinner.forest.sorted
  have hall := all_countedChild hchild hspec hcharge
    (n := c.val.child) (hinner.forest.child _ hx) (hb.slot hslot)
  unfold countedDirty
  refine (all_assertUnbuffered hinner.buffer.sorted hsort hc (Or.inl rfl)).bind (fun _ _ => ?_)
  refine Prog.All.bind (all_deref hr hall) (fun r hres => ?_)
  obtain ⟨child, news, work⟩ := r
  obtain ⟨hfl, hch⟩ := hres
  have hsettle : Prog.All (fun n' => fare bet * work.rounds + toGo (h + 1) n'
      ≤ toGo (h + 1) n + h * elts.length) Fault.Excluded (n.settleDirty bet c child news) := by
    refine all_settleDirty hr (fun hnil => ?_) (fun hne => ?_)
    · have hpaid := hch.spliced hsort hc (OrdMap.sorted_singleton _)
        (List.forall_mem_singleton.mpr (slot_self _ _)) (spliced_set hsort hc ⟨child, child.size⟩)
        (Or.inl ⟨hnil, rfl⟩)
      simp only [toGo] at hpaid ⊢
      omega
    · have hforest := (hfl.parts hne).forest
      have hslots : ∀ e ∈ news, Slot n.pivots c.key e.1 := fun e he => (hforest.range e he).2
      refine all_insertChildren hsort hc hforest.sorted hslots (fun ps' hsp => ?_)
      have hpaid := hch.spliced hsort hc hforest.sorted hslots hsp (Or.inr ⟨hne, rfl⟩)
      simp only [toGo] at hpaid ⊢
      omega
  exact hsettle.bind (fun n' hn' => ⟨hn', hch.visits⟩)

/-- What a round leaves to the children. -/
theorem all_countedRound_children (hn : Inv False (h + 1) R n) (hc : c.toMap = n.pivots) :
    Prog.All (fun r => fare bet * r.2.2.rounds + childSum (toGo h) r.1.pivots
          ≤ fare bet + (childSum (toGo h) n.pivots + h * slotCount n c.key)
        ∧ r.2.2.visits ≤ r.2.2.rounds * (h + 1))
      Fault.Excluded (n.countedRound bet counted c first) := by
  have hinner : Inner False (Inv False h) R n := hn
  have hx : (c.key, c.val) ∈ n.pivots := hc ▸ c.mem_toMap
  have hsort := hinner.forest.sorted
  have hall := all_countedChild hchild hspec hcharge
    (n := c.val.child) (hinner.forest.child _ hx) (hinner.slot_batch c.key)
  rw [← childElts_eq hinner.buffer.sorted hsort hc] at hall
  unfold countedRound
  refine Prog.All.bind (all_deref hr hall) (fun r hres => ?_)
  rw [childElts_eq hinner.buffer.sorted hsort hc] at hres
  obtain ⟨child, news, work⟩ := r
  obtain ⟨hfl, hch⟩ := hres
  have hround : fare bet * work.round.rounds = fare bet * work.rounds + fare bet :=
    Nat.mul_succ _ _
  have hsettle : Prog.All (fun r => fare bet * work.rounds + childSum (toGo h) r.1.pivots
      ≤ childSum (toGo h) n.pivots + h * slotCount n c.key) Fault.Excluded
      (n.settleRound bet c first (n.otherElts c) child news) := by
    refine all_settleRound hr (Or.inr (Or.inl rfl)) (fun hnil k _ => ?_) (fun hne first' => ?_)
    · -- the size may land in another entry; the children stay
      rw [childSum_of_subtrees (subtrees_setChildSize _ k _)]
      exact hch.spliced hsort hc (OrdMap.sorted_singleton _)
        (List.forall_mem_singleton.mpr (slot_self _ _))
        (spliced_set hsort hc { c.val with child := child }) (Or.inl ⟨hnil, rfl⟩)
    · have hforest := (hfl.parts hne).forest
      have hslots : ∀ e ∈ news, Slot n.pivots c.key e.1 := fun e he => (hforest.range e he).2
      refine all_insertChildren hsort hc hforest.sorted hslots (fun ps' hsp => ?_)
      exact hch.spliced hsort hc hforest.sorted hslots hsp (Or.inr ⟨hne, rfl⟩)
  refine hsettle.bind (fun r hpaid => ⟨?_, hch.visits⟩)
  dsimp only at hpaid ⊢
  omega

/-- **A round** takes the messages of its child down one level, and they pay for what it does. -/
theorem all_countedRound (hn : Inv False (h + 1) R n) (hc : c.toMap = n.pivots)
    (hpay : fare bet ≤ slotCount n c.key) :
    Prog.All (fun r => Inv False (h + 1) R r.1 ∧ r.1.elements.length < n.elements.length
        ∧ fare bet * r.2.2.rounds + toGo (h + 1) r.1 ≤ toGo (h + 1) n
        ∧ r.2.2.visits ≤ r.2.2.rounds * (h + 1))
      Fault.Excluded (n.countedRound bet counted c first) := by
  have hplain := (counts_round (n := n) hchild c first).all
    (all_flushRound hr (fun _ he => he) hspec (represents_self hn) hc)
  refine (hplain.and (all_countedRound_children hr hchild hspec hcharge hn hc)).mono
    (fun r hres => ?_)
  obtain ⟨⟨hrep, hes⟩, hpaid, hvisits⟩ := hres
  have hlt := length_lt_of_slotCount (Nat.lt_of_lt_of_le (Nat.succ_pos _) hpay)
  have hlen : r.1.elements.length + slotCount n c.key = n.elements.length := by
    rw [hes]
    exact length_elements_slot n c.key
  refine ⟨hrep.inv, by rw [hes]; exact hlt, ?_, hvisits⟩
  have hmul : (h + 1) * n.elements.length
      = (h + 1) * r.1.elements.length + (h * slotCount n c.key + slotCount n c.key) := by
    rw [← hlen, Nat.mul_add, Nat.succ_mul h (slotCount n c.key)]
  simp only [toGo]
  omega

/-- **The flush loop** is paid for by the messages it takes down. -/
theorem all_countedLoop {fuel : Nat} {done : Work} (hn : Inv False (h + 1) R n)
    (hfuel : n.elements.length < fuel) :
    Prog.All (fun r => Inv False (h + 1) R r.1
        ∧ fare bet * r.2.rounds + toGo (h + 1) r.1 ≤ fare bet * done.rounds + toGo (h + 1) n
        ∧ r.2.visits + done.rounds * (h + 1) ≤ done.visits + r.2.rounds * (h + 1))
      Fault.Excluded (countedLoop bet counted fuel n first done) := by
  induction fuel generalizing n first done with
  | zero => exact absurd hfuel (Nat.not_lt_zero _)
  | succ fuel ih =>
      have hinner : Inner False (Inv False h) R n := hn
      rw [countedLoop]
      refine all_loopStep hinner.buffer.sorted hinner.forest.sorted (fun c hc hpay => ?_)
        (fun _ => ⟨hn, Nat.le_refl _, Nat.le_refl _⟩)
      -- a batch that is worth flushing pays for the round
      refine (all_countedRound hr hchild hspec hcharge hn hc hpay).mono (fun r hround => ?_)
      obtain ⟨hn', hlt, hpaid, hvisits⟩ := hround
      refine (ih hn' (Nat.lt_of_lt_of_le hlt (Nat.le_of_lt_succ hfuel))).mono (fun r' hres => ?_)
      obtain ⟨hinv, hrest, hvisits'⟩ := hres
      simp only [Work.plus, Nat.mul_add, Nat.add_mul] at hrest hvisits' hpaid hvisits ⊢
      exact ⟨hinv, by omega, by omega⟩

/-- `flush` on an inner node. -/
theorem all_innerWith_counted {fuel : Node K V → Nat} {lo hi : MessageKey K × Message V}
    (hM : 3 ≤ bet.maxNodeSize) (hfuel : ∀ m, m.elements.length < fuel m)
    (hn : Inv False (h + 1) R n) (hb : Batch False R elts) (hlo : elts.head? = some lo)
    (hhi : elts.getLast? = some hi) :
    Prog.All (Charged bet (h + 1) n elts) Fault.Excluded
      (innerWith bet
        (fun n first => do
          let (n, work) ← n.countedDirty bet counted first elts
          return (n, [], work.visit))
        (fun n first => countedLoop bet counted (fuel n) n first .none)
        (fun r => countedEnd r.2 (splitOver bet r.1)) n lo.1.key hi.1.key elts) := by
  have hsorted : OrdMap.Sorted n.pivots := (show Inner False (Inv False h) R n from hn).forest.sorted
  have hgo : toGo (h + 1) (n.lowerFirstPivot elts) = toGo (h + 1) n := by
    simp only [toGo]
    rw [lowerFirstPivot_elements, childSum_of_children (lowerFirstPivot_children hsorted elts)]
  refine all_innerWith hn hb False.elim hlo hhi (fun first n₁ heq hn₁ hmap hslot _ => ?_)
    (fun first n₂ heq hn₂ => ?_)
  · refine (all_countedDirty hr hchild hspec hcharge hn₁.inv hmap hb hslot).bind (fun r hres => ?_)
    obtain ⟨hpaid, hvisits⟩ := hres
    rw [heq, hgo] at hpaid
    refine charged_whole ?_ ?_
    · show fare bet * r.2.rounds + _ ≤ _
      rw [Nat.succ_mul h]
      omega
    · show r.2.visits + 1 ≤ (r.2.rounds + 1) * (h + 1 + 1)
      rw [Nat.mul_succ]
      omega
  · have happlied : toGo (h + 1) n₂ ≤ toGo (h + 1) n + (h + 1) * elts.length := by
      rw [heq, ← hgo]
      exact (lowerFirstPivot_applied hn hb hlo).toGo_le
    refine (all_countedLoop hr hchild hspec hcharge hn₂.inv (hfuel _)).mono (fun r hres => ?_)
    obtain ⟨hn₃, hpaid, hvisits⟩ := hres
    dsimp only [Work.none] at hpaid hvisits
    refine all_countedEnd hr hM Nat.le_of_lt hn₃ ?_ ?_
    · omega
    · rw [Nat.mul_succ, Nat.succ_mul r.2.rounds]
      omega

end Child

/-- **What a flush costs**, by induction on the height. -/
theorem countedFlush_spec (fuel : Nat) (hr : ∀ n, bet.reload n = some n) (hM : 3 ≤ bet.maxNodeSize)
    (hfuel : h < fuel) : ChargeSpec bet h (countedFlush bet fuel) := by
  induction fuel generalizing h with
  | zero => exact absurd hfuel (Nat.not_lt_zero _)
  | succ fuel ih =>
      intro R n elts hn hb
      rw [countedFlush]
      refine all_flushWith (fun hl _ => ?_) (fun lo hi hl hlo hhi => ?_) (fun _ => ?_)
      · cases h with
        | succ h => exact absurd (hn.isLeaf.symm.trans hl) Bool.false_ne_true
        | zero =>
            have hself : Represents False bet.defaultValue 0 R n.messages
                (value bet.defaultValue 0 n) n :=
              represents_self hn
            refine all_countedEnd hr hM (fun hle => hle) (hself.applyAll_leaf hb False.elim).inv ?_
              (Nat.le_refl _)
            simp [Work.none, toGo]
      · cases h with
        | zero => exact absurd (hl.symm.trans hn.isLeaf) Bool.false_ne_true
        | succ h =>
            have hfuel' := Nat.lt_of_succ_lt_succ hfuel
            exact all_innerWith_counted hr (counts_flush fuel) (flush_spec fuel hr hM hfuel')
              (ih hfuel') hM (fun m => Nat.lt_succ_self _) hn hb hlo hhi
      · refine charged_whole ?_ ?_
        · show fare bet * 0 + toGo h n ≤ _
          omega
        · show 0 + 1 ≤ (0 + 1) * (h + 1)
          omega

end Charge

/-! ## Sequences of upserts -/

section Upserts

variable [LinearOrder K] [Add V] {bet : Params K V}

/-- What `count` upserts have done, between a tree of height `h` and one of height `h'`. -/
structure Spent (bet : Params K V) (count h : Nat) (t : Betree K V) (done : Work) (h' : Nat)
    (r : Betree K V × Work) : Prop where
  higher : h ≤ h'
  tree : Inv False h' (fun _ => True) r.1.root
  clock : r.1.nextTimestamp ≤ uint64Max
  rounds : fare bet * r.2.rounds + toGo h' r.1.root
    ≤ fare bet * done.rounds + toGo h t.root + count * h'
  visits : r.2.visits + done.rounds * (h' + 1) ≤ done.visits + (count + r.2.rounds) * (h' + 1)

/-- **One upsert** pays for one message on its way from the root. -/
theorem all_countedUpsert {h : Nat} {t : Betree K V} {opcode : Opcode} {k : K} {v : V}
    (hr : ∀ n, bet.reload n = some n) (hM : 3 ≤ bet.maxNodeSize)
    (hinv : Inv False h (fun _ => True) t.root) (hts : t.nextTimestamp ≤ uint64Max) :
    Prog.All (fun r => ∃ h', Spent bet 1 h t .none h' r) Fault.Excluded
      (t.upsertWith bet (fun fuel n elts => n.countedFlush bet fuel elts) Prod.fst
        (fun t made => (t, made.2)) opcode k v) := by
  have hfuel : h < t.root.height + 1 := by
    rw [hinv.height]
    exact Nat.lt_succ_self _
  have hclock : (t.nextTimestamp + 1) % 2 ^ 64 ≤ uint64Max :=
    Nat.le_of_lt_succ (Nat.mod_lt _ (by decide))
  have hnone : fare bet * Work.none.rounds = 0 := Nat.mul_zero _
  refine Betree.all_upsertWith hr (all_countedChild (counts_flush (t.root.height + 1))
    (flush_spec _ hr hM hfuel) (countedFlush_spec _ hr hM hfuel) hinv
    (batch_single hts False.elim trivial)) (fun root made hres hnil => ?_)
    (fun root made hres hne => ?_)
  · obtain ⟨hfl, hch⟩ := hres
    have hvisits : made.2.visits ≤ (made.2.rounds + 1) * (h + 1) := hch.visits
    have hpaid := hch.whole hnil
    rw [List.length_singleton] at hpaid
    refine ⟨h, Nat.le_refl _, (hfl.whole hnil).inv, hclock, ?_, ?_⟩
    · dsimp only at hpaid ⊢
      omega
    · simp only [Work.none]
      rw [Nat.add_comm 1]
      omega
  · obtain ⟨hfl, hch⟩ := hres
    have hvisits : made.2.visits ≤ (made.2.rounds + 1) * (h + 1) := hch.visits
    have hpaid := hch.parts hne
    rw [List.length_singleton] at hpaid
    refine ((all_growRoot hr (hfl.parts hne)).and (Betree.all_growRoot_eq hr)).mono (fun n hn => ?_)
    obtain ⟨hrep, hps, hes⟩ := hn
    have hps : n.pivots = made.1 := hps
    refine ⟨h + 1, Nat.le_succ _, hrep.inv, hclock, ?_, ?_⟩
    · simp only [toGo, hps, hes, List.length_nil]
      dsimp only at hpaid
      omega
    · have hle : (made.2.rounds + 1) * (h + 1) ≤ (made.2.rounds + 1) * (h + 1 + 1) :=
        Nat.mul_le_mul_left _ (Nat.le_succ _)
      simp only [Work.none]
      rw [Nat.add_comm 1]
      omega

omit [Add V] in
/-- Upserts one after the other. -/
theorem Spent.trans {count h h₁ h' : Nat} {t : Betree K V} {done : Work}
    {r₁ r : Betree K V × Work} (h₁' : Spent bet 1 h t .none h₁ r₁)
    (hrest : Spent bet count h₁ r₁.1 (done.plus r₁.2) h' r) :
    Spent bet (count + 1) h t done h' r := by
  have hhigher := hrest.higher
  refine ⟨Nat.le_trans h₁'.higher hhigher, hrest.tree, hrest.clock, ?_, ?_⟩
  · have hone := h₁'.rounds
    have hmore := hrest.rounds
    simp only [Work.none, Work.plus, Nat.mul_add, Nat.add_mul] at hone hmore ⊢
    omega
  · have hone := h₁'.visits
    have hmore := hrest.visits
    have hle : (1 + r₁.2.rounds) * (h₁ + 1) ≤ (1 + r₁.2.rounds) * (h' + 1) :=
      Nat.mul_le_mul_left _ (Nat.succ_le_succ hhigher)
    simp only [Work.none, Work.plus, Nat.add_mul] at hone hmore hle ⊢
    omega

/-- **A sequence of upserts**, by induction. -/
theorem all_countedApplyAll {h : Nat} {t : Betree K V} {done : Work} (us : List (Upsert K V))
    (hr : ∀ n, bet.reload n = some n) (hM : 3 ≤ bet.maxNodeSize)
    (hinv : Inv False h (fun _ => True) t.root) (hts : t.nextTimestamp ≤ uint64Max) :
    Prog.All (fun r => ∃ h', Spent bet us.length h t done h' r) Fault.Excluded
      (t.countedApplyAll bet us done) := by
  induction us generalizing h t done with
  | nil =>
      refine ⟨h, Nat.le_refl _, hinv, hts, ?_, ?_⟩
      · exact Nat.le_add_right _ _
      · dsimp only [List.length_nil]
        rw [Nat.zero_add]
  | cons u us ih =>
      have hstep : Prog.All (fun r => ∃ h₁, Spent bet 1 h t .none h₁ r) Fault.Excluded
          (Betree.applyWith bet (t.upsertWith bet (fun fuel n elts => n.countedFlush bet fuel elts)
            Prod.fst (fun t made => (t, made.2))) u) := by
        cases u <;> exact all_countedUpsert hr hM hinv hts
      refine Prog.all_bind_iff.mpr (hstep.bind (fun r₁ hone => ?_))
      obtain ⟨h₁, hone⟩ := hone
      refine (ih hone.tree hone.clock).mono (fun r hrest => ?_)
      obtain ⟨h', hrest⟩ := hrest
      exact ⟨h', hone.trans hrest⟩

end Upserts

/--
**The amortized cost of upserts.** Whatever is answered about nodes being dirty or in memory,
the rounds of all flush loops in a sequence of upserts on a new tree, times what a round takes
down at least, are no more than the upserts times the height of the tree; and no more nodes are
given a batch than one on each level for each upsert and each round. The program that is counted
is the sequence of upserts.
-/
theorem upserts_amortized [LinearOrder K] [Add V] (bet : Params K V)
    (hr : ∀ n, bet.reload n = some n) (hM : 3 ≤ bet.maxNodeSize) (us : List (Upsert K V)) :
    (do let t ← Betree.create; let (t, _) ← t.countedApplyAll bet us .none; return t)
        = (do let t ← Betree.create; t.applyAll bet us)
      ∧ Prog.All (fun r => (bet.minFlushSize / 2 + 1) * r.2.rounds ≤ us.length * r.1.root.height
          ∧ r.2.visits ≤ (us.length + r.2.rounds) * (r.1.root.height + 1)) Fault.Excluded
        (do let t ← Betree.create; t.countedApplyAll bet us .none) := by
  refine ⟨?_, ?_⟩
  · exact congrArg (Betree.create >>= ·) (funext (fun t => (counts_applyAll us t .none).map_eq))
  · intro id
    refine (all_countedApplyAll us hr hM (h := 0) (t := ⟨⟨id, [], []⟩, 1⟩) ⟨rfl, Buffer.nil⟩
      (Nat.le_of_ble_eq_true rfl)).mono (fun r ⟨h', hspent⟩ => ?_)
    have hrounds := hspent.rounds
    have hvisits := hspent.visits
    rw [hspent.tree.height]
    simp only [Work.none, toGo] at hrounds hvisits
    unfold fare at hrounds
    exact ⟨by omega, by omega⟩

/-- Twelve inserts in order, where no child is ever dirty: every batch goes through a flush loop. -/
theorem upserts_amortized_twelve :
    let us : List (Upsert Nat Nat) := (List.range 12).map (.insert · 0)
    let counted : BProg (Betree Nat Nat × Work) := do
      let t ← Betree.create
      t.countedApplyAll ⟨5, 2, 0, some⟩ us .none
    ((Prog.run neverDirty counted 1).1.toOption.map (fun r => (r.1.root.height, r.2)))
        = some (1, ⟨2, 14⟩)
      ∧ Prog.All (fun r => 2 * r.2.rounds ≤ 12 * r.1.root.height
          ∧ r.2.visits ≤ (12 + r.2.rounds) * (r.1.root.height + 1)) Fault.Excluded counted :=
  ⟨by decide +kernel, (upserts_amortized ⟨5, 2, 0, some⟩ (fun _ => rfl) (by decide)
    ((List.range 12).map (.insert · 0))).2⟩

end BeTree
