import BeTree.Proof.Parts

/-!
# `flush` keeps the invariant and applies the batch

Whatever the environment answers, a flush of a batch that is newer than the
subtree gives back a subtree, or several under their keys, for the same range of
keys; it stands for the old map with the batch applied; and no message key in it
is new. It stops only with a fault of `Fault.Excluded`.

The proof is an induction on the height. `FlushSpec` is what the induction gives
about the children; the fast path and a round of the flush loop each turn it into
a `Replacement` of one child.
-/

namespace BeTree

open Node

variable {K V : Type} [LinearOrder K] {fresh : Prop} {bet : Params K V} {h : Nat} {R : K → Prop}
  {n : Node K V}
  [Add V] {src elts : MessageMap K V} {f : K → Option V} {E : Fault → Prop}

/-! ## The specification -/

/-- What `flush` gives: the node itself, or the nodes it was split into. -/
structure Flushed (fresh : Prop) (d : V) (h : Nat) (R : K → Prop) (n : Node K V) (elts : MessageMap K V)
    (r : Node K V × PivotMap K V) : Prop where
  whole : r.2 = [] →
    Represents fresh d h R (n.messages ++ elts) (fun k => effect d elts k (value d h n k)) r.1
  parts : r.2 ≠ [] → Replacement fresh d h R n elts r.2

/-- The specification of a flush of subtrees of height `h` that may stop with faults in `E`. -/
def FlushSpec (E : Fault → Prop) (fresh : Prop) (d : V) (h : Nat) (flush : Flush K V) : Prop :=
  ∀ (R : K → Prop) (n : Node K V) (elts : MessageMap K V), Inv fresh h R n → Batch fresh R elts →
    (fresh → Newer elts n.messages) → Prog.All (Flushed fresh d h R n elts) E (flush n elts)

/-! ## Splitting at the end -/

/-- A node that stands for the old map with the batch applied may be split. -/
theorem all_split_flushed {m : Node K V} (hr : ∀ n, bet.reload n = some n)
    (hM : 3 ≤ bet.maxNodeSize) (hsize : bet.maxNodeSize ≤ m.size)
    (hm : Represents fresh bet.defaultValue h R (n.messages ++ elts)
      (fun k => effect bet.defaultValue elts k (value bet.defaultValue h n k)) m) :
    Prog.All (Flushed fresh bet.defaultValue h R n elts) Fault.Excluded (m.split bet) := by
  have hbound : ∀ p ∈ m.pivots, slotCount m p.1 ≤ m.elements.length :=
    fun p _ => List.length_filter_le _ _
  refine (all_split hr hM hsize hm.inv.splittable hbound).mono (fun r hres => ?_)
  have hp := hres.partition
  have hne : r.2 ≠ [] := hp.ne_nil (by omega)
  refine ⟨fun hnil => absurd hnil hne, fun _ => ⟨hp.forest hm.inv, hne, fun hf k => ?_,
    fun e he => ?_⟩⟩
  · rw [hp.value hm.inv, hm.value hf k]
  · intro x hx
    exact hm.messages x (hp.messages he hx)

/-- A node that stands for the old map with the batch applied may be returned. -/
theorem flushed_whole {m : Node K V} {d : V}
    (hm : Represents fresh d h R (n.messages ++ elts) (fun k => effect d elts k (value d h n k)) m) :
    Flushed fresh d h R n elts (m, []) :=
  ⟨fun _ => hm, fun hne => absurd rfl hne⟩

theorem all_splitFull {m : Node K V} (hr : ∀ n, bet.reload n = some n) (hM : 3 ≤ bet.maxNodeSize)
    (hm : Represents fresh bet.defaultValue h R (n.messages ++ elts)
      (fun k => effect bet.defaultValue elts k (value bet.defaultValue h n k)) m) :
    Prog.All (Flushed fresh bet.defaultValue h R n elts) Fault.Excluded (splitFull bet m) := by
  unfold splitFull
  split
  · rename_i hsize
    exact all_split_flushed hr hM hsize hm
  · exact flushed_whole hm

theorem all_splitOver {m : Node K V} (hr : ∀ n, bet.reload n = some n) (hM : 3 ≤ bet.maxNodeSize)
    (hm : Represents fresh bet.defaultValue h R (n.messages ++ elts)
      (fun k => effect bet.defaultValue elts k (value bet.defaultValue h n k)) m) :
    Prog.All (Flushed fresh bet.defaultValue h R n elts) Fault.Excluded (splitOver bet m) := by
  unfold splitOver
  split
  · rename_i hlt
    exact all_split_flushed hr hM (Nat.le_of_lt hlt) hm
  · exact flushed_whole hm

/-! ## The fast path and the rounds -/

section Child

variable {flushChild : Flush K V} {c : OrdMap.Cursor K (ChildInfo (Node K V))} {first : Option K}
  (hr : ∀ n, bet.reload n = some n) (hE : ∀ e, Fault.Excluded e → E e)
  (hspec : FlushSpec E fresh bet.defaultValue h flushChild)

include hr hE hspec

/-- The fast path puts what the child has become in its place. -/
theorem all_flushDirty (hn : Represents fresh bet.defaultValue (h + 1) R src f n)
    (hc : c.toMap = n.pivots) (hb : Batch fresh R elts)
    (hslot : ∀ e ∈ elts, Slot n.pivots c.key e.1.key)
    (hnew : fresh → ∀ p ∈ n.pivots, Newer elts p.2.child.messages) :
    Prog.All (Represents fresh bet.defaultValue (h + 1) R (src ++ elts)
        (fun k => effect bet.defaultValue elts k (f k))) E
      (n.flushDirty bet flushChild c elts) := by
  have hinner : Inner fresh (Inv fresh h) R n := hn.inv
  have hx : (c.key, c.val) ∈ n.pivots := hc ▸ c.mem_toMap
  have hsort := hinner.forest.sorted
  have hchild := hinner.forest.child _ hx
  obtain ⟨hkey, hle⟩ := hinner.forest.slot_range hx
  have hb' := hb.slot hslot
  unfold flushDirty
  refine (all_assertUnbuffered hinner.buffer.sorted hsort hc (hE _ (Or.inl rfl))).bind
    (fun _ hnone => ?_)
  refine (all_deref hr (hspec _ _ _ hchild hb' (fun hf => hnew hf _ hx))).bind (fun r hfl => ?_)
  obtain ⟨child, news⟩ := r
  refine all_settleDirty hr (fun hnil => ?_) (fun hne => ?_)
  · have hwhole := hfl.whole hnil
    have hmid := replacement_single (c := ⟨child, child.size⟩) hkey hle hchild hwhole.inv
      hb'.range hwhole.value hwhole.messages
    exact hn.flush_past hx hnone hslot hmid (spliced_set hsort hc _) rfl
  · have hparts := hfl.parts hne
    refine all_insertChildren hsort hc hparts.forest.sorted
      (fun e he => (hparts.forest.range e he).2) (fun ps' hsp => ?_)
    exact hn.flush_past hx hnone hslot hparts hsp rfl

/-- So does a round, which takes the messages of the child out of the buffer. -/
theorem all_flushRound (hn : Represents fresh bet.defaultValue (h + 1) R src f n)
    (hc : c.toMap = n.pivots) :
    Prog.All (fun r => Represents fresh bet.defaultValue (h + 1) R src f r.1
        ∧ r.1.elements = n.elements.filter (fun e => decide (¬ Slot n.pivots c.key e.1.key)))
      E (n.flushRound bet flushChild c first) := by
  have hinner : Inner fresh (Inv fresh h) R n := hn.inv
  have hx : (c.key, c.val) ∈ n.pivots := hc ▸ c.mem_toMap
  have hsort := hinner.forest.sorted
  have hchild := hinner.forest.child _ hx
  obtain ⟨hkey, hle⟩ := hinner.forest.slot_range hx
  have hb := hinner.slot_batch c.key
  -- the buffer is newer than the children, so the batch is newer than what the child has
  have hnew : fresh → Newer (n.elements.filter (fun e => decide (Slot n.pivots c.key e.1.key)))
      c.val.child.messages :=
    fun hf e he => hinner.newer hf _ hx e (List.mem_filter.mp he).1
  rw [flushRound_eq hinner.buffer.sorted hsort hc]
  refine (all_deref hr (hspec _ _ _ hchild hb hnew)).bind (fun r hfl => ?_)
  obtain ⟨child, news⟩ := r
  refine all_settleRound hr (hE _ (Or.inr (Or.inl rfl))) (fun hnil k _ => ⟨?_, rfl⟩)
    (fun hne first' => ?_)
  · have hwhole := hfl.whole hnil
    have hmid := replacement_single (c := { c.val with child := child }) hkey hle hchild
      hwhole.inv hb.range hwhole.value hwhole.messages
    have hset : Represents fresh bet.defaultValue (h + 1) R src f
        ⟨n.id, c.set { c.val with child := child },
          n.elements.filter (fun e => decide (¬ Slot n.pivots c.key e.1.key))⟩ :=
      hn.flush_slot hx hmid (spliced_set hsort hc _) rfl
    -- the size may land in another entry; no value depends on it
    exact hset.of_subtrees (subtrees_setChildSize _ k _) rfl
  · have hparts := hfl.parts hne
    refine all_insertChildren hsort hc hparts.forest.sorted
      (fun e he => (hparts.forest.range e he).2) (fun ps' hsp => ?_)
    exact ⟨hn.flush_slot hx hparts hsp rfl, rfl⟩

/-- **A test of the flush loop** leaves the loop, or goes on with fewer messages. -/
theorem all_loopStep_flushRound {next : Node K V × Option K → BProg (Node K V)}
    (hn : Represents fresh bet.defaultValue (h + 1) R src f n)
    (hnext : ∀ r, Represents fresh bet.defaultValue (h + 1) R src f r.1 →
      r.1.elements.length < n.elements.length →
      Prog.All (Represents fresh bet.defaultValue (h + 1) R src f) E (next r)) :
    Prog.All (Represents fresh bet.defaultValue (h + 1) R src f) E
      (loopStep bet (fun c => n.flushRound bet flushChild c first) next n n) := by
  have hinner : Inner fresh (Inv fresh h) R n := hn.inv
  refine all_loopStep hinner.buffer.sorted hinner.forest.sorted (fun c hc hcount => ?_)
    (fun _ => hn)
  refine (all_flushRound hr hE hspec hn hc).mono (fun r hround => ?_)
  have hlt := length_lt_of_slotCount (Nat.lt_of_le_of_lt (Nat.zero_le _) hcount)
  exact hnext r hround.1 (hround.2 ▸ hlt)

/-- **The flush loop** changes nothing that the node stands for, and ends. -/
theorem all_flushLoop {fuel : Nat} (hfuel : n.elements.length < fuel)
    (hn : Represents fresh bet.defaultValue (h + 1) R src f n) :
    Prog.All (Represents fresh bet.defaultValue (h + 1) R src f) E
      (loopBy bet (fun n c first => n.flushRound bet flushChild c first) fuel n first) := by
  induction fuel generalizing n first with
  | zero => exact absurd hfuel (Nat.not_lt_zero _)
  | succ fuel ih =>
      rw [loopBy]
      refine all_loopStep_flushRound hr hE hspec hn (fun r hn' hlt => ih ?_ hn')
      exact Nat.lt_of_lt_of_le hlt (Nat.le_of_lt_succ hfuel)

end Child

/-! ## `flush` -/

/-- An empty batch changes nothing. -/
theorem flushed_empty {d : V} (hn : Inv fresh h R n) : Flushed fresh d h R n [] (n, []) := by
  refine flushed_whole ⟨hn, fun _ _ => rfl, KeysFrom.of_subset (fun m hm => ?_)⟩
  exact List.mem_append_left _ hm

/-- **A flush whose children are flushed as they should be**, with a loop that does its work. -/
theorem all_flushWith_flushed {flushChild : Flush K V}
    {loop : Node K V → Option K → BProg (Node K V)} (hr : ∀ n, bet.reload n = some n)
    (hM : 3 ≤ bet.maxNodeSize)
    (hspec : ∀ h', h = h' + 1 → FlushSpec Fault.Excluded fresh bet.defaultValue h' flushChild)
    (hloop : ∀ {h' src f n} first, h = h' + 1 →
      Represents fresh bet.defaultValue (h' + 1) R src f n →
      Prog.All (Represents fresh bet.defaultValue (h' + 1) R src f) Fault.Excluded (loop n first))
    (hn : Inv fresh h R n) (hb : Batch fresh R elts) (hnew : fresh → Newer elts n.messages) :
    Prog.All (Flushed fresh bet.defaultValue h R n elts) Fault.Excluded
      (flushWith bet (splitFull bet)
        (fun lo hi => innerWith bet
          (fun n first => do return (← n.flushDirty bet flushChild first elts, [])) loop
          (splitOver bet) n lo hi elts) (n, []) n elts) := by
  refine all_flushWith (fun hl _ => ?_) (fun lo hi hl hlo hhi => ?_)
    (fun hnil => hnil ▸ flushed_empty hn)
  · cases h with
    | succ h => exact absurd (hn.isLeaf.symm.trans hl) Bool.false_ne_true
    | zero =>
        have hself : Represents fresh bet.defaultValue 0 R n.messages (value bet.defaultValue 0 n) n :=
          represents_self hn
        exact all_splitFull hr hM (hself.applyAll_leaf hb hnew)
  · cases h with
    | zero => exact absurd (hl.symm.trans hn.isLeaf) Bool.false_ne_true
    | succ h =>
        refine all_innerWith hn hb hnew hlo hhi (fun first n₁ _ hn₁ hmap hslot hnew₁ => ?_)
          (fun first n₂ _ hn₂ => ?_)
        · exact (all_flushDirty hr (fun _ he => he) (hspec h rfl) hn₁ hmap hb hslot hnew₁).bind
            (fun n' hn' => flushed_whole hn')
        · exact (hloop (some first) rfl hn₂).mono (fun n₃ hn₃ => all_splitOver hr hM hn₃)

/-- **`flush` keeps the invariant and applies the batch**, whatever the environment answers. -/
theorem flush_spec (fuel : Nat) (hr : ∀ n, bet.reload n = some n) (hM : 3 ≤ bet.maxNodeSize)
    (hfuel : h < fuel) : FlushSpec Fault.Excluded fresh bet.defaultValue h (flush bet fuel) := by
  induction fuel generalizing h with
  | zero => exact absurd hfuel (Nat.not_lt_zero _)
  | succ fuel ih =>
      intro R n elts hn hb hnew
      have hspec : ∀ h', h = h' + 1 →
          FlushSpec Fault.Excluded fresh bet.defaultValue h' (flush bet fuel) := by
        intro h' hh
        subst hh
        exact ih (Nat.lt_of_succ_lt_succ hfuel)
      rw [flush_succ]
      refine all_flushWith_flushed hr hM hspec (fun first hh hn' => ?_) hn hb hnew
      exact all_flushLoop hr (fun _ he => he) (hspec _ hh) (Nat.lt_succ_self _) hn'

/-! ## Trees of any size -/

/-- How a tree of any maximum size can stop: below three, every split divides by zero. -/
def Fault.Stops (maxNodeSize : Nat) (e : Fault) : Prop :=
  e.Excluded ∨ maxNodeSize < 3 ∧ ∃ size, e = .divideByZero size

omit [Add V] in
theorem all_split_small (hM : bet.maxNodeSize < 3) (hsize : bet.maxNodeSize ≤ n.size) :
    Prog.All (fun _ => False) (Fault.Stops bet.maxNodeSize) (n.split bet) := by
  have hquota : leafQuota bet.maxNodeSize = 0 := by
    unfold leafQuota
    rw [Nat.mod_eq_of_lt (by omega)]
    omega
  have hcounts : Prog.All (fun _ => False) (Fault.Stops bet.maxNodeSize)
      (splitCounts bet n.size : BProg (Nat × Nat)) := by
    unfold splitCounts
    rw [if_pos hquota]
    exact Or.inr ⟨hM, n.size, rfl⟩
  exact (Prog.all_require (R := fun _ => True) (decide_eq_true hsize) trivial).bind
    (fun _ _ => hcounts.bind (fun _ hfalse => hfalse.elim))

/-- With a maximum size below three a leaf is never split. -/
theorem all_flush_small {fuel : Nat} (hM : bet.maxNodeSize < 3) (hn : Inv fresh 0 R n)
    (hb : Batch fresh R elts) (hnew : fresh → Newer elts n.messages) :
    Prog.All (fun r => Flushed fresh bet.defaultValue 0 R n elts r ∧ r.2 = [])
      (Fault.Stops bet.maxNodeSize) (flush bet (fuel + 1) n elts) := by
  have hself : Represents fresh bet.defaultValue 0 R n.messages (value bet.defaultValue 0 n) n :=
    represents_self hn
  have hl : n.isLeaf = true := by rw [hn.isLeaf]; rfl
  rw [flush]
  split
  · rw [if_pos hl]
    dsimp only
    split
    · rename_i hsize
      exact (all_split_small hM hsize).mono (fun _ hfalse => hfalse.elim)
    · exact ⟨flushed_whole (hself.applyAll_leaf hb hnew), rfl⟩
  · rename_i hnone
    rw [eq_nil_of_no_ends hnone]
    exact ⟨flushed_empty hn, rfl⟩

/-- Whatever the maximum size is, a flush that returns does what it should. -/
theorem all_flush_any (hr : ∀ n, bet.reload n = some n) (hM : 3 ≤ bet.maxNodeSize ∨ h = 0)
    (hn : Inv fresh h R n) (hb : Batch fresh R elts) (hnew : fresh → Newer elts n.messages) :
    Prog.All (fun r => Flushed fresh bet.defaultValue h R n elts r
        ∧ (3 ≤ bet.maxNodeSize ∨ r.2 = [])) (Fault.Stops bet.maxNodeSize)
      (flush bet (n.height + 1) n elts) := by
  by_cases hM' : 3 ≤ bet.maxNodeSize
  · have hfuel : h < n.height + 1 := by
      rw [hn.height]
      exact Nat.lt_succ_self _
    exact (flush_spec _ hr hM' hfuel _ _ _ hn hb hnew).imp
      (fun r hfl => ⟨hfl, Or.inl hM'⟩) (fun _ he => Or.inl he)
  · have hzero : h = 0 := hM.elim (fun hM => absurd hM hM') (fun hz => hz)
    subst hzero
    exact (all_flush_small (Nat.lt_of_not_le hM') hn hb hnew).mono
      (fun r hfl => ⟨hfl.1, Or.inr hfl.2⟩)

end BeTree
