import BeTree.Proof.Shape

/-!
# `flush` terminates

The model of `flush` is given bounds: one on the depth of the recursion, one on the rounds of
the flush loop. Here is the same function without them. Its loop goes on as long as a round
leaves fewer messages in the buffer, its recursion as long as the child is of smaller height
than the node. A round or a call that does not get smaller is a stop with `Fault.fuel`.

In a well-formed tree that never happens, whatever is answered about children being dirty or
in memory. So the bounds do not matter: any that is larger than the height gives the same.
-/

namespace BeTree

open Node

variable {K V : Type} [LinearOrder K]

namespace Node

/-- The flush loop, on the number of messages in the buffer. -/
def measuredLoop (bet : Params K V) (flushChild : Flush K V) (n : Node K V) (first : Option K) :
    BProg (Node K V) :=
  loopStep bet (fun c => n.flushRound bet flushChild c first) (fun r =>
    if r.1.elements.length < n.elements.length then measuredLoop bet flushChild r.1 r.2
    else Prog.stop .fuel) n n
termination_by n.elements.length

variable [Add V]

/-- `flush`, on the height of the node. -/
def measuredFlush (bet : Params K V) (n : Node K V) (elts : MessageMap K V) :
    BProg (Node K V × PivotMap K V) :=
  let flushChild := fun child elts =>
    if child.height < n.height then measuredFlush bet child elts else Prog.stop .fuel
  flushWith bet (splitFull bet)
    (fun lo hi => innerWith bet
      (fun n first => do return (← n.flushDirty bet flushChild first elts, []))
      (measuredLoop bet flushChild) (splitOver bet) n lo hi elts) (n, []) n elts
termination_by n.height

end Node

/-! ## The same but for the bounds -/

section SameBut

open Prog

variable {bet : Params K V} {flushChild flushChild' : Flush K V}

omit [LinearOrder K] in
theorem sameBut_deref {α : Type} {body body' : Node K V → BProg (Node K V × α)}
    (hbody : ∀ m, SameBut Fault.fuel (body m) (body' m)) (dirty : Bool) (n : Node K V) :
    SameBut Fault.fuel (n.deref bet dirty body) (n.deref bet dirty body') := by
  unfold deref
  refine (SameBut.refl _).bind (fun _ => (SameBut.refl _).bind (fun loaded => ?_))
  exact (SameBut.refl _).bind (fun _ => (hbody _).bind (fun _ => SameBut.refl _))

variable (hchild : ∀ m elts, SameBut Fault.fuel (flushChild m elts) (flushChild' m elts))

include hchild

theorem sameBut_flushDirty (n : Node K V) (first : OrdMap.Cursor K (ChildInfo (Node K V)))
    (elts : MessageMap K V) :
    SameBut Fault.fuel (n.flushDirty bet flushChild first elts)
      (n.flushDirty bet flushChild' first elts) := by
  unfold flushDirty
  refine (SameBut.refl _).bind (fun _ => ?_)
  exact (sameBut_deref (fun m => hchild m elts) true first.val.child).bind (fun _ => SameBut.refl _)

theorem sameBut_flushRound (n : Node K V) (c : OrdMap.Cursor K (ChildInfo (Node K V)))
    (first : Option K) :
    SameBut Fault.fuel (n.flushRound bet flushChild c first)
      (n.flushRound bet flushChild' c first) := by
  unfold flushRound
  exact (sameBut_deref (fun m => hchild m _) true c.val.child).bind (fun _ => SameBut.refl _)

theorem sameBut_flushLoop (fuel : Nat) (n : Node K V) (first : Option K) :
    SameBut Fault.fuel (loopBy bet (fun n c first => n.flushRound bet flushChild c first) fuel n first)
      (measuredLoop bet flushChild' n first) := by
  induction fuel generalizing n first with
  | zero => exact SameBut.left _
  | succ fuel ih =>
      rw [loopBy, measuredLoop]
      unfold loopStep
      refine sameBut_ite ?_ (SameBut.refl _)
      cases n.pivots with
      | nil => exact SameBut.refl _
      | cons e rest =>
          refine (SameBut.refl _).bind (fun worth => sameBut_ite ?_ (SameBut.refl _))
          refine (sameBut_flushRound hchild n _ first).bind (fun r => ?_)
          dsimp only
          split
          · exact ih r.1 r.2
          · exact SameBut.right _

omit hchild in
/-- The two give the same as long as neither bound nor measure stops them. -/
theorem sameBut_flush [Add V] (fuel : Nat) (n : Node K V) (elts : MessageMap K V) :
    SameBut Fault.fuel (flush bet fuel n elts) (measuredFlush bet n elts) := by
  induction fuel generalizing n elts with
  | zero => exact SameBut.left _
  | succ fuel ih =>
      have hchild : ∀ m elts, SameBut Fault.fuel (flush bet fuel m elts)
          (if m.height < n.height then measuredFlush bet m elts else Prog.stop .fuel) := by
        intro m elts
        split
        · exact ih m elts
        · exact SameBut.right _
      rw [flush_succ, measuredFlush]
      unfold flushWith
      split
      · refine sameBut_ite (SameBut.refl _) ?_
        unfold innerWith
        refine (SameBut.refl _).bind (fun first => (SameBut.refl _).bind (fun last => ?_))
        refine (SameBut.refl _).bind (fun toDirty => sameBut_ite ?_ ?_)
        · exact (sameBut_flushDirty hchild _ first elts).bind (fun _ => SameBut.refl _)
        · exact (sameBut_flushLoop hchild _ _ _).bind (fun _ => SameBut.refl _)
      · exact SameBut.refl _

end SameBut

/-! ## The measures -/

section Measures

variable [Add V] {fresh : Prop} {bet : Params K V} {h : Nat} {R : K → Prop} {n : Node K V}

/-- Every round of the flush loop leaves fewer messages in the buffer. -/
theorem all_measuredLoop {flushChild : Flush K V} {src : MessageMap K V} {f : K → Option V}
    {first : Option K} (hr : ∀ n, bet.reload n = some n)
    (hspec : FlushSpec Fault.Excluded fresh bet.defaultValue h flushChild)
    (hn : Represents fresh bet.defaultValue (h + 1) R src f n) :
    Prog.All (Represents fresh bet.defaultValue (h + 1) R src f) Fault.Excluded
      (measuredLoop bet flushChild n first) := by
  induction hlen : n.elements.length using Nat.strong_induction_on generalizing n first with
  | _ len ih =>
      rw [measuredLoop]
      refine all_loopStep_flushRound hr (fun _ he => he) hspec hn (fun r hn' hlt => ?_)
      rw [if_pos hlt]
      exact ih _ (hlen ▸ hlt) hn' rfl

/-- Every child is of smaller height than its parent. -/
theorem measuredFlush_spec (hr : ∀ n, bet.reload n = some n) (hM : 3 ≤ bet.maxNodeSize) :
    FlushSpec Fault.Excluded fresh bet.defaultValue h (measuredFlush bet) := by
  induction h with
  | zero =>
      intro R n elts hn hb hnew
      rw [measuredFlush]
      exact all_flushWith_flushed hr hM (fun h' hh => absurd hh (Nat.zero_ne_add_one _))
        (fun first hh => absurd hh (Nat.zero_ne_add_one _)) hn hb hnew
  | succ h ih =>
      intro R n elts hn hb hnew
      have hspec : FlushSpec Fault.Excluded fresh bet.defaultValue h (fun child elts =>
          if child.height < n.height then measuredFlush bet child elts else Prog.stop .fuel) := by
        intro R' child elts' hchild hb' hnew'
        have hlower : child.height < n.height := by
          rw [hchild.height, hn.height]
          exact Nat.lt_succ_self h
        dsimp only
        rw [if_pos hlower]
        exact ih R' child elts' hchild hb' hnew'
      rw [measuredFlush]
      refine all_flushWith_flushed hr hM (fun h' hh => ?_) (fun first hh hn' => ?_) hn hb hnew
      · exact Nat.succ.inj hh ▸ hspec
      · obtain rfl := Nat.succ.inj hh
        exact all_measuredLoop hr hspec hn'

end Measures

/--
**`flush` terminates.** On a well-formed tree and any batch, whatever is answered about its
nodes, no round of a flush loop leaves as many messages as before, and no call is made on a
node that is not lower than the caller's: a flush returns, or stops with one of the excluded
faults. With any bound above the height, that is `flush`.
-/
theorem flush_terminates [Add V] (bet : Params K V) (hr : ∀ n, bet.reload n = some n)
    (hM : 3 ≤ bet.maxNodeSize) (n : Node K V) (hn : WellFormedTree n) (elts : MessageMap K V)
    (hs : OrdMap.Sorted elts) (hst : ∀ e ∈ elts, e.1.timestamp ≤ uint64Max) :
    Prog.All (fun _ => True) Fault.Excluded (measuredFlush bet n elts)
      ∧ ∀ fuel, n.height < fuel → flush bet fuel n elts = measuredFlush bet n elts := by
  obtain ⟨height, hinv⟩ := hn.inv
  have hb : Batch False (fun _ => True) elts := ⟨hs, hst, False.elim, fun _ _ => trivial⟩
  have hmeasured : Prog.All (fun _ => True) Fault.Excluded (measuredFlush bet n elts) :=
    (measuredFlush_spec hr hM _ n elts hinv hb False.elim).mono (fun _ _ => trivial)
  refine ⟨hmeasured, fun fuel hfuel => ?_⟩
  rw [hinv.height] at hfuel
  have hflush : Prog.All (fun _ => True) Fault.Excluded (flush bet fuel n elts) :=
    (flush_spec fuel hr hM hfuel _ n elts hinv hb False.elim).mono (fun _ _ => trivial)
  refine (sameBut_flush fuel n elts).eq hflush hmeasured ?_
  simp [Fault.Excluded]

theorem flush_terminates_two :
    Prog.All (fun _ => True) Fault.Excluded
        (measuredFlush ⟨3, 0, 0, some⟩ twoBuffered [(⟨6, 5⟩, ⟨.insert, 4⟩)])
      ∧ flush ⟨3, 0, 0, some⟩ 2 twoBuffered [(⟨6, 5⟩, ⟨.insert, 4⟩)]
        = measuredFlush ⟨3, 0, 0, some⟩ twoBuffered [(⟨6, 5⟩, ⟨.insert, 4⟩)] := by
  have hinv : Inv False 1 (fun _ => True) twoBuffered := by
    refine ⟨⟨?_, by decide, False.elim, fun _ _ => trivial, fun hl => hl.elim nofun False.elim⟩,
      ⟨OrdMap.sorted_singleton _, fun _ _ => trivial, List.forall_mem_singleton.mpr ⟨rfl, ?_⟩⟩,
      List.cons_ne_nil _ _, ?_, False.elim⟩
    · unfold OrdMap.Sorted
      decide
    · refine ⟨OrdMap.sorted_singleton _, by decide, False.elim, ?_, fun _ k => ?_⟩
      · refine List.forall_mem_singleton.mpr ⟨trivial, Nat.zero_le _, ?_⟩
        decide
      · by_cases hk : k = 5
        · subst hk
          exact form_insert true
        · rw [ofKey_eq_nil (List.forall_mem_singleton.mpr (Ne.symm hk))]
          exact form_nil true
    · exact fun e _ => ⟨_, List.mem_cons_self, Nat.zero_le _⟩
  obtain ⟨hall, heq⟩ := flush_terminates ⟨3, 0, 0, some⟩ (fun _ => rfl) (by decide) twoBuffered
    hinv.wellFormed [(⟨6, 5⟩, ⟨.insert, 4⟩)] (OrdMap.sorted_singleton _) (by decide)
  exact ⟨hall, heq 2 (by decide)⟩

/--
A tree that is reached by ten inserts, and a batch of one message. The first round of the flush
loop splits the child the message goes to, and takes its entry out of the pivot map; the second
one flushes another child and writes its size to the entry that is gone.
-/
theorem flush_writes_erased_entry :
    ∃ (t : Betree Nat Nat) (s : Nat), (Betree.create >>= fun t => t.applyAll ⟨5, 0, 0, some⟩
        ([10, 20, 30, 40, 50, 60, 70, 80, 41, 71].map (Upsert.insert · 0))).run neverDirty 1
          = (.ok t, s)
      ∧ WellFormedTree t.root
      ∧ stoppedWith ((t.root.flush ⟨5, 0, 0, some⟩ (t.root.height + 1)
          [(⟨42, 11⟩, ⟨.insert, 0⟩)]).run neverDirty s) = some .erasedEntry := by
  have hstop : (match (Betree.create >>= fun t => t.applyAll ⟨5, 0, 0, some⟩
        ([10, 20, 30, 40, 50, 60, 70, 80, 41, 71].map (Upsert.insert · 0))).run neverDirty 1 with
      | (.ok t, s) => stoppedWith ((t.root.flush ⟨5, 0, 0, some⟩ (t.root.height + 1)
          [(⟨42, 11⟩, ⟨.insert, 0⟩)]).run neverDirty s)
      | (.error _, _) => none) = some .erasedEntry := by
    decide +kernel
  rcases hrun : (Betree.create >>= fun t => t.applyAll ⟨5, 0, 0, some⟩
      ([10, 20, 30, 40, 50, 60, 70, 80, 41, 71].map (Upsert.insert · 0))).run neverDirty 1
    with ⟨f | t, s⟩
  · rw [hrun] at hstop
    cases hstop
  · rw [hrun] at hstop
    have hreached := (@all_upserts Nat Nat _ _ ⟨5, 0, 0, some⟩ False _ (fun _ => rfl) (by decide)
      False.elim).of_run hrun
    obtain ⟨_, hinv, _⟩ := hreached.tree
    exact ⟨t, s, rfl, hinv.wellFormed, hstop⟩

end BeTree
