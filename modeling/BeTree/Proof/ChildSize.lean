import BeTree.Proof.Shape
import BeTree.Proof.Variant

/-!
# The cached size of a child

An entry of a pivot map carries a copy of its child's size. Splitting a node, lowering a
pivot and the path to a single dirty child keep it right. The flush loop does not: when it
has flushed the child under `child_pivot`, it writes that child's size to the entry under
`first_pivot_idx`, which belongs to the first message of the batch and may by then have
been erased.

The programs whose names start with `aimed` are those of the tree with one assertion more,
made where the flush loop is about to write the size: that the two iterators are one.
Whenever such a run goes through, the tree does the same, and every cached size is right.
-/

namespace BeTree

open Node

variable {K V : Type}

/-! ## Sizes that are right -/

section Accurate

variable [LT K]

/-- The pivots of every node are in order, and their entries have the sizes of the children. -/
def Accurate (n : Node K V) : Prop :=
  ∀ x ∈ n.nodes, OrdMap.Sorted x.pivots ∧ ∀ e ∈ x.pivots, e.2.childSize = e.2.child.size

/-- An entry with the size of its child, and a child of which the same holds. -/
def Current (c : ChildInfo (Node K V)) : Prop := c.childSize = c.child.size ∧ Accurate c.child

/-- A pivot map of such entries. -/
structure Level (ps : PivotMap K V) : Prop where
  sorted : OrdMap.Sorted ps
  current : ∀ e ∈ ps, Current e.2

theorem accurate_iff {n : Node K V} : Accurate n ↔ Level n.pivots := by
  unfold Accurate
  rw [forall_nodes]
  refine ⟨fun hn => ⟨hn.1.1, fun e he => ⟨hn.1.2 e he, hn.2 e he⟩⟩, fun hn => ?_⟩
  exact ⟨⟨hn.sorted, fun e he => (hn.current e he).1⟩, fun e he => (hn.current e he).2⟩

end Accurate

variable [LinearOrder K] {bet : Params K V} {n : Node K V} {ps : PivotMap K V} {E : Fault → Prop}

theorem level_nil : Level ([] : PivotMap K V) := ⟨OrdMap.sorted_nil, by simp⟩

theorem Level.assign {k : K} {c : ChildInfo (Node K V)} (h : Level ps) (hc : Current c) :
    Level (OrdMap.assign ps k c) := by
  refine ⟨OrdMap.sorted_assign h.sorted, fun e he => ?_⟩
  rcases (OrdMap.mem_assign h.sorted).mp he with rfl | ⟨he, _⟩
  · exact hc
  · exact h.current e he

theorem Level.set {c : OrdMap.Cursor K (ChildInfo (Node K V))} {v : ChildInfo (Node K V)}
    (h : Level c.toMap) (hv : Current v) : Level (c.set v) := by
  refine ⟨OrdMap.Cursor.sorted_set h.sorted, fun e he => ?_⟩
  rcases (OrdMap.Cursor.mem_set h.sorted).mp he with ⟨he, _⟩ | rfl
  · exact h.current e he
  · exact hv

/-- The child under the first pivot is still there under a lower one. -/
theorem Level.lowerFirstPivot (h : Level n.pivots) (elts : MessageMap K V) :
    Level (n.lowerFirstPivot elts).pivots := by
  unfold Node.lowerFirstPivot
  cases hp : n.pivots with
  | nil => exact h
  | cons p rest =>
      cases elts with
      | nil => exact h
      | cons m elts =>
          dsimp only
          split
          · have hp' : Current p.2 := h.current p (by rw [hp]; exact List.mem_cons_self)
            have hnew := (hp ▸ h).assign (k := m.1.key) hp'
            refine ⟨OrdMap.sorted_erase hnew.sorted, fun e he => hnew.current e ?_⟩
            exact ((OrdMap.mem_eraseBetween hnew.sorted).mp he).1
          · exact h

/-- New children take the place of the one under the cursor. -/
theorem all_insertChildren_level {c : OrdMap.Cursor K (ChildInfo (Node K V))} {news : PivotMap K V}
    (h : Level c.toMap) (hnews : Level news) :
    Prog.All Level (fun _ => True) (insertChildren c.erase news) := by
  have herase := OrdMap.Cursor.sorted_erase h.sorted
  unfold insertChildren Prog.require
  split
  · rename_i hfree
    have hne : ∀ x ∈ c.erase, ∀ y ∈ news, x.1 ≠ y.1 := by
      intro x hx y hy hxy
      have hnone := List.all_eq_true.mp hfree y hy
      rw [Option.isNone_iff_eq_none, (OrdMap.find_eq_some herase).mpr ⟨hx, hxy⟩] at hnone
      cases hnone
    obtain ⟨hs, hmem⟩ := OrdMap.insertAll_spec herase hnews.sorted hne
    refine ⟨hs, fun e he => ?_⟩
    rcases (hmem e).mp he with he | he
    · exact h.current e ((OrdMap.Cursor.mem_erase h.sorted).mp he).1
    · exact hnews.current e he
  · trivial

/-! ## `split` -/

section Split

variable (hr : ∀ n, bet.reload n = some n)

include hr

theorem all_putPivot_level {e : K × ChildInfo (Node K V)} (hn : Level n.pivots)
    (he : Current e.2) : Prog.All (fun r => Level r.pivots) E (n.putPivot bet e) := by
  refine (all_deref (Q := fun r => Level r.1.pivots) hr ?_).bind (fun r hres => hres)
  exact hn.assign he

theorem all_putElement_pivots {e : MessageKey K × Message V} :
    Prog.All (fun r => r.pivots = n.pivots) E (n.putElement bet e) := by
  refine (all_deref (Q := fun r => r.1.pivots = n.pivots) hr ?_).bind (fun r hres => hres)
  exact rfl

theorem all_putElements_pivots {es : MessageMap K V} :
    Prog.All (fun r => r.pivots = n.pivots) E (putElements bet es n) := by
  induction es generalizing n with
  | nil => rfl
  | cons e es ih =>
      rw [putElements]
      refine (all_putElement_pivots hr).bind (fun n' hn' => ?_)
      exact ih.mono (fun r hres => hres.trans hn')

theorem all_fillElements_level {leaf : Bool} {target moved : Nat} {es : MessageMap K V}
    (hn : Level n.pivots) :
    Prog.All (fun r => r.1.pivotIdx = [] ∧ Level r.2.pivots) (fun _ => True)
      (fillElements bet leaf target es moved n) := by
  induction es generalizing n moved with
  | nil => exact ⟨rfl, hn⟩
  | cons e es ih =>
      rw [fillElements]
      split
      · refine (Prog.all_true _).bind (fun _ _ => (all_putElement_pivots hr).bind (fun n' hn' => ?_))
        exact ih (hn' ▸ hn)
      · exact ⟨rfl, hn⟩

theorem all_fill_level {this : Node K V} {target moved : Nat} {ps : PivotMap K V}
    {es : MessageMap K V} (hn : Level n.pivots) (hps : ∀ e ∈ ps, Current e.2) :
    Prog.All (fun r => (∀ e ∈ r.1.pivotIdx, Current e.2) ∧ Level r.2.pivots) (fun _ => True)
      (fill bet this target ps es moved n) := by
  induction ps generalizing n es moved with
  | nil =>
      rw [fill]
      refine (all_fillElements_level hr hn).mono (fun r hres => ⟨?_, hres.2⟩)
      rw [hres.1]
      exact fun e he => absurd he (by simp)
  | cons e ps ih =>
      have hrest : ∀ x ∈ ps, Current x.2 := fun x hx => hps x (List.mem_cons_of_mem _ hx)
      rw [fill]
      split
      · refine (all_putPivot_level hr hn (hps e List.mem_cons_self)).bind (fun n₁ hn₁ => ?_)
        refine (all_putElements_pivots hr).bind (fun n₂ hn₂ => ?_)
        exact ih (hn₂ ▸ hn₁) hrest
      · exact ⟨hps, hn⟩

/-- While `split` runs, its result has the right children, with sizes yet to be written. -/
theorem all_splitLoop_level {this : Node K V} {things left i : Nat} {st : SplitState K V}
    {result : PivotMap K V} (hst : ∀ e ∈ st.pivotIdx, Current e.2)
    (hs : OrdMap.Sorted result) (hresult : ∀ e ∈ result, Accurate e.2.child) :
    Prog.All (fun r => OrdMap.Sorted r.2 ∧ ∀ e ∈ r.2, Accurate e.2.child) (fun _ => True)
      (splitLoop bet this things left i st result) := by
  induction left generalizing i st result with
  | zero => exact ⟨hs, hresult⟩
  | succ left ih =>
      rw [splitLoop]
      split
      · exact ⟨hs, hresult⟩
      · intro id
        refine (all_enterResult hr).bind (fun r hn => ?_)
        have hn : r.1 = ⟨id, [], []⟩ := hn
        have hempty : Level r.1.pivots := by rw [hn]; exact level_nil
        refine (all_fill_level hr hempty hst).bind (fun r' hres => ?_)
        refine ih hres.1 (OrdMap.sorted_assign hs) (fun e he => ?_)
        rcases (OrdMap.mem_assign hs).mp he with rfl | ⟨he, _⟩
        · exact accurate_iff.mpr hres.2
        · exact hresult e he

/-- **`split`** writes the size of every new node. -/
theorem all_split_level (hn : Level n.pivots) :
    Prog.All (fun r => r.1.pivots = [] ∧ Level r.2) (fun _ => True) (n.split bet) := by
  unfold split
  refine (Prog.all_true _).bind (fun _ _ => (Prog.all_true _).bind (fun ⟨num, things⟩ _ => ?_))
  refine (all_splitLoop_level hr hn.current OrdMap.sorted_nil (by simp)).bind
    (fun ⟨st, result⟩ hres => ?_)
  obtain ⟨hs, hkids⟩ := hres
  refine (all_refreshSizes hr).bind (fun res hsizes => ?_)
  refine (Prog.all_true _).bind (fun _ _ => (Prog.all_true _).bind (fun _ _ => ⟨rfl, ?_, ?_⟩))
  · show OrdMap.Sorted res
    rw [hsizes]
    exact List.pairwise_map.mpr hs
  · intro e he
    have he : e ∈ res := he
    rw [hsizes] at he
    obtain ⟨x, hx, rfl⟩ := List.mem_map.mp he
    exact ⟨rfl, hkids x hx⟩

end Split

/-! ## The tree with its flush loop aimed -/

/--
A round of the flush loop, with the assertion that `first_pivot_idx` is the pivot of the child
that is flushed, unless the child is split and no size is written.
-/
def aimedRound (bet : Params K V) (flushChild : Flush K V) (n : Node K V)
    (c : OrdMap.Cursor K (ChildInfo (Node K V))) (first : Option K) : BProg (Node K V × Option K) :=
  n.flushRound bet (fun child elts => do
    let r ← flushChild child elts
    Prog.require (!r.2.isEmpty || first == some c.key) .environment
    return r) c first

/-- `flush`, with such rounds. -/
def aimedFlush [Add V] (bet : Params K V) : Nat → Flush K V :=
  flushBy bet (fun flushChild n first elts => n.flushDirty bet flushChild first elts)
    (aimedRound bet)

/-- A sequence of upserts, with such a flush. -/
def Betree.aimedApplyAll [Add V] (bet : Params K V) (t : Betree K V) (us : List (Upsert K V)) :
    BProg (Betree K V) :=
  t.applyAllBy bet (aimedFlush bet) us

theorem restricts_aimedRound {flushChild flushChild' : Flush K V}
    {c : OrdMap.Cursor K (ChildInfo (Node K V))} {first : Option K}
    (hchild : ∀ m elts, Prog.Restricts .environment (flushChild m elts) (flushChild' m elts)) :
    Prog.Restricts .environment (aimedRound bet flushChild n c first)
      (n.flushRound bet flushChild' c first) := by
  refine restricts_flushRound (fun m elts => ?_)
  have hsame : flushChild' m elts = flushChild' m elts >>= pure := Prog.bind_pure.symm
  rw [hsame]
  exact (hchild m elts).bind (fun r => (Prog.Restricts.refl _).require _)

/-- The assertion is all that has been added. -/
theorem restricts_aimedFlush [Add V] (fuel : Nat) (n : Node K V) (elts : MessageMap K V) :
    Prog.Restricts .environment (aimedFlush bet fuel n elts) (n.flush bet fuel elts) := by
  rw [flush_eq]
  unfold aimedFlush
  apply restricts_flushBy
  · exact fun flushChild flushChild' hchild n c elts => restricts_flushDirty hchild
  · exact fun flushChild flushChild' hchild n c first => restricts_aimedRound hchild

/-! ## Aimed runs keep the sizes -/

section Flush

/-- What the flush of a node gives: the node, or the nodes it has been split into. -/
def Flushes (flushChild : Flush K V) : Prop :=
  ∀ m elts, Accurate m → Prog.All (fun r => Accurate r.1 ∧ Level r.2) (fun _ => True)
    (flushChild m elts)

/-- Writing the size of the entry under the cursor. -/
theorem setChildSize_set {c : OrdMap.Cursor K (ChildInfo (Node K V))} {v : ChildInfo (Node K V)}
    {size : Nat} (hs : OrdMap.Sorted c.toMap) :
    setChildSize (c.set v) c.key size = c.set { v with childSize := size } := by
  have hother : ∀ l : PivotMap K V, (∀ e ∈ l, e.1 ≠ c.key) →
      l.map (fun e => if e.1 == c.key then (e.1, { e.2 with childSize := size }) else e) = l := by
    intro l hl
    refine (List.map_congr_left (fun e he => ?_)).trans (List.map_id l)
    rw [if_neg (by rw [beq_iff_eq]; exact hl e he)]
    rfl
  obtain ⟨_, hcons, hlt⟩ := OrdMap.sorted_append.mp hs
  obtain ⟨hafter, _⟩ := OrdMap.sorted_cons.mp hcons
  unfold setChildSize OrdMap.Cursor.set
  rw [List.map_append, List.map_cons, hother c.before, hother c.after]
  · rw [if_pos (beq_self_eq_true _)]
  · exact fun e he => ne_of_gt (hafter e he)
  · exact fun e he => ne_of_lt (hlt e he (c.key, c.val) List.mem_cons_self)

variable (hr : ∀ n, bet.reload n = some n) {flushChild : Flush K V} (hflush : Flushes flushChild)

include hr hflush

theorem all_flushDirty_level {c : OrdMap.Cursor K (ChildInfo (Node K V))} {elts : MessageMap K V}
    (hn : Level n.pivots) (hc : c.toMap = n.pivots) :
    Prog.All Accurate (fun _ => True) (n.flushDirty bet flushChild c elts) := by
  have hlevel : Level c.toMap := hc ▸ hn
  have hchild : Accurate c.val.child := (hn.current _ (hc ▸ c.mem_toMap)).2
  unfold flushDirty
  refine (Prog.all_true _).bind (fun _ _ => ?_)
  refine (all_deref hr (hflush _ elts hchild)).bind (fun r hres => ?_)
  refine all_settleDirty hr (fun _ => ?_) (fun _ => ?_)
  · exact accurate_iff.mpr (hlevel.set ⟨rfl, hres.1⟩)
  · exact (all_insertChildren_level hlevel hres.2).mono (fun ps hps => accurate_iff.mpr hps)

/-- **A round** that writes to the entry of the child it has flushed keeps the sizes. -/
theorem all_aimedRound {c : OrdMap.Cursor K (ChildInfo (Node K V))} {first : Option K}
    (hn : Level n.pivots) (hc : c.toMap = n.pivots) :
    Prog.All (fun r => Level r.1.pivots) (fun _ => True)
      (aimedRound bet flushChild n c first) := by
  have hlevel : Level c.toMap := hc ▸ hn
  have hchild : Accurate c.val.child := (hn.current _ (hc ▸ c.mem_toMap)).2
  have haimed : ∀ elts, Prog.All (fun r => (Accurate r.1 ∧ Level r.2) ∧ (r.2 = [] → first = some c.key))
      (fun _ => True) (do
        let r ← flushChild c.val.child elts
        Prog.require (!r.2.isEmpty || first == some c.key) .environment
        return r) := by
    intro elts
    refine (hflush _ elts hchild).bind (fun r hres => ?_)
    unfold Prog.require
    split
    · rename_i hreq
      refine ⟨hres, fun hnil => ?_⟩
      rw [hnil] at hreq
      simpa using hreq
    · trivial
  unfold aimedRound flushRound
  refine (all_deref hr (haimed _)).bind (fun r hres => ?_)
  obtain ⟨child, news⟩ := r
  obtain ⟨⟨hchild', hnews⟩, hfirst⟩ := hres
  refine all_settleRound hr trivial (fun hnil k hk => ?_) (fun _ _ => ?_)
  · have hkey : k = c.key := Option.some.inj (hk.symm.trans (hfirst hnil))
    show Level (setChildSize (c.set { c.val with child := child }) k child.size)
    rw [hkey, setChildSize_set hlevel.sorted]
    exact hlevel.set ⟨rfl, hchild'⟩
  · exact all_insertChildren_level hlevel hnews

theorem all_aimedLoop {fuel : Nat} {first : Option K} (hn : Level n.pivots) :
    Prog.All (fun r => Level r.pivots) (fun _ => True)
      (loopBy bet (aimedRound bet flushChild) fuel n first) := by
  induction fuel generalizing n first with
  | zero => trivial
  | succ fuel ih =>
      rw [loopBy]
      refine all_loopStep_of (fun e rest c m hp hl _ => ?_) (fun _ _ _ _ _ _ _ => hn) (fun _ => hn)
      have hc : (largestChild n.elements [] n.pivots (⟨[], e.1, e.2, rest⟩, 0)).1.toMap = n.pivots :=
        largestChild_toMap (List.nil_append n.pivots) hp.symm
      rw [hl] at hc
      exact (all_aimedRound hr hflush hn hc).mono (fun r hres => ih hres)

omit hflush in
/-- A node that may be split at the end has its sizes right, and so have its pieces. -/
theorem all_splitLevel {m : Node K V} {p : Prop} [Decidable p] (hm : Level m.pivots) :
    Prog.All (fun r => Accurate r.1 ∧ Level r.2) (fun _ => True)
      (if p then m.split bet else return (m, [])) := by
  split
  · refine (all_split_level hr hm).mono (fun r hres => ⟨?_, hres.2⟩)
    rw [accurate_iff, hres.1]
    exact level_nil
  · exact ⟨accurate_iff.mpr hm, level_nil⟩

theorem all_innerWith_level [Add V] {lo hi : K} {fuel : Node K V → Nat} {elts : MessageMap K V}
    (hn : Level n.pivots) :
    Prog.All (fun r => Accurate r.1 ∧ Level r.2) (fun _ => True)
      (innerWith bet (fun n first => do return (← n.flushDirty bet flushChild first elts, []))
        (fun n => loopBy bet (aimedRound bet flushChild) (fuel n) n) (splitOver bet) n lo hi elts) := by
  have hlow := hn.lowerFirstPivot elts
  have happ : Level ((n.lowerFirstPivot elts).applyAll elts bet.defaultValue).pivots := by
    rw [applyAll_pivots]
    exact hlow
  cases hfirst : getPivot (n.lowerFirstPivot elts).pivots lo with
  | error e =>
      unfold innerWith
      dsimp only
      rw [hfirst]
      trivial
  | ok first =>
      cases hlast : getPivot (n.lowerFirstPivot elts).pivots hi with
      | error e =>
          unfold innerWith
          dsimp only
          rw [hfirst, hlast]
          trivial
      | ok last =>
          have hmap : first.toMap = (n.lowerFirstPivot elts).pivots := by
            rcases getPivot_cases (n.lowerFirstPivot elts).pivots lo with ⟨c, hc, hmap⟩ | hfail | hfail
            · exact Except.ok.inj (hc.symm.trans hfirst) ▸ hmap
            · rw [hfirst] at hfail
              cases hfail
            · rw [hfirst] at hfail
              cases hfail
          refine all_innerWith_of hfirst hlast (fun _ => ?_) ?_
          · exact (all_flushDirty_level hr hflush hlow hmap).bind
              (fun n' hn' => ⟨hn', level_nil⟩)
          · exact (all_aimedLoop hr hflush happ).mono (fun n' hn' => all_splitLevel hr hn')

omit hflush

variable [Add V]

/-- **An aimed flush** keeps the sizes in the whole subtree. -/
theorem flushes_aimedFlush {fuel : Nat} : Flushes (aimedFlush bet fuel) := by
  induction fuel with
  | zero => exact fun m elts hm => trivial
  | succ fuel ih =>
      intro m elts hm
      have hlevel := accurate_iff.mp hm
      rw [aimedFlush, flushBy]
      refine all_flushWith (fun _ _ => all_splitLevel hr ?_)
        (fun lo hi _ _ _ => all_innerWith_level hr ih hlevel) (fun _ => ⟨hm, level_nil⟩)
      rw [applyAll_pivots]
      exact hlevel

theorem all_aimedApplyAll {t : Betree K V} {us : List (Upsert K V)} (ht : Accurate t.root) :
    Prog.All (fun t => Accurate t.root) (fun _ => True) (t.aimedApplyAll bet us) := by
  have hupsert : ∀ (t : Betree K V) opcode k v, Accurate t.root →
      Prog.All (fun t => Accurate t.root) (fun _ => True)
        (t.upsertWith bet (aimedFlush bet) id (fun t _ => t) opcode k v) := by
    intro t opcode k v ht
    refine Betree.all_upsertWith hr (flushes_aimedFlush hr _ _ ht) (fun root made hres _ => hres.1)
      (fun root made hres _ => (Betree.all_growRoot_eq hr).mono (fun n hn => ?_))
    rw [accurate_iff, hn.1]
    exact hres.2
  induction us generalizing t with
  | nil => exact ht
  | cons u us ih =>
      have hstep : Prog.All (fun t => Accurate t.root) (fun _ => True)
          (Betree.applyWith bet (t.upsertWith bet (aimedFlush bet) id (fun t _ => t)) u) := by
        cases u <;> exact hupsert t _ _ _ ht
      exact hstep.bind (fun t' ht' => ih ht')

end Flush

/--
**Cached sizes.** In every environment, if the flush loop writes sizes only to the entry of the
child it has flushed, then at the end of any sequence of upserts every entry of every node has
the size of its child.
-/
theorem childSize_accurate [Add V] (bet : Params K V) (hr : ∀ n, bet.reload n = some n) {σ : Type}
    (h : Prog.Handler Op Op.Ans Fault σ) (s s' : σ) (us : List (Upsert K V)) (t : Betree K V)
    (haimed : (Betree.create >>= fun t => t.aimedApplyAll bet us).run h s = (.ok t, s')) :
    (Betree.create >>= fun t => t.applyAll bet us).run h s = (.ok t, s')
      ∧ ∀ n ∈ t.root.nodes, ∀ e ∈ n.pivots, e.2.childSize = e.2.child.size := by
  have hsame : Prog.Restricts .environment (Betree.create >>= fun t => t.aimedApplyAll bet us)
      (Betree.create >>= fun t => t.applyAll bet us) := by
    refine (Prog.Restricts.refl _).bind (fun t => ?_)
    rw [Betree.applyAll_eq]
    exact restricts_applyAllBy restricts_aimedFlush us t
  have hall : Prog.All (fun t => Accurate t.root) (fun _ => True)
      (Betree.create >>= fun t => t.aimedApplyAll bet us) := by
    refine Prog.All.bind (Q := fun t => Accurate t.root) ?_ (fun t ht => all_aimedApplyAll hr ht)
    exact fun id => accurate_iff.mpr level_nil
  have hacc := Prog.run_of_all (h := h) hall s
  rw [haimed] at hacc
  exact ⟨hsame.run haimed, fun n hn => (hacc n hn).2⟩

/-- The flush loop sends 4 and 5 to the second leaf, when 5 is the message that came last. -/
theorem childSize_accurate_small :
    ∃ t s, (Betree.create >>= fun t => t.applyAll (⟨5, 0, 0, some⟩ : Params Nat Nat)
        ([1, 2, 3, 4, 5, 1, 4, 5].map (Upsert.insert · 0))).run neverDirty 1 = (.ok t, s)
      ∧ ∀ n ∈ t.root.nodes, ∀ e ∈ n.pivots, e.2.childSize = e.2.child.size := by
  have happly : ∀ us t s, (Betree.create >>= fun t => t.aimedApplyAll (⟨5, 0, 0, some⟩ : Params Nat Nat)
      us).run neverDirty 1 = (.ok t, s) → _ :=
    fun us t s => childSize_accurate _ (fun _ => rfl) neverDirty 1 s us t
  have hok : (Betree.create >>= fun t => t.aimedApplyAll (⟨5, 0, 0, some⟩ : Params Nat Nat)
      ([1, 2, 3, 4, 5, 1, 4, 5].map (Upsert.insert · 0))).run neverDirty 1 |>.1.isOk := by
    decide +kernel
  rcases hrun : (Betree.create >>= fun t => t.aimedApplyAll (⟨5, 0, 0, some⟩ : Params Nat Nat)
      ([1, 2, 3, 4, 5, 1, 4, 5].map (Upsert.insert · 0))).run neverDirty 1 with ⟨f | t, s⟩
  · rw [hrun] at hok
    cases hok
  · exact ⟨t, s, happly _ t s hrun⟩

/--
The last message is for the second leaf, and the flush loop sends 1 and 2 to the first one: its
size goes to the entry of the second leaf, which has two entries.
-/
theorem childSize_misdirected :
    ((Betree.create >>= fun t => t.applyAll (⟨5, 0, 0, some⟩ : Params Nat Nat)
        ([1, 2, 3, 4, 5, 1, 2, 5].map (Upsert.insert · 0))).run neverDirty 1).1.toOption.map
      (fun t => t.root.pivots.map (fun e => (e.1, e.2.childSize, e.2.child.size)))
      = some [(1, 3, 3), (4, 3, 2)] := by
  decide +kernel

end BeTree
