import BeTree.Proof.Rename

/-!
# Sessions over other keys

Every program of the tree does the same over other keys, one function of the tree at a time,
up to a whole session.
-/

namespace BeTree

open Prog

variable {K L V : Type}

/-- The programs do the same, as long as no node with entries is read back. -/
abbrev Same {α β : Type} (g : α → β) (x : BProg α) (y : BProg β) : Prop := Mirrors Op.Plain g x y

/-! ## Using a node -/

section Deref

variable {f : K → L} {bet : Params K V} {bet' : Params L V}

theorem same_allocate (f : K → L) :
    Same (Node.rename f) (Node.allocate : BProg (Node K V)) Node.allocate :=
  mirrors_perform Op.allocate (fun _ _ => mirrors_pure rfl)

theorem same_depoint (n : Node K V) :
    Same (id : Unit → Unit) (depoint n.id) (depoint (n.rename f).id) := by
  rw [Node.rename_id]
  exact mirrors_refl _

/-- What an access finds: a node without entries is read back as it was. -/
theorem same_found {loaded : Bool} {n : Node K V} (hag : Agree f bet bet')
    (hplain : loaded = true → n.size = 0) :
    Same (Node.rename f) (n.found bet loaded) ((n.rename f).found bet' loaded) := by
  unfold Node.found
  refine mirrors_ite Iff.rfl (fun hl => ?_) (fun _ => mirrors_pure rfl)
  rw [hag.reload n (hplain hl)]
  cases bet.reload n with
  | none => exact Mirrors.stop _
  | some m => exact mirrors_pure rfl

/-- What is done to a node between pinning it and removing the pin. -/
theorem same_deref {α β : Type} {g : α → β} {dirty : Bool} {n : Node K V}
    {body : Node K V → BProg (Node K V × α)} {body' : Node L V → BProg (Node L V × β)}
    (hag : Agree f bet bet')
    (hbody : ∀ m, Same (Prod.map (Node.rename f) g) (body m) (body' (m.rename f))) :
    Same (Prod.map (Node.rename f) g) (n.deref bet dirty body)
      ((n.rename f).deref bet' dirty body') := by
  unfold Node.deref pin access unpin
  rw [Node.rename_id, Node.rename_size, Node.rename_children]
  refine mirrors_perform (Op.pin n.id) (fun _ _ => ?_)
  refine mirrors_perform (Op.access n.id dirty n.size n.children) (fun loaded hplain => ?_)
  refine (same_found hag hplain).bind (fun m => (hbody m).bind (fun ⟨m, a⟩ => ?_))
  show Same _ (Prog.perform (Op.unpin m.id m.children) >>= _)
    (Prog.perform (Op.unpin (m.rename f).id (m.rename f).children) >>= _)
  rw [Node.rename_id, Node.rename_children]
  exact mirrors_perform (Op.unpin m.id m.children) (fun _ _ => mirrors_pure rfl)

theorem same_derefSize (hag : Agree f bet bet') (n : Node K V) :
    Same (Prod.map (Node.rename f) id) (n.derefSize bet) ((n.rename f).derefSize bet') := by
  unfold Node.derefSize
  refine same_deref hag (fun m => same_deref hag (fun m' => mirrors_pure ?_))
  rw [Node.rename_size]
  rfl

theorem same_refreshSizes (hag : Agree f bet bet') (ps : PivotMap K V) :
    Same (renamePivots f) (Node.refreshSizes bet ps)
      (Node.refreshSizes bet' (renamePivots f ps)) := by
  induction ps with
  | nil => exact mirrors_pure rfl
  | cons e ps ih =>
      obtain ⟨k, ⟨n, size⟩⟩ := e
      refine (same_derefSize hag n).bind (fun ⟨n, size⟩ => ?_)
      exact ih.bind (fun ps => mirrors_pure rfl)

end Deref

/-- Where the loops of `split` stand, over the other keys. -/
def SplitState.rename (f : K → L) (st : Node.SplitState K V) : Node.SplitState L V :=
  ⟨renamePivots f st.pivotIdx, renameMessages f st.eltIdx, st.thingsMoved⟩

section Keys

variable [LT K] [DecidableLT K] [BEq K] [LT L] [DecidableLT L] [BEq L] {f : K → L}
variable {bet : Params K V} {bet' : Params L V} (hf : Embeds f) (hag : Agree f bet bet')

include hf hag

/-! ## Splitting -/

theorem same_putPivot (n : Node K V) (e : K × ChildInfo (Node K V)) :
    Same (Node.rename f) (n.putPivot bet e) ((n.rename f).putPivot bet' (renameEntry f e)) := by
  obtain ⟨k, c⟩ := e
  unfold Node.putPivot
  refine Mirrors.bind (g := Prod.map (Node.rename f) id) (same_deref hag (fun m => mirrors_pure ?_))
    (fun r => mirrors_pure rfl)
  show (Node.rename f _, ()) = _
  rw [Node.rename_withPivots, ← assign_pivots hf, Node.rename_pivots]
  rfl

theorem same_putElement (n : Node K V) (e : MessageKey K × Message V) :
    Same (Node.rename f) (n.putElement bet e) ((n.rename f).putElement bet' (renameMessage f e)) := by
  unfold Node.putElement
  refine Mirrors.bind (g := Prod.map (Node.rename f) id) (same_deref hag (fun m => mirrors_pure ?_))
    (fun r => mirrors_pure rfl)
  show (Node.rename f _, ()) = _
  rw [Node.rename_withElements, ← Node.assign_messages hf, Node.rename_elements]
  rfl

theorem same_putElements (es : MessageMap K V) (n : Node K V) :
    Same (Node.rename f) (Node.putElements bet es n)
      (Node.putElements bet' (renameMessages f es) (n.rename f)) := by
  induction es generalizing n with
  | nil => exact mirrors_pure rfl
  | cons e es ih => exact (same_putElement hf hag n e).bind ih

theorem same_fillElements (leaf : Bool) (target : Nat) (es : MessageMap K V) (moved : Nat)
    (n : Node K V) :
    Same (Prod.map (SplitState.rename f) (Node.rename f))
      (Node.fillElements bet leaf target es moved n)
      (Node.fillElements bet' leaf target (renameMessages f es) moved (n.rename f)) := by
  induction es generalizing moved n with
  | nil => exact mirrors_pure rfl
  | cons e es ih =>
      refine mirrors_ite Iff.rfl (fun _ => ?_) (fun _ => mirrors_pure rfl)
      refine mirrors_require rfl ?_
      exact (same_putElement hf hag n e).bind (ih (moved + 1))

theorem same_fill (this : Node K V) (target : Nat) (ps : PivotMap K V) (es : MessageMap K V)
    (moved : Nat) (n : Node K V) :
    Same (Prod.map (SplitState.rename f) (Node.rename f))
      (Node.fill bet this target ps es moved n)
      (Node.fill bet' (this.rename f) target (renamePivots f ps) (renameMessages f es) moved
        (n.rename f)) := by
  induction ps generalizing es moved n with
  | nil =>
      show Same _ (Node.fillElements bet this.isLeaf target es moved n)
        (Node.fillElements bet' (this.rename f).isLeaf target (renameMessages f es) moved (n.rename f))
      rw [Node.rename_isLeaf]
      exact same_fillElements hf hag this.isLeaf target es moved n
  | cons e ps ih =>
      refine mirrors_ite Iff.rfl (fun _ => ?_) (fun _ => mirrors_pure rfl)
      refine (same_putPivot hf hag n e).bind (fun n => ?_)
      dsimp only
      rw [Node.rename_elements, head_pivots, Node.getElementBeginAt_rename hf, range_messages,
        length_messages, drop_messages]
      exact (same_putElements hf hag _ n).bind (ih _ _)

omit [LT K] [DecidableLT K] [BEq K] [LT L] [DecidableLT L] [BEq L] hf hag in
theorem splitKey_rename (st : Node.SplitState K V) :
    Node.splitKey (SplitState.rename f st) = (Node.splitKey st).map f := by
  obtain ⟨ps, es, moved⟩ := st
  cases ps with
  | nil => cases es <;> rfl
  | cons e ps => cases e; rfl

theorem same_enterResult (result : PivotMap K V) (k : K) (n : Node K V) :
    Same (Prod.map (Node.rename f) id) (Node.enterResult bet result k n)
      (Node.enterResult bet' (renamePivots f result) (f k) (n.rename f)) := by
  unfold Node.enterResult
  refine same_deref hag (fun m => same_deref hag (fun m => ?_))
  rw [find_pivots hf]
  cases OrdMap.find result k with
  | none => exact mirrors_pure (by rw [Node.rename_size]; rfl)
  | some old =>
      show Same _ (depoint old.2.child.id >>= fun _ => pure (m, m.size))
        (depoint (renameChild f old.2).child.id >>= fun _ => pure (m.rename f, (m.rename f).size))
      rw [renameChild_child, Node.rename_id, Node.rename_size]
      exact mirrors_perform (Op.depoint old.2.child.id) (fun _ _ => mirrors_pure rfl)

theorem same_splitLoop (this : Node K V) (things left i : Nat) (st : Node.SplitState K V)
    (result : PivotMap K V) :
    Same (Prod.map (SplitState.rename f) (renamePivots f))
      (Node.splitLoop bet this things left i st result)
      (Node.splitLoop bet' (this.rename f) things left i (SplitState.rename f st)
        (renamePivots f result)) := by
  induction left generalizing i st result with
  | zero => exact mirrors_pure rfl
  | succ left ih =>
      unfold Node.splitLoop
      rw [splitKey_rename]
      cases Node.splitKey st with
      | none => exact mirrors_pure rfl
      | some k =>
          refine (same_allocate f).bind (fun n => ?_)
          refine (same_enterResult hf hag result k n).bind (fun ⟨n, size⟩ => ?_)
          refine (same_fill hf hag this _ st.pivotIdx st.eltIdx st.thingsMoved n).bind
            (fun ⟨st, n⟩ => ?_)
          have h := ih (i + 1) st (OrdMap.assign result k ⟨n, size⟩)
          rw [← assign_pivots hf] at h
          exact h

theorem same_split (this : Node K V) :
    Same (Prod.map (Node.rename f) (renamePivots f)) (this.split bet)
      ((this.rename f).split bet') := by
  have hcounts : (Node.splitCounts bet' this.size : BProg (Nat × Nat))
      = Node.splitCounts bet this.size := by
    unfold Node.splitCounts
    rw [hag.maxNodeSize]
  unfold Node.split
  rw [Node.rename_size, Node.rename_pivots, Node.rename_elements, hag.maxNodeSize, hcounts]
  refine mirrors_require rfl ?_
  refine (mirrors_refl (Node.splitCounts bet this.size)).bind (fun ⟨leaves, things⟩ => ?_)
  have hloop := same_splitLoop hf hag this things leaves 0 ⟨this.pivots, this.elements, 0⟩ []
  refine Mirrors.bind hloop (fun ⟨st, result⟩ => ?_)
  refine (same_refreshSizes hag result).bind (fun result => ?_)
  refine mirrors_require (by rw [← isEmpty_pivots f]; rfl) ?_
  refine mirrors_require (by rw [← isEmpty_messages f]; rfl) ?_
  exact mirrors_pure (by cases this; rfl)

/-! ## Flushing -/

omit hag in
theorem same_insertChildren (ps qs : PivotMap K V) :
    Same (renamePivots f) (Node.insertChildren ps qs)
      (Node.insertChildren (renamePivots f ps) (renamePivots f qs)) := by
  unfold Node.insertChildren
  refine mirrors_require ?_ (mirrors_pure (insertAll_pivots hf ps qs).symm)
  rw [renamePivots_eq f qs, List.all_map]
  congr
  funext e
  show (OrdMap.find (renamePivots f ps) (f e.1)).isNone = _
  rw [find_pivots hf, Option.isNone_map]

omit [DecidableLT K] [DecidableLT L] hag in
theorem same_writeFirstSize (ps : PivotMap K V) (first : Option K) (size : Nat) :
    Same (renamePivots f) (Node.writeFirstSize ps first size)
      (Node.writeFirstSize (renamePivots f ps) (first.map f) size) := by
  unfold Node.writeFirstSize
  cases first with
  | some k => exact mirrors_pure (setChildSize_rename hf ps k size).symm
  | none => exact Mirrors.stop _

omit [LT K] [DecidableLT K] [BEq K] [LT L] [DecidableLT L] [BEq L] hf in
theorem same_worthFlushing (maxSize : Nat) (c : OrdMap.Cursor K (ChildInfo (Node K V))) :
    Same id (Node.worthFlushing bet isInMemory maxSize c.val.child.id)
      (Node.worthFlushing bet' isInMemory maxSize (renameCursor f c).val.child.id) := by
  have hchild : (renameCursor f c).val.child.id = c.val.child.id := by
    rw [show (renameCursor f c).val.child = c.val.child.rename f from renameChild_child f c.val,
      Node.rename_id]
  unfold Node.worthFlushing
  rw [hag.minFlushSize, hchild]
  exact mirrors_refl _

section Children

variable {fc : Node K V → MessageMap K V → BProg (Node K V × PivotMap K V)}
variable {fc' : Node L V → MessageMap L V → BProg (Node L V × PivotMap L V)}
variable (hfc : ∀ n elts, Same (Prod.map (Node.rename f) (renamePivots f)) (fc n elts)
  (fc' (n.rename f) (renameMessages f elts)))

include hfc

omit [LT K] [DecidableLT K] [BEq K] [LT L] [DecidableLT L] [BEq L] hf in
theorem same_flushChild (c : OrdMap.Cursor K (ChildInfo (Node K V))) (elts : MessageMap K V) :
    Same (Prod.map (Node.rename f) (renamePivots f)) (c.val.child.deref bet true (fc · elts))
      ((renameCursor f c).val.child.deref bet' true (fc' · (renameMessages f elts))) := by
  rw [show (renameCursor f c).val.child = c.val.child.rename f from renameChild_child f c.val]
  exact same_deref hag (fun m => hfc m elts)

theorem same_flushDirty (n : Node K V) (first : OrdMap.Cursor K (ChildInfo (Node K V)))
    (elts : MessageMap K V) :
    Same (Node.rename f) (n.flushDirty bet fc first elts)
      ((n.rename f).flushDirty bet' fc' (renameCursor f first) (renameMessages f elts)) := by
  obtain ⟨nid, ps, es⟩ := n
  rw [Node.rename_mk]
  unfold Node.flushDirty Node.assertUnbuffered
  dsimp only
  rw [Node.cursorBegin_rename hf, Node.cursorEnd_rename hf]
  refine mirrors_require (by rw [length_messages, length_messages]) ?_
  refine (same_flushChild hag hfc first elts).bind (fun ⟨child, newChildren⟩ => ?_)
  refine mirrors_ite (isEmpty_pivots_iff f newChildren) (fun _ => ?_) (fun _ => ?_)
  · refine (same_derefSize hag child).bind (fun ⟨child, size⟩ => mirrors_pure ?_)
    rw [Node.rename_mk, ← set_cursor]
    rfl
  · refine Mirrors.bind (same_depoint child) (fun _ => ?_)
    rw [erase_cursor]
    exact (same_insertChildren hf first.erase newChildren).bind (fun ps => mirrors_pure rfl)

theorem same_flushRound (n : Node K V) (c : OrdMap.Cursor K (ChildInfo (Node K V)))
    (first : Option K) :
    Same (Prod.map (Node.rename f) (Option.map f)) (n.flushRound bet fc c first)
      ((n.rename f).flushRound bet' fc' (renameCursor f c) (first.map f)) := by
  obtain ⟨nid, ps, es⟩ := n
  rw [Node.rename_mk]
  unfold Node.flushRound Node.childElts Node.otherElts
  dsimp only
  rw [Node.cursorBegin_rename hf, Node.cursorEnd_rename hf, range_messages, eraseRange_messages]
  refine (same_flushChild hag hfc c _).bind (fun ⟨child, newChildren⟩ => ?_)
  refine mirrors_ite (isEmpty_pivots_iff f newChildren) (fun _ => ?_) (fun _ => ?_)
  · refine (same_derefSize hag child).bind (fun ⟨child, size⟩ => ?_)
    have hwrite := same_writeFirstSize hf (c.set { c.val with child := child }) first size
    rw [← setChild_cursor] at hwrite
    exact hwrite.bind (fun ps => mirrors_pure rfl)
  · refine Mirrors.bind (same_depoint child) (fun _ => ?_)
    rw [erase_cursor]
    refine (same_insertChildren hf c.erase newChildren).bind (fun ps => mirrors_pure ?_)
    exact congrArg _ (filter_keys hf c.key first).symm

theorem same_flushLoop (fuel : Nat) (n : Node K V) (first : Option K) :
    Same (Node.rename f) (Node.flushLoop bet fc fuel n first)
      (Node.flushLoop bet' fc' fuel (n.rename f) (first.map f)) := by
  induction fuel generalizing n first with
  | zero => exact Mirrors.stop _
  | succ fuel ih =>
      unfold Node.flushLoop
      rw [Node.rename_size, hag.maxNodeSize, Node.rename_pivots, Node.rename_elements]
      refine mirrors_ite Iff.rfl (fun _ => ?_) (fun _ => mirrors_pure rfl)
      cases hps : n.pivots with
      | nil => exact mirrors_pure rfl
      | cons e rest =>
          obtain ⟨k, child⟩ := e
          have hps' : renamePivots f ((k, child) :: rest)
              = (f k, renameChild f child) :: renamePivots f rest := rfl
          have hcursor : (⟨[], f k, renameChild f child, renamePivots f rest⟩ :
              OrdMap.Cursor L (ChildInfo (Node L V))) = renameCursor f ⟨[], k, child, rest⟩ := by
            rw [renamePivots_eq]
            rfl
          have hlargest := largestChild_rename hf n.elements [] ((k, child) :: rest)
            (⟨[], k, child, rest⟩, 0)
          rw [hps'] at hlargest ⊢
          dsimp only
          rw [hcursor]
          rw [show Node.largestChild (renameMessages f n.elements) [] _
            (renameCursor f ⟨[], k, child, rest⟩, 0) = _ from hlargest]
          generalize Node.largestChild n.elements [] ((k, child) :: rest)
            (⟨[], k, child, rest⟩, 0) = best
          obtain ⟨c, maxSize⟩ := best
          refine Mirrors.bind (same_worthFlushing hag maxSize c) (fun worth => ?_)
          refine mirrors_ite Iff.rfl (fun _ => ?_) (fun _ => mirrors_pure rfl)
          exact (same_flushRound hf hag hfc n c first).bind (fun ⟨n, first⟩ => ih n first)

end Children

section Add

variable [Add V]

omit [LT K] [DecidableLT K] [BEq K] [LT L] [DecidableLT L] [BEq L] [Add V] hf hag in
theorem same_goesToDirtyChild (first last : OrdMap.Cursor K (ChildInfo (Node K V))) :
    Same (id : Bool → Bool) (Node.goesToDirtyChild isDirty first last)
      (Node.goesToDirtyChild isDirty (renameCursor f first) (renameCursor f last)) := by
  unfold Node.goesToDirtyChild
  rw [show (renameCursor f first).val.child = first.val.child.rename f from renameChild_child f _,
    Node.rename_id]
  refine mirrors_ite ?_ (fun _ => mirrors_refl _) (fun _ => mirrors_pure rfl)
  show (first.before.map _).length = (last.before.map _).length ↔ _
  rw [List.length_map, List.length_map]

theorem same_flushInner {fc : Node K V → MessageMap K V → BProg (Node K V × PivotMap K V)}
    {fc' : Node L V → MessageMap L V → BProg (Node L V × PivotMap L V)}
    (hfc : ∀ n elts, Same (Prod.map (Node.rename f) (renamePivots f)) (fc n elts)
      (fc' (n.rename f) (renameMessages f elts)))
    (this : Node K V) (newmin newmax : K) (elts : MessageMap K V) :
    Same (Prod.map (Node.rename f) (renamePivots f))
      (Node.flushInner bet fc this newmin newmax elts)
      (Node.flushInner bet' fc' (this.rename f) (f newmin) (f newmax) (renameMessages f elts)) := by
  unfold Node.flushInner
  rw [lowerFirstPivot_rename hf]
  generalize this.lowerFirstPivot elts = n
  dsimp only
  rw [Node.rename_pivots, getPivot_pivots hf, getPivot_pivots hf, Node.applyAll_rename hf,
    Node.rename_elements, length_messages, hag.defaultValue, hag.maxNodeSize]
  refine (mirrors_ofExcept rfl).bind (fun first => ?_)
  refine (mirrors_ofExcept rfl).bind (fun last => ?_)
  refine (same_goesToDirtyChild first last).bind (fun toDirty => ?_)
  refine mirrors_ite Iff.rfl (fun _ => ?_) (fun _ => ?_)
  · exact (same_flushDirty hf hag hfc n first elts).bind (fun n => mirrors_pure rfl)
  · refine (same_flushLoop hf hag hfc _ _ (some first.key)).bind (fun n => ?_)
    rw [Node.rename_size]
    exact mirrors_ite Iff.rfl (fun _ => same_split hf hag n) (fun _ => mirrors_pure rfl)

/-- **A flush over the other keys.** -/
theorem same_flush (fuel : Nat) (n : Node K V) (elts : MessageMap K V) :
    Same (Prod.map (Node.rename f) (renamePivots f)) (n.flush bet fuel elts)
      ((n.rename f).flush bet' fuel (renameMessages f elts)) := by
  induction fuel generalizing n elts with
  | zero => exact Mirrors.stop _
  | succ fuel ih =>
      unfold Node.flush
      rw [show (renameMessages f elts).head? = elts.head?.map (renameMessage f) from List.head?_map,
        show (renameMessages f elts).getLast? = elts.getLast?.map (renameMessage f) from
          List.getLast?_map]
      cases elts.head? with
      | none => exact mirrors_pure rfl
      | some lo =>
          cases elts.getLast? with
          | none => exact mirrors_pure rfl
          | some hi =>
              dsimp only [Option.map_some]
              rw [Node.rename_isLeaf, Node.applyAll_rename hf, Node.rename_size, hag.maxNodeSize,
                hag.defaultValue]
              refine mirrors_ite Iff.rfl (fun _ => ?_) (fun _ => ?_)
              · exact mirrors_ite Iff.rfl (fun _ => same_split hf hag _) (fun _ => mirrors_pure rfl)
              · exact same_flushInner hf hag ih n lo.1.key hi.1.key elts

/-! ## Reading -/

omit [DecidableLT K] [DecidableLT L] hag in
theorem same_applyUpdates (k : K) (v : V) (es : MessageMap K V) :
    Same id (Node.applyUpdates k v es : BProg V) (Node.applyUpdates (f k) v (renameMessages f es)) := by
  induction es generalizing v with
  | nil => exact mirrors_pure rfl
  | cons e es ih =>
      refine mirrors_ite ?_ (fun _ => ?_) (fun _ => mirrors_pure rfl)
      · show (f e.1.key == f k) = true ↔ _
        rw [hf.beq]
      · exact mirrors_require rfl (ih (v + e.2.val))

omit [Add V] in
theorem same_queryChild {q : Node K V → BProg (Node K V × Option V)}
    {q' : Node L V → BProg (Node L V × Option V)}
    (hq : ∀ n, Same (Prod.map (Node.rename f) id) (q n) (q' (n.rename f))) (n : Node K V) (k : K) :
    Same (Prod.map (Node.rename f) id) (n.queryChild bet q k)
      ((n.rename f).queryChild bet' q' (f k)) := by
  unfold Node.queryChild
  rw [Node.rename_pivots, getPivot_pivots hf]
  cases Node.getPivot n.pivots k with
  | error e => cases e <;> first | exact mirrors_pure rfl | exact Mirrors.stop _
  | ok c =>
      show Same _ (c.val.child.deref bet false q >>= _)
        ((renameCursor f c).val.child.deref bet' false q' >>= _)
      rw [show (renameCursor f c).val.child = c.val.child.rename f from renameChild_child f c.val]
      refine (same_deref hag hq).bind (fun ⟨child, r⟩ => mirrors_pure ?_)
      exact congrArg (·, r) (setChild_rename n c child).symm

omit [Add V] hag in
theorem same_queryLeaf (n : Node K V) (k : K) :
    Same (Prod.map (Node.rename f) id) (n.queryLeaf k) ((n.rename f).queryLeaf (f k)) := by
  unfold Node.queryLeaf
  rw [Node.rename_elements,
    show OrdMap.lowerBound (renameMessages f n.elements) (MessageKey.rangeStart (f k)) = _
      from Node.getElementBegin_rename hf n.elements k]
  unfold Node.getElementBegin
  cases OrdMap.lowerBound n.elements (MessageKey.rangeStart k) with
  | nil => exact mirrors_pure rfl
  | cons e es =>
      refine mirrors_ite ?_ (fun _ => ?_) (fun _ => mirrors_pure rfl)
      · show (f e.1.key == f k) = true ↔ _
        rw [hf.beq]
      · exact mirrors_require rfl (mirrors_pure rfl)

theorem same_queryInner {q : Node K V → BProg (Node K V × Option V)}
    {q' : Node L V → BProg (Node L V × Option V)}
    (hq : ∀ n, Same (Prod.map (Node.rename f) id) (q n) (q' (n.rename f))) (n : Node K V) (k : K) :
    Same (Prod.map (Node.rename f) id) (n.queryInner bet q k)
      ((n.rename f).queryInner bet' q' (f k)) := by
  unfold Node.queryInner
  rw [Node.rename_elements, Node.getElementBegin_rename hf, hag.defaultValue]
  have hchild := same_queryChild hf hag hq n k
  have hupdates : ∀ (n : Node K V) (v : V) (es : MessageMap K V), Same (Prod.map (Node.rename f) id)
      (Node.applyUpdates k v es >>= fun v => pure (n, some v))
      (Node.applyUpdates (f k) v (renameMessages f es) >>= fun v => pure (n.rename f, some v)) :=
    fun n v es => (same_applyUpdates hf k v es).bind (fun v => mirrors_pure rfl)
  cases Node.getElementBegin n.elements k with
  | nil => exact hchild
  | cons e rest =>
      refine mirrors_ite (hf.lt k e.1.key) (fun _ => ?_) (fun _ => ?_)
      · refine hchild.bind (fun ⟨n, r⟩ => ?_)
        cases r with
        | none => exact mirrors_pure rfl
        | some v => exact hupdates n v (e :: rest)
      · have hop : (renameMessage f e).2.opcode = e.2.opcode := rfl
        rw [hop]
        cases e.2.opcode with
        | insert => exact hupdates n e.2.val rest
        | update => exact hchild.bind (fun ⟨n, r⟩ => hupdates n (r.getD bet.defaultValue) (e :: rest))
        | delete =>
            cases rest with
            | nil => exact mirrors_pure rfl
            | cons e' rest =>
                exact mirrors_ite (hf.lt k e'.1.key) (fun _ => mirrors_pure rfl)
                  (fun _ => hupdates n bet.defaultValue (e' :: rest))

theorem same_query (fuel : Nat) (k : K) (n : Node K V) :
    Same (Prod.map (Node.rename f) id) (Node.query bet fuel k n)
      (Node.query bet' fuel (f k) (n.rename f)) := by
  induction fuel generalizing n with
  | zero => exact Mirrors.stop _
  | succ fuel ih =>
      unfold Node.query
      rw [Node.rename_isLeaf]
      exact mirrors_ite Iff.rfl (fun _ => same_queryLeaf hf n k)
        (fun _ => same_queryInner hf hag ih n k)

end Add

omit [LT K] [DecidableLT K] [BEq K] [LT L] [DecidableLT L] [BEq L] hf in
theorem same_nextInChildren
    {next : Node K V → BProg (Node K V × Option (MessageKey K × Message V))}
    {next' : Node L V → BProg (Node L V × Option (MessageKey L × Message V))}
    (hnext : ∀ n, Same (Prod.map (Node.rename f) (Option.map (renameMessage f))) (next n)
      (next' (n.rename f))) (ps : PivotMap K V) :
    Same (Prod.map (renamePivots f) (Option.map (renameMessage f)))
      (Node.nextInChildren bet next ps) (Node.nextInChildren bet' next' (renamePivots f ps)) := by
  induction ps with
  | nil => exact mirrors_pure rfl
  | cons e rest ih =>
      obtain ⟨k, ⟨n, size⟩⟩ := e
      refine (same_deref hag hnext).bind (fun ⟨child, r⟩ => ?_)
      cases r with
      | some m => exact mirrors_pure rfl
      | none => exact ih.bind (fun ⟨rest, r⟩ => mirrors_pure rfl)

theorem same_getNextMessageFromChildren
    {next : Option (MessageKey K) → Node K V → BProg (Node K V × Option (MessageKey K × Message V))}
    {next' : Option (MessageKey L) → Node L V → BProg (Node L V × Option (MessageKey L × Message V))}
    (hnext : ∀ mkey n, Same (Prod.map (Node.rename f) (Option.map (renameMessage f))) (next mkey n)
      (next' (mkey.map (MessageKey.rename f)) (n.rename f)))
    (n : Node K V) (mkey : Option (MessageKey K)) :
    Same (Prod.map (Node.rename f) (Option.map (renameMessage f)))
      (n.getNextMessageFromChildren bet next mkey)
      ((n.rename f).getNextMessageFromChildren bet' next' (mkey.map (MessageKey.rename f))) := by
  obtain ⟨nid, ps, es⟩ := n
  -- renaming keeps the order, so both sides take the same branch
  have hfilter : (mkey.map (MessageKey.rename f)).filter
        (fun m => !Node.belowFirstPivot (renamePivots f ps) m)
      = (mkey.filter (fun m => !Node.belowFirstPivot ps m)).map (MessageKey.rename f) := by
    cases mkey with
    | none => rfl
    | some m =>
        simp only [Option.map_some, Option.filter, belowFirstPivot_rename hf]
        split <;> rfl
  rw [Node.rename_mk]
  unfold Node.getNextMessageFromChildren
  dsimp only
  rw [hfilter]
  cases mkey.filter (fun m => !Node.belowFirstPivot ps m) with
  | none => exact (same_nextInChildren hag (hnext none) ps).bind (fun ⟨ps, r⟩ => mirrors_pure rfl)
  | some m =>
      dsimp only [Option.map_some]
      rw [show (m.rename f).key = f m.key from rfl, getPivot_pivots hf]
      cases Node.getPivot ps m.key with
      | error e => cases e <;> first | exact mirrors_pure rfl | exact Mirrors.stop _
      | ok c =>
          have hchildren := same_nextInChildren hag (hnext (some m)) ((c.key, c.val) :: c.after)
          rw [renamePivots_eq] at hchildren
          refine Mirrors.bind hchildren (fun ⟨ps, r⟩ => mirrors_pure ?_)
          have happ : renamePivots f (c.before ++ ps)
              = (renameCursor f c).before ++ renamePivots f ps := by
            rw [renamePivots_eq, renamePivots_eq, List.map_append]
            rfl
          show (Node.rename f ⟨nid, c.before ++ ps, es⟩, _) = _
          rw [Node.rename_mk, happ]
          rfl

theorem same_getNextMessage (fuel : Nat) (mkey : Option (MessageKey K)) (n : Node K V) :
    Same (Prod.map (Node.rename f) (Option.map (renameMessage f)))
      (Node.getNextMessage bet fuel mkey n)
      (Node.getNextMessage bet' fuel (mkey.map (MessageKey.rename f)) (n.rename f)) := by
  induction fuel generalizing mkey n with
  | zero => exact Mirrors.stop _
  | succ fuel ih =>
      have hhead : ∀ es : MessageMap K V,
          (renameMessages f es).head? = es.head?.map (renameMessage f) := fun _ => List.head?_map
      unfold Node.getNextMessage
      dsimp only
      rw [Node.rename_elements, elementsAfter_rename hf, Node.rename_isLeaf, hhead]
      refine mirrors_ite Iff.rfl (fun _ => mirrors_pure rfl) (fun _ => ?_)
      refine (same_getNextMessageFromChildren hf hag ih n mkey).bind (fun ⟨n, kids⟩ => mirrors_pure ?_)
      exact congrArg (n.rename f, ·) (earlierMessage_rename hf _ kids).symm

end Keys

/-! ## The tree -/

/-- The tree over the other keys. -/
def Betree.rename (f : K → L) (t : Betree K V) : Betree L V := ⟨t.root.rename f, t.nextTimestamp⟩

/-- The iterator over the other keys. -/
def Iterator.rename (f : K → L) (it : Iterator K V) : Iterator L V :=
  ⟨renameMessage f it.position, it.isValid, it.posIsValid, f it.first, it.second⟩

/-- An upsert under the other key. -/
def Upsert.rename (f : K → L) : Upsert K V → Upsert L V
  | .insert k v => .insert (f k) v
  | .update k v => .update (f k) v
  | .erase k => .erase (f k)

/-- The start of a scan over the other keys. -/
def Start.rename (f : K → L) : Start K → Start L
  | .first => .first
  | .lowerBound k => .lowerBound (f k)
  | .upperBound k => .upperBound (f k)

/-- An operation on the other keys. -/
def Cmd.rename (f : K → L) : Cmd K V → Cmd L V
  | .upsert u => .upsert (u.rename f)
  | .query k => .query (f k)
  | .scan start => .scan (start.rename f)
  | .evictAll => .evictAll

theorem Cmd.rename_rename {L' : Type} (f : K → L) (g : L → L') (c : Cmd K V) :
    (c.rename f).rename g = c.rename (g ∘ f) := by
  cases c with
  | upsert u => cases u <;> rfl
  | query k => rfl
  | scan start => cases start <;> rfl
  | evictAll => rfl

/-- A reply with the other keys. -/
def Reply.rename (f : K → L) : Reply K V → Reply L V
  | .done => .done
  | .value v => .value v
  | .entries es => .entries (es.map (Prod.map f id))

theorem same_create (f : K → L) : Same (Betree.rename f) (Betree.create : BProg (Betree K V))
    Betree.create :=
  (same_allocate f).bind (fun _ => mirrors_pure rfl)

theorem same_growRoot {f : K → L} {bet : Params K V} {bet' : Params L V} (hag : Agree f bet bet')
    (root : Node K V) (newNodes : PivotMap K V) :
    Same (Node.rename f) (Betree.growRoot bet root newNodes)
      (Betree.growRoot bet' (root.rename f) (renamePivots f newNodes)) := by
  unfold Betree.growRoot
  refine (same_allocate f).bind (fun n => ?_)
  refine Mirrors.bind (same_depoint root) (fun _ => ?_)
  refine Mirrors.bind (g := Prod.map (Node.rename f) id) (same_deref hag (fun m => mirrors_pure ?_))
    (fun r => mirrors_pure rfl)
  cases m
  rfl

section Tree

variable [LT K] [DecidableLT K] [BEq K] [LT L] [DecidableLT L] [BEq L] {f : K → L}
variable {bet : Params K V} {bet' : Params L V} (hf : Embeds f) (hag : Agree f bet bet')

include hf hag

theorem same_getNextMessage_tree (t : Betree K V) (mkey : Option (MessageKey K)) :
    Same (Prod.map (Betree.rename f) (Option.map (renameMessage f))) (t.getNextMessage bet mkey)
      ((t.rename f).getNextMessage bet' (mkey.map (MessageKey.rename f))) := by
  unfold Betree.getNextMessage
  rw [show (t.rename f).root = t.root.rename f from rfl, Node.height_rename]
  exact (same_deref hag (same_getNextMessage hf hag _ mkey)).bind (fun ⟨root, r⟩ => mirrors_pure rfl)

variable [Add V]

theorem same_upsert (t : Betree K V) (opcode : Opcode) (k : K) (v : V) :
    Same (Betree.rename f) (t.upsert bet opcode k v) ((t.rename f).upsert bet' opcode (f k) v) := by
  unfold Betree.upsert
  rw [show (t.rename f).root = t.root.rename f from rfl, Node.height_rename]
  refine Mirrors.bind (g := Prod.map (Node.rename f) (renamePivots f))
    (same_deref hag (fun m => ?_)) (fun ⟨root, newNodes⟩ => ?_)
  · exact same_flush hf hag (t.root.height + 1) m [(⟨k, t.nextTimestamp⟩, ⟨opcode, v⟩)]
  refine mirrors_ite (isEmpty_pivots_iff f newNodes) (fun _ => mirrors_pure rfl) (fun _ => ?_)
  exact (same_growRoot hag root newNodes).bind (fun n => mirrors_pure rfl)

theorem same_apply (t : Betree K V) (u : Upsert K V) :
    Same (Betree.rename f) (t.apply bet u) ((t.rename f).apply bet' (u.rename f)) := by
  cases u with
  | insert k v => exact same_upsert hf hag t .insert k v
  | update k v => exact same_upsert hf hag t .update k v
  | erase k =>
      show Same _ (t.upsert bet .delete k bet.defaultValue)
        ((t.rename f).upsert bet' .delete (f k) bet'.defaultValue)
      rw [hag.defaultValue]
      exact same_upsert hf hag t .delete k bet.defaultValue

theorem same_query_tree (t : Betree K V) (k : K) :
    Same (Prod.map (Betree.rename f) id) (t.query bet k) ((t.rename f).query bet' (f k)) := by
  unfold Betree.query
  rw [show (t.rename f).root = t.root.rename f from rfl, Node.height_rename]
  exact (same_deref hag (same_query hf hag _ k)).bind (fun ⟨root, r⟩ => mirrors_pure rfl)

/-! ## Scanning -/

section Scan

omit [LT K] [DecidableLT K] [BEq K] [LT L] [DecidableLT L] [BEq L] hf in
theorem iteratorApply_rename (it : Iterator K V) (mkey : MessageKey K) (msg : Message V) :
    (it.rename f).apply bet' (mkey.rename f) msg = (it.apply bet mkey msg).rename f := by
  unfold Iterator.apply
  rw [hag.defaultValue]
  cases msg.opcode <;> rfl

theorem same_setupLoop (fuel : Nat) (t : Betree K V) (it : Iterator K V) :
    Same (Prod.map (Betree.rename f) (Iterator.rename f)) (Iterator.setupLoop bet fuel t it)
      (Iterator.setupLoop bet' fuel (t.rename f) (it.rename f)) := by
  induction fuel generalizing t it with
  | zero => exact Mirrors.stop _
  | succ fuel ih =>
      unfold Iterator.setupLoop
      refine mirrors_ite ?_ (fun _ => ?_) (fun _ => mirrors_pure rfl)
      · show (it.posIsValid && (!it.isValid || f it.position.1.key == f it.first)) = true ↔ _
        rw [hf.beq]
      · dsimp only
        rw [show ((it.rename f).apply bet' (it.rename f).position.1 (it.rename f).position.2) = _
          from iteratorApply_rename hag it it.position.1 it.position.2]
        generalize it.apply bet it.position.1 it.position.2 = it
        refine (same_getNextMessage_tree hf hag t (some it.position.1)).bind (fun ⟨t, r⟩ => ?_)
        cases r with
        | some m => exact ih t { it with position := m }
        | none => exact ih t { it with posIsValid := false }

theorem same_setupNextElement (t : Betree K V) (it : Iterator K V) :
    Same (Prod.map (Betree.rename f) (Iterator.rename f)) (Iterator.setupNextElement bet t it)
      (Iterator.setupNextElement bet' (t.rename f) (it.rename f)) := by
  unfold Iterator.setupNextElement
  rw [show (t.rename f).root = t.root.rename f from rfl, Node.messages_rename, length_messages]
  exact same_setupLoop hf hag _ t { it with isValid := false }

variable [Inhabited K] [Inhabited L] [Inhabited V] (hd : f default = default)

include hd

omit [LT K] [DecidableLT K] [BEq K] [LT L] [DecidableLT L] [BEq L] hf hag [Add V] in
theorem finish_rename : (Iterator.finish : Iterator K V).rename f = Iterator.finish := by
  unfold Iterator.finish Iterator.rename
  dsimp only
  rw [hd]
  unfold renameMessage MessageKey.rename
  dsimp only [Prod.map]
  rw [hd]
  rfl

theorem same_start (t : Betree K V) (mkey : Option (MessageKey K)) :
    Same (Prod.map (Betree.rename f) (Iterator.rename f)) (Iterator.start bet t mkey)
      (Iterator.start bet' (t.rename f) (mkey.map (MessageKey.rename f))) := by
  unfold Iterator.start
  refine (same_getNextMessage_tree hf hag t mkey).bind (fun ⟨t, r⟩ => ?_)
  cases r with
  | some m =>
      dsimp only [Prod.map, Option.map_some]
      rw [← finish_rename hd]
      exact same_setupNextElement hf hag t { Iterator.finish with position := m, posIsValid := true }
  | none =>
      dsimp only [Prod.map, Option.map_none]
      rw [← finish_rename hd]
      exact mirrors_pure rfl

theorem same_startAt (t : Betree K V) (start : Start K) :
    Same (Prod.map (Betree.rename f) (Iterator.rename f)) (Iterator.startAt bet t start)
      (Iterator.startAt bet' (t.rename f) (start.rename f)) := by
  cases start with
  | first => exact same_start hf hag hd t none
  | lowerBound k => exact same_start hf hag hd t (some (MessageKey.rangeStart k))
  | upperBound k => exact same_start hf hag hd t (some (MessageKey.rangeEnd k))

variable [BEq V]

omit [DecidableLT K] [DecidableLT L] hag [Add V] in
theorem equal_finish_rename (it : Iterator K V) :
    (it.rename f).equal Iterator.finish = it.equal Iterator.finish := by
  rw [← finish_rename hd]
  unfold Iterator.equal Iterator.rename
  dsimp only
  rw [hf.beq, show ((renameMessage f it.position).1 ==
      (renameMessage f (Iterator.finish : Iterator K V).position).1) = _
    from hf.messages.beq it.position.1 (Iterator.finish : Iterator K V).position.1]
  rfl

theorem same_scanLoop (fuel : Nat) (t : Betree K V) (it : Iterator K V) :
    Same (Prod.map (Betree.rename f) (List.map (Prod.map f id))) (Iterator.scanLoop bet fuel t it)
      (Iterator.scanLoop bet' fuel (t.rename f) (it.rename f)) := by
  induction fuel generalizing t it with
  | zero => exact Mirrors.stop _
  | succ fuel ih =>
      unfold Iterator.scanLoop
      refine mirrors_ite ?_ (fun _ => mirrors_pure rfl) (fun _ => ?_)
      · rw [equal_finish_rename hf hd]
      · refine (same_setupNextElement hf hag t it).bind (fun ⟨t, next⟩ => ?_)
        exact (ih t next).bind (fun ⟨t, rest⟩ => mirrors_pure rfl)

theorem same_scan (t : Betree K V) (start : Start K) :
    Same (Prod.map (Betree.rename f) (List.map (Prod.map f id))) (Iterator.scan bet t start)
      (Iterator.scan bet' (t.rename f) (start.rename f)) := by
  unfold Iterator.scan
  refine (same_startAt hf hag hd t start).bind (fun ⟨t, it⟩ => ?_)
  have hlen : (t.rename f).root.messages.length = t.root.messages.length := by
    rw [show (t.rename f).root = t.root.rename f from rfl, Node.messages_rename, length_messages]
  show Same _ _ (Iterator.scanLoop bet' ((t.rename f).root.messages.length + 2) (t.rename f)
    (it.rename f))
  rw [hlen]
  exact same_scanLoop hf hag hd _ t it

/-! ## Sessions -/

theorem same_exec (t : Betree K V) (c : Cmd K V) :
    Same (Prod.map (Betree.rename f) (Reply.rename f)) (t.exec bet c)
      ((t.rename f).exec bet' (c.rename f)) := by
  cases c with
  | upsert u => exact (same_apply hf hag t u).bind (fun t => mirrors_pure rfl)
  | query k => exact (same_query_tree hf hag t k).bind (fun ⟨t, v⟩ => mirrors_pure rfl)
  | scan start => exact (same_scan hf hag hd t start).bind (fun ⟨t, es⟩ => mirrors_pure rfl)
  | evictAll => exact mirrors_perform Op.evictAll (fun _ _ => mirrors_pure rfl)

theorem same_execAll (t : Betree K V) (cs : List (Cmd K V)) :
    Same (Prod.map (Betree.rename f) (List.map (Reply.rename f))) (t.execAll bet cs)
      ((t.rename f).execAll bet' (cs.map (Cmd.rename f))) := by
  induction cs generalizing t with
  | nil => exact mirrors_pure rfl
  | cons c cs ih =>
      refine (same_exec hf hag hd t c).bind (fun ⟨t, r⟩ => ?_)
      exact (ih t).bind (fun ⟨t, rs⟩ => mirrors_pure rfl)

end Scan

end Tree

end BeTree
