import BeTree.Proof.Replace

/-!
# The flush, in parts

`flush` is made of the fast path to a single dirty child, the rounds of the flush loop, and what
is done when they are over. The functions here are those of the flush with such parts as
parameters, and each has one rule that says what has to be shown of its parts. `flush` itself is
one way to fill them in; a flush with more assertions, with a count of what it does, or without
the bounds is another.
-/

namespace BeTree

open Node

variable {K V : Type} [LinearOrder K] {fresh : Prop} {bet : Params K V} {h : Nat} {R : K → Prop}
  {n : Node K V}

/-! ## Putting the result of a flush in the place of a child -/

section Cursor

variable {c : OrdMap.Cursor K (ChildInfo (Node K V))} {ps news : PivotMap K V}

theorem spliced_set (hs : OrdMap.Sorted ps) (hc : c.toMap = ps) (v : ChildInfo (Node K V)) :
    Spliced ps c.key [(c.key, v)] (c.set v) := by
  rw [← hc] at hs
  refine ⟨OrdMap.Cursor.sorted_set hs, fun e => ?_⟩
  rw [OrdMap.Cursor.mem_set hs, hc, List.mem_singleton]

/-- New children never have the key of another child. -/
theorem key_ne_of_slot (hs : OrdMap.Sorted ps) (hc : c.toMap = ps)
    (hnews : ∀ e ∈ news, Slot ps c.key e.1) :
    ∀ x ∈ c.erase, ∀ y ∈ news, x.1 ≠ y.1 := by
  rw [← hc] at hs
  intro x hx y hy hxy
  obtain ⟨hx, hne⟩ := (OrdMap.Cursor.mem_erase hs).mp hx
  rw [hc] at hx
  have hcm : (c.key, c.val) ∈ ps := hc ▸ c.mem_toMap
  exact hne (Slot.unique hx hcm (slot_self ps x.1) (hxy ▸ hnews y hy))

theorem all_insertChildren {Q : PivotMap K V → Prop} {E : Fault → Prop}
    (hs : OrdMap.Sorted ps) (hc : c.toMap = ps)
    (hsn : OrdMap.Sorted news) (hnews : ∀ e ∈ news, Slot ps c.key e.1)
    (hQ : ∀ ps', Spliced ps c.key news ps' → Q ps') :
    Prog.All Q E (insertChildren c.erase news) := by
  have hne := key_ne_of_slot hs hc hnews
  have hs' : OrdMap.Sorted c.toMap := hc ▸ hs
  have herase := OrdMap.Cursor.sorted_erase hs'
  refine (Prog.all_require (R := fun _ => True) ?_ trivial).bind (fun _ _ => hQ _ ?_)
  · rw [List.all_eq_true]
    intro y hy
    rw [Option.isNone_iff_eq_none, Option.eq_none_iff_forall_ne_some]
    intro x hx
    obtain ⟨hxm, hxk⟩ := (OrdMap.find_eq_some herase).mp hx
    exact hne x hxm y hy hxk
  · obtain ⟨hsort, hmem⟩ := OrdMap.insertAll_spec herase hsn hne
    refine ⟨hsort, fun e => ?_⟩
    rw [hmem e, OrdMap.Cursor.mem_erase hs', hc]

/-- Beside the new children stand the other ones. -/
theorem Spliced.perm {ps' : PivotMap K V} (h : Spliced ps c.key news ps') (hs : OrdMap.Sorted ps)
    (hc : c.toMap = ps) (hsn : OrdMap.Sorted news) (hnews : ∀ e ∈ news, Slot ps c.key e.1) :
    ps'.Perm (c.erase ++ news) := by
  have hs' : OrdMap.Sorted c.toMap := hc ▸ hs
  have hnodup : (c.erase ++ news).Nodup := by
    refine List.nodup_append.mpr ⟨(OrdMap.Cursor.sorted_erase hs').nodup, hsn.nodup,
      fun x hx y hy hxy => ?_⟩
    exact key_ne_of_slot hs hc hnews x hx y hy (congrArg Prod.fst hxy)
  refine (List.perm_ext_iff_of_nodup h.sorted.nodup hnodup).mpr (fun e => ?_)
  rw [h.mem e, List.mem_append, OrdMap.Cursor.mem_erase hs', hc]

theorem Spliced.length {ps' : PivotMap K V} (h : Spliced ps c.key news ps')
    (hs : OrdMap.Sorted ps) (hc : c.toMap = ps) (hsn : OrdMap.Sorted news)
    (hnews : ∀ e ∈ news, Slot ps c.key e.1) : ps'.length + 1 = ps.length + news.length := by
  have hlen := (h.perm hs hc hsn hnews).length_eq
  rw [List.length_append] at hlen
  rw [hlen, ← hc, OrdMap.Cursor.toMap, OrdMap.Cursor.erase]
  simp only [List.length_append, List.length_cons]
  omega

end Cursor

/-- The range of a child holds its pivot, and nothing below it. -/
theorem Forest.slot_range {P : (K → Prop) → Node K V → Prop} {ps : PivotMap K V}
    {x : K × ChildInfo (Node K V)} (hf : Forest P R ps) (hx : x ∈ ps) :
    (R x.1 ∧ Slot ps x.1 x.1) ∧ ∀ k, R k ∧ Slot ps x.1 k → x.1 ≤ k :=
  ⟨⟨hf.range x hx, slot_self _ _⟩, fun _ hk => hk.2.1⟩

/-- No message lies between two iterators at the same place. -/
theorem none_in_slot {c : OrdMap.Cursor K (ChildInfo (Node K V))}
    (hes : OrdMap.Sorted n.elements) (hps : OrdMap.Sorted n.pivots) (hc : c.toMap = n.pivots)
    (heq : (getElementBeginAt n.elements (some c.key)).length
      = (getElementBeginAt n.elements c.nextKey).length) :
    ∀ e ∈ n.elements, ¬ Slot n.pivots c.key e.1.key := by
  have hdist := distance_slot (e := (c.key, c.val)) hes hps hc
  have hzero : slotCount n c.key = 0 := by
    rw [← hdist]
    exact Nat.sub_eq_zero_of_le (Nat.le_of_eq heq)
  intro e he hs
  rw [slotCount, List.length_eq_zero_iff, List.filter_eq_nil_iff] at hzero
  exact hzero e he (decide_eq_true hs)

theorem subtrees_setChildSize (ps : PivotMap K V) (k : K) (size : Nat) :
    subtrees (setChildSize ps k size) = subtrees ps := by
  rw [subtrees, subtrees, setChildSize, List.map_map]
  refine List.map_congr_left (fun e _ => ?_)
  rw [Function.comp_apply]
  split <;> rfl

/-- A round with messages to flush takes them out of the buffer. -/
theorem length_lt_of_slotCount {p : K} (hpos : 0 < slotCount n p) :
    (n.elements.filter (fun e => decide (¬ Slot n.pivots p e.1.key))).length
      < n.elements.length := by
  have hlen := List.length_eq_length_filter_add (l := n.elements)
    (fun e => decide (Slot n.pivots p e.1.key))
  have hnot : n.elements.filter (fun e => decide (¬ Slot n.pivots p e.1.key))
      = n.elements.filter (fun e => !decide (Slot n.pivots p e.1.key)) :=
    List.filter_congr (fun e _ => decide_not)
  rw [hnot]
  unfold slotCount at hpos
  omega

omit [LinearOrder K] in
/-- Only a set with messages in it is worth flushing, and only a small one is not. -/
theorem all_worthFlushing {maxSize id : Nat} {E : Fault → Prop} :
    Prog.All (fun r => (r = true → bet.minFlushSize / 2 < maxSize)
      ∧ (r = false → maxSize ≤ bet.minFlushSize)) E (worthFlushing bet isInMemory maxSize id) := by
  unfold worthFlushing
  split
  · rename_i hlt
    exact ⟨fun _ => by omega, fun hc => absurd hc.symm Bool.false_ne_true⟩
  · rename_i hle
    split
    · rename_i hlt
      exact fun _ => ⟨fun _ => hlt, fun _ => Nat.le_of_not_lt hle⟩
    · exact ⟨fun hc => absurd hc Bool.false_ne_true, fun _ => Nat.le_of_not_lt hle⟩

/-! ## Batches -/

omit [LinearOrder K] in
theorem Node.Newer.of_keysFrom {elts es es' : MessageMap K V} (hnew : Newer elts es')
    (hk : KeysFrom es es') : Newer elts es := by
  intro e he m hm hkey
  obtain ⟨m', hm', hmm⟩ := hk m hm
  rw [← hmm] at hkey ⊢
  exact hnew e he m' hm' hkey

/-- The keys of a batch lie between those of its first and its last message. -/
theorem Node.Batch.between {elts : MessageMap K V} {lo hi : MessageKey K × Message V} (hb : Batch fresh R elts)
    (hlo : elts.head? = some lo) (hhi : elts.getLast? = some hi) :
    ∀ e ∈ elts, lo.1.key ≤ e.1.key ∧ e.1.key ≤ hi.1.key := by
  have hmono : ∀ {a b : MessageKey K × Message V}, a.1 < b.1 → a.1.key ≤ b.1.key := by
    intro a b hab
    rcases MessageKey.lt_iff.mp hab with hlt | ⟨heq, _⟩
    · exact le_of_lt hlt
    · exact le_of_eq heq
  intro e he
  refine ⟨?_, ?_⟩
  · obtain ⟨rest, hrest⟩ := List.head?_eq_some_iff.mp hlo
    have hs := hb.sorted
    rw [hrest] at hs he
    rcases List.mem_cons.mp he with rfl | he
    · exact le_refl _
    · exact hmono ((OrdMap.sorted_cons.mp hs).1 e he)
  · obtain ⟨init, hinit⟩ := List.getLast?_eq_some_iff.mp hhi
    have hs := hb.sorted
    rw [hinit] at hs he
    rcases List.mem_append.mp he with he | he
    · exact hmono ((OrdMap.sorted_append.mp hs).2.2 e he hi List.mem_cons_self)
    · rw [List.mem_singleton.mp he]

omit [LinearOrder K] in
/-- Two cursors at the same place of a map stand on the same key. -/
theorem key_eq_of_place {C : Type} {c c' : OrdMap.Cursor K C} (h : c.toMap = c'.toMap)
    (hlen : c.before.length = c'.before.length) : c.key = c'.key := by
  obtain ⟨_, h'⟩ := List.append_inj h hlen
  injection h' with h' _
  injection h'

/--
Where a batch goes: the entries `get_pivot` gives for its first and its last key
exist, and if they are one entry then every message belongs to it.
-/
theorem getPivot_batch {elts : MessageMap K V} {lo hi : MessageKey K × Message V}
    {p : K × ChildInfo (Node K V)} (hs : OrdMap.Sorted n.pivots) (hb : Batch fresh R elts)
    (hlo : elts.head? = some lo) (hhi : elts.getLast? = some hi) (hp : p ∈ n.pivots)
    (hplo : p.1 ≤ lo.1.key) :
    ∃ first last, getPivot n.pivots lo.1.key = .ok first ∧ getPivot n.pivots hi.1.key = .ok last
      ∧ first.toMap = n.pivots
      ∧ (first.before.length = last.before.length →
        ∀ e ∈ elts, Slot n.pivots first.key e.1.key) := by
  have hbetween := hb.between hlo hhi
  obtain ⟨first, hfirst, hfmap, hfslot⟩ := getPivot_spec hs ⟨p, hp, hplo⟩
  obtain ⟨last, hlast, hlmap, hlslot⟩ := getPivot_spec hs
    ⟨p, hp, le_trans hplo (hbetween hi (List.mem_of_getLast? hhi)).1⟩
  refine ⟨first, last, hfirst, hlast, hfmap, fun hplace e he => ?_⟩
  have hkey := key_eq_of_place (hfmap.trans hlmap.symm) hplace
  obtain ⟨hle, hge⟩ := hbetween e he
  refine ⟨le_trans hfslot.1 hle, fun x hx hlt => ?_⟩
  exact lt_of_le_of_lt hge (hlslot.2 x hx (hkey ▸ hlt))

/-! ## The messages for one child -/

/-- The buffered messages for one child are a batch for it. -/
theorem Inner.slot_batch {P : (K → Prop) → Node K V → Prop} (hn : Inner fresh P R n) (p : K) :
    Batch fresh (fun k => R k ∧ Slot n.pivots p k)
      (n.elements.filter (fun e => decide (Slot n.pivots p e.1.key))) := by
  refine ⟨hn.buffer.sorted.filter _, fun e he => ?_, fun hf e he => ?_, fun e he => ?_⟩
  · exact hn.buffer.stamp e (List.mem_filter.mp he).1
  · exact hn.buffer.positive hf e (List.mem_filter.mp he).1
  · obtain ⟨hmem, hslot⟩ := List.mem_filter.mp he
    exact ⟨hn.buffer.range e hmem, of_decide_eq_true hslot⟩

/-- A batch that goes to one child is a batch for it. -/
theorem Node.Batch.slot {elts : MessageMap K V} {ps : PivotMap K V} {p : K} (hb : Batch fresh R elts)
    (hslot : ∀ e ∈ elts, Slot ps p e.1.key) : Batch fresh (fun k => R k ∧ Slot ps p k) elts :=
  ⟨hb.sorted, hb.stamp, hb.positive, fun e he => ⟨hb.range e he, hslot e he⟩⟩

/-- The messages of a node are those for one child and the others. -/
theorem length_elements_slot (n : Node K V) (p : K) :
    (n.elements.filter (fun e => decide (¬ Slot n.pivots p e.1.key))).length + slotCount n p
      = n.elements.length := by
  have hlen := List.length_eq_length_filter_add (l := n.elements)
    (fun e => decide (Slot n.pivots p e.1.key))
  have hnot : n.elements.filter (fun e => decide (¬ Slot n.pivots p e.1.key))
      = n.elements.filter (fun e => !decide (Slot n.pivots p e.1.key)) :=
    List.filter_congr (fun e _ => decide_not)
  rw [hnot, hlen, slotCount, Nat.add_comm]

/-! ## What becomes of a child that has been flushed -/

section Settle

variable {c : OrdMap.Cursor K (ChildInfo (Node K V))} {child : Node K V} {news : PivotMap K V}
  {E : Fault → Prop}

theorem all_settleDirty {Q : Node K V → Prop} (hr : ∀ n, bet.reload n = some n)
    (hwhole : news = [] → Q ⟨n.id, c.set ⟨child, child.size⟩, n.elements⟩)
    (hparts : news ≠ [] →
      Prog.All (fun ps => Q ⟨n.id, ps, n.elements⟩) E (insertChildren c.erase news)) :
    Prog.All Q E (n.settleDirty bet c child news) := by
  unfold settleDirty
  by_cases hnil : news = []
  · rw [if_pos (by rw [hnil]; rfl)]
    refine (all_derefSize hr).bind (fun r hsize => ?_)
    subst hsize
    exact hwhole hnil
  · rw [if_neg (by simpa using hnil)]
    exact fun _ => (hparts hnil).bind (fun ps hps => hps)

/-- A child that is not split has its size written under `first`, if `first` is still there. -/
theorem all_settleRound {Q : Node K V × Option K → Prop} {first : Option K} {es : MessageMap K V}
    (hr : ∀ n, bet.reload n = some n) (hE : E .erasedEntry)
    (hwhole : news = [] → ∀ k, first = some k →
      Q (⟨n.id, setChildSize (c.set { c.val with child := child }) k child.size, es⟩, first))
    (hparts : news ≠ [] → ∀ first', Prog.All (fun ps => Q (⟨n.id, ps, es⟩, first')) E
      (insertChildren c.erase news)) :
    Prog.All Q E (n.settleRound bet c first es child news) := by
  unfold settleRound
  by_cases hnil : news = []
  · rw [if_pos (by rw [hnil]; rfl)]
    refine (all_derefSize hr).bind (fun r hsize => ?_)
    subst hsize
    cases first with
    | none => exact hE
    | some k => exact hwhole hnil k rfl
  · rw [if_neg (by simpa using hnil)]
    exact fun _ => (hparts hnil _).bind (fun ps hps => hps)

/-- The iterators of a round delimit the slot of the child. -/
theorem childElts_eq (hes : OrdMap.Sorted n.elements) (hps : OrdMap.Sorted n.pivots)
    (hc : c.toMap = n.pivots) :
    n.childElts c = n.elements.filter (fun e => decide (Slot n.pivots c.key e.1.key)) := by
  have hsort : OrdMap.Sorted c.toMap := hc ▸ hps
  have hrange := range_slot (e := (c.key, c.val)) hes hsort
  rwa [show c.before ++ (c.key, c.val) :: c.after = n.pivots from hc] at hrange

theorem otherElts_eq (hes : OrdMap.Sorted n.elements) (hps : OrdMap.Sorted n.pivots)
    (hc : c.toMap = n.pivots) :
    n.otherElts c = n.elements.filter (fun e => decide (¬ Slot n.pivots c.key e.1.key)) := by
  have hsort : OrdMap.Sorted c.toMap := hc ▸ hps
  have herase := eraseRange_slot (e := (c.key, c.val)) hes hsort
  rwa [show c.before ++ (c.key, c.val) :: c.after = n.pivots from hc] at herase

theorem flushRound_eq {flushChild : Node K V → MessageMap K V → BProg (Node K V × PivotMap K V)}
    {first : Option K} (hes : OrdMap.Sorted n.elements) (hps : OrdMap.Sorted n.pivots)
    (hc : c.toMap = n.pivots) :
    n.flushRound bet flushChild c first = (do
      let (child, newChildren) ← c.val.child.deref bet true
        (flushChild · (n.elements.filter (fun e => decide (Slot n.pivots c.key e.1.key))))
      n.settleRound bet c first
        (n.elements.filter (fun e => decide (¬ Slot n.pivots c.key e.1.key))) child newChildren) := by
  rw [← childElts_eq hes hps hc, ← otherElts_eq hes hps hc]
  rfl

/-- The assert that nothing is buffered for the dirty child. -/
theorem all_assertUnbuffered (hes : OrdMap.Sorted n.elements) (hps : OrdMap.Sorted n.pivots)
    (hc : c.toMap = n.pivots) (hE : E (.assertion .dirtyChildBuffered)) :
    Prog.All (fun _ => ∀ e ∈ n.elements, ¬ Slot n.pivots c.key e.1.key) E
      (n.assertUnbuffered c : BProg Unit) := by
  refine (Prog.all_require_of _ hE).mono (fun _ heq => ?_)
  exact none_in_slot hes hps hc (beq_iff_eq.mp heq)

end Settle

/-! ## The flush loop -/

section Loop

variable {ρ β : Type} {Q : β → Prop} {E : Fault → Prop}
  {round : OrdMap.Cursor K (ChildInfo (Node K V)) → BProg ρ} {next : ρ → BProg β} {leave : β}

/-- One test of the flush loop: a `round` and what comes `next`, or the end. -/
def loopStep (bet : Params K V) (round : OrdMap.Cursor K (ChildInfo (Node K V)) → BProg ρ)
    (next : ρ → BProg β) (leave : β) (n : Node K V) : BProg β :=
  if bet.maxNodeSize ≤ n.size then
    match n.pivots with
    | [] => return leave
    | e :: rest => do
      let (c, maxSize) := largestChild n.elements [] n.pivots (⟨[], e.1, e.2, rest⟩, 0)
      if ← worthFlushing bet isInMemory maxSize c.val.child.id then do
        next (← round c)
      else return leave
  else return leave

/-- What has to be shown of a round, and of the ways to leave the loop. -/
theorem all_loopStep_of
    (hround : ∀ e rest c m, n.pivots = e :: rest →
      largestChild n.elements [] n.pivots (⟨[], e.1, e.2, rest⟩, 0) = (c, m) →
      bet.minFlushSize / 2 < m → Prog.All (fun r => Prog.All Q E (next r)) E (round c))
    (hbreak : ∀ e rest c m, n.pivots = e :: rest →
      largestChild n.elements [] n.pivots (⟨[], e.1, e.2, rest⟩, 0) = (c, m) →
      m ≤ bet.minFlushSize → Q leave)
    (hleave : n.size < bet.maxNodeSize ∨ n.pivots = [] → Q leave) :
    Prog.All Q E (loopStep bet round next leave n) := by
  unfold loopStep
  split
  · split
    · rename_i hp
      exact hleave (Or.inr hp)
    · rename_i e rest hp
      rcases hl : largestChild n.elements [] n.pivots (⟨[], e.1, e.2, rest⟩, 0) with ⟨c, m⟩
      dsimp only
      have hasked : Prog.All (fun r => (r = true → bet.minFlushSize / 2 < m)
          ∧ (r = false → m ≤ bet.minFlushSize)) E
          (worthFlushing bet isInMemory m c.val.child.id) := all_worthFlushing
      refine hasked.bind (fun worth hworth => ?_)
      cases worth with
      | false => exact hbreak e rest c m hp hl (hworth.2 rfl)
      | true => exact Prog.all_bind_iff.mpr (hround e rest c m hp hl (hworth.1 rfl))
  · rename_i hlt
    exact hleave (Or.inl (Nat.lt_of_not_le hlt))

/--
**A test of the loop**, in a node with its maps in order: a round flushes a child with messages
to flush, and in a node that is left too large no child has many.
-/
theorem all_loopStep (hes : OrdMap.Sorted n.elements) (hps : OrdMap.Sorted n.pivots)
    (hround : ∀ c, c.toMap = n.pivots → bet.minFlushSize / 2 < slotCount n c.key →
      Prog.All (fun r => Prog.All Q E (next r)) E (round c))
    (hleave : (bet.maxNodeSize < n.size →
      ∀ p ∈ n.pivots, slotCount n p.1 % 2 ^ 32 ≤ bet.minFlushSize) → Q leave) :
    Prog.All Q E (loopStep bet round next leave n) := by
  refine all_loopStep_of (fun e rest c m hp hl hm => ?_) (fun e rest c m hp hl hm => ?_)
    (fun hend => hleave (fun hlt p hpm => ?_))
  · have hbest := (largestChild_best hes hps hp).1
    rw [hl] at hbest
    refine hround c hbest.toMap ?_
    rcases hbest.count with hz | hcount
    · have hz : m = 0 := hz
      omega
    · have hcount : m = slotCount n c.key % 2 ^ 32 := hcount
      have := Nat.mod_le (slotCount n c.key) (2 ^ 32)
      omega
  · -- the largest set is not worth flushing, so none is
    have hmax := (largestChild_best hes hps hp).2
    rw [hl] at hmax
    exact hleave (fun _ p hpm => Nat.le_trans (hmax p hpm) hm)
  · rcases hend with hend | hend
    · exact absurd (Nat.le_of_lt hlt) (Nat.not_le_of_lt hend)
    · rw [hend] at hpm
      exact absurd hpm List.not_mem_nil

end Loop

/-! ## An inner node -/

section Inner

variable [Add V] {β γ : Type} {Q : β → Prop} {E : Fault → Prop} {elts : MessageMap K V}
  {dirty : Node K V → OrdMap.Cursor K (ChildInfo (Node K V)) → BProg β}
  {loop : Node K V → Option K → BProg γ} {finish : γ → BProg β}

/-- `flush` on an inner node, with its fast path, its loop, and what is done after the loop. -/
def innerWith (bet : Params K V)
    (dirty : Node K V → OrdMap.Cursor K (ChildInfo (Node K V)) → BProg β)
    (loop : Node K V → Option K → BProg γ) (finish : γ → BProg β) (this : Node K V)
    (newmin newmax : K) (elts : MessageMap K V) : BProg β := do
  let n := this.lowerFirstPivot elts
  let first ← Prog.ofExcept (getPivot n.pivots newmin)
  let last ← Prog.ofExcept (getPivot n.pivots newmax)
  if ← goesToDirtyChild isDirty first last then dirty n first
  else do
    finish (← loop (n.applyAll elts bet.defaultValue) (some first.key))

theorem all_innerWith_of {newmin newmax : K} {first last : OrdMap.Cursor K (ChildInfo (Node K V))}
    (hfirst : getPivot (n.lowerFirstPivot elts).pivots newmin = .ok first)
    (hlast : getPivot (n.lowerFirstPivot elts).pivots newmax = .ok last)
    (hdirty : first.before.length = last.before.length →
      Prog.All Q E (dirty (n.lowerFirstPivot elts) first))
    (hloop : Prog.All (fun r => Prog.All Q E (finish r)) E
      (loop ((n.lowerFirstPivot elts).applyAll elts bet.defaultValue) (some first.key))) :
    Prog.All Q E (innerWith bet dirty loop finish n newmin newmax elts) := by
  have hgoes : Prog.All (fun b => b = true → first.before.length = last.before.length) E
      (goesToDirtyChild isDirty first last) := by
    unfold goesToDirtyChild
    split
    · rename_i heq
      exact fun _ _ => heq
    · exact fun hc => absurd hc Bool.false_ne_true
  unfold innerWith
  dsimp only
  rw [hfirst, hlast]
  refine hgoes.bind (fun toDirty hplace => ?_)
  cases toDirty with
  | true => exact hdirty (hplace rfl)
  | false => exact Prog.all_bind_iff.mpr hloop

/--
**A batch into an inner node.** The children are looked up below a first pivot that is low
enough; the fast path is taken when all messages go to one child.
-/
theorem all_innerWith {lo hi : MessageKey K × Message V} (hn : Inv fresh (h + 1) R n)
    (hb : Batch fresh R elts) (hnew : fresh → Newer elts n.messages)
    (hlo : elts.head? = some lo) (hhi : elts.getLast? = some hi)
    (hdirty : ∀ first n₁, n₁ = n.lowerFirstPivot elts → Represents fresh bet.defaultValue (h + 1) R
        n.messages (value bet.defaultValue (h + 1) n) n₁ →
      first.toMap = n₁.pivots → (∀ e ∈ elts, Slot n₁.pivots first.key e.1.key) →
      (fresh → ∀ p ∈ n₁.pivots, Newer elts p.2.child.messages) → Prog.All Q E (dirty n₁ first))
    (hloop : ∀ first n₂, n₂ = (n.lowerFirstPivot elts).applyAll elts bet.defaultValue →
      Represents fresh bet.defaultValue (h + 1) R (n.messages ++ elts)
        (fun k => effect bet.defaultValue elts k (value bet.defaultValue (h + 1) n k)) n₂ →
      Prog.All (fun r => Prog.All Q E (finish r)) E (loop n₂ (some first))) :
    Prog.All Q E (innerWith bet dirty loop finish n lo.1.key hi.1.key elts) := by
  have hself : Represents fresh bet.defaultValue (h + 1) R n.messages
      (value bet.defaultValue (h + 1) n) n :=
    represents_self hn
  obtain ⟨rest, helts⟩ := List.head?_eq_some_iff.mp hlo
  obtain ⟨hn₁, p, hp, hplo⟩ := hself.lowerFirstPivot rest (hb.range lo (List.mem_of_head? hlo))
  rw [← helts] at hn₁ hp
  have hinner : Inner fresh (Inv fresh h) R (n.lowerFirstPivot elts) := hn₁.inv
  have hnew₁ : fresh → Newer elts (n.lowerFirstPivot elts).messages :=
    fun hf => (hnew hf).of_keysFrom hn₁.messages
  obtain ⟨first, last, hfirst, hlast, hfmap, hslot⟩ :=
    getPivot_batch hinner.forest.sorted hb hlo hhi hp hplo
  refine all_innerWith_of hfirst hlast (fun hplace => ?_) (hloop first.key _ rfl ?_)
  · refine hdirty first _ rfl hn₁ hfmap (hslot hplace) (fun hf q hq e he m hm => ?_)
    exact hnew₁ hf e he m (mem_messages.mpr (Or.inr ⟨q, hq, hm⟩))
  · exact hn₁.applyAll hb hnew₁ (fun e he => ⟨p, hp, le_trans hplo (hb.between hlo hhi e he).1⟩)

end Inner

/-! ## `flush` -/

section Whole

variable [Add V] {β : Type} {Q : β → Prop} {E : Fault → Prop} {elts : MessageMap K V}
  {leaf : Node K V → BProg β} {inner : K → K → BProg β} {unchanged : β}

/-- `flush`, with what is done to a leaf that has the batch, and the flush of an inner node. -/
def flushWith (bet : Params K V) (leaf : Node K V → BProg β) (inner : K → K → BProg β)
    (unchanged : β) (n : Node K V) (elts : MessageMap K V) : BProg β :=
  match elts.head?, elts.getLast? with
  | some lo, some hi =>
    if n.isLeaf then leaf (n.applyAll elts bet.defaultValue) else inner lo.1.key hi.1.key
  | _, _ => return unchanged

theorem eq_nil_of_no_ends {α : Type} {l : List α}
    (h : ∀ a b, l.head? = some a → l.getLast? = some b → False) : l = [] := by
  cases l with
  | nil => rfl
  | cons a l =>
      exact (h a _ rfl (List.getLast?_eq_some_getLast (List.cons_ne_nil a l))).elim

theorem all_flushWith
    (hleaf : n.isLeaf = true → elts ≠ [] → Prog.All Q E (leaf (n.applyAll elts bet.defaultValue)))
    (hinner : ∀ lo hi, n.isLeaf = false → elts.head? = some lo → elts.getLast? = some hi →
      Prog.All Q E (inner lo.1.key hi.1.key))
    (hempty : elts = [] → Q unchanged) :
    Prog.All Q E (flushWith bet leaf inner unchanged n elts) := by
  unfold flushWith
  split
  · rename_i lo hi hlo hhi
    cases hl : n.isLeaf with
    | true => exact hleaf hl (List.ne_nil_of_mem (List.mem_of_head? hlo))
    | false => exact hinner lo hi hl hlo hhi
  · rename_i hnone
    exact hempty (eq_nil_of_no_ends hnone)

end Whole

/-! ## `flush` in parts -/

/-- The flush of a node, as its parent calls it. -/
abbrev Flush (K V : Type) : Type := Node K V → MessageMap K V → BProg (Node K V × PivotMap K V)

/-- The flush loop, with other rounds. -/
def loopBy (bet : Params K V)
    (round : Node K V → OrdMap.Cursor K (ChildInfo (Node K V)) → Option K →
      BProg (Node K V × Option K)) : Nat → Node K V → Option K → BProg (Node K V)
  | 0, _, _ => Prog.stop .fuel
  | fuel + 1, n, first =>
    loopStep bet (fun c => round n c first) (fun r => loopBy bet round fuel r.1 r.2) n n

/-- A node that may have become too large at the end of a flush. -/
def splitOver (bet : Params K V) (n : Node K V) : BProg (Node K V × PivotMap K V) :=
  if bet.maxNodeSize < n.size then n.split bet else return (n, [])

/-- A leaf that may have become full. -/
def splitFull (bet : Params K V) (n : Node K V) : BProg (Node K V × PivotMap K V) :=
  if bet.maxNodeSize ≤ n.size then n.split bet else return (n, [])

variable [Add V]

omit [Add V] in
theorem flushLoop_eq (flushChild : Flush K V) (fuel : Nat) (n : Node K V) (first : Option K) :
    flushLoop bet flushChild fuel n first
      = loopBy bet (fun n c first => n.flushRound bet flushChild c first) fuel n first := by
  induction fuel generalizing n first with
  | zero => rfl
  | succ fuel ih =>
      have hnext : flushLoop bet flushChild fuel
          = loopBy bet (fun n c first => n.flushRound bet flushChild c first) fuel :=
        funext (fun n => funext (fun first => ih n first))
      rw [flushLoop, hnext]
      rfl

/-- **`flush`**, one call of it. -/
theorem flush_succ (fuel : Nat) (n : Node K V) (elts : MessageMap K V) :
    flush bet (fuel + 1) n elts = flushWith bet (splitFull bet)
      (fun lo hi => innerWith bet
        (fun n first => do return (← n.flushDirty bet (flush bet fuel) first elts, []))
        (fun n => loopBy bet (fun n c first => n.flushRound bet (flush bet fuel) c first)
          (n.elements.length + 1) n)
        (splitOver bet) n lo hi elts) (n, []) n elts := by
  have hloop : flushLoop bet (flush bet fuel)
      = loopBy bet (fun n c first => n.flushRound bet (flush bet fuel) c first) :=
    funext (fun k => funext (fun n => funext (fun first => flushLoop_eq _ k n first)))
  rw [flush]
  unfold flushInner
  rw [hloop]
  rfl

end BeTree
