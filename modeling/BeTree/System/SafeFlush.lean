import BeTree.System.Ownership

/-!
# A flush and the dirty children

`flush` hands a batch past the buffer to a single dirty child, so nothing older may be
waiting there. A node gets messages for a dirty child into its buffer when it receives a
batch for several children while one of them is dirty. A batch of several messages comes
from the flush loop of the parent, which only flushes to clean children; and a clean child
that is accessed for writing has no dirty children in the runs that `Safely` is about.

So a flush keeps every buffer free of messages for dirty children. `FlushSafe` is what the
induction on the height says of a flush.
-/

namespace BeTree

open Node Environment

variable {K V : Type} [LinearOrder K] {bet : Params K V}
variable {h : Nat} {b e e' : Environment} {n : Node K V}

/-! ## Splitting -/

/-- The node keeps its id, and nothing but it has become dirty. -/
structure Filled (n : Node K V) (e : Environment) (n' : Node K V) (e' : Environment) :
    Prop where
  id : n'.id = n.id
  touches : Touches (· = n.id) e e'

omit [LinearOrder K] in
theorem Filled.refl (he : Tame e) : Filled n e n e := ⟨rfl, Touches.refl he⟩

omit [LinearOrder K] in
theorem Filled.trans {n' n'' : Node K V} {e'' : Environment} (hf : Filled n e n' e')
    (hf' : Filled n' e' n'' e'') : Filled n e n'' e'' :=
  ⟨hf'.id.trans hf.id, hf.touches.trans hf'.touches (fun _ hi => Or.inl (hi.trans hf.id))⟩

omit [LinearOrder K] in
theorem Filled.used {n' : Node K V} (hf : Filled n e n' e') (hid : n.id < e.fresh) :
    n'.id < e'.fresh := by
  rw [hf.id]
  exact Nat.lt_of_lt_of_le hid hf.touches.fresh

section Split

variable (hr : ∀ n, bet.reload n = some n)

include hr

theorem safely_putPivot {p : K × ChildInfo (Node K V)} (he : Tame e) (hid : n.id < e.fresh) :
    Safely (Filled n e) (n.putPivot bet p) e := by
  refine (safely_derefPure hr he hid).bind (fun r e' hres => ?_)
  rw [hres.1]
  exact safely_pure ⟨rfl, hres.2⟩

theorem safely_putElement {m : MessageKey K × Message V} (he : Tame e) (hid : n.id < e.fresh) :
    Safely (Filled n e) (n.putElement bet m) e := by
  refine (safely_derefPure hr he hid).bind (fun r e' hres => ?_)
  rw [hres.1]
  exact safely_pure ⟨rfl, hres.2⟩

theorem safely_putElements {es : MessageMap K V} (he : Tame e) (hid : n.id < e.fresh) :
    Safely (Filled n e) (putElements bet es n) e := by
  induction es generalizing n e with
  | nil => exact safely_pure (Filled.refl he)
  | cons m es ih =>
      rw [putElements]
      refine (safely_putElement hr he hid).bind (fun n' e' hf => ?_)
      exact (ih hf.touches.tame (hf.used hid)).imp (fun _ _ hf' => hf.trans hf')

theorem safely_fillElements {leaf : Bool} {target moved : Nat} {es : MessageMap K V}
    (he : Tame e) (hid : n.id < e.fresh) :
    Safely (fun r e' => Filled n e r.2 e') (fillElements bet leaf target es moved n) e := by
  induction es generalizing n e moved with
  | nil => exact safely_pure (Filled.refl he)
  | cons m es ih =>
      rw [fillElements]
      split
      · refine safely_require (fun _ h => by cases h) (fun _ => ?_)
        refine (safely_putElement hr he hid).bind (fun n' e' hf => ?_)
        exact (ih hf.touches.tame (hf.used hid)).imp (fun _ _ hf' => hf.trans hf')
      · exact safely_pure (Filled.refl he)

theorem safely_fill {this : Node K V} {target moved : Nat} {ps : PivotMap K V}
    {es : MessageMap K V} (he : Tame e) (hid : n.id < e.fresh) :
    Safely (fun r e' => Filled n e r.2 e') (fill bet this target ps es moved n) e := by
  induction ps generalizing n e es moved with
  | nil => exact safely_fillElements hr he hid
  | cons p ps ih =>
      rw [fill]
      split
      · refine (safely_putPivot hr he hid).bind (fun n' e' hf => ?_)
        refine (safely_putElements hr hf.touches.tame (hf.used hid)).bind (fun n'' e'' hf' => ?_)
        have hf'' := hf.trans hf'
        exact (ih hf''.touches.tame (hf''.used hid)).imp (fun _ _ hf' => hf''.trans hf')
      · exact safely_pure (Filled.refl he)

theorem safely_enterResult {result : PivotMap K V} {key : K} (he : Tame e)
    (hid : n.id < e.fresh) :
    Safely (fun r e' => Filled n e r.1 e') (enterResult bet result key n) e := by
  have hpost : ∀ (r : Node K V × Nat) (e₂ : Environment), Filled n e r.1 e₂ →
      Tame e₂ ∧ ∀ e₃, Touches (fun _ => False) e₂ e₃ → Filled n e r.1 e₃ := fun r e₂ hf =>
    ⟨hf.touches.tame, fun e₃ ht => ⟨hf.id, hf.touches.trans ht (fun _ hi => hi.elim)⟩⟩
  refine safely_deref hr he hid (fun e₁ h₁ _ => ?_) hpost
  refine safely_deref hr h₁.tame (Nat.lt_of_lt_of_le hid h₁.fresh) (fun e₂ h₂ _ => ?_) hpost
  have h₂ : Touches (· = n.id) e e₂ := h₁.trans h₂ (fun _ hi => Or.inl hi)
  -- the empty node left under the key is released
  split
  · refine (safely_quiet (o := .depoint _) h₂.tame (fun _ hi => hi)).bind
      (fun _ e₃ h₃ => safely_pure ⟨rfl, ?_⟩)
    exact h₂.trans h₃ (fun _ hi => hi.elim)
  · exact safely_pure ⟨rfl, h₂⟩

omit hr in
/-- A node that is newer than the ones in a pivot map is entered there. -/
theorem AllNew.assign {ps : PivotMap K V} {k : K} {size : Nat} (hnew : AllNew b e ps)
    (hb : b.fresh ≤ e.fresh) (hid : e.fresh ≤ n.id ∧ n.id < e'.fresh) :
    AllNew b e' (OrdMap.assign ps k ⟨n, size⟩) := by
  obtain ⟨l, r, k', heq, hsub⟩ := OrdMap.assign_split ps k (⟨n, size⟩ : ChildInfo (Node K V))
  have hkids : (kids (OrdMap.assign ps k ⟨n, size⟩)).Perm (n :: kids (l ++ r)) := by
    unfold kids
    rw [heq, List.map_append, List.map_cons, List.map_append]
    exact List.perm_middle
  have hold : ∀ x ∈ kids (l ++ r), b.fresh ≤ x.id ∧ x.id < e.fresh :=
    fun x hx => hnew.new x ((hsub.map _).subset hx)
  refine ⟨(hkids.map _).nodup_iff.mpr (List.nodup_cons.mpr ⟨fun hc => ?_, ?_⟩), fun x hx => ?_⟩
  · obtain ⟨x, hx, hxn⟩ := List.mem_map.mp hc
    have := (hold x hx).2
    omega
  · exact hnew.nodup.sublist ((hsub.map _).map _)
  · rcases List.mem_cons.mp (hkids.mem_iff.mp hx) with rfl | hx
    · exact ⟨Nat.le_trans hb hid.1, hid.2⟩
    · have := hold x hx
      omega

theorem safely_splitLoop {this : Node K V} {things left i : Nat} {st : SplitState K V}
    {result : PivotMap K V} (ht : Touches (fun _ => False) b e) (hnew : AllNew b e result) :
    Safely (fun r e' => Touches (fun _ => False) b e' ∧ AllNew b e' r.2)
      (splitLoop bet this things left i st result) e := by
  induction left generalizing i st result e with
  | zero => exact safely_pure ⟨ht, hnew⟩
  | succ left ih =>
      rw [splitLoop]
      split
      · exact safely_pure ⟨ht, hnew⟩
      · refine (safely_allocate ht.tame).bind (fun n e₁ hn => ?_)
        obtain ⟨_, hid, h₁⟩ := hn
        refine (safely_enterResult hr h₁.tame hid.2).bind (fun r e₂ h₂ => ?_)
        refine (safely_fill hr h₂.touches.tame (h₂.used hid.2)).bind (fun r' e₃ h₃ => ?_)
        have hf := h₂.trans h₃
        have hge : b.fresh ≤ n.id := Nat.le_trans ht.fresh hid.1
        have ht₃ : Touches (fun _ => False) b e₃ :=
          (ht.trans h₁ (fun _ hi => hi.elim)).trans hf.touches (fun _ hi => Or.inr (hi ▸ hge))
        refine ih ht₃ (hnew.assign ht.fresh ⟨?_, hf.used hid.2⟩)
        rw [hf.id]
        exact hid.1

omit [LinearOrder K] in
theorem safely_refreshSizes {ps : PivotMap K V} (ht : Touches (fun _ => False) b e)
    (hps : ∀ x ∈ kids ps, b.fresh ≤ x.id ∧ x.id < e.fresh) :
    Safely (fun r e' => kids r = kids ps ∧ e.fresh ≤ e'.fresh
      ∧ Touches (fun _ => False) b e') (refreshSizes bet ps) e := by
  induction ps generalizing e with
  | nil => exact safely_pure ⟨rfl, Nat.le_refl _, ht⟩
  | cons p ps ih =>
      rw [refreshSizes]
      obtain ⟨hge, hlt⟩ := hps p.2.child List.mem_cons_self
      refine (safely_derefSize hr ht.tame hlt).bind (fun r e₁ h₁ => ?_)
      rw [h₁.1]
      have ht₁ := ht.trans h₁.2 (fun _ hi => Or.inr (hi ▸ hge))
      refine (ih ht₁ (fun x hx => ?_)).bind (fun ps' e₂ h₂ => safely_pure ⟨?_, ?_, h₂.2.2⟩)
      · have hx' := hps x (List.mem_cons_of_mem _ hx)
        have := h₁.2.fresh
        omega
      · show p.2.child :: kids ps' = p.2.child :: kids ps
        rw [h₂.1]
      · exact Nat.le_trans h₁.2.fresh h₂.2.1

omit hr [LinearOrder K] in
theorem only_toInt {size v : Nat} :
    Prog.Only Op.Quiet (fun _ => True) Fault.Other (toInt size v : BProg Nat) := by
  unfold toInt
  split
  · trivial
  · exact nofun

omit hr [LinearOrder K] in
theorem only_splitCounts {size : Nat} :
    Prog.Only Op.Quiet (fun _ => True) Fault.Other (splitCounts bet size : BProg (Nat × Nat)) := by
  unfold splitCounts
  split
  · exact nofun
  · refine only_toInt.bind (fun num _ => ?_)
    split
    · exact nofun
    · exact only_toInt.bind (fun _ _ => only_toInt.bind (fun _ _ => trivial))

/-- **A split** makes new nodes, and nothing else dirty. -/
theorem safely_split (he : Tame e) :
    Safely (fun r e' => Touches (fun _ => False) e e' ∧ AllNew e e' r.2) (n.split bet) e := by
  unfold split
  refine safely_require (fun _ => by exact nofun) (fun _ => ?_)
  refine (Safely.of_only only_splitCounts he).bind (fun counts e₁ h₁ => ?_)
  have hnone : AllNew e e₁ ([] : PivotMap K V) :=
    ⟨List.nodup_nil, fun x hx => absurd hx (by simp [kids])⟩
  refine (safely_splitLoop hr h₁.2 hnone).bind (fun r e₂ h₂ => ?_)
  refine (safely_refreshSizes hr h₂.1 h₂.2.new).bind (fun res e₃ h₃ => ?_)
  obtain ⟨hkids, hfresh, h₃⟩ := h₃
  refine safely_require (fun _ => by exact nofun) (fun _ => ?_)
  refine safely_require (fun _ => by exact nofun) (fun _ => ?_)
  refine safely_pure ⟨h₃, ⟨?_, fun x hx => ?_⟩⟩
  · show ((kids res).map Node.id).Nodup
    rw [hkids]
    exact h₂.2.nodup
  · have hx : x ∈ kids res := hx
    rw [hkids] at hx
    have := h₂.2.new x hx
    omega

end Split

/-! ## The specification of a flush -/

variable [Add V] {R : K → Prop} {F : Nat → Prop} {elts : MessageMap K V}

/-- What a flush gives back: the node, or the nodes it was split into. -/
def results (r : Node K V × PivotMap K V) : List (Node K V) :=
  if r.2.isEmpty then [r.1] else kids r.2

omit [LinearOrder K] [Add V] in
theorem results_whole (n : Node K V) : results (n, []) = [n] := rfl

omit [LinearOrder K] [Add V] in
theorem results_parts {r : Node K V × PivotMap K V} (hne : r.2 ≠ []) : results r = kids r.2 := by
  unfold results
  rw [if_neg (by simpa using hne)]

/-- A flush of subtrees of height `h` of one message, or into a node without dirty children. -/
def FlushSafe (h : Nat)
    (flush : Node K V → MessageMap K V → BProg (Node K V × PivotMap K V)) : Prop :=
  ∀ (R : K → Prop) (n : Node K V) (elts : MessageMap K V) (e : Environment), Inv False h R n →
    Batch False R elts → Tame e → Settled e h [n] →
    (elts.length ≤ 1 ∨ ∀ x ∈ kids n.pivots, ¬ e.Dirty x.id) →
    Safely (fun r e' => Made (· ∈ n.ids) e h (results r) e') (flush n elts) e

/-! ## Splitting at the end -/

omit [Add V] in
theorem safely_split_made (hr : ∀ n, bet.reload n = some n) (hM : 3 ≤ bet.maxNodeSize)
    (hsize : bet.maxNodeSize ≤ n.size) (hn : Inv False h R n) (hm : Made F b h [n] e) :
    Safely (fun r e' => Made F b h (results r) e') (n.split bet) e := by
  have hbound : ∀ p ∈ n.pivots, slotCount n p.1 ≤ n.elements.length :=
    fun p _ => List.length_filter_le _ _
  refine ((safely_split hr hm.touches.tame).and_all
    (all_split hr hM hsize hn.splittable hbound)).imp (fun r e' hres => ?_)
  obtain ⟨hres, ht, hnew⟩ := hres
  rw [results_parts (hres.partition.ne_nil (by omega))]
  exact hm.pieces ht hres.partition hnew

/-! ## Flushing a child -/

section Child

variable {flushChild : Node K V → MessageMap K V → BProg (Node K V × PivotMap K V)}
  {cur : OrdMap.Cursor K (ChildInfo (Node K V))}

variable (hr : ∀ n, bet.reload n = some n) (hsafe : FlushSafe h flushChild)
  (hspec : FlushSpec Fault.Excluded False bet.defaultValue h flushChild)

include hr hsafe hspec

omit hspec [Add V] in
/-- **A child is flushed** one message, or any batch if it is clean. -/
theorem safely_flushChild {child : Node K V} {P : Node K V × PivotMap K V → Prop}
    {E : Fault → Prop}
    (hall : Prog.All P E (flushChild child elts)) (hchild : Inv False h R child)
    (hb : Batch False R elts) (he : Tame e) (hs : Settled e h [child])
    (hbatch : elts.length ≤ 1 ∨ ¬ e.Dirty child.id) :
    Safely (fun r e' => P r ∧ Made (· ∈ child.ids) e h (results r) e')
      (child.deref bet true (flushChild · elts)) e := by
  have hused : ∀ i ∈ child.ids, i < e.fresh := fun i hi => hs.used i (idsOf_singleton child ▸ hi)
  have hnot := hs.id_not_below
  refine safely_deref (S := fun r e' => P r ∧ Made (· ∈ child.ids) e h (results r) e') hr he
    (hused _ (id_mem_ids child)) (fun e₁ h₁ hclean => ?_)
    (fun r e₂ h₂ => ⟨h₂.2.touches.tame, fun e₃ h₃ => ⟨h₂.1, h₂.2.calm h₃⟩⟩)
  have hs₁ : Settled e₁ h [child] := by
    refine hs.step h₁ (fun i hi y hy => ?_)
    rw [List.mem_singleton.mp hy, hi]
    exact hnot
  -- a clean node has no dirty children when it is accessed for writing
  have hbatch₁ : elts.length ≤ 1 ∨ ∀ x ∈ kids child.pivots, ¬ e₁.Dirty x.id := by
    refine hbatch.imp_right (fun hc x hx => ?_)
    have hbelow : x.id ∈ idsOf (kids child.pivots) := child_ids_below hx (id_mem_ids x)
    obtain ⟨p, hp, rfl⟩ := List.mem_map.mp hx
    refine hclean hc _ (List.mem_map.mpr ⟨p, hp, rfl⟩) (fun heq => hnot (heq ▸ hbelow)) ?_
    exact hused _ (mem_ids_of_below hbelow)
  refine ((hsafe _ _ _ _ hchild hb h₁.tame hs₁ hbatch₁).and_all hall).imp
    (fun r e₂ h₂ => ⟨h₂.1, ?_⟩)
  exact Made.after (h₁.mono (fun i hi => hi ▸ id_mem_ids child)) h₂.2

omit hr hsafe hspec [Add V] in
/-- A child that was not split goes back in its place. -/
theorem Made.put_back {n' : Node K V} {v : ChildInfo (Node K V)} (hm : Made F b (h + 1) [n] e)
    (hs : OrdMap.Sorted n.pivots) (hcur : cur.toMap = n.pivots)
    (hmade : Made (· ∈ cur.val.child.ids) e h [v.child] e') (hid : n'.id = n.id)
    (hpiv : n'.pivots = cur.set v)
    (hes : ∀ m ∈ n'.elements, m ∈ n.elements ∧ ¬ Slot n.pivots cur.key m.1.key) :
    Made F b (h + 1) [n'] e' := by
  have hx : (cur.key, cur.val) ∈ n.pivots := hcur ▸ cur.mem_toMap
  have hsp := spliced_set hs hcur v
  rw [← hpiv] at hsp
  have hmade : Made (· ∈ cur.val.child.ids) e h (kids [(cur.key, v)]) e' := hmade
  have hmid : ∀ y ∈ [(cur.key, v)], Slot n.pivots cur.key y.1 := by
    intro y hy
    rw [List.mem_singleton.mp hy]
    exact slot_self _ _
  exact hm.splice hs hx hmade (OrdMap.sorted_singleton _) hmid hsp hid hes

omit hr hsafe hspec [Add V] [LinearOrder K] in
theorem only_insertChildren [LT K] [DecidableLT K] {ps news : PivotMap K V} :
    Prog.Only Op.Quiet (fun _ => True) Fault.Other (insertChildren ps news) := by
  refine Prog.Only.bind (Prog.only_require ?_) (fun _ _ => trivial)
  exact nofun

omit hr hsafe hspec in
/-- The nodes a child was split into take its place. -/
theorem safely_insertChildren {d : V} {child : Node K V} {news : PivotMap K V} {es : MessageMap K V}
    (hm : Made F b (h + 1) [n] e) (hs : OrdMap.Sorted n.pivots) (hcur : cur.toMap = n.pivots)
    (hmade : Made (· ∈ cur.val.child.ids) e h (kids news) e')
    (hnews : Replacement False d h (fun k => R k ∧ Slot n.pivots cur.key k) child elts news)
    (hes : ∀ m ∈ es, m ∈ n.elements ∧ ¬ Slot n.pivots cur.key m.1.key) :
    Safely (fun ps' e'' => Made F b (h + 1) [⟨n.id, ps', es⟩] e'')
      (insertChildren cur.erase news) e' := by
  have hx : (cur.key, cur.val) ∈ n.pivots := hcur ▸ cur.mem_toMap
  have hrange : ∀ y ∈ news, Slot n.pivots cur.key y.1 := fun y hy => (hnews.forest.range y hy).2
  refine ((Safely.of_only only_insertChildren hmade.touches.tame).and_all
    (all_insertChildren (E := Fault.Other) hs hcur hnews.forest.sorted hrange
      (fun _ hsp => hsp))).imp
    (fun ps' e'' hps => ?_)
  obtain ⟨hsp, _, ht⟩ := hps
  have hid : (⟨n.id, ps', es⟩ : Node K V).id = n.id := rfl
  exact (hm.splice hs hx hmade hnews.forest.sorted hrange hsp hid hes).calm ht

/-! ## The fast path -/

omit hr hsafe hspec [Add V] in
/-- Where nothing is buffered for a child, its two iterators are at the same place. -/
theorem same_place (hes : OrdMap.Sorted n.elements) (hs : OrdMap.Sorted n.pivots)
    (hcur : cur.toMap = n.pivots) (hnone : ∀ m ∈ n.elements, ¬ Slot n.pivots cur.key m.1.key) :
    (getElementBeginAt n.elements (some cur.key)).length
      = (getElementBeginAt n.elements cur.nextKey).length := by
  have hdist := distance_slot (e := (cur.key, cur.val)) hes hs hcur
  have hzero : slotCount n cur.key = 0 := by
    unfold slotCount
    rw [List.length_eq_zero_iff, List.filter_eq_nil_iff]
    exact fun m hm hslot => hnone m hm (of_decide_eq_true hslot)
  have hs' : OrdMap.Sorted cur.toMap := hcur ▸ hs
  have hle := (getElementBeginAt_suffix (e := (cur.key, cur.val)) hes hs').length_le
  unfold OrdMap.distance at hdist
  unfold OrdMap.Cursor.nextKey
  dsimp only at hdist hle
  omega

omit hsafe hspec in
/-- A dirty child that has been flushed is kept, or its parts are. -/
theorem safely_settleDirty {child : Node K V} {news : PivotMap K V}
    (hm : Made F b (h + 1) [n] e) (hs : OrdMap.Sorted n.pivots) (hcur : cur.toMap = n.pivots)
    (hes : ∀ m ∈ n.elements, ¬ Slot n.pivots cur.key m.1.key)
    (hfl : Flushed False bet.defaultValue h (fun k => R k ∧ Slot n.pivots cur.key k)
      cur.val.child elts (child, news))
    (hmade : Made (· ∈ cur.val.child.ids) e h (results (child, news)) e') :
    Safely (fun n' e'' => Made F b (h + 1) [n'] e'') (n.settleDirty bet cur child news) e' := by
  have hes : ∀ m ∈ n.elements, m ∈ n.elements ∧ ¬ Slot n.pivots cur.key m.1.key :=
    fun m hmem => ⟨hmem, hes m hmem⟩
  unfold settleDirty
  by_cases hnil : news = []
  · subst hnil
    rw [results_whole] at hmade
    refine (safely_derefSize hr hmade.touches.tame hmade.root_used).bind (fun r e₂ h₂ => ?_)
    rw [h₂.1]
    exact safely_pure (hm.put_back hs hcur (hmade.root h₂.2) rfl rfl hes)
  · rw [if_neg (by simpa using hnil)]
    rw [results_parts hnil] at hmade
    refine (safely_quiet (o := .depoint child.id) hmade.touches.tame (fun _ hi => hi)).bind
      (fun _ e₂ h₂ => ?_)
    exact (safely_insertChildren hm hs hcur (hmade.calm h₂) (hfl.parts hnil) hes).bind
      (fun ps' e₃ h₃ => safely_pure h₃)

/-- **The path to a dirty child.** Nothing is buffered for it, so the assertion holds. -/
theorem safely_flushDirty (hn : Inner False (Inv False h) R n) (hcur : cur.toMap = n.pivots)
    (hb : Batch False R elts) (hslot : ∀ m ∈ elts, Slot n.pivots cur.key m.1.key)
    (hm : Made F b (h + 1) [n] e) (hdirty : e.Dirty cur.val.child.id) (hone : elts.length ≤ 1) :
    Safely (fun n' e' => Made F b (h + 1) [n'] e') (n.flushDirty bet flushChild cur elts) e := by
  have hx : (cur.key, cur.val) ∈ n.pivots := hcur ▸ cur.mem_toMap
  have hs := hn.forest.sorted
  have hun : Unbuffered e.Dirty n := (settled_succ.mp hm.settled).2.1 n List.mem_cons_self
  have hnone := hun _ hx hdirty
  have hb' := hb.slot hslot
  have hplace := same_place hn.buffer.sorted hs hcur hnone
  -- the assertion: both iterators into the buffer are at the same place
  refine safely_require (fun hne => absurd hplace (by simpa using hne)) (fun _ => ?_)
  have hchild := hn.forest.child _ hx
  refine (safely_flushChild hr hsafe (hspec _ _ _ hchild hb' False.elim) hchild hb' hm.touches.tame
    (hm.settled.child (mem_kids hx)) (Or.inl hone)).bind (fun r e₁ h₁ => ?_)
  exact safely_settleDirty hr hm hs hcur hnone h₁.1 h₁.2

/-! ## The flush loop -/

omit hr hsafe hspec [Add V] [LinearOrder K] in
theorem kids_of_subtrees {ps ps' : PivotMap K V} (hps : subtrees ps' = subtrees ps) :
    kids ps' = kids ps := by
  have hk := congrArg (List.map Prod.snd) hps
  unfold subtrees at hk
  rw [List.map_map, List.map_map] at hk
  exact hk

omit hr hsafe hspec [Add V] in
/-- Cached sizes do not matter to where messages go. -/
theorem Unbuffered.of_subtrees {d : Nat → Prop} {n' : Node K V} (hn : Unbuffered d n)
    (hps : subtrees n'.pivots = subtrees n.pivots) (hes : n'.elements = n.elements) :
    Unbuffered d n' := by
  intro p hp hd m hm hslot
  obtain ⟨q, hq, hkey, hchild⟩ := mem_of_subtrees hps hp
  rw [← hchild] at hd
  rw [hes] at hm
  rw [← hkey] at hslot
  exact hn q hq hd m hm (slot_of_subtrees hps.symm hslot)

omit hsafe hspec in
/-- What a round does with the child it has flushed. -/
theorem safely_settleRound {child : Node K V} {news : PivotMap K V} {first : Option K}
    {es : MessageMap K V} (hm : Made F b (h + 1) [n] e) (hs : OrdMap.Sorted n.pivots)
    (hcur : cur.toMap = n.pivots)
    (hes : ∀ m ∈ es, m ∈ n.elements ∧ ¬ Slot n.pivots cur.key m.1.key)
    (hfl : Flushed False bet.defaultValue h (fun k => R k ∧ Slot n.pivots cur.key k)
      cur.val.child elts (child, news))
    (hmade : Made (· ∈ cur.val.child.ids) e h (results (child, news)) e') :
    Safely (fun r e'' => Made F b (h + 1) [r.1] e'') (n.settleRound bet cur first es child news)
      e' := by
  unfold settleRound
  by_cases hnil : news = []
  · subst hnil
    rw [results_whole] at hmade
    refine (safely_derefSize hr hmade.touches.tame hmade.root_used).bind (fun r e₂ h₂ => ?_)
    rw [h₂.1]
    have hset : Made F b (h + 1)
        [(⟨n.id, cur.set { cur.val with child := child }, es⟩ : Node K V)] e₂ :=
      hm.put_back hs hcur (hmade.root h₂.2) rfl rfl hes
    cases first with
    | none => exact safely_stop nofun
    | some k =>
        refine safely_pure (hset.update _ rfl (kids_of_subtrees (subtrees_setChildSize _ k _))
          (fun _ => ?_))
        have hun := (settled_succ.mp hset.settled).2.1 _ List.mem_cons_self
        exact hun.of_subtrees (subtrees_setChildSize _ k _) rfl
  · rw [if_neg (by simpa using hnil)]
    rw [results_parts hnil] at hmade
    refine (safely_quiet (o := .depoint child.id) hmade.touches.tame (fun _ hi => hi)).bind
      (fun _ e₂ h₂ => ?_)
    exact (safely_insertChildren hm hs hcur (hmade.calm h₂) (hfl.parts hnil) hes).bind
      (fun ps' e₃ h₃ => safely_pure h₃)

/-- **A round of the flush loop.** The child has messages waiting, so it is clean. -/
theorem safely_flushRound {first : Option K} (hn : Inner False (Inv False h) R n)
    (hcur : cur.toMap = n.pivots) (hpos : 0 < slotCount n cur.key)
    (hm : Made F b (h + 1) [n] e) :
    Safely (fun r e' => Made F b (h + 1) [r.1] e') (n.flushRound bet flushChild cur first) e := by
  have hx : (cur.key, cur.val) ∈ n.pivots := hcur ▸ cur.mem_toMap
  have hs := hn.forest.sorted
  have hes : ∀ m ∈ n.elements.filter (fun m => decide (¬ Slot n.pivots cur.key m.1.key)),
      m ∈ n.elements ∧ ¬ Slot n.pivots cur.key m.1.key := fun m hmf => by
    rw [List.mem_filter, decide_eq_true_eq] at hmf
    exact hmf
  have hb := hn.slot_batch cur.key
  -- a dirty child has no messages in the buffer, and this one has some
  have hun : Unbuffered e.Dirty n := (settled_succ.mp hm.settled).2.1 n List.mem_cons_self
  have hclean : ¬ e.Dirty cur.val.child.id := by
    intro hd
    obtain ⟨m, hmf⟩ := List.exists_mem_of_length_pos hpos
    obtain ⟨hmem, hslot⟩ := List.mem_filter.mp hmf
    exact hun _ hx hd m hmem (of_decide_eq_true hslot)
  rw [flushRound_eq hn.buffer.sorted hs hcur]
  have hchild := hn.forest.child _ hx
  refine (safely_flushChild hr hsafe (hspec _ _ _ hchild hb False.elim) hchild hb hm.touches.tame
    (hm.settled.child (mem_kids hx)) (Or.inr hclean)).bind (fun r e₁ h₁ => ?_)
  exact safely_settleRound hr hm hs hcur hes h₁.1 h₁.2

omit hr hsafe hspec [Add V] [LinearOrder K] in
theorem only_worthFlushing {maxSize id : Nat} :
    Prog.Only Op.Quiet (fun _ => True) Fault.Other (worthFlushing bet isInMemory maxSize id) := by
  unfold worthFlushing
  split
  · trivial
  · split
    · exact Prog.only_perform (fun _ hi => hi)
    · trivial

theorem safely_flushLoop {fuel : Nat} {first : Option K} {src : MessageMap K V} {f : K → Option V}
    (hn : Represents False bet.defaultValue (h + 1) R src f n) (hm : Made F b (h + 1) [n] e) :
    Safely (fun n' e' => Made F b (h + 1) [n'] e') (flushLoop bet flushChild fuel n first) e := by
  induction fuel generalizing n first e with
  | zero => exact safely_stop nofun
  | succ fuel ih =>
      have hinner : Inner False (Inv False h) R n := hn.inv
      rw [flushLoop]
      split
      · split
        · exact safely_pure hm
        · rename_i p rest hp
          have hbest := (largestChild_best hinner.buffer.sorted hinner.forest.sorted hp).1
          rcases hl : largestChild n.elements [] n.pivots (⟨[], p.1, p.2, rest⟩, 0) with ⟨cur, m⟩
          rw [hl] at hbest
          dsimp only
          refine ((Safely.of_only only_worthFlushing hm.touches.tame).and_all
            (all_worthFlushing (E := Fault.Other))).bind (fun worth e₁ h₁ => ?_)
          obtain ⟨hworth, _, h₁⟩ := h₁
          have hm₁ := hm.calm h₁
          cases worth with
          | false => exact safely_pure hm₁
          | true =>
              -- a batch worth flushing is not empty, also when its size is taken modulo `2 ^ 32`
              have hpos : 0 < slotCount n cur.key := by
                have hlt := hworth.1 rfl
                rcases hbest.count with hz | hcount
                · dsimp only at hz
                  omega
                · have := Nat.mod_le (slotCount n cur.key) (2 ^ 32)
                  dsimp only at hcount
                  omega
              refine ((safely_flushRound hr hsafe hspec hinner hbest.toMap hpos hm₁).and_all
                (all_flushRound hr (fun _ hf => hf) hspec hn hbest.toMap)).bind
                (fun r e₂ h₂ => ?_)
              exact ih h₂.1.1 h₂.2
      · exact safely_pure hm

/-! ## `flush` -/

omit hr hsafe hspec [Add V] in
/-- Lowering the first pivot makes no message go to another child. -/
theorem Unbuffered.lowerFirstPivot {d : Nat → Prop} (hn : Inner False (Inv False h) R n)
    (hun : Unbuffered d n) (m : MessageKey K × Message V) (elts : MessageMap K V) :
    Unbuffered d (n.lowerFirstPivot (m :: elts)) := by
  obtain ⟨p, rest, hp⟩ := List.exists_cons_of_ne_nil hn.nonempty
  have hs := hn.forest.sorted
  rw [hp] at hs
  have hpiv := lowerFirstPivot_pivots m elts hs hp
  have hes := lowerFirstPivot_elements n (m :: elts)
  have hlow := (OrdMap.sorted_cons.mp hs).1
  intro q hq hd x hx hslot
  rw [hes] at hx
  rw [hpiv] at hq hslot
  have hrest : ∀ y ∈ rest, q.1 < y.1 → x.1.key < y.1 :=
    fun y hy => hslot.2 y (List.mem_cons_of_mem _ hy)
  rcases List.mem_cons.mp hq with rfl | hq
  · -- a buffered message is at or above some pivot, so above the old first one
    obtain ⟨y, hy, hyx⟩ := hn.covered x hx
    rw [hp] at hy
    have hpx : p.1 ≤ x.1.key := by
      rcases List.mem_cons.mp hy with rfl | hy
      · exact hyx
      · exact le_trans (le_of_lt (hlow y hy)) hyx
    refine hun p (hp ▸ List.mem_cons_self) hd x hx ⟨hpx, fun y hy hlt => ?_⟩
    rw [hp] at hy
    rcases List.mem_cons.mp hy with rfl | hy
    · exact absurd hlt (lt_irrefl _)
    · exact hrest y hy (lt_of_le_of_lt (min_le_right _ _) hlt)
  · have hpq := hlow q hq
    refine hun q (hp ▸ List.mem_cons_of_mem _ hq) hd x hx ⟨hslot.1, fun y hy hlt => ?_⟩
    rw [hp] at hy
    rcases List.mem_cons.mp hy with rfl | hy
    · exact absurd hlt (not_lt_of_gt hpq)
    · exact hrest y hy hlt

omit hr hsafe hspec in
/-- A batch is buffered when no child is dirty, or the one that it goes to is not. -/
theorem Unbuffered.applyAll {d : Nat → Prop} {dv : V} (hn : Inner False (Inv False h) R n)
    (hun : Unbuffered d n) (hb : Batch False R elts)
    (hclean : (∀ x ∈ kids n.pivots, ¬ d x.id)
      ∨ ∃ p ∈ n.pivots, ¬ d p.2.child.id ∧ ∀ m ∈ elts, Slot n.pivots p.1 m.1.key) :
    Unbuffered d (n.applyAll elts dv) := by
  have hl : n.isLeaf = false := by rw [Inv.isLeaf (h := h + 1) hn]; rfl
  have happ := applyAll_applied (d := dv) (hl ▸ hn.buffer) hb False.elim
  intro q hq hd x hx hslot
  rw [happ.pivots] at hq hslot
  rcases happ.stored x hx with ⟨m, hm, hmx⟩ | hx
  · rcases hclean with hnone | ⟨p, hp, hpd, hslots⟩
    · exact hnone _ (mem_kids hq) hd
    · rw [← hmx] at hslot
      have hpq := hn.forest.sorted.eq_of_key hp hq (Slot.unique hp hq (hslots m hm) hslot)
      exact hpd (hpq ▸ hd)
  · exact hun q hq hd x hx hslot

omit hr hsafe hspec [LinearOrder K] [Add V] in
/-- The question whether the one child that a batch goes to is dirty. -/
theorem safely_goesToDirtyChild [LinearOrder K] {first last : OrdMap.Cursor K (ChildInfo (Node K V))}
    (he : Tame e) :
    Safely (fun d e' => e' = e ∧ (d = true → first.before.length = last.before.length)
        ∧ (first.before.length = last.before.length → (d = true ↔ e.Dirty first.val.child.id)))
      (goesToDirtyChild isDirty first last) e := by
  unfold goesToDirtyChild
  split
  · rename_i heq
    refine safely_perform (o := .isDirty _) he (fun d e' hstep _ _ => ?_)
    obtain ⟨hd, rfl⟩ := answer_eq hstep
    exact ⟨rfl, fun _ => heq, fun _ => isDirty_iff he hd⟩
  · rename_i hne
    exact safely_pure ⟨rfl, fun hd => absurd hd (by simp), fun heq => absurd heq hne⟩

theorem safely_flushInner {lo hi : MessageKey K × Message V} (hM : 3 ≤ bet.maxNodeSize)
    (hn : Inv False (h + 1) R n) (hb : Batch False R elts) (hlo : elts.head? = some lo)
    (hhi : elts.getLast? = some hi) (hm : Made F b (h + 1) [n] e)
    (hbatch : elts.length ≤ 1 ∨ ∀ x ∈ kids n.pivots, ¬ e.Dirty x.id) :
    Safely (fun r e' => Made F b (h + 1) (results r) e')
      (n.flushInner bet flushChild lo.1.key hi.1.key elts) e := by
  have hself : Represents False bet.defaultValue (h + 1) R n.messages
      (value bet.defaultValue (h + 1) n) n :=
    represents_self hn
  obtain ⟨rest, helts⟩ := List.head?_eq_some_iff.mp hlo
  obtain ⟨hn1, p, hp, hplo⟩ := hself.lowerFirstPivot rest (hb.range lo (List.mem_of_head? hlo))
  have hinner : Inner False (Inv False h) R n := hn
  have hun : Unbuffered e.Dirty n := (settled_succ.mp hm.settled).2.1 n List.mem_cons_self
  have hkids : kids (n.lowerFirstPivot (lo :: rest)).pivots = kids n.pivots := by
    have hk := congrArg (List.map ChildInfo.child)
      (lowerFirstPivot_children hinner.forest.sorted (lo :: rest))
    rw [List.map_map, List.map_map] at hk
    exact hk
  have hm1 := hm.update (n.lowerFirstPivot (lo :: rest)) (lowerFirstPivot_id n _) hkids
    (fun _ => hun.lowerFirstPivot hinner lo rest)
  rw [← helts] at hn1 hp hkids hm1
  rw [← hkids] at hbatch
  unfold flushInner
  dsimp only
  generalize n.lowerFirstPivot elts = n1 at hn1 hp hm1 hbatch ⊢
  have hinner1 : Inner False (Inv False h) R n1 := hn1.inv
  have hs := hinner1.forest.sorted
  obtain ⟨first, last, hfirst, hlast, hfmap, hslot⟩ := getPivot_batch hs hb hlo hhi hp hplo
  -- a single message goes to one child
  have hsame : elts.length ≤ 1 → first.before.length = last.before.length := by
    intro hone
    have hhilo : hi = lo := by
      rw [helts] at hone hhi
      have hnil : rest = [] := List.length_eq_zero_iff.mp (by simpa using hone)
      rw [hnil] at hhi
      injection hhi with hhi
      exact hhi.symm
    rw [hhilo, hfirst] at hlast
    injection hlast with hlast
    rw [hlast]
  have hx : (first.key, first.val) ∈ n1.pivots := hfmap ▸ first.mem_toMap
  rw [hfirst, hlast]
  refine Safely.bind (x := goesToDirtyChild isDirty first last)
    (safely_goesToDirtyChild hm.touches.tame) (fun dirty e₁ h₁ => ?_)
  obtain ⟨rfl, hgoes, hanswer⟩ := h₁
  cases dirty with
  | true =>
      have hplace := hgoes rfl
      have hdirty := (hanswer hplace).mp rfl
      have hone : elts.length ≤ 1 :=
        hbatch.elim (fun hone => hone) (fun hnone => absurd hdirty (hnone _ (mem_kids hx)))
      exact (safely_flushDirty hr hsafe hspec hinner1 hfmap hb (hslot hplace) hm1 hdirty hone).bind
        (fun n2 e₂ h₂ => safely_pure h₂)
  | false =>
      have hclean : (∀ x ∈ kids n1.pivots, ¬ e₁.Dirty x.id)
          ∨ ∃ q ∈ n1.pivots, ¬ e₁.Dirty q.2.child.id ∧ ∀ m ∈ elts, Slot n1.pivots q.1 m.1.key := by
        rcases hbatch with hone | hnone
        · have hplace := hsame hone
          refine Or.inr ⟨_, hx, fun hd => ?_, hslot hplace⟩
          exact absurd ((hanswer hplace).mpr hd) (by simp)
        · exact Or.inl hnone
      have hn2 := hn1.applyAll hb False.elim
        (fun m hm => ⟨p, hp, le_trans hplo (hb.between hlo hhi m hm).1⟩)
      have hun1 : Unbuffered e₁.Dirty n1 := (settled_succ.mp hm1.settled).2.1 n1 List.mem_cons_self
      have hm2 : Made F b (h + 1) [n1.applyAll elts bet.defaultValue] e₁ :=
        hm1.update _ applyAll_id (by rw [applyAll_pivots])
          (fun _ => hun1.applyAll hinner1 hb hclean)
      refine Safely.bind (x := flushLoop bet flushChild _ _ _)
        ((safely_flushLoop hr hsafe hspec hn2 hm2).and_all
          (by rw [flushLoop_eq]; exact all_flushLoop hr (fun _ hf => hf) hspec (Nat.lt_succ_self _) hn2))
        (fun n3 e₂ h₂ => ?_)
      obtain ⟨hn3, hm3⟩ := h₂
      split
      · rename_i hlt
        exact safely_split_made hr hM (Nat.le_of_lt hlt) hn3.inv hm3
      · exact safely_pure hm3

end Child

/-- **`flush` and dirty children**, by induction on the height. -/
theorem flush_safe (fuel : Nat) (hr : ∀ n, bet.reload n = some n) (hM : 3 ≤ bet.maxNodeSize ∨ h = 0)
    (hfuel : h < fuel) : FlushSafe h (flush bet fuel) := by
  induction fuel generalizing h with
  | zero => exact absurd hfuel (Nat.not_lt_zero _)
  | succ fuel ih =>
      intro R n elts e hn hb he hs hbatch
      have hm := Made.refl he hs
      rw [flush]
      split
      · rename_i lo hi hlo hhi
        cases h with
        | zero =>
            have hl : n.isLeaf = true := by rw [hn.isLeaf]; rfl
            have hself : Represents False bet.defaultValue 0 R n.messages
                (value bet.defaultValue 0 n) n :=
              represents_self hn
            have hn1 := hself.applyAll_leaf hb False.elim
            have hm1 := hm.update (n.applyAll elts bet.defaultValue) applyAll_id
              (by rw [applyAll_pivots]) (fun hc => absurd hc (by simp))
            rw [if_pos hl]
            dsimp only
            split
            · rename_i hsize
              -- with a smaller maximum size the split divides by zero and there is nothing to show
              by_cases hM' : 3 ≤ bet.maxNodeSize
              · exact safely_split_made hr hM' hsize hn1.inv hm1
              · exact ((safely_split hr he).and_all (all_split_small (by omega) hsize)).imp
                  (fun _ _ hfalse => hfalse.1.elim)
            · exact safely_pure hm1
        | succ h =>
            have hl : n.isLeaf = false := by rw [hn.isLeaf]; rfl
            have hM' : 3 ≤ bet.maxNodeSize := hM.elim (fun hM => hM) (fun hc => absurd hc (by simp))
            have hfuel' := Nat.lt_of_succ_lt_succ hfuel
            rw [hl]
            exact safely_flushInner hr (ih (Or.inl hM') hfuel') (flush_spec fuel hr hM' hfuel') hM' hn hb
              hlo hhi hm hbatch
      · exact safely_pure hm

end BeTree
