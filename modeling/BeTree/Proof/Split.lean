import BeTree.Proof.Lookup

/-!
# `split` is an ordered partition

The loops of `split` only ever move a prefix of what is left into the node being
filled, so the new nodes' pivots and elements, one after another, are the old
ones. The invariant of the outer loop also counts: after `i` rounds at least
`i * things_per_new_leaf` things have been moved, or all of them. It is what
makes the last target reach everything, and it bounds the size of a piece.

A round that finds its target already passed leaves an empty node in `result`.
The next round uses the same key again and replaces it, and there is a next
round, because something is left.
-/

namespace BeTree

variable {K V : Type} [LinearOrder K]

/-- The runs that the results about the tree leave out. -/
def Fault.Excluded (e : Fault) : Prop :=
  e = .assertion .dirtyChildBuffered ∨ e = .erasedEntry
    ∨ ∃ size, 2 ^ 30 ≤ size ∧ (e = .intOverflow size ∨ e = .divideByZero size)

/-- The faults of `split` in a node that is too large for an `int`. -/
def Fault.TooLarge (size : Nat) (e : Fault) : Prop :=
  2 ^ 30 ≤ size ∧ (e = .intOverflow size ∨ e = .divideByZero size)

namespace Node

variable {bet : Params K V} {E : Fault → Prop}

/-! ## Following a pointer, when reading back changes nothing -/

omit [LinearOrder K] in
theorem eta (n : Node K V) : (⟨n.id, n.pivots, n.elements⟩ : Node K V) = n := by
  cases n
  rfl

omit [LinearOrder K] in
theorem found_eq (hr : ∀ n, bet.reload n = some n) {loaded : Bool} {n : Node K V} :
    n.found bet loaded = pure n := by
  unfold found
  rw [hr n]
  split <;> rfl

omit [LinearOrder K] in
theorem all_deref {α : Type} {Q : Node K V × α → Prop} {dirty : Bool} {n : Node K V}
    {body : Node K V → BProg (Node K V × α)} (hr : ∀ n, bet.reload n = some n)
    (h : Prog.All Q E (body n)) : Prog.All Q E (n.deref bet dirty body) := by
  intro _ loaded
  show Prog.All Q E (n.found bet loaded >>= fun n => body n >>= _)
  rw [found_eq hr]
  exact h.bind (fun r hr' _ => hr')

omit [LinearOrder K] in
theorem all_derefSize {n : Node K V} (hr : ∀ n, bet.reload n = some n) :
    Prog.All (fun r => r = (n, n.size)) E (n.derefSize bet) :=
  all_deref hr (all_deref hr rfl)

theorem all_putPivot {n : Node K V} {e : K × ChildInfo (Node K V)}
    (hr : ∀ n, bet.reload n = some n) (hs : OrdMap.Sorted (n.pivots ++ [e])) :
    Prog.All (fun r => r = { n with pivots := n.pivots ++ [e] }) E (n.putPivot bet e) := by
  obtain ⟨hn, _, hlt⟩ := OrdMap.sorted_append.mp hs
  have happ : OrdMap.assign n.pivots e.1 e.2 = n.pivots ++ [e] :=
    OrdMap.assign_append hn (fun x hx => hlt x hx e List.mem_cons_self)
  refine Prog.All.bind (Q := fun r => r.1 = { n with pivots := n.pivots ++ [e] })
    (all_deref hr ?_) ?_
  swap
  · exact fun ⟨_, _⟩ hr' => hr'
  exact congrArg (fun ps => (⟨n.id, ps, n.elements⟩ : Node K V)) happ

theorem all_putElement {n : Node K V} {e : MessageKey K × Message V}
    (hr : ∀ n, bet.reload n = some n) (hs : OrdMap.Sorted (n.elements ++ [e])) :
    Prog.All (fun r => r = { n with elements := n.elements ++ [e] }) E (n.putElement bet e) := by
  obtain ⟨hn, _, hlt⟩ := OrdMap.sorted_append.mp hs
  have happ : OrdMap.assign n.elements e.1 e.2 = n.elements ++ [e] :=
    OrdMap.assign_append hn (fun x hx => hlt x hx e List.mem_cons_self)
  refine Prog.All.bind (Q := fun r => r.1 = { n with elements := n.elements ++ [e] })
    (all_deref hr ?_) ?_
  swap
  · exact fun ⟨_, _⟩ hr' => hr'
  exact congrArg (fun es => (⟨n.id, n.pivots, es⟩ : Node K V)) happ

theorem all_putElements {n : Node K V} {es : MessageMap K V} (hr : ∀ n, bet.reload n = some n)
    (hs : OrdMap.Sorted (n.elements ++ es)) :
    Prog.All (fun r => r = { n with elements := n.elements ++ es }) E (putElements bet es n) := by
  induction es generalizing n with
  | nil =>
      show n = ⟨n.id, n.pivots, n.elements ++ []⟩
      rw [List.append_nil, eta]
  | cons e es ih =>
      have hs' : OrdMap.Sorted ((n.elements ++ [e]) ++ es) := by
        rw [List.append_assoc]; exact hs
      rw [putElements]
      refine (all_putElement hr (OrdMap.sorted_append.mp hs').1).bind (fun r hr' => ?_)
      subst hr'
      refine (ih hs').mono (fun r hr' => ?_)
      rw [hr']
      simp

/-! ## Filling one node -/

omit [LinearOrder K] in
theorem append_nil (n : Node K V) : (⟨n.id, n.pivots ++ [], n.elements ++ []⟩ : Node K V) = n := by
  rw [List.append_nil, List.append_nil, eta]

/-- The node can be split: what the invariant says of it, for a node of either kind. -/
structure Splittable (n : Node K V) : Prop where
  pivots : OrdMap.Sorted n.pivots
  elements : OrdMap.Sorted n.elements
  leaf : n.isLeaf = true → n.elements.Pairwise (fun a b => a.1.key < b.1.key)
  covered : n.isLeaf = false → ∀ m ∈ n.elements, ∃ p ∈ n.pivots, p.1 ≤ m.1.key

/-- What a round of filling moves: `ps` and `es`, out of what was left, into `n`. -/
structure Moved (st : SplitState K V) (n : Node K V) (target bound : Nat) (ps : PivotMap K V)
    (es : MessageMap K V) (r : SplitState K V × Node K V) : Prop where
  pivots : st.pivotIdx = ps ++ r.1.pivotIdx
  elements : st.eltIdx = es ++ r.1.eltIdx
  node : r.2 = ⟨n.id, n.pivots ++ ps, n.elements ++ es⟩
  count : r.1.thingsMoved = st.thingsMoved + ps.length + es.length
  /-- The target is reached, unless nothing is left. -/
  reached : r.1.pivotIdx = [] ∧ r.1.eltIdx = [] ∨ target ≤ r.1.thingsMoved
  /-- It is overshot by the messages of one child at most. -/
  overshoot : r.1.thingsMoved ≤ max st.thingsMoved (target + bound)
  idle : target ≤ st.thingsMoved → ps = [] ∧ es = []

/-- The loops of `split` stand in the middle of `this`, with their iterators in step. -/
structure Midway (this : Node K V) (st : SplitState K V) : Prop where
  pivots : st.pivotIdx <:+ this.pivots
  elements : st.eltIdx <:+ this.elements
  inner : this.isLeaf = false →
    st.eltIdx = getElementBeginAt this.elements (st.pivotIdx.head?.map Prod.fst)

omit [LinearOrder K] in
theorem moved_nothing {st : SplitState K V} {n : Node K V} {target bound : Nat}
    (h : st.pivotIdx = [] ∧ st.eltIdx = [] ∨ target ≤ st.thingsMoved) :
    Moved st n target bound [] [] (st, n) :=
  ⟨rfl, rfl, (append_nil n).symm, rfl, h, Nat.le_max_left _ _, fun _ => ⟨rfl, rfl⟩⟩

theorem all_fillElements {n : Node K V} {leaf : Bool} {target : Nat} (bound : Nat)
    {es : MessageMap K V} {moved : Nat} (hr : ∀ n, bet.reload n = some n) (hs : OrdMap.Sorted (n.elements ++ es))
    (hleaf : es ≠ [] → leaf = true) :
    Prog.All (fun r => ∃ es', Moved ⟨[], es, moved⟩ n target bound [] es' r) E
      (fillElements bet leaf target es moved n) := by
  induction es generalizing n moved with
  | nil => exact ⟨[], moved_nothing (Or.inl ⟨rfl, rfl⟩)⟩
  | cons e es ih =>
      have hs' : OrdMap.Sorted ((n.elements ++ [e]) ++ es) := by
        rw [List.append_assoc]; exact hs
      rw [fillElements]
      split
      · rename_i hlt
        refine (Prog.all_require (R := fun _ => True) (hleaf (by simp)) trivial).bind (fun _ _ => ?_)
        refine (all_putElement hr (OrdMap.sorted_append.mp hs').1).bind (fun n' hn' => ?_)
        subst hn'
        refine (ih hs' (fun _ => hleaf (by simp))).mono (fun r hr' => ?_)
        obtain ⟨es', h⟩ := hr'
        refine ⟨e :: es', h.pivots, congrArg (e :: ·) h.elements, ?_, ?_, h.reached, ?_,
          fun hge => absurd hlt (Nat.not_lt.mpr hge)⟩
        · rw [h.node]; simp
        · rw [h.count]; simp only [List.length_cons]; omega
        · have := h.overshoot
          dsimp only at this ⊢
          omega
      · rename_i hlt
        exact ⟨[], moved_nothing (Or.inr (Nat.not_lt.mp hlt))⟩

/-- **One round of filling** moves a prefix of what is left, up to the target. -/
theorem all_fill {this n : Node K V} {target bound : Nat} {ps : PivotMap K V}
    {es : MessageMap K V} {moved : Nat} (hr : ∀ n, bet.reload n = some n) (hthis : Splittable this)
    (hbound : ∀ p ∈ this.pivots, slotCount this p.1 ≤ bound)
    (hmid : Midway this ⟨ps, es, moved⟩) (hps : OrdMap.Sorted (n.pivots ++ ps))
    (hes : OrdMap.Sorted (n.elements ++ es)) :
    Prog.All (fun r => Midway this r.1 ∧ ∃ ps' es', Moved ⟨ps, es, moved⟩ n target bound ps' es' r)
      E (fill bet this target ps es moved n) := by
  induction ps generalizing n es moved with
  | nil =>
      have hleaf : es ≠ [] → this.isLeaf = true := by
        intro hne
        cases hl : this.isLeaf with
        | true => rfl
        | false => exact absurd (hmid.inner hl) hne
      rw [fill]
      refine (all_fillElements bound hr hes hleaf).mono (fun r hr' => ?_)
      obtain ⟨es', h⟩ := hr'
      have hsuf : r.1.eltIdx <:+ es := ⟨es', h.elements.symm⟩
      have hnil : r.1.pivotIdx = [] := h.pivots.symm
      refine ⟨⟨hnil ▸ List.nil_suffix, hsuf.trans hmid.elements, fun hl => ?_⟩, [], es', h⟩
      -- an inner node without pivots left has no elements left either
      have hes' : es = [] := hmid.inner hl
      rw [hnil]
      exact List.suffix_nil.mp (hes' ▸ hsuf)
  | cons e ps ih =>
      obtain ⟨before, hbefore⟩ := hmid.pivots
      have hsort : OrdMap.Sorted (before ++ e :: ps) := hbefore ▸ hthis.pivots
      have hinner : this.isLeaf = false := by
        cases hp : this.pivots with
        | nil => rw [hp] at hbefore; exact absurd hbefore (by simp)
        | cons x xs => simp [isLeaf, hp]
      rw [fill]
      split
      · rename_i hlt
        have helts : es = getElementBeginAt this.elements (some e.1) := hmid.inner hinner
        obtain ⟨batch, hbatch⟩ := getElementBeginAt_suffix hthis.elements hsort
        rw [← helts] at hbatch
        have hrange : OrdMap.range es (getElementBeginAt this.elements (ps.head?.map Prod.fst))
            = batch := by
          rw [← hbatch, OrdMap.range, OrdMap.take_distance]
        have hcount : batch.length ≤ bound := by
          have hslot := range_slot hthis.elements hsort
          rw [← helts, hrange] at hslot
          have he := hbound e (by rw [← hbefore]; simp)
          rw [slotCount, ← hbefore] at he
          rw [hslot]
          exact he
        have hes' : OrdMap.Sorted ((n.elements ++ batch)
            ++ getElementBeginAt this.elements (ps.head?.map Prod.fst)) := by
          rw [List.append_assoc, hbatch]; exact hes
        have hps' : OrdMap.Sorted ((n.pivots ++ [e]) ++ ps) := by
          rw [List.append_assoc]; exact hps
        dsimp only
        rw [hrange]
        refine (all_putPivot hr (OrdMap.sorted_append.mp hps').1).bind (fun n' hn' => ?_)
        subst hn'
        refine (all_putElements (n := ⟨n.id, n.pivots ++ [e], n.elements⟩) hr
          (OrdMap.sorted_append.mp hes').1).bind (fun n' hn' => ?_)
        subst hn'
        have hdrop : es.drop batch.length
            = getElementBeginAt this.elements (ps.head?.map Prod.fst) := by
          rw [← hbatch, List.drop_left]
        rw [hdrop]
        have hmid' : Midway this
            ⟨ps, getElementBeginAt this.elements (ps.head?.map Prod.fst),
              moved + 1 + batch.length⟩ :=
          ⟨⟨before ++ [e], by rw [← hbefore]; simp⟩,
            List.IsSuffix.trans ⟨batch, hbatch⟩ hmid.elements, fun _ => rfl⟩
        refine (ih hmid' hps' hes').mono (fun r hr' => ?_)
        obtain ⟨hm, ps', es', h⟩ := hr'
        refine ⟨hm, e :: ps', batch ++ es', congrArg (e :: ·) h.pivots, ?_, ?_, ?_, h.reached, ?_,
          fun hge => absurd hlt (Nat.not_lt.mpr hge)⟩
        · rw [List.append_assoc, ← h.elements]
          exact hbatch.symm
        · rw [h.node]; simp
        · rw [h.count]; simp only [List.length_cons, List.length_append]; omega
        · have := h.overshoot
          dsimp only at this ⊢
          omega
      · rename_i hlt
        exact ⟨hmid, [], [], moved_nothing (Or.inr (Nat.not_lt.mp hlt))⟩

/-! ## The key of a piece -/

omit [LinearOrder K] in
theorem splitKey_none {st : SplitState K V} (h : splitKey st = none) :
    st.pivotIdx = [] ∧ st.eltIdx = [] := by
  unfold splitKey at h
  split at h
  · exact absurd h (by simp)
  · rename_i hp
    exact ⟨hp, by simpa using h⟩

omit [LinearOrder K] in
theorem splitKey_leaf {st : SplitState K V} {k : K} (h : splitKey st = some k)
    (hp : st.pivotIdx = []) : ∃ m rest, st.eltIdx = m :: rest ∧ m.1.key = k := by
  unfold splitKey at h
  rw [hp] at h
  obtain ⟨m, hm, hk⟩ := Option.map_eq_some_iff.mp h
  obtain ⟨rest, hrest⟩ := List.head?_eq_some_iff.mp hm
  exact ⟨m, rest, hrest, hk⟩

theorem Midway.leaf {this : Node K V} {st : SplitState K V} (h : Midway this st)
    (hl : this.isLeaf = true) : st.pivotIdx = [] := by
  have hp : this.pivots = [] := List.isEmpty_iff.mp hl
  exact List.suffix_nil.mp (hp ▸ h.pivots)

theorem splitKey_inner {this : Node K V} {st : SplitState K V} {k : K} (hmid : Midway this st)
    (hl : this.isLeaf = false) (h : splitKey st = some k) :
    ∃ p rest, st.pivotIdx = p :: rest ∧ p.1 = k := by
  cases hp : st.pivotIdx with
  | nil =>
      obtain ⟨m, rest, hm, _⟩ := splitKey_leaf h hp
      have := hmid.inner hl
      rw [hm, hp] at this
      exact absurd this (by simp [getElementBeginAt])
  | cons p rest =>
      refine ⟨p, rest, rfl, ?_⟩
      unfold splitKey at h
      rw [hp] at h
      injection h

/-- What is left is what lies at or above the next key. -/
theorem Midway.mem_eltIdx {this : Node K V} {st : SplitState K V} {k : K}
    (hthis : Splittable this) (hmid : Midway this st) (h : splitKey st = some k)
    {m : MessageKey K × Message V} (hm : m ∈ this.elements) : m ∈ st.eltIdx ↔ k ≤ m.1.key := by
  cases hl : this.isLeaf with
  | true =>
      obtain ⟨x, rest, hx, hxk⟩ := splitKey_leaf h (hmid.leaf hl)
      obtain ⟨es, hes⟩ := hmid.elements
      have hkeys := hthis.leaf hl
      rw [← hes, hx] at hkeys hm
      obtain ⟨_, hcons, hlt⟩ := List.pairwise_append.mp hkeys
      rw [hx]
      refine ⟨fun hmx => ?_, fun hk => ?_⟩
      · rcases List.mem_cons.mp hmx with rfl | hmx
        · exact le_of_eq hxk.symm
        · exact hxk ▸ le_of_lt ((List.pairwise_cons.mp hcons).1 m hmx)
      · rcases List.mem_append.mp hm with hm | hm
        · exact absurd (hlt m hm x List.mem_cons_self) (not_lt.mpr (hxk ▸ hk))
        · exact hm
  | false =>
      obtain ⟨p, rest, hp, rfl⟩ := splitKey_inner hmid hl h
      rw [hmid.inner hl, hp]
      show m ∈ getElementBegin this.elements p.1 ↔ _
      rw [mem_getElementBegin hthis.elements]
      exact and_iff_right hm

theorem Midway.le_pivotIdx {this : Node K V} {st : SplitState K V} {k : K}
    (hthis : Splittable this) (hmid : Midway this st) (h : splitKey st = some k)
    {p : K × ChildInfo (Node K V)} (hp : p ∈ st.pivotIdx) : k ≤ p.1 := by
  cases hl : this.isLeaf with
  | true => rw [hmid.leaf hl] at hp; exact absurd hp (by simp)
  | false =>
      obtain ⟨x, rest, hx, rfl⟩ := splitKey_inner hmid hl h
      have hs := hthis.pivots.sublist hmid.pivots.sublist
      rw [hx] at hp hs
      rcases List.mem_cons.mp hp with rfl | hp
      · exact le_refl _
      · exact le_of_lt ((OrdMap.sorted_cons.mp hs).1 p hp)

/-! ## The pieces -/

/-- A new node and its key: the key is its first one, and everything in it is at or above. -/
structure Piece (leaf : Bool) (e : K × Node K V) : Prop where
  pivots : ∀ p ∈ e.2.pivots, e.1 ≤ p.1
  elements : ∀ m ∈ e.2.elements, e.1 ≤ m.1.key
  ofLeaf : leaf = true → e.2.pivots = [] ∧ ∃ m ∈ e.2.elements, m.1.key = e.1
  ofInner : leaf = false → ∃ p ∈ e.2.pivots, p.1 = e.1

/-- Everything in the node lies below `k`. -/
structure Below (e : K × Node K V) (k : K) : Prop where
  key : e.1 < k
  pivots : ∀ p ∈ e.2.pivots, p.1 < k
  elements : ∀ m ∈ e.2.elements, m.1.key < k

/-- The pieces made so far, in order, together with what is left, are `this`. -/
structure Partition (this : Node K V) (st : SplitState K V) (pieces : List (K × Node K V)) :
    Prop where
  pivots : pieces.flatMap (fun e => e.2.pivots) ++ st.pivotIdx = this.pivots
  elements : pieces.flatMap (fun e => e.2.elements) ++ st.eltIdx = this.elements
  ordered : pieces.Pairwise (fun a b => Below a b.1)
  below : ∀ e ∈ pieces, ∀ k, splitKey st = some k → Below e k
  piece : ∀ e ∈ pieces, Piece this.isLeaf e

/-- A round that starts below its target makes a piece. -/
theorem Moved.piece {this : Node K V} {st : SplitState K V} {k : K} {id target bound : Nat}
    {ps : PivotMap K V} {es : MessageMap K V} {r : SplitState K V × Node K V}
    (hthis : Splittable this) (hmid : Midway this st) (hmid' : Midway this r.1)
    (hk : splitKey st = some k) (hlt : st.thingsMoved < target)
    (h : Moved st ⟨id, [], []⟩ target bound ps es r) : Piece this.isLeaf (k, r.2) := by
  have hnode : r.2 = ⟨id, ps, es⟩ := h.node
  have hsub : es ⊆ st.eltIdx := fun m hm => by rw [h.elements]; exact List.mem_append_left _ hm
  have hmem : ∀ m ∈ es, m ∈ this.elements := fun m hm => hmid.elements.subset (hsub hm)
  rw [hnode]
  refine ⟨fun p hp => ?_, fun m hm => ?_, fun hl => ?_, fun hl => ?_⟩
  · exact hmid.le_pivotIdx hthis hk (by rw [h.pivots]; exact List.mem_append_left _ hp)
  · exact (hmid.mem_eltIdx hthis hk (hmem m hm)).mp (hsub hm)
  · have hps : ps = [] := by
      have := h.pivots
      rw [hmid.leaf hl] at this
      exact (List.append_eq_nil_iff.mp this.symm).1
    obtain ⟨m, rest, hm, hmk⟩ := splitKey_leaf hk (hmid.leaf hl)
    refine ⟨hps, m, ?_, hmk⟩
    -- the first element left has been moved, or nothing was
    have helts := h.elements
    rw [hm] at helts
    cases es with
    | nil =>
        rcases h.reached with ⟨_, hnil⟩ | hge
        · rw [hnil] at helts; exact absurd helts (by simp)
        · rw [h.count, hps] at hge
          simp only [List.length_nil, Nat.add_zero] at hge
          omega
    | cons x es =>
        injection helts with hx _
        rw [hx]
        exact List.mem_cons_self
  · obtain ⟨p, rest, hp, hpk⟩ := splitKey_inner hmid hl hk
    refine ⟨p, ?_, hpk⟩
    have hpiv := h.pivots
    rw [hp] at hpiv
    cases ps with
    | nil =>
        -- without a pivot no element is moved, so the target would have been reached before
        have hidx : r.1.pivotIdx = st.pivotIdx := by rw [hp]; exact hpiv.symm
        have hes : es = [] := by
          have hsame : r.1.eltIdx = st.eltIdx := by
            rw [hmid'.inner hl, hmid.inner hl, hidx]
          have := congrArg List.length h.elements
          rw [List.length_append, hsame] at this
          exact List.length_eq_zero_iff.mp (by omega)
        rcases h.reached with ⟨hnil, _⟩ | hge
        · rw [hidx, hp] at hnil; exact absurd hnil (by simp)
        · rw [h.count, hes] at hge
          simp only [List.length_nil, Nat.add_zero] at hge
          omega
    | cons x ps =>
        injection hpiv with hx _
        rw [hx]
        exact List.mem_cons_self

/-- What a round moves lies below what it leaves. -/
theorem Moved.below {this : Node K V} {st : SplitState K V} {k k' : K} {id target bound : Nat}
    {ps : PivotMap K V} {es : MessageMap K V} {r : SplitState K V × Node K V}
    (hthis : Splittable this) (hmid : Midway this st) (hmid' : Midway this r.1)
    (hp : Piece this.isLeaf (k, r.2)) (hk' : splitKey r.1 = some k')
    (h : Moved st ⟨id, [], []⟩ target bound ps es r) : Below (k, r.2) k' := by
  have hnode : r.2 = ⟨id, ps, es⟩ := h.node
  have hes : ∀ m ∈ es, m.1.key < k' := by
    intro m hm
    have hs := hthis.elements.sublist hmid.elements.sublist
    rw [h.elements] at hs
    have hmem : m ∈ this.elements := hmid.elements.subset (by
      rw [h.elements]; exact List.mem_append_left _ hm)
    -- a message at or above the next key would still be left
    refine lt_of_not_ge (fun hge => ?_)
    have hleft := (hmid'.mem_eltIdx hthis hk' hmem).mpr hge
    exact absurd ((OrdMap.sorted_append.mp hs).2.2 m hm m hleft) (lt_irrefl _)
  have hps : ∀ p ∈ ps, p.1 < k' := by
    intro p hp
    have hs := hthis.pivots.sublist hmid.pivots.sublist
    rw [h.pivots] at hs
    cases hl : this.isLeaf with
    | true =>
        have := h.pivots
        rw [hmid.leaf hl] at this
        rw [(List.append_eq_nil_iff.mp this.symm).1] at hp
        exact absurd hp (by simp)
    | false =>
        obtain ⟨x, rest, hx, rfl⟩ := splitKey_inner hmid' hl hk'
        rw [hx] at hs
        exact (OrdMap.sorted_append.mp hs).2.2 p hp x List.mem_cons_self
  rw [hnode] at hp ⊢
  refine ⟨?_, hps, hes⟩
  cases hl : this.isLeaf with
  | true =>
      obtain ⟨m, hm, hmk⟩ := (hp.ofLeaf hl).2
      exact hmk ▸ hes m hm
  | false =>
      obtain ⟨p, hp, hpk⟩ := hp.ofInner hl
      exact hpk ▸ hps p hp

/-- The partition after a round that makes a piece. -/
theorem Partition.snoc {this : Node K V} {st : SplitState K V} {k : K} {id target bound : Nat}
    {ps : PivotMap K V} {es : MessageMap K V} {r : SplitState K V × Node K V}
    {pieces : List (K × Node K V)} (hthis : Splittable this) (hmid : Midway this st)
    (hmid' : Midway this r.1) (hk : splitKey st = some k) (hlt : st.thingsMoved < target)
    (h : Moved st ⟨id, [], []⟩ target bound ps es r) (hpart : Partition this st pieces) :
    Partition this r.1 (pieces ++ [(k, r.2)]) := by
  have hpiece := h.piece hthis hmid hmid' hk hlt
  have hnode : r.2 = ⟨id, ps, es⟩ := h.node
  have hbelow : ∀ k', splitKey r.1 = some k' → Below (k, r.2) k' :=
    fun k' hk' => h.below hthis hmid hmid' hpiece hk'
  refine ⟨?_, ?_, ?_, fun e he k' hk' => ?_, fun e he => ?_⟩
  · rw [← hpart.pivots, h.pivots, List.flatMap_append, hnode]
    simp
  · rw [← hpart.elements, h.elements, List.flatMap_append, hnode]
    simp
  · refine List.pairwise_append.mpr ⟨hpart.ordered, List.pairwise_singleton _ _, ?_⟩
    intro a ha b hb
    rw [List.mem_singleton.mp hb]
    exact hpart.below a ha k hk
  · rcases List.mem_append.mp he with he | he
    · have hb := hpart.below e he k hk
      have hkk := (hbelow k' hk').key
      exact ⟨lt_trans hb.key hkk, fun p hp => lt_trans (hb.pivots p hp) hkk,
        fun m hm => lt_trans (hb.elements m hm) hkk⟩
    · rw [List.mem_singleton.mp he]
      exact hbelow k' hk'
  · rcases List.mem_append.mp he with he | he
    · exact hpart.piece e he
    · rw [List.mem_singleton.mp he]
      exact hpiece

/-! ## The outer loop -/

/-- The pieces of a result that is all there. -/
theorem Partition.sorted {this : Node K V} {st : SplitState K V} {done : PivotMap K V}
    (h : Partition this st (subtrees done)) : OrdMap.Sorted done := by
  have := h.ordered
  rw [subtrees, List.pairwise_map] at this
  exact this.imp (fun hb => hb.key)

theorem Partition.sorted_snoc {this : Node K V} {st : SplitState K V} {done : PivotMap K V}
    {k : K} {c : ChildInfo (Node K V)} (h : Partition this st (subtrees done))
    (hk : splitKey st = some k) : OrdMap.Sorted (done ++ [(k, c)]) := by
  refine OrdMap.sorted_append.mpr ⟨h.sorted, OrdMap.sorted_singleton _, fun x hx y hy => ?_⟩
  rw [List.mem_singleton.mp hy]
  exact (h.below (x.1, x.2.child) (List.mem_map.mpr ⟨x, hx, rfl⟩) k hk).key

/-- Where the outer loop stands after `i` rounds: `done` are the pieces that are kept. -/
structure Rounds (this : Node K V) (things bound i : Nat) (st : SplitState K V)
    (done result : PivotMap K V) : Prop where
  /-- An empty node may stand under the key of the next piece. -/
  result : result = done ∨ ∃ k c, splitKey st = some k ∧ result = done ++ [(k, c)]
  midway : Midway this st
  partition : Partition this st (subtrees done)
  count : st.thingsMoved + st.pivotIdx.length + st.eltIdx.length = this.size
  reached : st.pivotIdx = [] ∧ st.eltIdx = [] ∨ i * things ≤ st.thingsMoved
  pieces : done.length ≤ i
  sizes : ∀ e ∈ done, e.2.child.size ≤ things + bound

/-- The entry of a round takes the place of an empty node left by the one before. -/
theorem Rounds.assign {this : Node K V} {things bound i : Nat} {st : SplitState K V}
    {done result : PivotMap K V} {k : K} {c : ChildInfo (Node K V)}
    (h : Rounds this things bound i st done result) (hk : splitKey st = some k) :
    OrdMap.assign result k c = done ++ [(k, c)] := by
  have hs := fun c => h.partition.sorted_snoc (c := c) hk
  rcases h.result with hres | ⟨k', c', hk', hres⟩
  · rw [hres]
    obtain ⟨hd, _, hlt⟩ := OrdMap.sorted_append.mp (hs c)
    exact OrdMap.assign_append hd (fun e he => hlt e he (k, c) List.mem_cons_self)
  · rw [hk] at hk'
    injection hk' with hk'
    subst hk'
    rw [hres]
    exact OrdMap.assign_last (hs c')

/-- One round of the outer loop. -/
theorem Rounds.step {this : Node K V} {things bound i id : Nat} (size : Nat) {st : SplitState K V}
    {done result : PivotMap K V} {k : K} {ps : PivotMap K V} {es : MessageMap K V}
    {r : SplitState K V × Node K V} (hthis : Splittable this)
    (h : Rounds this things bound i st done result) (hk : splitKey st = some k)
    (hmid' : Midway this r.1)
    (hmoved : Moved st ⟨id, [], []⟩ ((i + 1) * things) bound ps es r) :
    ∃ done', Rounds this things bound (i + 1) r.1 done' (OrdMap.assign result k ⟨r.2, size⟩) := by
  have hcount : r.1.thingsMoved + r.1.pivotIdx.length + r.1.eltIdx.length = this.size := by
    have hc := h.count
    rw [hmoved.pivots, hmoved.elements, List.length_append, List.length_append] at hc
    rw [hmoved.count]
    omega
  rw [h.assign hk]
  by_cases hlt : st.thingsMoved < (i + 1) * things
  · refine ⟨done ++ [(k, ⟨r.2, size⟩)], Or.inl rfl, hmid', ?_, hcount, hmoved.reached, ?_,
      fun e he => ?_⟩
    · rw [subtrees, List.map_append]
      exact h.partition.snoc hthis h.midway hmid' hk hlt hmoved
    · have := h.pieces
      rw [List.length_append]
      exact Nat.succ_le_succ this
    · rcases List.mem_append.mp he with he | he
      · exact h.sizes e he
      · rw [List.mem_singleton.mp he]
        have hsize : r.2.size = ps.length + es.length := by rw [hmoved.node]; rfl
        have hover := hmoved.overshoot
        rw [hmoved.count] at hover
        rcases h.reached with ⟨hp, he⟩ | hge
        · rw [splitKey, hp, he] at hk
          exact absurd hk (by simp)
        · show r.2.size ≤ things + bound
          rw [Nat.succ_mul] at hlt hover
          omega
  · -- the target has been passed already: the new node stays empty, and its key is used again
    have hge := Nat.not_lt.mp hlt
    obtain ⟨rfl, rfl⟩ := hmoved.idle hge
    have hst : r.1 = st := by
      have hp : st.pivotIdx = r.1.pivotIdx := hmoved.pivots
      have he : st.eltIdx = r.1.eltIdx := hmoved.elements
      have hc : r.1.thingsMoved = st.thingsMoved := hmoved.count
      rcases r with ⟨⟨a, b, c⟩, n⟩
      rcases st with ⟨a', b', c'⟩
      dsimp only at hp he hc
      rw [hp, he, hc]
    refine ⟨done, Or.inr ⟨k, _, by rw [hst]; exact hk, rfl⟩, hmid', by rw [hst]; exact h.partition,
      hcount, hmoved.reached, Nat.le_succ_of_le h.pieces, h.sizes⟩

theorem all_enterResult {result : PivotMap K V} {k : K} {n : Node K V}
    (hr : ∀ n, bet.reload n = some n) :
    Prog.All (fun r => r.1 = n) E (enterResult bet result k n) := by
  refine all_deref hr (all_deref hr ?_)
  split
  · exact fun _ => rfl
  · exact rfl

/-- Once nothing is left, the result is the pieces that are kept. -/
theorem Rounds.finished {this : Node K V} {things bound i j : Nat} {st : SplitState K V}
    {done result : PivotMap K V} (h : Rounds this things bound i st done result) (hj : i ≤ j)
    (hempty : st.pivotIdx = [] ∧ st.eltIdx = []) :
    Rounds this things bound j st result result := by
  rcases h.result with hres | ⟨k, c, hk, _⟩
  · rw [hres]
    exact ⟨Or.inl rfl, h.midway, h.partition, h.count, Or.inl hempty,
      Nat.le_trans h.pieces hj, h.sizes⟩
  · rw [splitKey, hempty.1, hempty.2] at hk
    exact absurd hk (by simp)

/-- **The outer loop** leaves nothing behind, when the last target is the whole node. -/
theorem all_splitLoop {this : Node K V} {things bound left i : Nat} {st : SplitState K V}
    {done result : PivotMap K V} (hr : ∀ n, bet.reload n = some n) (hthis : Splittable this)
    (hbound : ∀ p ∈ this.pivots, slotCount this p.1 ≤ bound)
    (hall : this.size ≤ (i + left) * things) (h : Rounds this things bound i st done result) :
    Prog.All (fun r => (r.1.pivotIdx = [] ∧ r.1.eltIdx = [])
        ∧ Rounds this things bound (i + left) r.1 r.2 r.2) E
      (splitLoop bet this things left i st result) := by
  induction left generalizing i st done result with
  | zero =>
      -- every round filled its target, and the targets add up to the node
      have hempty : st.pivotIdx = [] ∧ st.eltIdx = [] := by
        rcases h.reached with hempty | hge
        · exact hempty
        · have hc := h.count
          rw [Nat.add_zero] at hall
          exact ⟨List.length_eq_zero_iff.mp (by omega), List.length_eq_zero_iff.mp (by omega)⟩
      exact ⟨hempty, h.finished (Nat.le_refl i) hempty⟩
  | succ left ih =>
      rw [splitLoop]
      split
      · rename_i hnone
        have hempty := splitKey_none hnone
        exact ⟨hempty, h.finished (Nat.le_add_right _ _) hempty⟩
      · rename_i k hk
        intro id
        refine (all_enterResult hr).bind (fun ⟨n, size⟩ hn => ?_)
        have hn : n = ⟨id, [], []⟩ := hn
        subst hn
        have hps : OrdMap.Sorted ((⟨id, [], []⟩ : Node K V).pivots ++ st.pivotIdx) :=
          hthis.pivots.sublist h.midway.pivots.sublist
        have hes : OrdMap.Sorted ((⟨id, [], []⟩ : Node K V).elements ++ st.eltIdx) :=
          hthis.elements.sublist h.midway.elements.sublist
        refine (all_fill hr hthis hbound h.midway hps hes).bind (fun ⟨st', n'⟩ hr' => ?_)
        obtain ⟨hmid', ps', es', hmoved⟩ := hr'
        obtain ⟨done', h'⟩ := h.step size hthis hk hmid' hmoved
        rw [show i + (left + 1) = i + 1 + left by omega] at hall ⊢
        exact ih hall h'

omit [LinearOrder K] in
theorem all_refreshSizes {ps : PivotMap K V} (hr : ∀ n, bet.reload n = some n) :
    Prog.All (fun r => r = ps.map (fun e => (e.1, ⟨e.2.child, e.2.child.size⟩))) E
      (refreshSizes bet ps) := by
  induction ps with
  | nil => exact rfl
  | cons e ps ih =>
      rw [refreshSizes]
      refine (all_derefSize hr).bind (fun ⟨child, size⟩ hc => ?_)
      refine ih.bind (fun ps' hps' => ?_)
      injection hc with hc hs
      subst hc hs hps'
      exact rfl

/-! ## The counts -/

/-- `num_new_leaves` for a node of the given size. -/
def numNewLeaves (maxNodeSize size : Nat) : Nat := size / leafQuota maxNodeSize

/-- `things_per_new_leaf` for a node of the given size. -/
def thingsPerNewLeaf (size num : Nat) : Nat := (size + num - 1) / num

theorem leafQuota_le (m : Nat) : leafQuota m ≤ m := by
  have : 10 * m % 2 ^ 64 ≤ 10 * m := Nat.mod_le _ _
  unfold leafQuota
  omega

theorem ceilDiv_bounds (size : Nat) {num : Nat} (hnum : 0 < num) :
    size ≤ num * ((size + num - 1) / num) ∧ num * ((size + num - 1) / num) ≤ size + num - 1 := by
  have hdiv := Nat.div_add_mod (size + num - 1) num
  have hmod := Nat.mod_lt (size + num - 1) hnum
  refine ⟨?_, ?_⟩ <;> omega

theorem all_toInt {size v : Nat} {Q : Nat → Prop} (hv : 2 ^ 31 ≤ v → 2 ^ 30 ≤ size)
    (h : v < 2 ^ 31 → Q v) : Prog.All Q (Fault.TooLarge size) (toInt size v : BProg Nat) := by
  unfold toInt
  split
  · rename_i hlt
    exact h hlt
  · rename_i hge
    exact ⟨hv (Nat.not_lt.mp hge), Or.inl rfl⟩

omit [LinearOrder K] in
/-- The divisions are by positive numbers and the targets cover the node. -/
theorem all_splitCounts {size : Nat} (hM : 3 ≤ bet.maxNodeSize) (hsize : bet.maxNodeSize ≤ size) :
    Prog.All (fun r => r.1 = numNewLeaves bet.maxNodeSize size ∧ r.2 = thingsPerNewLeaf size r.1
        ∧ 0 < r.1 ∧ size ≤ r.1 * r.2 ∧ size < 2 ^ 31) (Fault.TooLarge size)
      (splitCounts bet size : BProg (Nat × Nat)) := by
  have hq := leafQuota_le bet.maxNodeSize
  unfold splitCounts
  by_cases hzero : leafQuota bet.maxNodeSize = 0
  · -- only a multiple of `max_node_size` that wraps around gives a divisor of zero
    rw [if_pos hzero]
    refine ⟨?_, Or.inr rfl⟩
    by_contra hlt
    unfold leafQuota at hzero
    rw [Nat.mod_eq_of_lt (by omega)] at hzero
    omega
  · rw [if_neg hzero]
    unfold numNewLeaves
    have hnum : 0 < size / leafQuota bet.maxNodeSize :=
      Nat.div_pos (Nat.le_trans hq hsize) (Nat.pos_of_ne_zero hzero)
    have hnumle : size / leafQuota bet.maxNodeSize ≤ size := Nat.div_le_self _ _
    generalize size / leafQuota bet.maxNodeSize = num at hnum hnumle ⊢
    obtain ⟨hcover, htop⟩ := ceilDiv_bounds size hnum
    have hthings := Nat.le_mul_of_pos_left ((size + num - 1) / num) hnum
    refine (all_toInt (by omega) (fun _ => rfl)).bind (fun num hn => ?_)
    subst hn
    rw [if_neg (Nat.pos_iff_ne_zero.mp hnum)]
    refine (all_toInt (by omega) (fun _ => rfl)).bind (fun things ht => ?_)
    subst ht
    refine (all_toInt (Q := fun _ => size < 2 ^ 31) (by omega) (by omega)).bind (fun _ hfits => ?_)
    exact ⟨rfl, rfl, hnum, hcover, hfits⟩

/-! ## `split` -/

/-- What `split` makes of a node whose children have at most `bound` buffered messages each. -/
structure IsSplit (maxNodeSize : Nat) (this : Node K V) (bound : Nat) (res : PivotMap K V) :
    Prop where
  partition : Partition this ⟨[], [], this.size⟩ (subtrees res)
  count : res.length ≤ numNewLeaves maxNodeSize this.size
  size : ∀ e ∈ res, e.2.child.size
    ≤ thingsPerNewLeaf this.size (numNewLeaves maxNodeSize this.size) + bound
  childSize : ∀ e ∈ res, e.2.childSize = e.2.child.size
  /-- The products of the counts are `int`s. -/
  fits : this.size < 2 ^ 31

/-- The loops start at the beginning of the node, in step. -/
theorem Splittable.start {this : Node K V} {things bound : Nat} (h : Splittable this) :
    Rounds this things bound 0 ⟨this.pivots, this.elements, 0⟩ [] [] := by
  refine ⟨Or.inl rfl, ⟨List.suffix_refl _, List.suffix_refl _, fun hl => ?_⟩,
    ⟨rfl, rfl, List.Pairwise.nil, by simp [subtrees], by simp [subtrees]⟩, ?_,
    Or.inr (by simp), Nat.le_refl 0, by simp⟩
  · -- every element of an inner node is at or above its first pivot
    cases hp : this.pivots with
    | nil => exact absurd (List.isEmpty_iff.mpr hp) (by simpa [isLeaf] using hl)
    | cons e ps =>
        show this.elements = OrdMap.lowerBound this.elements (.rangeStart e.1)
        rw [OrdMap.lowerBound_eq h.elements]
        refine (List.filter_eq_self.mpr (fun m hm => ?_)).symm
        rw [decide_eq_true_eq, MessageKey.rangeStart_le]
        obtain ⟨p, hpm, hpk⟩ := h.covered hl m hm
        have hs := h.pivots
        rw [hp] at hpm hs
        rcases List.mem_cons.mp hpm with rfl | hpm
        · exact hpk
        · exact le_trans (le_of_lt ((OrdMap.sorted_cons.mp hs).1 p hpm)) hpk
  · simp [size]

/-- **`split` empties the node**, and gives its pieces. -/
theorem all_split_emptied {this : Node K V} {bound : Nat} (hr : ∀ n, bet.reload n = some n)
    (hM : 3 ≤ bet.maxNodeSize) (hsize : bet.maxNodeSize ≤ this.size) (hthis : Splittable this)
    (hbound : ∀ p ∈ this.pivots, slotCount this p.1 ≤ bound) :
    Prog.All (fun r => r.1 = ⟨this.id, [], []⟩ ∧ IsSplit bet.maxNodeSize this bound r.2)
      (Fault.TooLarge this.size) (this.split bet) := by
  refine (Prog.all_require (R := fun _ => True) (decide_eq_true hsize) trivial).bind (fun _ _ => ?_)
  refine (all_splitCounts hM hsize).bind (fun ⟨num, things⟩ hcounts => ?_)
  obtain ⟨hnum, hthings, _, hcover, hfits⟩ := hcounts
  dsimp only at hnum hthings hcover
  refine (all_splitLoop hr hthis hbound (by rw [Nat.zero_add]; exact hcover) hthis.start).bind
    (fun ⟨st, result⟩ hloop => ?_)
  obtain ⟨⟨hp, he⟩, hrounds⟩ := hloop
  dsimp only at hp he hrounds
  refine (all_refreshSizes hr).bind (fun res hres => ?_)
  -- the two assertions after the loop: nothing is left to move
  refine (Prog.all_require (R := fun _ => True) (by simp [hp]) trivial).bind (fun _ _ => ?_)
  refine (Prog.all_require (R := fun _ => True) (by simp [he]) trivial).bind (fun _ _ => ?_)
  -- refreshing the sizes leaves keys and children alone
  have hsub : subtrees res = subtrees result := by
    rw [hres, subtrees, subtrees, List.map_map]
    rfl
  have hpart := hrounds.partition
  refine ⟨rfl, ⟨?_, ?_, ?_, fun e he' k hk => ?_, ?_⟩, ?_, fun e he' => ?_, fun e he' => ?_, hfits⟩
  · have := hpart.pivots
    rw [hp] at this
    rw [hsub]
    exact this
  · have := hpart.elements
    rw [he] at this
    rw [hsub]
    exact this
  · rw [hsub]; exact hpart.ordered
  · exact absurd hk (by simp [splitKey])
  · rw [hsub]; exact hpart.piece
  · rw [hres, List.length_map, ← hnum]
    have := hrounds.pieces
    rwa [Nat.zero_add] at this
  · rw [hres] at he'
    obtain ⟨x, hx, rfl⟩ := List.mem_map.mp he'
    rw [← hnum, ← hthings]
    exact hrounds.sizes x hx
  · rw [hres] at he'
    obtain ⟨x, hx, rfl⟩ := List.mem_map.mp he'
    rfl

/-- The pieces of a split, where the faults of the whole tree are the ones that count. -/
theorem all_split {this : Node K V} {bound : Nat} (hr : ∀ n, bet.reload n = some n)
    (hM : 3 ≤ bet.maxNodeSize) (hsize : bet.maxNodeSize ≤ this.size) (hthis : Splittable this)
    (hbound : ∀ p ∈ this.pivots, slotCount this p.1 ≤ bound) :
    Prog.All (fun r => IsSplit bet.maxNodeSize this bound r.2) Fault.Excluded (this.split bet) :=
  (all_split_emptied hr hM hsize hthis hbound).imp (fun _ hr => hr.2)
    (fun _ he => Or.inr (Or.inr ⟨_, he⟩))

/-! ## The partition, in terms of the node -/

/-- The maps of the node are in order, and its messages are where they belong. -/
structure WellFormed (n : Node K V) : Prop where
  pivots : OrdMap.Sorted n.pivots
  elements : OrdMap.Sorted n.elements
  /-- A leaf has one `INSERT` per key. -/
  leaf : n.isLeaf = true →
    (∀ m ∈ n.elements, m.2.opcode = .insert) ∧ n.elements.Pairwise (fun a b => a.1.key ≠ b.1.key)
  /-- An inner node has nothing buffered below its first pivot. -/
  inner : ∀ p, n.pivots.head? = some p → ∀ m ∈ n.elements, p.1 ≤ m.1.key

/-- The children, in the order of their keys, are the node cut into pieces. -/
structure ExactPartition (this : Node K V) (result : PivotMap K V) : Prop where
  pivots : result.flatMap (fun e => e.2.child.pivots) = this.pivots
  elements : result.flatMap (fun e => e.2.child.elements) = this.elements
  nonempty : ∀ e ∈ result, 0 < e.2.child.size
  leaf : ∀ e ∈ result, e.2.child.isLeaf = this.isLeaf
  keys : result.Pairwise (fun a b => a.1 < b.1)
  firstPivot : this.isLeaf = false → ∀ e ∈ result, e.2.child.pivots.head?.map Prod.fst = some e.1
  firstElement : this.isLeaf = true →
    ∀ e ∈ result, e.2.child.elements.head?.map (fun m => m.1.key) = some e.1
  above : ∀ e ∈ result, ∀ m ∈ e.2.child.elements, e.1 ≤ m.1.key
  below : result.Pairwise (fun a b => ∀ m ∈ a.2.child.elements, m.1.key < b.1)

theorem WellFormed.splittable {n : Node K V} (h : WellFormed n) : Splittable n := by
  refine ⟨h.pivots, h.elements, fun hl => ?_, fun hl m hm => ?_⟩
  · -- the keys are different, so they are in the order of the message keys
    refine (h.elements.and (h.leaf hl).2).imp (fun hab => ?_)
    rcases MessageKey.lt_iff.mp hab.1 with hlt | ⟨heq, _⟩
    · exact hlt
    · exact absurd heq hab.2
  · cases hp : n.pivots with
    | nil => exact absurd (List.isEmpty_iff.mpr hp) (by simpa [isLeaf] using hl)
    | cons p ps => exact ⟨p, List.mem_cons_self, h.inner p (by rw [hp]; rfl) m hm⟩

/-- An entry of a sorted list with nothing below it comes first. -/
theorem head?_of_least {α : Type} {f : α → K} {l : List α} {k : K}
    (hs : l.Pairwise (fun a b => f a < f b)) (hle : ∀ a ∈ l, k ≤ f a) (hk : ∃ a ∈ l, f a = k) :
    l.head?.map f = some k := by
  obtain ⟨a, ha, hak⟩ := hk
  cases l with
  | nil => exact absurd ha (by simp)
  | cons b l =>
      rcases List.mem_cons.mp ha with rfl | ha
      · exact congrArg some hak
      · have hlt := List.rel_of_pairwise_cons hs ha
        rw [hak] at hlt
        exact absurd (hle b List.mem_cons_self) (not_le_of_gt hlt)

/-- What the loops keep is the partition, when they are done. -/
theorem IsSplit.exactPartition {this : Node K V} {bound : Nat} {res : PivotMap K V}
    (hthis : Splittable this) (h : IsSplit bet.maxNodeSize this bound res) :
    ExactPartition this res := by
  have hpiece : ∀ e ∈ res, Piece this.isLeaf (e.1, e.2.child) := fun e he =>
    h.partition.piece _ (List.mem_map.mpr ⟨e, he, rfl⟩)
  have hordered : res.Pairwise (fun a b => Below (a.1, a.2.child) b.1) := by
    have := h.partition.ordered
    rwa [subtrees, List.pairwise_map] at this
  have hpivots : res.flatMap (fun e => e.2.child.pivots) = this.pivots := by
    have := h.partition.pivots
    rwa [subtrees, List.flatMap_map, List.append_nil] at this
  have helements : res.flatMap (fun e => e.2.child.elements) = this.elements := by
    have := h.partition.elements
    rwa [subtrees, List.flatMap_map, List.append_nil] at this
  -- a piece is a stretch of the node, so its maps are as sorted as the node's
  have hsub : ∀ e ∈ res, e.2.child.pivots.Sublist this.pivots
      ∧ e.2.child.elements.Sublist this.elements := by
    intro e he
    rw [← hpivots, ← helements]
    exact ⟨List.sublist_flatten_of_mem (List.mem_map_of_mem he),
      List.sublist_flatten_of_mem (List.mem_map_of_mem he)⟩
  refine ⟨hpivots, helements, fun e he => ?_, fun e he => ?_, hordered.imp (fun hb => hb.key),
    fun hl e he => ?_, fun hl e he => ?_, fun e he => (hpiece e he).elements,
    hordered.imp (fun hb => hb.elements)⟩
  · unfold Node.size
    cases hl : this.isLeaf with
    | true =>
        obtain ⟨_, m, hm, _⟩ := (hpiece e he).ofLeaf hl
        have : 0 < e.2.child.elements.length := List.length_pos_of_mem hm
        omega
    | false =>
        obtain ⟨p, hp, _⟩ := (hpiece e he).ofInner hl
        have : 0 < e.2.child.pivots.length := List.length_pos_of_mem hp
        omega
  · cases hl : this.isLeaf with
    | true => exact List.isEmpty_iff.mpr ((hpiece e he).ofLeaf hl).1
    | false =>
        obtain ⟨p, hp, _⟩ := (hpiece e he).ofInner hl
        exact List.isEmpty_eq_false_iff.mpr (List.ne_nil_of_mem hp)
  · exact head?_of_least (hthis.pivots.sublist (hsub e he).1) (hpiece e he).pivots
      ((hpiece e he).ofInner hl)
  · obtain ⟨_, m, hm, hk⟩ := (hpiece e he).ofLeaf hl
    exact head?_of_least ((hthis.leaf hl).sublist (hsub e he).2) (hpiece e he).elements ⟨m, hm, hk⟩

end Node

/--
**`split` is an exact ordered partition.** It returns, leaves the node empty, and the
children it gives are the pieces of the node, none of them empty.
-/
theorem split_partitions (bet : Params K V) (hr : ∀ n, bet.reload n = some n)
    (hM : 3 ≤ bet.maxNodeSize) (n : Node K V) (hn : n.WellFormed)
    (hsize : bet.maxNodeSize ≤ n.size) (hint : n.size < 2 ^ 30) :
    Prog.All (fun r => r.1 = ⟨n.id, [], []⟩ ∧ n.ExactPartition r.2) (fun _ => False)
      (n.split bet) := by
  have hbound : ∀ p ∈ n.pivots, n.slotCount p.1 ≤ n.elements.length :=
    fun p _ => List.length_filter_le _ _
  refine (Node.all_split_emptied hr hM hsize hn.splittable hbound).imp
    (fun r hres => ⟨hres.1, hres.2.exactPartition hn.splittable⟩) (fun e he => ?_)
  exact absurd he.1 (by omega)

/-- An inner node of two pivots, with a message for each child. -/
theorem split_partitions_inner :
    let n : Node Nat Nat := ⟨1, [(0, ⟨⟨2, [], []⟩, 0⟩), (5, ⟨⟨3, [], []⟩, 0⟩)],
      [(⟨0, 1⟩, ⟨.update, 7⟩), (⟨6, 2⟩, ⟨.delete, 0⟩)]⟩
    Prog.All (fun r => r.1 = ⟨n.id, [], []⟩ ∧ n.ExactPartition r.2) (fun _ => False)
      (n.split ⟨3, 0, 0, some⟩) := by
  intro n
  refine split_partitions ⟨3, 0, 0, some⟩ (fun _ => rfl) (by decide) n ⟨?_, ?_, ?_, ?_⟩ (by decide)
    (by decide)
  · exact OrdMap.sorted_cons.mpr ⟨by simp, OrdMap.sorted_singleton _⟩
  · exact OrdMap.sorted_cons.mpr ⟨by simp [MessageKey.lt_iff], OrdMap.sorted_singleton _⟩
  · exact fun hl => absurd hl (by decide)
  · intro p hp m _
    injection hp with hp
    rw [← hp]
    exact Nat.zero_le _

end BeTree
