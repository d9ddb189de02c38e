import BeTree.Tree.Read
import BeTree.Proof.Flush

/-!
# `query` gives the value of a key

A query of a tree that keeps the invariant stops with no fault, changes nothing,
and answers with `value`, the messages on the path to the key's leaf applied from
the bottom up. The normal form of a key's messages is what makes the opcode
asserts hold.
-/

namespace BeTree

open Node

variable {K V : Type} [LinearOrder K] {fresh : Prop} {bet : Params K V} {h : Nat} {R : K → Prop}
  {n : Node K V}
  {k : K} {E : Fault → Prop}

/-! ## The messages of the key -/

/-- From `range_start` on: the messages of the key, and then those of larger keys. -/
theorem getElementBegin_eq {es : MessageMap K V} (hs : OrdMap.Sorted es) :
    getElementBegin es k = ofKey es k ++ es.filter (fun e => decide (k < e.1.key)) := by
  refine OrdMap.Sorted.ext ?_ ?_ (fun e => ?_)
  · rw [getElementBegin, OrdMap.lowerBound_eq hs]
    exact hs.filter _
  · refine OrdMap.sorted_append.mpr ⟨sorted_ofKey hs, hs.filter _, fun x hx y hy => ?_⟩
    have hy' : k < y.1.key := by simpa using (List.mem_filter.mp hy).2
    exact MessageKey.lt_iff.mpr (Or.inl ((mem_ofKey.mp hx).2 ▸ hy'))
  · rw [mem_getElementBegin hs, List.mem_append, mem_ofKey, List.mem_filter, decide_eq_true_eq,
      ← and_or_left]
    refine and_congr_right (fun _ => ?_)
    rw [le_iff_eq_or_lt]
    exact or_congr_left eq_comm

/-- A value with some updates applied. -/
def addUpdates [Add V] (v : V) (us : MessageMap K V) : V := us.foldl (fun v e => v + e.2.val) v

omit [LinearOrder K] in
/-- Updates of a value that is there. -/
theorem denote_updates [Add V] {d v : V} {us : MessageMap K V}
    (hu : ∀ u ∈ opcodes us, u = .update) : denote d us (some v) = some (addUpdates v us) := by
  induction us generalizing v with
  | nil => rfl
  | cons e us ih =>
      have he : e.2.opcode = .update := hu _ List.mem_cons_self
      show denote d us (e.2.act d (some v)) = some (addUpdates (v + e.2.val) us)
      rw [Message.act, he]
      exact ih (fun u hu' => hu u (List.mem_cons_of_mem _ hu'))

/-- `applyUpdates` applies the updates of the key and stops at the next key. -/
theorem all_applyUpdates [Add V] {v : V} (us : MessageMap K V) {rest : MessageMap K V}
    (hk : ∀ e ∈ us, e.1.key = k)
    (hu : ∀ u ∈ opcodes us, u = .update) (hrest : ∀ e ∈ rest, k < e.1.key) :
    Prog.All (fun r => r = addUpdates v us) E (applyUpdates k v (us ++ rest) : BProg V) := by
  induction us generalizing v with
  | nil =>
      cases rest with
      | nil => exact rfl
      | cons e rest =>
          rw [List.nil_append, applyUpdates,
            if_neg (by simpa using ne_of_gt (hrest e List.mem_cons_self))]
          exact rfl
  | cons e us ih =>
      have he : e.2.opcode = .update := hu _ List.mem_cons_self
      rw [List.cons_append, applyUpdates, if_pos (by simpa using hk e List.mem_cons_self)]
      refine (Prog.all_require (R := fun _ => True) (by simp [he]) trivial).bind (fun _ _ => ?_)
      exact ih (fun x hx => hk x (List.mem_cons_of_mem _ hx))
        (fun u hu' => hu u (List.mem_cons_of_mem _ hu'))

/-! ## Leaves -/

theorem all_queryLeaf [Add V] {d : V} (hn : Inv fresh 0 R n) :
    Prog.All (fun r => r = (n, value d 0 n k)) E (n.queryLeaf k) := by
  have hbuf : Buffer fresh true R n.elements := hn.2
  have hlist := getElementBegin_eq (k := k) hbuf.sorted
  have hrest : ∀ e ∈ n.elements.filter (fun e => decide (k < e.1.key)), k < e.1.key :=
    fun e he => by simpa using (List.mem_filter.mp he).2
  have hval : value d 0 n k = denote d (ofKey n.elements k) none := rfl
  unfold queryLeaf
  rw [show OrdMap.lowerBound n.elements (.rangeStart k) = getElementBegin n.elements k from rfl,
    hlist, hval]
  rcases hbuf.form (Or.inl rfl) k with hform | hform
  · -- no message of the key: the first one found is of a larger key
    rw [List.map_eq_nil_iff.mp hform, List.nil_append]
    cases hf : n.elements.filter (fun e => decide (k < e.1.key)) with
    | nil => exact rfl
    | cons e rest =>
        have hlt := hrest e (by rw [hf]; exact List.mem_cons_self)
        dsimp only
        rw [if_neg (by simpa using ne_of_gt hlt)]
        exact rfl
  · obtain ⟨e, hl, he⟩ := List.map_eq_singleton_iff.mp hform
    have hek : e.1.key = k := (mem_ofKey.mp (by rw [hl]; exact List.mem_cons_self)).2
    rw [hl, List.cons_append]
    dsimp only
    rw [if_pos (by simpa using hek)]
    refine (Prog.all_require (R := fun _ => True) (by simp [he]) trivial).bind (fun _ _ => ?_)
    show (n, some e.2.val) = (n, e.2.act d none)
    rw [Message.act, he]

/-! ## Inner nodes -/

omit [LinearOrder K] in
theorem setChild_same {c : OrdMap.Cursor K (ChildInfo (Node K V))} (hc : c.toMap = n.pivots) :
    n.setChild c c.val.child = n := by
  unfold setChild
  rw [show c.set { c.val with child := c.val.child } = c.toMap from rfl, hc]
  exact eta n

theorem all_queryChild [Add V] {d : V} {q : Node K V → BProg (Node K V × Option V)}
    (hr : ∀ n, bet.reload n = some n) (hn : Inner fresh (Inv fresh h) R n)
    (hq : ∀ p ∈ n.pivots,
      Prog.All (fun r => r = (p.2.child, value d h p.2.child k)) E (q p.2.child)) :
    Prog.All (fun r => r = (n, forestValue (value d h) n.pivots k)) E (n.queryChild bet q k) := by
  unfold queryChild
  by_cases hex : ∃ e ∈ n.pivots, e.1 ≤ k
  · obtain ⟨c, hget, hmap, hslot⟩ := getPivot_spec hn.forest.sorted hex
    have hmem : (c.key, c.val) ∈ n.pivots := hmap ▸ c.mem_toMap
    rw [hget]
    refine (all_deref hr (hq _ hmem)).bind (fun ⟨child, r⟩ hres => ?_)
    injection hres with hc hv
    subst hc hv
    show (_, _) = (_, _)
    rw [setChild_same hmap, forestValue_of_slot hn.forest.sorted hmem hslot]
  · have hbelow : ∀ e ∈ n.pivots, k < e.1 :=
      fun e he => lt_of_not_ge (fun hle => hex ⟨e, he, hle⟩)
    rw [getPivot_below hn.nonempty hbelow]
    show (_, _) = (_, _)
    rw [forestValue_of_below hn.forest.sorted hbelow]

theorem all_queryInner [Add V] {q : Node K V → BProg (Node K V × Option V)}
    (hr : ∀ n, bet.reload n = some n) (hn : Inner fresh (Inv fresh h) R n)
    (hform : InnerForm (opcodes (ofKey n.elements k)))
    (hq : ∀ p ∈ n.pivots, Prog.All
      (fun r => r = (p.2.child, value bet.defaultValue h p.2.child k)) E (q p.2.child)) :
    Prog.All (fun r => r = (n, value bet.defaultValue (h + 1) n k)) E (n.queryInner bet q k) := by
  have hlist := getElementBegin_eq (k := k) hn.buffer.sorted
  have hrest : ∀ e ∈ n.elements.filter (fun e => decide (k < e.1.key)), k < e.1.key :=
    fun e he => by simpa using (List.mem_filter.mp he).2
  have hkey : ∀ e ∈ ofKey n.elements k, e.1.key = k := fun e he => (mem_ofKey.mp he).2
  have hchild := all_queryChild (d := bet.defaultValue) (E := E) hr hn hq
  have hval : value bet.defaultValue (h + 1) n k = denote bet.defaultValue (ofKey n.elements k)
      (forestValue (value bet.defaultValue h) n.pivots k) := rfl
  unfold queryInner
  rw [hlist, hval]
  generalize ofKey n.elements k = own at hform hkey ⊢
  generalize n.elements.filter (fun e => decide (k < e.1.key)) = rest at hrest ⊢
  cases own with
  | nil =>
      -- no messages for this key, so search further down the tree
      cases rest with
      | nil => exact hchild
      | cons e rest =>
          show Prog.All _ _ (if k < e.1.key then _ else _)
          rw [if_pos (hrest e List.mem_cons_self)]
          refine hchild.bind (fun ⟨n', r⟩ hres => ?_)
          injection hres with hn' hr'
          subst hn'
          rw [← hr']
          cases r with
          | none => exact rfl
          | some v =>
              refine (all_applyUpdates [] (by simp) (by simp [opcodes]) hrest).bind
                (fun v' hv' => ?_)
              rw [hv']
              exact rfl
  | cons e own =>
      have hek : e.1.key = k := hkey e List.mem_cons_self
      have hown : ∀ x ∈ own, x.1.key = k := fun x hx => hkey x (List.mem_cons_of_mem _ hx)
      have hform' : InnerForm (e.2.opcode :: opcodes own) := hform
      show Prog.All _ _ (if k < e.1.key then _ else _)
      rw [if_neg (by rw [hek]; exact lt_irrefl _)]
      cases ho : e.2.opcode with
      | update =>
          rw [ho] at hform'
          refine hchild.bind (fun ⟨n', r⟩ hres => ?_)
          injection hres with hn' hr'
          subst hn'
          refine (all_applyUpdates (e :: own) hkey (fun u hu => ?_) hrest).bind
            (fun v hv => ?_)
          · rcases List.mem_cons.mp hu with rfl | hu
            · exact ho
            · exact hform' u hu
          · rw [hv, ← hr']
            show (_, _) = (_, denote _ own (e.2.act _ r))
            rw [Message.act, ho]
            dsimp only
            rw [denote_updates hform']
            rfl
      | delete =>
          rw [ho] at hform'
          have hact : ∀ old, denote bet.defaultValue (e :: own) old
              = denote bet.defaultValue own none := by
            intro old
            show denote _ own (e.2.act _ old) = _
            rw [Message.act, ho]
          rw [hact]
          cases own with
          | nil =>
              cases rest with
              | nil => exact rfl
              | cons x rest =>
                  show Prog.All _ _ (if k < x.1.key then _ else _)
                  rw [if_pos (hrest x List.mem_cons_self)]
                  exact rfl
          | cons x own =>
              have hxk : x.1.key = k := hown x List.mem_cons_self
              have hxo : x.2.opcode = .update := hform' _ List.mem_cons_self
              show Prog.All _ _ (if k < x.1.key then _ else _)
              rw [if_neg (by rw [hxk]; exact lt_irrefl _)]
              refine (all_applyUpdates (x :: own) hown hform' hrest).bind (fun v hv => ?_)
              rw [hv]
              show (_, _) = (_, denote _ own (x.2.act _ none))
              rw [Message.act, hxo]
              dsimp only
              rw [denote_updates (fun u hu => hform' u (List.mem_cons_of_mem _ hu))]
              rfl
      | insert =>
          rw [ho] at hform'
          have hnil : own = [] := List.map_eq_nil_iff.mp hform'
          subst hnil
          refine (all_applyUpdates [] (by simp) (by simp [opcodes]) hrest).bind
            (fun v hv => ?_)
          rw [hv]
          show (_, _) = (_, e.2.act _ _)
          rw [Message.act, ho]
          rfl

/-- `query` in a tree whose inner nodes hold the messages of the key in normal form. -/
theorem all_query_of_forms [Add V] {fuel : Nat} (hr : ∀ n, bet.reload n = some n) (hfuel : h < fuel)
    (hn : Inv fresh h R n)
    (hform : ∀ x ∈ n.nodes, x.isLeaf = false → InnerForm (opcodes (ofKey x.elements k))) :
    Prog.All (fun r => r = (n, value bet.defaultValue h n k)) E (n.query bet fuel k) := by
  induction fuel generalizing h R n with
  | zero => exact absurd hfuel (Nat.not_lt_zero _)
  | succ fuel ih =>
      rw [query]
      cases h with
      | zero =>
          have hl : n.isLeaf = true := by rw [hn.isLeaf]; rfl
          rw [if_pos hl]
          exact all_queryLeaf hn
      | succ h =>
          have hl : n.isLeaf = false := by rw [hn.isLeaf]; rfl
          have hinner : Inner fresh (Inv fresh h) R n := hn
          rw [forall_nodes] at hform
          rw [hl]
          exact all_queryInner hr hinner (hform.1 hl)
            (fun p hp => ih (Nat.lt_of_succ_lt_succ hfuel) (hinner.forest.child p hp) (hform.2 p hp))

theorem Inv.innerForm (hfresh : fresh) (hn : Inv fresh h R n) (k : K) :
    ∀ x ∈ n.nodes, x.isLeaf = false → InnerForm (opcodes (ofKey x.elements k)) := by
  induction h generalizing R n with
  | zero =>
      rw [nodes_eq, hn.1]
      intro x hx hl
      rw [List.mem_singleton.mp hx, hn.isLeaf] at hl
      exact absurd hl (by simp)
  | succ h ih =>
      refine forall_nodes.mpr ⟨fun _ => hn.buffer.form (Or.inr hfresh) k, fun p hp => ?_⟩
      exact ih (hn.forest.child p hp)

/-- **`query`** answers with the value of the key, and stops with no fault. -/
theorem all_query [Add V] {fuel : Nat} (hfresh : fresh) (hr : ∀ n, bet.reload n = some n) (hfuel : h < fuel)
    (hn : Inv fresh h R n) :
    Prog.All (fun r => r = (n, value bet.defaultValue h n k)) E (n.query bet fuel k) :=
  all_query_of_forms hr hfuel hn (hn.innerForm hfresh k)

end BeTree
