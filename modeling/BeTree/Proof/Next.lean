import BeTree.Proof.Upsert

/-!
# `get_next_message` finds the next message

`IsNext ms mkey r` says that `r` is the smallest of the messages `ms` above `mkey`,
or of all of them when there is no `mkey`, and `none` when there is no such
message. A node's buffer, the children one after another, and the two together
each give the next of the messages they hold.
-/

namespace BeTree

open Node

variable {K V : Type} [LinearOrder K] {fresh : Prop} {bet : Params K V} {h : Nat} {R : K → Prop}
  {n : Node K V} {E : Fault → Prop} {mkey : Option (MessageKey K)}

/-- The message key lies above `mkey`; nothing is asked when there is none. -/
def Above (mkey : Option (MessageKey K)) (m : MessageKey K) : Prop := ∀ k, mkey = some k → k < m

/-- The smallest message above `mkey`. -/
def IsNext (ms : MessageMap K V) (mkey : Option (MessageKey K)) :
    Option (MessageKey K × Message V) → Prop
  | none => ∀ m ∈ ms, ¬ Above mkey m.1
  | some x => x ∈ ms ∧ Above mkey x.1 ∧ ∀ m ∈ ms, Above mkey m.1 → x.1 ≤ m.1

theorem above_none (m : MessageKey K) : Above none m := fun _ hk => absurd hk (by simp)

theorem above_some {k m : MessageKey K} : Above (some k) m ↔ k < m := by
  refine ⟨fun h => h k rfl, fun h k' hk' => ?_⟩
  injection hk' with hk'
  exact hk' ▸ h

/-! ## One map -/

theorem mem_elementsAfter (mkey : Option (MessageKey K)) {es : MessageMap K V} (hs : OrdMap.Sorted es)
    {m : MessageKey K × Message V} : m ∈ elementsAfter es mkey ↔ m ∈ es ∧ Above mkey m.1 := by
  cases mkey with
  | none => exact ⟨fun hm => ⟨hm, above_none _⟩, And.left⟩
  | some k =>
      rw [elementsAfter, OrdMap.upperBound_eq hs, List.mem_filter, decide_eq_true_eq, above_some]

theorem sorted_elementsAfter (mkey : Option (MessageKey K)) {es : MessageMap K V} (hs : OrdMap.Sorted es) :
    OrdMap.Sorted (elementsAfter es mkey) := by
  cases mkey with
  | none => exact hs
  | some k => rw [elementsAfter, OrdMap.upperBound_eq hs]; exact hs.filter _

/-- In a map, the next message is the first one after `mkey`. -/
theorem isNext_head (mkey : Option (MessageKey K)) {es : MessageMap K V} (hs : OrdMap.Sorted es) :
    IsNext es mkey (elementsAfter es mkey).head? := by
  have hsort := sorted_elementsAfter mkey hs
  cases hl : elementsAfter es mkey with
  | nil =>
      intro m hm habove
      have hmem := (mem_elementsAfter mkey hs).mpr ⟨hm, habove⟩
      rw [hl] at hmem
      exact absurd hmem (by simp)
  | cons x rest =>
      rw [hl] at hsort
      obtain ⟨hx, habove⟩ := (mem_elementsAfter mkey hs).mp
        (by rw [hl]; exact List.mem_cons_self)
      refine ⟨hx, habove, fun m hm hm' => ?_⟩
      have hmem := (mem_elementsAfter mkey hs).mpr ⟨hm, hm'⟩
      rw [hl] at hmem
      rcases List.mem_cons.mp hmem with rfl | hmem
      · exact le_refl _
      · exact le_of_lt ((OrdMap.sorted_cons.mp hsort).1 m hmem)

/-- A sorted list of the same messages has the same next one. -/
theorem IsNext.eq_head {ms es : MessageMap K V} {r : Option (MessageKey K × Message V)}
    (hr : IsNext ms mkey r) (hs : OrdMap.Sorted es) (hmem : ∀ m, m ∈ es ↔ m ∈ ms) :
    r = (elementsAfter es mkey).head? := by
  have hhead := isNext_head mkey hs
  cases r with
  | none =>
      cases hh : (elementsAfter es mkey).head? with
      | none => rfl
      | some y =>
          rw [hh] at hhead
          exact absurd hhead.2.1 (hr y ((hmem y).mp hhead.1))
  | some x =>
      cases hh : (elementsAfter es mkey).head? with
      | none =>
          rw [hh] at hhead
          exact absurd hr.2.1 (hhead x ((hmem x).mpr hr.1))
      | some y =>
          rw [hh] at hhead
          have hxy : x.1 = y.1 := le_antisymm
            (hr.2.2 y ((hmem y).mp hhead.1) hhead.2.1) (hhead.2.2 x ((hmem x).mpr hr.1) hr.2.1)
          rw [hs.eq_of_key ((hmem x).mpr hr.1) hhead.1 hxy]

/-! ## Putting two sources together -/

/-- The earlier of the next messages of two sources is the next message of both. -/
theorem IsNext.earlier {a b : MessageMap K V} {own kids : Option (MessageKey K × Message V)}
    (ha : IsNext a mkey own) (hb : IsNext b mkey kids) {ms : MessageMap K V}
    (hms : ∀ m, m ∈ ms ↔ m ∈ a ∨ m ∈ b) : IsNext ms mkey (earlierMessage own kids) := by
  cases own with
  | none =>
      cases kids with
      | none =>
          intro m hm
          rcases (hms m).mp hm with hm | hm
          · exact ha m hm
          · exact hb m hm
      | some y =>
          refine ⟨(hms y).mpr (Or.inr hb.1), hb.2.1, fun m hm habove => ?_⟩
          rcases (hms m).mp hm with hm | hm
          · exact absurd habove (ha m hm)
          · exact hb.2.2 m hm habove
  | some x =>
      cases kids with
      | none =>
          refine ⟨(hms x).mpr (Or.inl ha.1), ha.2.1, fun m hm habove => ?_⟩
          rcases (hms m).mp hm with hm | hm
          · exact ha.2.2 m hm habove
          · exact absurd habove (hb m hm)
      | some y =>
          -- the smaller of the two is below everything the other source has
          unfold earlierMessage
          dsimp only
          split
          · rename_i hlt
            refine ⟨(hms y).mpr (Or.inr hb.1), hb.2.1, fun m hm habove => ?_⟩
            rcases (hms m).mp hm with hm | hm
            · exact le_trans (le_of_lt hlt) (ha.2.2 m hm habove)
            · exact hb.2.2 m hm habove
          · rename_i hlt
            refine ⟨(hms x).mpr (Or.inl ha.1), ha.2.1, fun m hm habove => ?_⟩
            rcases (hms m).mp hm with hm | hm
            · exact ha.2.2 m hm habove
            · exact le_trans (not_lt.mp hlt) (hb.2.2 m hm habove)

/-! ## The children -/

/-- The messages under a list of pivots. -/
def below (ps : PivotMap K V) : MessageMap K V := ps.flatMap (fun e => e.2.child.messages)

omit [LinearOrder K] in
theorem mem_below {ps : PivotMap K V} {m : MessageKey K × Message V} :
    m ∈ below ps ↔ ∃ p ∈ ps, m ∈ p.2.child.messages := List.mem_flatMap

/-- The children are asked in order, so the first answer is the smallest. -/
theorem all_nextInChildren {ps : PivotMap K V}
    {next : Node K V → BProg (Node K V × Option (MessageKey K × Message V))}
    (hr : ∀ n, bet.reload n = some n)
    (hord : ps.Pairwise (fun a b => ∀ x ∈ a.2.child.messages, ∀ y ∈ b.2.child.messages, x.1 < y.1))
    (hnext : ∀ e ∈ ps, Prog.All (fun r => r.1 = e.2.child ∧ IsNext e.2.child.messages mkey r.2) E
      (next e.2.child)) :
    Prog.All (fun r => r.1 = ps ∧ IsNext (below ps) mkey r.2) E (nextInChildren bet next ps) := by
  induction ps with
  | nil => exact ⟨rfl, fun m hm => absurd hm (by simp [below])⟩
  | cons e ps ih =>
      obtain ⟨he, hord'⟩ := List.pairwise_cons.mp hord
      have hsplit : ∀ m, m ∈ below (e :: ps) ↔ m ∈ e.2.child.messages ∨ m ∈ below ps := by
        intro m
        rw [below, List.flatMap_cons, List.mem_append]
        rfl
      rw [nextInChildren]
      refine (all_deref hr (hnext e List.mem_cons_self)).bind (fun ⟨child, r⟩ hres => ?_)
      obtain ⟨hc, hfirst⟩ := hres
      dsimp only at hc hfirst
      subst hc
      cases r with
      -- the children after this one hold larger messages only
      | some m =>
          refine ⟨rfl, (hsplit m).mpr (Or.inl hfirst.1), hfirst.2.1, fun m' hm' habove => ?_⟩
          rcases (hsplit m').mp hm' with hm' | hm'
          · exact hfirst.2.2 m' hm' habove
          · obtain ⟨p, hp, hm'⟩ := mem_below.mp hm'
            exact le_of_lt (he p hp m hfirst.1 m' hm')
      | none =>
          refine (ih hord' (fun x hx => hnext x (List.mem_cons_of_mem _ hx))).bind
            (fun ⟨ps', r⟩ hres => ?_)
          obtain ⟨hps, hrest⟩ := hres
          dsimp only at hps hrest
          subst hps
          refine ⟨rfl, ?_⟩
          have hboth := IsNext.earlier hfirst hrest hsplit
          exact hboth

/-- Messages under an earlier pivot are smaller than those under a later one. -/
theorem Forest.ordered {ps : PivotMap K V} (hf : Forest (Inv fresh h) R ps) :
    ps.Pairwise (fun a b => ∀ x ∈ a.2.child.messages, ∀ y ∈ b.2.child.messages, x.1 < y.1) := by
  refine hf.sorted.imp_of_mem (fun {a b} ha hb hlt x hx y hy => ?_)
  have hxs := ((hf.child a ha).messages_range x hx).2
  have hys := ((hf.child b hb).messages_range y hy).2
  exact MessageKey.lt_iff.mpr (Or.inl (lt_of_lt_of_le (hxs.2 b hb hlt) hys.1))

/-- All children are asked: below the first pivot, every message of theirs is above `mkey`. -/
theorem all_nextFromFirst
    {next : Node K V → BProg (Node K V × Option (MessageKey K × Message V))}
    (hr : ∀ n, bet.reload n = some n) (hn : Inner fresh (Inv fresh h) R n)
    (hnext : ∀ e ∈ n.pivots,
      Prog.All (fun r => r.1 = e.2.child ∧ IsNext e.2.child.messages none r.2) E (next e.2.child))
    (hall : ∀ m ∈ below n.pivots, Above mkey m.1) :
    Prog.All (fun r => r.1 = n.pivots ∧ IsNext (below n.pivots) mkey r.2) E
      (nextInChildren bet next n.pivots) := by
  refine (all_nextInChildren hr hn.forest.ordered hnext).mono (fun ⟨ps, r⟩ hres => ?_)
  obtain ⟨hps, hnx⟩ := hres
  refine ⟨hps, ?_⟩
  cases r with
  | none => exact fun m hm => absurd (above_none _) (hnx m hm)
  | some x => exact ⟨hnx.1, hall x hnx.1, fun m hm _ => hnx.2.2 m hm (above_none _)⟩

/-- The child responsible for the key and the ones behind it are asked. -/
theorem all_nextFromCursor {m : MessageKey K} {c : OrdMap.Cursor K (ChildInfo (Node K V))}
    {next : Node K V → BProg (Node K V × Option (MessageKey K × Message V))}
    (hr : ∀ n, bet.reload n = some n) (hn : Inner fresh (Inv fresh h) R n)
    (hnext : ∀ e ∈ n.pivots,
      Prog.All (fun r => r.1 = e.2.child ∧ IsNext e.2.child.messages (some m) r.2) E
        (next e.2.child))
    (hmap : c.toMap = n.pivots) (hslot : Slot n.pivots c.key m.key) :
    Prog.All (fun r => c.before ++ r.1 = n.pivots ∧ IsNext (below n.pivots) (some m) r.2) E
      (nextInChildren bet next ((c.key, c.val) :: c.after)) := by
  have hpiv : c.before ++ (c.key, c.val) :: c.after = n.pivots := hmap
  have hord := hn.forest.ordered
  have hsort := hn.forest.sorted
  rw [← hpiv] at hord hsort
  refine (all_nextInChildren hr (List.pairwise_append.mp hord).2.1
    (fun e he => hnext e (hpiv ▸ List.mem_append_right _ he))).mono (fun ⟨ps, r⟩ hres => ?_)
  obtain ⟨hps, hnx⟩ := hres
  dsimp only at hps hnx
  refine ⟨by rw [hps, hpiv], ?_⟩
  -- the children in front hold keys below the slot only
  have hbefore : IsNext (below c.before) (some m) none := by
    intro x hx habove
    obtain ⟨p, hp, hx⟩ := mem_below.mp hx
    have hpm : p ∈ n.pivots := hpiv ▸ List.mem_append_left _ hp
    have hpc : p.1 < c.key :=
      (OrdMap.sorted_append.mp hsort).2.2 p hp (c.key, c.val) List.mem_cons_self
    have hxs := ((hn.forest.child p hpm).messages_range x hx).2
    have hlt : x.1.key < m.key := lt_of_lt_of_le
      (hxs.2 (c.key, c.val) (hpiv ▸ List.mem_append_right _ List.mem_cons_self) hpc) hslot.1
    exact absurd (above_some.mp habove)
      (not_lt_of_gt (MessageKey.lt_iff.mpr (Or.inl hlt)))
  refine IsNext.earlier hbefore hnx (fun x => ?_)
  rw [below, ← hpiv, List.flatMap_append, List.mem_append]
  rfl

theorem all_nextFromChildren
    {next : Option (MessageKey K) → Node K V →
      BProg (Node K V × Option (MessageKey K × Message V))}
    (hr : ∀ n, bet.reload n = some n) (hn : Inner fresh (Inv fresh h) R n)
    (hnext : ∀ mkey, ∀ e ∈ n.pivots,
      Prog.All (fun r => r.1 = e.2.child ∧ IsNext e.2.child.messages mkey r.2) E
        (next mkey e.2.child)) :
    Prog.All (fun r => r.1 = n ∧ IsNext (below n.pivots) mkey r.2) E
      (n.getNextMessageFromChildren bet next mkey) := by
  obtain ⟨e, rest, hp⟩ := List.exists_cons_of_ne_nil hn.nonempty
  unfold getNextMessageFromChildren
  split
  · rename_i hnone
    -- the key asked for is below the first pivot, so every child is above it
    have hall : ∀ m ∈ below n.pivots, Above mkey m.1 := by
      intro x hx k hk
      have hbelow : k.key < e.1 := by
        rw [hk] at hnone
        simpa [belowFirstPivot, hp] using hnone
      obtain ⟨p, hpm, hx⟩ := mem_below.mp hx
      have hxs := ((hn.forest.child p hpm).messages_range x hx).2
      have hs := hn.forest.sorted
      have hep : e.1 ≤ p.1 := by
        rw [hp] at hpm hs
        rcases List.mem_cons.mp hpm with rfl | hpm
        · exact le_refl _
        · exact le_of_lt ((OrdMap.sorted_cons.mp hs).1 p hpm)
      exact MessageKey.lt_iff.mpr (Or.inl (lt_of_lt_of_le hbelow (le_trans hep hxs.1)))
    refine (all_nextFromFirst hr hn (hnext none) hall).bind (fun ⟨ps, r⟩ hres => ?_)
    obtain ⟨hps, hnx⟩ := hres
    dsimp only at hps hnx
    subst hps
    exact ⟨eta n, hnx⟩
  · rename_i m hm
    -- the children before the one that holds the key have nothing above it
    obtain ⟨rfl, hge⟩ := Option.filter_eq_some_iff.mp hm
    have hle : e.1 ≤ m.key := by simpa [belowFirstPivot, hp] using hge
    obtain ⟨c, hget, hmap, hslot⟩ := getPivot_spec hn.forest.sorted
      ⟨e, by rw [hp]; exact List.mem_cons_self, hle⟩
    rw [hget]
    refine (all_nextFromCursor hr hn (hnext (some m)) hmap hslot).bind (fun ⟨ps, r⟩ hres => ?_)
    obtain ⟨hps, hnx⟩ := hres
    dsimp only at hps hnx
    refine ⟨?_, hnx⟩
    show (⟨n.id, c.before ++ ps, n.elements⟩ : Node K V) = n
    rw [hps]
    exact eta n

/-- **`get_next_message`** gives the next message of the subtree, and stops with no fault. -/
theorem all_getNextMessage {fuel : Nat} (hr : ∀ n, bet.reload n = some n) (hfuel : h < fuel)
    (hn : Inv fresh h R n) (mkey : Option (MessageKey K)) :
    Prog.All (fun r => r.1 = n ∧ IsNext n.messages mkey r.2) E
      (n.getNextMessage bet fuel mkey) := by
  induction fuel generalizing h R n mkey with
  | zero => exact absurd hfuel (Nat.not_lt_zero _)
  | succ fuel ih =>
      rw [getNextMessage]
      cases h with
      | zero =>
          have hl : n.isLeaf = true := by rw [hn.isLeaf]; rfl
          have hmem : ∀ m, m ∈ n.messages ↔ m ∈ n.elements := by
            intro m
            rw [mem_messages, hn.1]
            simp
          have hnx := isNext_head mkey hn.2.sorted
          dsimp only
          rw [if_pos hl]
          refine ⟨rfl, ?_⟩
          show IsNext n.messages mkey (elementsAfter n.elements mkey).head?
          cases hh : (elementsAfter n.elements mkey).head? with
          | none =>
              rw [hh] at hnx
              exact fun m hm => hnx m ((hmem m).mp hm)
          | some x =>
              rw [hh] at hnx
              exact ⟨(hmem x).mpr hnx.1, hnx.2.1, fun m hm => hnx.2.2 m ((hmem m).mp hm)⟩
      | succ h =>
          have hl : n.isLeaf = false := by rw [hn.isLeaf]; rfl
          have hinner : Inner fresh (Inv fresh h) R n := hn
          dsimp only
          rw [hl]
          refine (all_nextFromChildren hr hinner (fun k e he =>
            ih (Nat.lt_of_succ_lt_succ hfuel) (hinner.forest.child e he) k)).bind
            (fun ⟨n', kids⟩ hres => ?_)
          obtain ⟨hn', hkids⟩ := hres
          dsimp only at hn' hkids
          refine ⟨hn', ?_⟩
          exact (isNext_head mkey hinner.buffer.sorted).earlier hkids (fun m => by
            rw [mem_messages, mem_below])

end BeTree
