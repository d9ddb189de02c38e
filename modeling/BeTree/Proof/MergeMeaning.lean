import BeTree.Proof.Merge

/-!
# Merging children keeps the meaning

Two subtrees for the keys of `A` and of `B`, all of `A` below all of `B`, can be laid side
by side in one node: it keeps the invariant for both, and has the values of both. The node
that a run is merged into is made of its children in this way, from right to left.

A key between the range of one child and the first pivot of the next one is then routed to
a grandchild that has nothing for it, so its value is still none.
-/

namespace BeTree

open Node

variable {K V : Type} [LinearOrder K] {fresh : Prop} {h : Nat} {A B R : K → Prop} {k : K}

/-! ## Side by side -/

/-- The keys of `A` are below the keys of `B`. -/
def Below (A B : K → Prop) : Prop := ∀ x y, A x → B y → x < y

theorem Below.not_left (hAB : Below A B) (hk : B k) : ¬ A k := fun ha => lt_irrefl _ (hAB k k ha hk)

section Messages

variable {as bs : MessageMap K V}

/-- Of two buffers side by side, one has all messages of a key. -/
theorem ofKey_beside_left (hb : ∀ e ∈ bs, B e.1.key) (hk : ¬ B k) :
    ofKey (as ++ bs) k = ofKey as k := by
  have hnone : ofKey bs k = [] := ofKey_eq_nil (fun e he heq => hk (heq ▸ hb e he))
  rw [ofKey_append, hnone, List.append_nil]

theorem ofKey_beside_right (hAB : Below A B) (ha : ∀ e ∈ as, A e.1.key) (hk : B k) :
    ofKey (as ++ bs) k = ofKey bs k := by
  have hnone : ofKey as k = [] :=
    ofKey_eq_nil (fun e he heq => hAB.not_left hk (heq ▸ ha e he))
  rw [ofKey_append, hnone, List.nil_append]

/-- The messages of a key have every form that they have on both sides. -/
theorem opcodes_beside {F : List Opcode → Prop} (hAB : Below A B) (ha : ∀ e ∈ as, A e.1.key)
    (hb : ∀ e ∈ bs, B e.1.key) (hfa : F (opcodes (ofKey as k))) (hfb : F (opcodes (ofKey bs k))) :
    F (opcodes (ofKey (as ++ bs) k)) := by
  by_cases hk : B k
  · rw [ofKey_beside_right hAB ha hk]
    exact hfb
  · rw [ofKey_beside_left hb hk]
    exact hfa

end Messages

theorem Buffer.beside {leaf : Bool} {as bs : MessageMap K V} (hAB : Below A B)
    (ha : Buffer fresh leaf A as) (hb : Buffer fresh leaf B bs) :
    Buffer fresh leaf (fun k => A k ∨ B k) (as ++ bs) := by
  refine ⟨?_, ?_, ?_, ?_, ?_⟩
  · refine OrdMap.sorted_append.mpr ⟨ha.sorted, hb.sorted, fun x hx y hy => ?_⟩
    exact MessageKey.lt_iff.mpr (.inl (hAB _ _ (ha.range x hx) (hb.range y hy)))
  · exact List.forall_mem_append.mpr ⟨ha.stamp, hb.stamp⟩
  · exact fun hf => List.forall_mem_append.mpr ⟨ha.positive hf, hb.positive hf⟩
  · exact List.forall_mem_append.mpr
      ⟨fun e he => .inl (ha.range e he), fun e he => .inr (hb.range e he)⟩
  · exact fun hl k => opcodes_beside hAB ha.range hb.range (ha.form hl k) (hb.form hl k)

theorem Forest.beside {P : (K → Prop) → Node K V → Prop} (hP : RangeMono P) {ps qs : PivotMap K V}
    (hAB : Below A B) (ha : Forest P A ps) (hb : Forest P B qs) :
    Forest P (fun k => A k ∨ B k) (ps ++ qs) := by
  refine ⟨?_, ?_, ?_⟩
  · exact OrdMap.sorted_append.mpr ⟨ha.sorted, hb.sorted,
      fun x hx y hy => hAB _ _ (ha.range x hx) (hb.range y hy)⟩
  · exact List.forall_mem_append.mpr
      ⟨fun e he => .inl (ha.range e he), fun e he => .inr (hb.range e he)⟩
  · refine List.forall_mem_append.mpr ⟨fun e he => ?_, fun e he => ?_⟩
    · refine hP _ _ _ (fun k hk => ⟨.inl hk.1, hk.2.1, ?_⟩) (ha.child e he)
      exact List.forall_mem_append.mpr ⟨hk.2.2, fun y hy _ => hAB _ _ hk.1 (hb.range y hy)⟩
    · refine hP _ _ _ (fun k hk => ⟨.inr hk.1, hk.2.1, ?_⟩) (hb.child e he)
      refine List.forall_mem_append.mpr ⟨fun y hy hlt => ?_, hk.2.2⟩
      exact absurd hlt (lt_asymm (hAB _ _ (ha.range y hy) (hb.range e he)))

/-- Two nodes side by side, in one. -/
def beside (id : Nat) (a b : Node K V) : Node K V :=
  ⟨id, a.pivots ++ b.pivots, a.elements ++ b.elements⟩

theorem Inv.beside {id : Nat} {a b : Node K V} (hAB : Below A B) (ha : Inv False h A a)
    (hb : Inv False h B b) : Inv False h (fun k => A k ∨ B k) (beside id a b) := by
  cases h with
  | zero =>
      refine ⟨?_, ha.2.beside hAB hb.2⟩
      show a.pivots ++ b.pivots = []
      rw [ha.1, hb.1]
      rfl
  | succ h =>
      refine ⟨ha.buffer.beside hAB hb.buffer, ha.forest.beside (inv_mono h) hAB hb.forest, ?_, ?_,
        False.elim⟩
      · exact fun hnil => ha.nonempty (List.append_eq_nil_iff.mp hnil).1
      · refine List.forall_mem_append.mpr ⟨fun e he => ?_, fun e he => ?_⟩
        · obtain ⟨p, hp, hle⟩ := ha.covered e he
          exact ⟨p, List.mem_append_left _ hp, hle⟩
        · obtain ⟨p, hp, hle⟩ := hb.covered e he
          exact ⟨p, List.mem_append_right _ hp, hle⟩

section Value

variable [Add V] {d : V}

/-- Outside its range a forest has no values. -/
theorem Forest.forestValue_of_not_range {ps : PivotMap K V} (hf : Forest (Inv fresh h) R ps)
    (hk : ¬ R k) : forestValue (value d h) ps k = none := by
  rcases slot_or_below ps k with ⟨e, he, hs⟩ | hb
  · rw [forestValue_of_slot hf.sorted he hs]
    exact (hf.child e he).value_of_not_range (fun hr => hk hr.1)
  · exact forestValue_of_below hf.sorted hb

theorem forestValue_beside_left {ps qs : PivotMap K V} (hAB : Below A B)
    (ha : Forest (Inv fresh h) A ps) (hb : Forest (Inv fresh h) B qs) (hk : ¬ B k) :
    forestValue (value d h) (ps ++ qs) k = forestValue (value d h) ps k := by
  have hf := ha.beside (inv_mono h) hAB hb
  by_cases hA : A k
  · have hlt : ∀ y ∈ qs, k < y.1 := fun y hy => hAB _ _ hA (hb.range y hy)
    rcases slot_or_below ps k with ⟨e, he, hs⟩ | hbelow
    · rw [forestValue_of_slot ha.sorted he hs,
        forestValue_of_slot hf.sorted (List.mem_append_left _ he)
          ⟨hs.1, List.forall_mem_append.mpr ⟨hs.2, fun y hy _ => hlt y hy⟩⟩]
    · rw [forestValue_of_below ha.sorted hbelow,
        forestValue_of_below hf.sorted (List.forall_mem_append.mpr ⟨hbelow, hlt⟩)]
  · rw [ha.forestValue_of_not_range hA,
      hf.forestValue_of_not_range (fun hAB => hAB.elim hA hk)]

theorem forestValue_beside_right {ps qs : PivotMap K V} (hAB : Below A B)
    (ha : Forest (Inv fresh h) A ps) (hb : Forest (Inv fresh h) B qs) (hk : B k) :
    forestValue (value d h) (ps ++ qs) k = forestValue (value d h) qs k := by
  have hf := ha.beside (inv_mono h) hAB hb
  have hA : ¬ A k := hAB.not_left hk
  rcases slot_or_below qs k with ⟨e, he, hs⟩ | hbelow
  · rw [forestValue_of_slot hb.sorted he hs,
      forestValue_of_slot hf.sorted (List.mem_append_right _ he)
        ⟨hs.1, List.forall_mem_append.mpr ⟨fun y hy hlt =>
          absurd hlt (lt_asymm (hAB _ _ (ha.range y hy) (hb.range e he))), hs.2⟩⟩]
  · rw [forestValue_of_below hb.sorted hbelow]
    rcases slot_or_below (ps ++ qs) k with ⟨e, he, hs⟩ | hbelow'
    · rw [forestValue_of_slot hf.sorted he hs]
      rcases List.mem_append.mp he with he | he
      · -- the last pivot on the left now has the key, and nothing for it
        exact (ha.child e he).value_of_not_range (fun hr => hA hr.1)
      · exact absurd (hbelow e he) (not_lt.mpr hs.1)
    · exact forestValue_of_below hf.sorted hbelow'

/-- A key that is not on the right has its value on the left. -/
theorem value_beside_left {id : Nat} {a b : Node K V} (hAB : Below A B) (ha : Inv False h A a)
    (hb : Inv False h B b) (hk : ¬ B k) : value d h (beside id a b) k = value d h a k := by
  cases h with
  | zero =>
      show denote d (ofKey (a.elements ++ b.elements) k) none = _
      rw [ofKey_beside_left hb.2.range hk]
      rfl
  | succ h =>
      show denote d (ofKey (a.elements ++ b.elements) k)
        (forestValue (value d h) (a.pivots ++ b.pivots) k) = _
      rw [ofKey_beside_left hb.buffer.range hk, forestValue_beside_left hAB ha.forest hb.forest hk]
      rfl

theorem value_beside_right {id : Nat} {a b : Node K V} (hAB : Below A B) (ha : Inv False h A a)
    (hb : Inv False h B b) (hk : B k) : value d h (beside id a b) k = value d h b k := by
  cases h with
  | zero =>
      show denote d (ofKey (a.elements ++ b.elements) k) none = _
      rw [ofKey_beside_right hAB ha.2.range hk]
      rfl
  | succ h =>
      show denote d (ofKey (a.elements ++ b.elements) k)
        (forestValue (value d h) (a.pivots ++ b.pivots) k) = _
      rw [ofKey_beside_right hAB ha.buffer.range hk,
        forestValue_beside_right hAB ha.forest hb.forest hk]
      rfl

end Value

theorem Disciplined.beside {id : Nat} {a b : Node K V} (hAB : Below A B) (ha : Inv False h A a)
    (hb : Inv False h B b) (hta : Disciplined a) (htb : Disciplined b) : Disciplined (beside id a b) := by
  cases h with
  | zero =>
      have hnil : a.pivots ++ b.pivots = [] := by
        rw [ha.1, hb.1]
        rfl
      constructor
      · intro hl
        rw [show (BeTree.beside id a b).isLeaf = (a.pivots ++ b.pivots).isEmpty from rfl, hnil] at hl
        exact absurd hl Bool.noConfusion
      · intro p hp
        rw [show (BeTree.beside id a b).pivots = a.pivots ++ b.pivots from rfl, hnil] at hp
        exact absurd hp List.not_mem_nil
  | succ h =>
      have hla : a.isLeaf = false := by
        rw [ha.isLeaf]
        rfl
      have hlb : b.isLeaf = false := by
        rw [hb.isLeaf]
        rfl
      refine ⟨fun _ k => opcodes_beside hAB ha.buffer.range hb.buffer.range (hta.form hla k)
        (htb.form hlb k), ?_⟩
      refine List.forall_mem_append.mpr ⟨fun p hp => ?_, fun p hp => ?_⟩
      · refine List.forall_mem_append.mpr ⟨hta.newer p hp, fun e he m hm heq => ?_⟩
        have hmA : A m.1.key := ((ha.forest.child p hp).messages_range m hm).1
        exact absurd (heq ▸ hmA) (hAB.not_left (hb.buffer.range e he))
      · refine List.forall_mem_append.mpr ⟨fun e he m hm heq => ?_, htb.newer p hp⟩
        have hmB : B m.1.key := ((hb.forest.child p hp).messages_range m hm).1
        exact absurd (ha.buffer.range e he) (hAB.not_left (heq ▸ hmB))

/-! ## The children of a run -/

section Joined

variable {id : Nat} {e : K × ChildInfo (Node K V)} {run : PivotMap K V}

omit [LinearOrder K] in
theorem joined_singleton : joined id [e] = ⟨id, e.2.child.pivots, e.2.child.elements⟩ := by
  simp [joined]

omit [LinearOrder K] in
theorem joined_cons : joined id (e :: run) = beside id e.2.child (joined id run) := rfl

theorem Forest.tail {P : (K → Prop) → Node K V → Prop} (hP : RangeMono P)
    (hf : Forest P R (e :: run)) : Forest P R run := by
  refine ⟨(OrdMap.sorted_cons.mp hf.sorted).2, fun x hx => hf.range x (List.mem_cons_of_mem _ hx),
    fun x hx => ?_⟩
  refine hP _ _ _ (fun k hk => ⟨hk.1, hk.2.1, fun y hy => ?_⟩)
    (hf.child x (List.mem_cons_of_mem _ hx))
  exact hk.2.2 y (List.mem_cons_of_mem _ hy)

/-- The keys that one of the pivots is at or below. -/
def Reaches (R : K → Prop) (run : PivotMap K V) (k : K) : Prop := R k ∧ ∃ x ∈ run, x.1 ≤ k

/-- The keys of the first child are below those of the others. -/
theorem below_tail (hs : OrdMap.Sorted (e :: run)) :
    Below (fun k => R k ∧ Slot (e :: run) e.1 k) (Reaches R run) := by
  rintro x y ⟨-, hx⟩ ⟨-, z, hz, hle⟩
  exact lt_of_lt_of_le (hx.2 z (List.mem_cons_of_mem _ hz) ((OrdMap.sorted_cons.mp hs).1 z hz)) hle

theorem Forest.inv_joined (hne : run ≠ []) (hf : Forest (Inv False h) R run) :
    Inv False h (Reaches R run) (joined id run) := by
  induction run with
  | nil => exact absurd rfl hne
  | cons e run ih =>
      have he := hf.child e List.mem_cons_self
      by_cases hrun : run = []
      · subst hrun
        rw [joined_singleton]
        refine inv_mono h (fun k => R k ∧ Slot [e] e.1 k) _ _
          (fun k hk => ⟨hk.1, e, List.mem_cons_self, hk.2.1⟩) ?_
        cases h with
        | zero => exact he
        | succ h => exact ⟨he.buffer, he.forest, he.nonempty, he.covered, he.newer⟩
      · rw [joined_cons]
        refine inv_mono h _ _ _ (fun k hk => ?_)
          (Inv.beside (below_tail hf.sorted) he (ih hrun (hf.tail (inv_mono h))))
        rcases hk with ⟨hR, hk⟩ | ⟨hR, x, hx, hle⟩
        · exact ⟨hR, e, List.mem_cons_self, hk.1⟩
        · exact ⟨hR, x, List.mem_cons_of_mem _ hx, hle⟩

theorem Forest.value_joined [Add V] {d : V} (hne : run ≠ []) (hf : Forest (Inv False h) R run)
    (k : K) : value d h (joined id run) k = forestValue (value d h) run k := by
  induction run with
  | nil => exact absurd rfl hne
  | cons e run ih =>
      have he := hf.child e List.mem_cons_self
      have hlt := (OrdMap.sorted_cons.mp hf.sorted).1
      by_cases hk : Reaches R run k
      · -- the key belongs to one of the other children
        have hrun : run ≠ [] := by
          obtain ⟨-, x, hx, -⟩ := hk
          exact List.ne_nil_of_mem hx
        have htail := hf.tail (inv_mono h)
        rw [joined_cons, value_beside_right (below_tail hf.sorted) he (htail.inv_joined hrun) hk,
          ih hrun htail]
        rcases slot_or_below run k with ⟨x, hx, hs⟩ | hb
        · rw [forestValue_of_slot htail.sorted hx hs,
            forestValue_of_slot hf.sorted (List.mem_cons_of_mem _ hx)
              ⟨hs.1, List.forall_mem_cons.mpr ⟨fun hxe => absurd hxe (lt_asymm (hlt x hx)), hs.2⟩⟩]
        · obtain ⟨-, x, hx, hle⟩ := hk
          exact absurd (hb x hx) (not_lt.mpr hle)
      · have hfirst : value d h (joined id (e :: run)) k = value d h e.2.child k := by
          by_cases hrun : run = []
          · subst hrun
            rw [joined_singleton]
            cases h with
            | zero => rfl
            | succ h => rfl
          · rw [joined_cons]
            exact value_beside_left (below_tail hf.sorted) he
              ((hf.tail (inv_mono h)).inv_joined hrun) hk
        rw [hfirst]
        rcases slot_or_below (e :: run) k with ⟨x, hx, hs⟩ | hb
        · rw [forestValue_of_slot hf.sorted hx hs]
          rcases List.mem_cons.mp hx with rfl | hx'
          · rfl
          · have hR : ¬ R k := fun hR => hk ⟨hR, x, hx', hs.1⟩
            rw [he.value_of_not_range (fun hr => hR hr.1),
              (hf.child x hx).value_of_not_range (fun hr => hR hr.1)]
        · rw [forestValue_of_below hf.sorted hb]
          exact he.value_of_not_range
            (fun hr => absurd hr.2.1 (not_le.mpr (hb e List.mem_cons_self)))

theorem Forest.disciplined_joined (hne : run ≠ []) (hf : Forest (Inv False h) R run)
    (ht : ∀ x ∈ run, Disciplined x.2.child) : Disciplined (joined id run) := by
  induction run with
  | nil => exact absurd rfl hne
  | cons e run ih =>
      rw [List.forall_mem_cons] at ht
      by_cases hrun : run = []
      · subst hrun
        rw [joined_singleton]
        exact ⟨ht.1.form, ht.1.newer⟩
      · have htail := hf.tail (inv_mono h)
        rw [joined_cons]
        exact Disciplined.beside (below_tail hf.sorted) (hf.child e List.mem_cons_self)
          (htail.inv_joined hrun) ht.1 (ih hrun htail ht.2)

omit [LinearOrder K] in
theorem mem_messages_joined {m : MessageKey K × Message V} (hm : m ∈ (joined id run).messages) :
    ∃ x ∈ run, m ∈ x.2.child.messages := by
  rcases mem_messages.mp hm with hm | ⟨p, hp, hm⟩
  · obtain ⟨x, hx, hm⟩ := List.mem_flatMap.mp hm
    exact ⟨x, hx, mem_messages.mpr (.inl hm)⟩
  · obtain ⟨x, hx, hp⟩ := List.mem_flatMap.mp hp
    exact ⟨x, hx, mem_messages.mpr (.inr ⟨p, hp, hm⟩)⟩

end Joined

/-! ## A run in a pivot map -/

section Merged

variable {front run left : PivotMap K V} {x : K × ChildInfo (Node K V)} (id size : Nat)

/-- The children of a run are a forest for the keys of the entry that replaces it. -/
theorem Forest.ofRun (hf : Forest (Inv False h) R (front ++ x :: (run ++ left)))
    (c : ChildInfo (Node K V)) :
    Forest (Inv False h) (fun k => R k ∧ Slot (front ++ (x.1, c) :: left) x.1 k) (x :: run) := by
  obtain ⟨-, hrest, hfront⟩ := OrdMap.sorted_append.mp hf.sorted
  have hmem : ∀ e ∈ x :: run, e ∈ front ++ x :: (run ++ left) := by
    intro e he
    rw [← List.cons_append]
    exact List.mem_append_right _ (List.mem_append_left _ he)
  obtain ⟨hsrun, -, hleft⟩ := OrdMap.sorted_append.mp
    (show OrdMap.Sorted ((x :: run) ++ left) from hrest)
  have hge : ∀ e ∈ x :: run, x.1 ≤ e.1 :=
    List.forall_mem_cons.mpr ⟨le_rfl, fun e he => le_of_lt ((OrdMap.sorted_cons.mp hsrun).1 e he)⟩
  -- above the run there are only the entries that are left
  have habove : ∀ y ∈ front ++ (x.1, c) :: left, x.1 < y.1 → y ∈ left := by
    refine List.forall_mem_append.mpr ⟨fun y hy hlt => ?_, List.forall_mem_cons.mpr
      ⟨fun hlt => absurd hlt (lt_irrefl _), fun y hy _ => hy⟩⟩
    exact absurd hlt (lt_asymm (hfront y hy x List.mem_cons_self))
  have hslot : ∀ e ∈ x :: run, ∀ k, Slot (front ++ x :: (run ++ left)) e.1 k →
      Slot (front ++ (x.1, c) :: left) x.1 k := by
    intro e he k hk
    refine ⟨le_trans (hge e he) hk.1, fun y hy hlt => ?_⟩
    have hy' := habove y hy hlt
    exact hk.2 y (List.mem_append_right _ (List.mem_cons_of_mem _ (List.mem_append_right _ hy')))
      (hleft e he y hy')
  refine ⟨hsrun, fun e he => ⟨hf.range e (hmem e he), hslot e he _ (slot_self _ _)⟩,
    fun e he => ?_⟩
  refine inv_mono h _ _ _ (fun k hk => ⟨⟨hk.1, hslot e he k hk.2⟩, hk.2.1, fun y hy => ?_⟩)
    (hf.child e (hmem e he))
  exact hk.2.2 y (hmem y hy)

/-- **One entry in the place of a run** leaves a forest. -/
theorem Forest.merged (hf : Forest (Inv False h) R (front ++ x :: (run ++ left))) :
    Forest (Inv False h) R (front ++ (x.1, ⟨joined id (x :: run), size⟩) :: left) := by
  have hrun := hf.ofRun ⟨joined id (x :: run), size⟩
  -- the other entries are old ones, and no key is new
  have hold : ∀ e ∈ front ++ (x.1, ⟨joined id (x :: run), size⟩) :: left,
      ∃ e' ∈ front ++ x :: (run ++ left), e'.1 = e.1 := by
    refine List.forall_mem_append.mpr ⟨fun e he => ⟨e, List.mem_append_left _ he, rfl⟩,
      List.forall_mem_cons.mpr ⟨⟨x, List.mem_append_right _ List.mem_cons_self, rfl⟩,
        fun e he => ⟨e, ?_, rfl⟩⟩⟩
    exact List.mem_append_right _ (List.mem_cons_of_mem _ (List.mem_append_right _ he))
  have hslot : ∀ p k, Slot (front ++ x :: (run ++ left)) p k →
      Slot (front ++ (x.1, ⟨joined id (x :: run), size⟩) :: left) p k := by
    intro p k hk
    refine ⟨hk.1, fun y hy hlt => ?_⟩
    obtain ⟨y', hy', heq⟩ := hold y hy
    rw [← heq] at hlt ⊢
    exact hk.2 y' hy' hlt
  refine ⟨sorted_merged hf.sorted _, fun e he => ?_, ?_⟩
  · obtain ⟨e', he', heq⟩ := hold e he
    exact heq ▸ hf.range e' he'
  · refine List.forall_mem_append.mpr ⟨fun e he => ?_, List.forall_mem_cons.mpr ⟨?_, fun e he => ?_⟩⟩
    · exact inv_mono h _ _ _ (fun k hk => ⟨hk.1, hslot _ k hk.2⟩)
        (hf.child e (List.mem_append_left _ he))
    · exact inv_mono h _ _ _ (fun k hk => hk.1) (hrun.inv_joined (List.cons_ne_nil _ _))
    · exact inv_mono h _ _ _ (fun k hk => ⟨hk.1, hslot _ k hk.2⟩) (hf.child e
        (List.mem_append_right _ (List.mem_cons_of_mem _ (List.mem_append_right _ he))))

theorem Forest.forestValue_merged [Add V] {d : V}
    (hf : Forest (Inv False h) R (front ++ x :: (run ++ left))) (k : K) :
    forestValue (value d h) (front ++ (x.1, ⟨joined id (x :: run), size⟩) :: left) k
      = forestValue (value d h) (front ++ x :: (run ++ left)) k := by
  have hrun := hf.ofRun ⟨joined id (x :: run), size⟩
  have hf' : Forest (Inv False h) R (front ++ (x.1, ⟨joined id (x :: run), size⟩) :: left) :=
    hf.merged id size
  have hx : (x.1, ⟨joined id (x :: run), size⟩)
      ∈ front ++ (x.1, (⟨joined id (x :: run), size⟩ : ChildInfo (Node K V))) :: left :=
    List.mem_append_right _ List.mem_cons_self
  obtain ⟨-, hrest, hfront⟩ := OrdMap.sorted_append.mp hf.sorted
  have hgt := (OrdMap.sorted_cons.mp hrest).1
  -- read backwards, the run replaces the one entry
  have hsp : Spliced (front ++ (x.1, ⟨joined id (x :: run), size⟩) :: left) x.1 (x :: run)
      (front ++ x :: (run ++ left)) := by
    refine ⟨hf.sorted, fun e => ⟨fun he => ?_, fun he => ?_⟩⟩
    · rcases List.mem_append.mp he with he | he
      · exact .inl ⟨List.mem_append_left _ he, ne_of_lt (hfront e he x List.mem_cons_self)⟩
      · rw [← List.cons_append] at he
        rcases List.mem_append.mp he with he | he
        · exact .inr he
        · exact .inl ⟨List.mem_append_right _ (List.mem_cons_of_mem _ he),
            ne_of_gt (hgt e (List.mem_append_right _ he))⟩
    · rcases he with ⟨he, hne⟩ | he
      · rcases List.mem_append.mp he with he | he
        · exact List.mem_append_left _ he
        · rcases List.mem_cons.mp he with rfl | he
          · exact absurd rfl hne
          · exact List.mem_append_right _ (List.mem_cons_of_mem _ (List.mem_append_right _ he))
      · rw [← List.cons_append]
        exact List.mem_append_right _ (List.mem_append_left _ he)
  by_cases hk : Slot (front ++ (x.1, ⟨joined id (x :: run), size⟩) :: left) x.1 k
  · rw [forestValue_of_slot hf'.sorted hx hk, forestValue_splice_slot hf' hx hrun hsp hk]
    exact hrun.value_joined (List.cons_ne_nil _ _) k
  · exact (forestValue_splice_ne hf' hx hrun hsp hk).symm

end Merged

/-! ## The whole loop -/

section Grouped

variable {limit : Nat} {rest res : PivotMap K V}

theorem Grouped.forest (hg : Grouped limit rest res) (front : PivotMap K V)
    (hf : Forest (Inv False h) R (front ++ rest)) : Forest (Inv False h) R (front ++ res) := by
  induction hg generalizing front with
  | nil => exact hf
  | keep _ _ ih =>
      rw [List.append_cons] at hf ⊢
      exact ih _ hf
  | @merge e run left res id _ _ _ ih =>
      have hf' := hf.merged id (joined id (e :: run)).size
      rw [List.append_cons] at hf' ⊢
      exact ih _ hf'

theorem Grouped.forestValue_eq [Add V] {d : V} (hg : Grouped limit rest res)
    (front : PivotMap K V) (hf : Forest (Inv False h) R (front ++ rest)) (k : K) :
    forestValue (value d h) (front ++ res) k = forestValue (value d h) (front ++ rest) k := by
  induction hg generalizing front with
  | nil => rfl
  | @keep e rest res _ _ ih =>
      rw [List.append_cons] at hf
      rw [List.append_cons front e res, List.append_cons front e rest]
      exact ih _ hf
  | @merge e run left res id _ _ _ ih =>
      have hf' := hf.merged id (joined id (e :: run)).size
      rw [← hf.forestValue_merged id (joined id (e :: run)).size k, List.append_cons front _ res,
        List.append_cons front _ left]
      rw [List.append_cons] at hf'
      exact ih _ hf'

/-- No pivot is lost without one at or below it. -/
theorem Grouped.reaches (hg : Grouped limit rest res) (hs : OrdMap.Sorted rest) :
    ∀ p ∈ rest, ∃ p' ∈ res, p'.1 ≤ p.1 := by
  induction hg with
  | nil => exact fun p hp => absurd hp List.not_mem_nil
  | @keep e rest res _ _ ih =>
      refine List.forall_mem_cons.mpr ⟨⟨e, List.mem_cons_self, le_rfl⟩, fun p hp => ?_⟩
      obtain ⟨p', hp', hle⟩ := ih (OrdMap.sorted_cons.mp hs).2 p hp
      exact ⟨p', List.mem_cons_of_mem _ hp', hle⟩
  | @merge e run left res id _ _ _ ih =>
      have hle := (OrdMap.sorted_cons.mp hs).1
      refine List.forall_mem_cons.mpr ⟨⟨_, List.mem_cons_self, le_rfl⟩, fun p hp => ?_⟩
      exact ⟨_, List.mem_cons_self, le_of_lt (hle p hp)⟩

theorem Grouped.disciplined (hg : Grouped limit rest res) (front : PivotMap K V)
    (hf : Forest (Inv False h) R (front ++ rest))
    (hd : ∀ e ∈ rest, ∀ x ∈ e.2.child.nodes, Disciplined x) :
    ∀ e ∈ res, ∀ x ∈ e.2.child.nodes, Disciplined x := by
  induction hg generalizing front with
  | nil => exact hd
  | keep _ _ ih =>
      rw [List.append_cons] at hf
      rw [List.forall_mem_cons] at hd ⊢
      exact ⟨hd.1, ih _ hf hd.2⟩
  | @merge e run left res id _ _ _ ih =>
      have hf' := hf.merged id (joined id (e :: run)).size
      rw [List.append_cons] at hf'
      rw [← List.cons_append] at hd
      obtain ⟨hrun, hleft⟩ := List.forall_mem_append.mp hd
      refine List.forall_mem_cons.mpr ⟨forall_nodes.mpr ⟨?_, fun p hp => ?_⟩, ih _ hf' hleft⟩
      · exact (hf.ofRun e.2).disciplined_joined (List.cons_ne_nil _ _)
          (fun x hx => hrun x hx _ (mem_nodes_self _))
      · obtain ⟨x, hx, hp⟩ := List.mem_flatMap.mp hp
        exact (forall_nodes.mp (hrun x hx)).2 p hp

omit [LinearOrder K] in
theorem Grouped.messages (hg : Grouped limit rest res) :
    ∀ e ∈ res, ∀ m ∈ e.2.child.messages, ∃ p ∈ rest, m ∈ p.2.child.messages := by
  induction hg with
  | nil => exact fun e he => absurd he List.not_mem_nil
  | @keep e rest res _ _ ih =>
      refine List.forall_mem_cons.mpr ⟨fun m hm => ⟨e, List.mem_cons_self, hm⟩, fun x hx m hm => ?_⟩
      obtain ⟨p, hp, hm⟩ := ih x hx m hm
      exact ⟨p, List.mem_cons_of_mem _ hp, hm⟩
  | @merge e run left res id _ _ _ ih =>
      rw [← List.cons_append]
      refine List.forall_mem_cons.mpr ⟨fun m hm => ?_, fun x hx m hm => ?_⟩
      · obtain ⟨p, hp, hm⟩ := mem_messages_joined hm
        exact ⟨p, List.mem_append_left _ hp, hm⟩
      · obtain ⟨p, hp, hm⟩ := ih x hx m hm
        exact ⟨p, List.mem_append_right _ hp, hm⟩

end Grouped

/-! ## The node -/

section Grouped

variable {limit : Nat} {n : Node K V} {res : PivotMap K V}

/-- The invariant of the node, with its pivots grouped. -/
theorem Inv.grouped (hn : Inv False (h + 1) R n) (hg : Grouped limit n.pivots res) :
    Inv False (h + 1) R { n with pivots := res } := by
  have hreach := hg.reaches hn.forest.sorted
  refine ⟨hn.buffer, hg.forest [] hn.forest, ?_, fun e he => ?_, False.elim⟩
  · obtain ⟨p, hp⟩ := List.exists_mem_of_ne_nil _ hn.nonempty
    obtain ⟨p', hp', -⟩ := hreach p hp
    exact List.ne_nil_of_mem hp'
  · obtain ⟨p, hp, hle⟩ := hn.covered e he
    obtain ⟨p', hp', hle'⟩ := hreach p hp
    exact ⟨p', hp', le_trans hle' hle⟩

theorem Inv.value_grouped [Add V] {d : V} (hn : Inv False (h + 1) R n)
    (hg : Grouped limit n.pivots res) (k : K) :
    value d (h + 1) { n with pivots := res } k = value d (h + 1) n k :=
  congrArg (effect d n.elements k) (hg.forestValue_eq [] hn.forest k)

theorem Inv.disciplined_grouped (hn : Inv False (h + 1) R n) (hg : Grouped limit n.pivots res)
    (hd : ∀ x ∈ n.nodes, Disciplined x) :
    ∀ x ∈ ({ n with pivots := res } : Node K V).nodes, Disciplined x := by
  rw [forall_nodes] at hd
  refine forall_nodes.mpr ⟨⟨fun _ => hd.1.form ?_, fun e he x hx m hm => ?_⟩,
    hg.disciplined [] hn.forest hd.2⟩
  · rw [hn.isLeaf]
    rfl
  · obtain ⟨p, hp, hm⟩ := hg.messages e he m hm
    exact hd.1.newer p hp x hx m hm

end Grouped

/--
**`merge_small_children` preserves meaning.** In a search tree with disciplined messages it
stops with no fault, whatever the recorded sizes are. The new tree is of the same kind and
height, and every query answers as before.
-/
theorem mergeSmallChildren_meaning [Add V] (bet : Params K V) (hr : ∀ n, bet.reload n = some n)
    (n : Node K V) (hinner : n.isLeaf = false) (hn : SearchTree n) (hd : MessageDiscipline n)
    (hstamp : ∀ m ∈ n.messages, m.1.timestamp ≤ uint64Max) :
    Prog.All
      (fun r => SearchTree r ∧ MessageDiscipline r ∧ r.height = n.height
        ∧ ∀ fuel k, n.height < fuel → ∃ answer,
          Prog.All (fun q => q = (n, answer)) (fun _ => False) (n.query bet fuel k)
          ∧ Prog.All (fun q => q = (r, answer)) (fun _ => False) (r.query bet fuel k))
      (fun _ => False) (n.mergeSmallChildren bet) := by
  have hwell : WellFormedTree n :=
    ⟨hn, hd.ordered, fun x hx m hm => hstamp m (List.mem_flatMap.mpr ⟨x, hx, hm⟩), hd.leaf⟩
  obtain ⟨height, hinv⟩ := hwell.inv
  cases height with
  | zero =>
      rw [hinv.isLeaf] at hinner
      exact absurd hinner (by simp)
  | succ h =>
      refine (all_mergeSmallChildren hr hn hd.ordered).mono (fun r hres => ?_)
      obtain ⟨res, rfl, hg⟩ := hres
      have hinv' := hinv.grouped hg
      have hnodes := hinv.disciplined_grouped hg (fun x hx => hd.disciplined hx)
      refine ⟨hinv'.searchTree, hinv'.messageDiscipline_of_nodes hnodes, ?_, fun fuel k hfuel => ?_⟩
      · rw [hinv'.height, hinv.height]
      · rw [hinv.height] at hfuel
        have hquery' := all_query_of_forms (E := fun _ => False) hr hfuel hinv'
          (fun x hx hl => (hnodes x hx).form hl k)
        rw [hinv.value_grouped hg k] at hquery'
        exact ⟨_, all_query_of_forms hr hfuel hinv
          (fun x hx hl => (hd.disciplined hx).form hl k), hquery'⟩

theorem mergeSmallChildren_meaning_three :
    Prog.All
      (fun r => SearchTree r ∧ MessageDiscipline r ∧ r.height = threeLeaves.height
        ∧ ∀ fuel k, threeLeaves.height < fuel → ∃ answer,
          Prog.All (fun q => q = (threeLeaves, answer)) (fun _ => False)
            (threeLeaves.query ⟨5, 0, 0, some⟩ fuel k)
          ∧ Prog.All (fun q => q = (r, answer)) (fun _ => False) (r.query ⟨5, 0, 0, some⟩ fuel k))
      (fun _ => False) (threeLeaves.mergeSmallChildren ⟨5, 0, 0, some⟩) := by
  have hinv := inv_threeLeaves
  refine mergeSmallChildren_meaning ⟨5, 0, 0, some⟩ (fun _ => rfl) threeLeaves rfl hinv.searchTree
    (hinv.messageDiscipline trivial) ?_
  decide

end BeTree
