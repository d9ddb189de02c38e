import BeTree.Tree.Flush
import BeTree.Proof.Invariant

/-!
# Finding a child and its messages

`get_pivot` gives the child whose slot a key is in. The buffered messages between
`get_element_begin` of a pivot and of the next one are those with keys in the
pivot's slot, and the loop that looks for the largest such set finds one that no
other set exceeds.
-/

namespace BeTree

variable {K V : Type} [LinearOrder K]

instance {C : Type} (ps : List (K × C)) (p k : K) : Decidable (Slot ps p k) :=
  inferInstanceAs (Decidable (_ ∧ _))

/-- In a sorted map, a slot ends at the entry behind it. -/
theorem slot_iff_next {C : Type} {before after : List (K × C)} {e : K × C} {k : K}
    (h : OrdMap.Sorted (before ++ e :: after)) :
    Slot (before ++ e :: after) e.1 k
      ↔ e.1 ≤ k ∧ ∀ q, after.head?.map Prod.fst = some q → k < q := by
  obtain ⟨_, hcons, hlt⟩ := OrdMap.sorted_append.mp h
  obtain ⟨he, hafter⟩ := OrdMap.sorted_cons.mp hcons
  refine and_congr_right (fun _ => ⟨fun hs q hq => ?_, fun hs x hx hex => ?_⟩)
  · obtain ⟨x, hx, rfl⟩ := Option.map_eq_some_iff.mp hq
    have hmem := List.mem_of_head? hx
    exact hs x (by simp [hmem]) (he x hmem)
  · rcases List.mem_append.mp hx with hx | hx
    · exact absurd (hlt x hx e List.mem_cons_self) (not_lt_of_gt hex)
    rcases List.mem_cons.mp hx with rfl | hx
    · exact absurd hex (lt_irrefl _)
    -- the next entry is the smallest of the ones behind
    cases after with
    | nil => exact absurd hx (by simp)
    | cons y after =>
        have hky := hs y.1 rfl
        rcases List.mem_cons.mp hx with rfl | hx
        · exact hky
        · exact lt_trans hky ((OrdMap.sorted_cons.mp hafter).1 x hx)

namespace Node

/-! ## The messages of a child -/

theorem mem_getElementBegin {es : MessageMap K V} {k : K} (h : OrdMap.Sorted es)
    {m : MessageKey K × Message V} : m ∈ getElementBegin es k ↔ m ∈ es ∧ k ≤ m.1.key := by
  rw [getElementBegin, OrdMap.lowerBound_eq h, List.mem_filter, decide_eq_true_eq,
    MessageKey.rangeStart_le]

/-- The messages from a pivot up to the next one are a part of those from the pivot on. -/
theorem getElementBeginAt_suffix {C : Type} {es : MessageMap K V} {before after : List (K × C)}
    {e : K × C} (hes : OrdMap.Sorted es) (h : OrdMap.Sorted (before ++ e :: after)) :
    getElementBeginAt es (after.head?.map Prod.fst) <:+ getElementBeginAt es (some e.1) := by
  cases after with
  | nil => exact List.nil_suffix
  | cons y after =>
      have hey : e.1 < y.1 :=
        (OrdMap.sorted_cons.mp (OrdMap.sorted_append.mp h).2.1).1 y List.mem_cons_self
      have hle : MessageKey.rangeStart e.1 ≤ MessageKey.rangeStart y.1 :=
        MessageKey.rangeStart_le.mpr (le_of_lt hey)
      exact OrdMap.lowerBound_suffix hes hle

/-- **The messages between a pivot and the next one** are those in the pivot's slot. -/
theorem range_slot {C : Type} {es : MessageMap K V} {before after : List (K × C)} {e : K × C}
    (hes : OrdMap.Sorted es) (h : OrdMap.Sorted (before ++ e :: after)) :
    OrdMap.range (getElementBeginAt es (some e.1))
        (getElementBeginAt es (after.head?.map Prod.fst))
      = es.filter (fun m => decide (Slot (before ++ e :: after) e.1 m.1.key)) := by
  have hslot := fun m : MessageKey K × Message V => slot_iff_next (k := m.1.key) h
  cases after with
  | nil =>
      show (OrdMap.lowerBound es (.rangeStart e.1)).take
        (OrdMap.lowerBound es (.rangeStart e.1)).length = _
      rw [List.take_length, OrdMap.lowerBound_eq hes]
      refine List.filter_congr (fun m _ => decide_eq_decide.mpr ?_)
      rw [hslot m, MessageKey.rangeStart_le]
      exact ⟨fun hm => ⟨hm, fun q hq => absurd hq (by simp)⟩, And.left⟩
  | cons y after =>
      have hey : e.1 < y.1 :=
        (OrdMap.sorted_cons.mp (OrdMap.sorted_append.mp h).2.1).1 y List.mem_cons_self
      have hle : MessageKey.rangeStart e.1 ≤ MessageKey.rangeStart y.1 :=
        MessageKey.rangeStart_le.mpr (le_of_lt hey)
      rw [show getElementBeginAt es (some e.1) = OrdMap.lowerBound es (.rangeStart e.1) from rfl,
        show getElementBeginAt es ((y :: after).head?.map Prod.fst)
          = OrdMap.lowerBound es (.rangeStart y.1) from rfl, OrdMap.range_lowerBound hes hle]
      refine List.filter_congr (fun m _ => ?_)
      rw [← Bool.decide_and]
      refine decide_eq_decide.mpr ?_
      rw [hslot m, MessageKey.rangeStart_le, MessageKey.lt_rangeStart]
      refine and_congr_right (fun _ => ⟨fun hm q hq => ?_, fun hm => hm y.1 rfl⟩)
      injection hq with hq
      exact hq ▸ hm

/-- Erasing them leaves the messages in the other slots. -/
theorem eraseRange_slot {C : Type} {es : MessageMap K V} {before after : List (K × C)} {e : K × C}
    (hes : OrdMap.Sorted es) (h : OrdMap.Sorted (before ++ e :: after)) :
    OrdMap.eraseRange es (getElementBeginAt es (some e.1))
        (getElementBeginAt es (after.head?.map Prod.fst))
      = es.filter (fun m => decide (¬ Slot (before ++ e :: after) e.1 m.1.key)) := by
  obtain ⟨mid, hmid⟩ := getElementBeginAt_suffix hes h
  have hfront : OrdMap.front es (.rangeStart e.1) ++ getElementBeginAt es (some e.1) = es :=
    OrdMap.front_append_lowerBound es (.rangeStart e.1)
  have herase : OrdMap.eraseRange es (getElementBeginAt es (some e.1))
      (getElementBeginAt es (after.head?.map Prod.fst))
        = OrdMap.front es (.rangeStart e.1)
          ++ getElementBeginAt es (after.head?.map Prod.fst) := by
    have htake := OrdMap.take_distance (a := OrdMap.front es (.rangeStart e.1))
      (b := getElementBeginAt es (some e.1))
    rw [hfront] at htake
    rw [OrdMap.eraseRange, htake]
  have hrange := range_slot hes h
  rw [← hmid, OrdMap.range, OrdMap.take_distance] at hrange
  -- the erased messages are the ones in the slot, so the others are what is left
  have hsplit : es = OrdMap.front es (.rangeStart e.1)
      ++ (mid ++ getElementBeginAt es (after.head?.map Prod.fst)) := by
    rw [hmid, hfront]
  have hsort := hes
  rw [hsplit] at hsort
  obtain ⟨hf, hrest, hlt⟩ := OrdMap.sorted_append.mp hsort
  obtain ⟨_, hend, hlt'⟩ := OrdMap.sorted_append.mp hrest
  rw [herase]
  refine OrdMap.Sorted.ext (OrdMap.sorted_append.mpr ⟨hf, hend, fun x hx y hy =>
    hlt x hx y (List.mem_append_right _ hy)⟩) (hes.filter _) (fun m => ?_)
  have hm : m ∈ mid ↔ m ∈ es ∧ Slot (before ++ e :: after) e.1 m.1.key := by
    rw [hrange, List.mem_filter, decide_eq_true_eq]
  have hmem : m ∈ es ↔ m ∈ OrdMap.front es (.rangeStart e.1) ∨ m ∈ mid
      ∨ m ∈ getElementBeginAt es (after.head?.map Prod.fst) := by
    conv => lhs; rw [hsplit]
    rw [List.mem_append, List.mem_append]
  rw [List.mem_append, List.mem_filter, decide_eq_true_eq]
  constructor
  · intro hx
    have hes : m ∈ es := hmem.mpr (hx.imp_right Or.inr)
    refine ⟨hes, fun hs => ?_⟩
    have hmm : m ∈ mid := hm.mpr ⟨hes, hs⟩
    rcases hx with hx | hx
    · exact absurd (hlt m hx m (List.mem_append_left _ hmm)) (lt_irrefl _)
    · exact absurd (hlt' m hmm m hx) (lt_irrefl _)
  · intro hx
    rcases hmem.mp hx.1 with hfront | hmm | hend
    · exact Or.inl hfront
    · exact absurd (hm.mp hmm).2 hx.2
    · exact Or.inr hend

/-! ## `get_pivot` -/

/-- `get_pivot` gives an entry of the map, or fails in one of two ways, whatever the order is. -/
theorem getPivot_cases {L C : Type} [LT L] [DecidableLT L] (mp : List (L × C)) (k : L) :
    (∃ c, getPivot mp k = .ok c ∧ c.toMap = mp)
      ∨ getPivot mp k = .error (.assertion .pivotsNonempty) ∨ getPivot mp k = .error .outOfRange := by
  have hmp : OrdMap.front mp k ++ OrdMap.lowerBound mp k = mp := List.takeWhile_append_dropWhile
  unfold getPivot
  split
  · exact Or.inr (Or.inl rfl)
  · cases hlast : OrdMap.Cursor.ofLast (OrdMap.front mp k) (OrdMap.lowerBound mp k) with
    | none =>
        dsimp only
        split
        · exact Or.inr (Or.inr rfl)
        · rename_i e rest hlb
          rw [hlb] at hmp
          split
          · exact Or.inr (Or.inr rfl)
          · exact Or.inl ⟨_, rfl, hmp⟩
    | some c =>
        have hc : c.toMap = mp := (OrdMap.Cursor.ofLast_toMap hlast).1.trans hmp
        dsimp only
        split
        · exact Or.inl ⟨_, rfl, hc⟩
        · rename_i e rest hlb
          rw [hlb] at hmp
          split
          · exact Or.inl ⟨_, rfl, hc⟩
          · exact Or.inl ⟨_, rfl, hmp⟩

/-- The entry before `lower_bound(k)` has `k` in its slot, if the key there is above `k`. -/
theorem ofLast_front_spec {C : Type} {mp : List (K × C)} {k : K} (h : OrdMap.Sorted mp)
    (hk : ∃ e ∈ mp, e.1 ≤ k) (hgt : ∀ x ∈ OrdMap.lowerBound mp k, k < x.1) :
    ∃ c, OrdMap.Cursor.ofLast (OrdMap.front mp k) (OrdMap.lowerBound mp k) = some c
      ∧ c.toMap = mp ∧ Slot mp c.key k := by
  have hmp := OrdMap.front_append_lowerBound mp k
  have hfront : OrdMap.front mp k ≠ [] := by
    intro hnil
    obtain ⟨e, he, hek⟩ := hk
    rw [← hmp, hnil, List.nil_append] at he
    exact absurd (hgt e he) (not_lt.mpr hek)
  obtain ⟨c, hc⟩ : ∃ c, OrdMap.Cursor.ofLast (OrdMap.front mp k) (OrdMap.lowerBound mp k)
      = some c := by
    cases hl : (OrdMap.front mp k).getLast? with
    | none => exact absurd (List.getLast?_eq_none_iff.mp hl) hfront
    | some x => exact ⟨_, by rw [OrdMap.Cursor.ofLast, hl]; rfl⟩
  obtain ⟨htm, hafter⟩ := OrdMap.Cursor.ofLast_toMap hc
  rw [hmp] at htm
  refine ⟨c, hc, htm, ?_⟩
  have hkey : c.key ≤ k := by
    have hmem : (c.key, c.val) ∈ OrdMap.front mp k := by
      rw [OrdMap.Cursor.ofLast, Option.map_eq_some_iff] at hc
      obtain ⟨x, hx, rfl⟩ := hc
      exact List.mem_of_getLast? hx
    rw [OrdMap.front_eq h] at hmem
    exact le_of_lt (by simpa using (List.mem_filter.mp hmem).2)
  rw [← htm] at h ⊢
  refine (slot_iff_next (e := (c.key, c.val)) h).mpr ⟨hkey, fun q hq => ?_⟩
  obtain ⟨x, hx, rfl⟩ := Option.map_eq_some_iff.mp hq
  exact hgt x (hafter ▸ List.mem_of_head? hx)

/-- **`get_pivot` finds the slot** a key is in, when some pivot is at or below the key. -/
theorem getPivot_spec {C : Type} {mp : List (K × C)} {k : K} (h : OrdMap.Sorted mp)
    (hk : ∃ e ∈ mp, e.1 ≤ k) :
    ∃ c, getPivot mp k = .ok c ∧ c.toMap = mp ∧ Slot mp c.key k := by
  have hne : mp.isEmpty = false := by
    obtain ⟨e, he, _⟩ := hk
    cases mp with
    | nil => exact absurd he (by simp)
    | cons x mp => rfl
  have hmp := OrdMap.front_append_lowerBound mp k
  have hge : ∀ x ∈ OrdMap.lowerBound mp k, k ≤ x.1 := fun x hx => by
    rw [OrdMap.lowerBound_eq h] at hx
    simpa using (List.mem_filter.mp hx).2
  have hback := ofLast_front_spec h hk
  unfold getPivot
  rw [hne]
  cases hlb : OrdMap.lowerBound mp k with
  | nil =>
      -- every pivot is below the key: the last one
      obtain ⟨c, hc, htm, hs⟩ := hback (by rw [hlb]; simp)
      rw [hlb] at hc
      exact ⟨c, by simp [hc], htm, hs⟩
  | cons x rest =>
      have hsort := h
      rw [← hmp, hlb] at hsort
      have hx := (OrdMap.sorted_cons.mp (OrdMap.sorted_append.mp hsort).2.1).1
      simp only [Bool.false_eq_true, if_false]
      split
      · rename_i hlt
        -- the lower bound is above the key: the one before it
        obtain ⟨c, hc, htm, hs⟩ := hback (by
          rw [hlb]
          intro y hy
          rcases List.mem_cons.mp hy with rfl | hy
          · exact hlt
          · exact lt_trans hlt (hx y hy))
        rw [hlb] at hc
        exact ⟨c, by simp [hc], htm, hs⟩
      · rename_i hlt
        -- the lower bound is the key itself
        have hxk : x.1 = k := le_antisymm (not_lt.mp hlt) (hge x (by rw [hlb]; simp))
        rw [hlb] at hmp
        refine ⟨_, rfl, hmp, ?_⟩
        show Slot mp x.1 k
        rw [hxk]
        exact slot_self mp k

/-- Below all pivots it throws. -/
theorem getPivot_below {C : Type} {mp : List (K × C)} {k : K} (hne : mp ≠ [])
    (hk : ∀ e ∈ mp, k < e.1) : getPivot mp k = .error .outOfRange := by
  cases mp with
  | nil => exact absurd rfl hne
  | cons e mp =>
      have hke := hk e List.mem_cons_self
      have hnot : ¬ e.1 < k := not_lt_of_gt hke
      simp [getPivot, OrdMap.lowerBound, OrdMap.front, OrdMap.Cursor.ofLast, hke, hnot]

/-! ## The child with the most messages -/

/-- The number of buffered messages for the child under pivot `p`. -/
def slotCount (n : Node K V) (p : K) : Nat :=
  (n.elements.filter (fun e => decide (Slot n.pivots p e.1.key))).length

theorem distance_slot {n : Node K V} {before after : PivotMap K V}
    {e : K × ChildInfo (Node K V)} (hes : OrdMap.Sorted n.elements)
    (hps : OrdMap.Sorted n.pivots) (h : before ++ e :: after = n.pivots) :
    OrdMap.distance (getElementBeginAt n.elements (some e.1))
      (getElementBeginAt n.elements (after.head?.map Prod.fst)) = slotCount n e.1 := by
  rw [← h] at hps
  have hlen := congrArg List.length (range_slot hes hps)
  have hle : OrdMap.distance (getElementBeginAt n.elements (some e.1))
      (getElementBeginAt n.elements (after.head?.map Prod.fst))
        ≤ (getElementBeginAt n.elements (some e.1)).length := Nat.sub_le _ _
  rw [OrdMap.range, List.length_take, Nat.min_eq_left hle] at hlen
  rw [hlen, slotCount, ← h]

/-- The cursor stands on a pivot of `n`, with the number of its messages, or with 0. -/
structure Best (n : Node K V) (r : OrdMap.Cursor K (ChildInfo (Node K V)) × Nat) : Prop where
  toMap : r.1.toMap = n.pivots
  count : r.2 = 0 ∨ r.2 = slotCount n r.1.key % 2 ^ 32

/-- **The loop finds the largest set of messages**, in 32 bits. -/
theorem largestChild_spec {n : Node K V} {before rest : PivotMap K V}
    {best : OrdMap.Cursor K (ChildInfo (Node K V)) × Nat} (hes : OrdMap.Sorted n.elements)
    (hps : OrdMap.Sorted n.pivots) (h : before ++ rest = n.pivots) (hbest : Best n best)
    (hmax : ∀ p ∈ before, slotCount n p.1 % 2 ^ 32 ≤ best.2) :
    Best n (largestChild n.elements before rest best)
      ∧ ∀ p ∈ n.pivots, slotCount n p.1 % 2 ^ 32 ≤ (largestChild n.elements before rest best).2 := by
  induction rest generalizing before best with
  | nil =>
      rw [List.append_nil] at h
      exact ⟨hbest, h ▸ hmax⟩
  | cons e rest ih =>
      rw [largestChild, distance_slot hes hps h]
      refine ih (by rw [← h]; simp) ?_ (fun p hp => ?_)
      · split
        · exact ⟨h, Or.inr rfl⟩
        · exact hbest
      · split
        · rename_i hlt
          rcases List.mem_append.mp hp with hp | hp
          · exact Nat.le_of_lt (Nat.lt_of_le_of_lt (hmax p hp) hlt)
          · rw [List.mem_singleton.mp hp]
        · rename_i hlt
          rcases List.mem_append.mp hp with hp | hp
          · exact hmax p hp
          · rw [List.mem_singleton.mp hp]
            exact Nat.not_lt.mp hlt

/-- The loop gives one of the entries, whatever the buffer is. -/
theorem largestChild_toMap {es : MessageMap K V} {ps before rest : PivotMap K V}
    {best : OrdMap.Cursor K (ChildInfo (Node K V)) × Nat} (h : before ++ rest = ps)
    (hbest : best.1.toMap = ps) : (largestChild es before rest best).1.toMap = ps := by
  induction rest generalizing before best with
  | nil => exact hbest
  | cons e rest ih =>
      rw [largestChild]
      refine ih (by rw [← h]; simp) ?_
      split
      · exact h
      · exact hbest

/-- The loop as `flush` starts it. -/
theorem largestChild_best {n : Node K V} {e : K × ChildInfo (Node K V)} {rest : PivotMap K V}
    (hes : OrdMap.Sorted n.elements) (hps : OrdMap.Sorted n.pivots) (h : n.pivots = e :: rest) :
    Best n (largestChild n.elements [] n.pivots (⟨[], e.1, e.2, rest⟩, 0))
      ∧ ∀ p ∈ n.pivots, slotCount n p.1 % 2 ^ 32
        ≤ (largestChild n.elements [] n.pivots (⟨[], e.1, e.2, rest⟩, 0)).2 :=
  largestChild_spec hes hps rfl ⟨h.symm, Or.inl rfl⟩ (by simp)

end Node

end BeTree
