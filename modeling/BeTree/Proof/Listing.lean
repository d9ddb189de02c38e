import BeTree.Proof.Next

/-!
# All messages of a tree in one list

`Listing` is the sorted list of a subtree's messages. A key's messages stand in it
from the leaf's up to the root's, because those further up are newer, so applying
them in order gives the key's `value`.

`collect` reads the map off such a list in one pass, the way the iterator does:
it keeps the entry it is working on and hands it out when the next key comes.
-/

namespace BeTree

open Node

variable {K V : Type} [LinearOrder K]

/-! ## The list -/

/-- `L` lists the messages of a subtree in order, and says about each key what it says. -/
structure Listing [Add V] (d : V) (h : Nat) (n : Node K V) (L : MessageMap K V) : Prop where
  sorted : OrdMap.Sorted L
  mem : ∀ m, m ∈ L ↔ m ∈ n.messages
  value : ∀ k, effect d L k none = value d h n k

section Listing

variable [Add V] {fresh : Prop} {d : V} {h : Nat} {R : K → Prop} {n : Node K V}

/-- The listings of the children, one after another. -/
theorem Forest.listing {ps : PivotMap K V} (hf : Forest (Inv fresh h) R ps)
    (hkids : ∀ p ∈ ps, ∃ L, Listing d h p.2.child L) :
    ∃ L, OrdMap.Sorted L ∧ (∀ m, m ∈ L ↔ m ∈ below ps)
      ∧ ∀ k, effect d L k none = forestValue (value d h) ps k := by
  choose! list hlist using hkids
  have hmem : ∀ m, m ∈ ps.flatMap list ↔ m ∈ below ps := by
    intro m
    rw [List.mem_flatMap, mem_below]
    refine ⟨fun hm => ?_, fun hm => ?_⟩
    · obtain ⟨p, hp, hm⟩ := hm
      exact ⟨p, hp, ((hlist p hp).mem m).mp hm⟩
    · obtain ⟨p, hp, hm⟩ := hm
      exact ⟨p, hp, ((hlist p hp).mem m).mpr hm⟩
  have hsorted : OrdMap.Sorted (ps.flatMap list) := by
    refine List.pairwise_flatMap.mpr ⟨fun p hp => (hlist p hp).sorted, ?_⟩
    refine hf.ordered.imp_of_mem (fun {a b} ha hb hlt x hx y hy => ?_)
    exact hlt x (((hlist a ha).mem x).mp hx) y (((hlist b hb).mem y).mp hy)
  refine ⟨ps.flatMap list, hsorted, hmem, fun k => ?_⟩
  rcases slot_or_below ps k with ⟨e, he, hs⟩ | hb
  · -- the messages of `k` are all under one pivot
    rw [forestValue_of_slot hf.sorted he hs, ← (hlist e he).value k, effect, effect]
    refine congrArg (denote d · none) ?_
    refine OrdMap.Sorted.ext (sorted_ofKey hsorted) (sorted_ofKey (hlist e he).sorted)
      (fun m => ?_)
    rw [mem_ofKey, mem_ofKey]
    refine and_congr_left (fun hk => ?_)
    rw [hmem, mem_below, (hlist e he).mem]
    refine ⟨fun hm => ?_, fun hm => ⟨e, he, hm⟩⟩
    obtain ⟨p, hp, hm⟩ := hm
    have hps := ((hf.child p hp).messages_range m hm).2
    rw [hk] at hps
    rw [hf.sorted.eq_of_key he hp (Slot.unique he hp hs hps)]
    exact hm
  · rw [forestValue_of_below hf.sorted hb]
    refine effect_of_absent (fun m hm hk => ?_)
    obtain ⟨p, hp, hm⟩ := mem_below.mp ((hmem m).mp hm)
    have hps := ((hf.child p hp).messages_range m hm).2
    exact absurd (hb p hp) (not_lt.mpr (hk ▸ hps.1))

/-- **Every subtree has a listing.** -/
theorem Inv.listing (hfresh : fresh) (hn : Inv fresh h R n) : ∃ L, Listing d h n L := by
  induction h generalizing R n with
  | zero =>
      refine ⟨n.elements, hn.2.sorted, fun m => ?_, fun k => rfl⟩
      rw [mem_messages, hn.1]
      simp
  | succ h ih =>
      have hinner : Inner fresh (Inv fresh h) R n := hn
      obtain ⟨L, hs, hmem, hval⟩ := hinner.forest.listing (d := d)
        (fun p hp => ih (hinner.forest.child p hp))
      -- what the children hold is older than what the node itself holds
      have holder : ∀ x ∈ L, ∀ y ∈ n.elements, x.1.key = y.1.key → x.1 < y.1 := by
        intro x hx y hy hk
        obtain ⟨p, hp, hx⟩ := mem_below.mp ((hmem x).mp hx)
        exact MessageKey.lt_iff.mpr (Or.inr ⟨hk, hinner.newer hfresh p hp y hy x hx hk⟩)
      obtain ⟨hsort, hins⟩ := OrdMap.insertAll_spec hs hinner.buffer.sorted
        (fun x hx y hy hxy => absurd (holder x hx y hy (by rw [hxy]))
          (by rw [hxy]; exact lt_irrefl _))
      refine ⟨OrdMap.insertAll L n.elements, hsort, fun m => ?_, fun k => ?_⟩
      · rw [hins m, hmem m, mem_messages, mem_below, or_comm]
      · have hof : ofKey (OrdMap.insertAll L n.elements) k
            = ofKey L k ++ ofKey n.elements k := by
          refine OrdMap.Sorted.ext (sorted_ofKey hsort) (OrdMap.sorted_append.mpr
            ⟨sorted_ofKey hs, sorted_ofKey hinner.buffer.sorted, fun x hx y hy => ?_⟩)
            (fun m => ?_)
          · obtain ⟨hx, hxk⟩ := mem_ofKey.mp hx
            obtain ⟨hy, hyk⟩ := mem_ofKey.mp hy
            exact holder x hx y hy (hxk.trans hyk.symm)
          · rw [List.mem_append, mem_ofKey, mem_ofKey, mem_ofKey, hins m, or_and_right]
        rw [effect, hof, denote_append, value, effect]
        exact congrArg _ (hval k)

end Listing

/-! ## Reading the map off a list -/

/-- The entry a message makes of the value its key has so far. -/
def entryAfter [Add V] (d : V) (m : MessageKey K × Message V) (old : Option V) : Option (K × V) :=
  (m.2.act d old).map (fun v => (m.1.key, v))

/-- The entries of a list of messages, where `cur` is the one being worked on. -/
def collect [Add V] (d : V) : MessageMap K V → Option (K × V) → List (K × V)
  | [], cur => cur.toList
  | m :: rest, none => collect d rest (entryAfter d m none)
  | m :: rest, some e =>
    if m.1.key = e.1 then collect d rest (entryAfter d m (some e.2))
    else e :: collect d rest (entryAfter d m none)

/-- What the entry being worked on says about a key. -/
def current (cur : Option (K × V)) (k : K) : Option V :=
  cur.bind (fun e => if e.1 = k then some e.2 else none)

section Collect

variable [Add V] {d : V}

omit [Add V] in
theorem current_some {e : K × V} {k : K} :
    current (some e) k = if e.1 = k then some e.2 else none := rfl

theorem current_entryAfter {m : MessageKey K × Message V} {old : Option V} {k : K} :
    current (entryAfter d m old) k = if m.1.key = k then m.2.act d old else none := by
  unfold entryAfter
  cases m.2.act d old with
  | none => simp [current]
  | some v => rfl

/-- The entry being worked on has a key at or below those still to come. -/
def Behind (cur : Option (K × V)) (L : MessageMap K V) : Prop :=
  ∀ e, cur = some e → ∀ m ∈ L, e.1 ≤ m.1.key

omit [Add V] in
theorem key_le_of_sorted {m x : MessageKey K × Message V} {rest : MessageMap K V}
    (hs : OrdMap.Sorted (m :: rest)) (hx : x ∈ rest) : m.1.key ≤ x.1.key := by
  rcases MessageKey.lt_iff.mp ((OrdMap.sorted_cons.mp hs).1 x hx) with hlt | ⟨heq, _⟩
  · exact le_of_lt hlt
  · exact le_of_eq heq

theorem behind_entryAfter {m : MessageKey K × Message V} {rest : MessageMap K V} (old : Option V)
    (hs : OrdMap.Sorted (m :: rest)) : Behind (entryAfter d m old) rest := by
  intro e he x hx
  obtain ⟨v, _, rfl⟩ := Option.map_eq_some_iff.mp he
  exact key_le_of_sorted hs hx

/-- **What `collect` gives**: each key that has a value, once, in order. -/
theorem collect_spec {L : MessageMap K V} {cur : Option (K × V)} (hs : OrdMap.Sorted L)
    (hb : Behind cur L) :
    OrdMap.Sorted (collect d L cur)
      ∧ ∀ k v, (k, v) ∈ collect d L cur ↔ effect d L k (current cur k) = some v := by
  induction L generalizing cur with
  | nil =>
      cases cur with
      | none => exact ⟨OrdMap.sorted_nil, fun k v => by simp [collect, current, effect, ofKey, denote]⟩
      | some e =>
          refine ⟨OrdMap.sorted_singleton e, fun k v => ?_⟩
          show (k, v) ∈ [e] ↔ current (some e) k = some v
          rw [List.mem_singleton, current_some, Prod.ext_iff]
          by_cases hk : e.1 = k
          · rw [if_pos hk, Option.some_inj]
            exact ⟨fun h => h.2.symm, fun h => ⟨hk.symm, h.symm⟩⟩
          · rw [if_neg hk]
            exact ⟨fun h => absurd h.1.symm hk, fun h => absurd h (by simp)⟩
  | cons m rest ih =>
      have hrest := (OrdMap.sorted_cons.mp hs).2
      obtain ⟨hsn, hmn⟩ := ih hrest (behind_entryAfter (d := d) none hs)
      have hnone : OrdMap.Sorted (collect d (m :: rest) none)
          ∧ ∀ k v, (k, v) ∈ collect d (m :: rest) none ↔ effect d (m :: rest) k none = some v := by
        refine ⟨hsn, fun k v => ?_⟩
        rw [effect_cons, ← current_entryAfter]
        exact hmn k v
      cases cur with
      | none => exact hnone
      | some e =>
          have hle := hb e rfl
          rw [collect]
          split
          · rename_i hk
            obtain ⟨hs', hm'⟩ := ih hrest (behind_entryAfter (d := d) (some e.2) hs)
            refine ⟨hs', fun k v => ?_⟩
            rw [hm' k v, effect_cons, current_entryAfter, current_some]
            by_cases hkk : m.1.key = k
            · rw [if_pos hkk, if_pos hkk, if_pos (hk ▸ hkk)]
            · rw [if_neg hkk, if_neg hkk, if_neg (hk ▸ hkk)]
          · rename_i hk
            have hlt : e.1 < m.1.key := lt_of_le_of_ne (hle m List.mem_cons_self) (Ne.symm hk)
            have hlt' : ∀ x ∈ m :: rest, e.1 < x.1.key := by
              intro x hx
              rcases List.mem_cons.mp hx with rfl | hx
              · exact hlt
              · exact lt_of_lt_of_le hlt (key_le_of_sorted hs hx)
            -- no message of the entry's key is left
            have habs : ∀ x ∈ m :: rest, x.1.key ≠ e.1 := fun x hx => ne_of_gt (hlt' x hx)
            have hkeys : ∀ x ∈ collect d (m :: rest) none, e.1 < x.1 := by
              intro x hx
              have heff := (hnone.2 x.1 x.2).mp hx
              by_contra hge
              have habs' : ∀ y ∈ m :: rest, y.1.key ≠ x.1 := fun y hy =>
                ne_of_gt (lt_of_le_of_lt (not_lt.mp hge) (hlt' y hy))
              rw [effect_of_absent habs'] at heff
              exact absurd heff (by simp)
            refine ⟨OrdMap.sorted_cons.mpr ⟨hkeys, hnone.1⟩, fun k v => ?_⟩
            show (k, v) ∈ e :: collect d (m :: rest) none ↔ _
            rw [List.mem_cons, hnone.2 k v, current_some, Prod.ext_iff]
            by_cases hke : e.1 = k
            · subst hke
              rw [if_pos rfl, effect_of_absent habs, effect_of_absent habs, Option.some_inj]
              simp [eq_comm]
            · rw [if_neg hke]
              exact ⟨fun h => h.resolve_left (fun hc => hke hc.1.symm), Or.inr⟩

/-- The entries of a list, by what it says about the keys. -/
theorem collect_eq {L : MessageMap K V} {es : List (K × V)} (hs : OrdMap.Sorted L)
    (hes : OrdMap.Sorted es) (h : ∀ k, effect d L k none = OrdMap.lookup es k) :
    collect d L none = es := by
  have hb : Behind (none : Option (K × V)) L := fun _ he => absurd he (by simp)
  obtain ⟨hsort, hmem⟩ := collect_spec (d := d) hs hb
  refine hsort.ext hes (fun e => ?_)
  rw [show e = (e.1, e.2) from rfl, hmem, show current (none : Option (K × V)) e.1 = none from rfl,
    h, OrdMap.lookup_eq_some hes]

end Collect

end BeTree
