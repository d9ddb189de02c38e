import BeTree.Tree.Node

/-!
# What messages mean

A message is a function from the older value of its key, if there is one, to the
newer one. The messages a node holds for one key are applied in timestamp order;
that composition is the node's `effect` on the key.

A node keeps the messages of a key in a normal form. A leaf has at most one, an
`INSERT`. An inner node has a single `INSERT`, or a `DELETE` followed by
`UPDATE`s, or `UPDATE`s alone: an upsert that decides the value by itself throws
away what came before it.
-/

namespace BeTree

variable {K V : Type}

/-- The value a message makes of the older one. -/
def Message.act [Add V] (d : V) (m : Message V) (old : Option V) : Option V :=
  match m.opcode with
  | .insert => some m.val
  | .delete => none
  | .update => some (old.getD d + m.val)

/-- The normal form of one key's messages in an inner node. -/
def InnerForm : List Opcode → Prop
  | [] => True
  | .insert :: us => us = []
  | _ :: us => ∀ u ∈ us, u = .update

/-- The normal form of one key's messages in a leaf. -/
def LeafForm (us : List Opcode) : Prop := us = [] ∨ us = [.insert]

/-- The normal form of one key's messages in a node of either kind. -/
def Form (leaf : Bool) (us : List Opcode) : Prop := if leaf then LeafForm us else InnerForm us

theorem form_nil (leaf : Bool) : Form leaf [] := by
  cases leaf
  · exact trivial
  · exact Or.inl rfl

theorem form_insert (leaf : Bool) : Form leaf [.insert] := by
  cases leaf
  · exact rfl
  · exact Or.inr rfl

/-- The opcodes of some messages. -/
def opcodes (es : MessageMap K V) : List Opcode := es.map (fun e => e.2.opcode)

/-- The value some messages, in order, make of an older one. -/
def denote [Add V] (d : V) (es : MessageMap K V) (old : Option V) : Option V :=
  es.foldl (fun o e => e.2.act d o) old

theorem denote_append [Add V] {d : V} {a b : MessageMap K V} {old : Option V} :
    denote d (a ++ b) old = denote d b (denote d a old) := List.foldl_append

section Linear

variable [LinearOrder K]

/-- The messages of one key. -/
def ofKey (es : MessageMap K V) (k : K) : MessageMap K V :=
  es.filter (fun e => decide (e.1.key = k))

/-- What a buffer does to the value of a key. -/
def effect [Add V] (d : V) (es : MessageMap K V) (k : K) (old : Option V) : Option V :=
  denote d (ofKey es k) old

theorem mem_ofKey {es : MessageMap K V} {k : K} {e : MessageKey K × Message V} :
    e ∈ ofKey es k ↔ e ∈ es ∧ e.1.key = k := by
  rw [ofKey, List.mem_filter, decide_eq_true_eq]

theorem ofKey_eq_nil {es : MessageMap K V} {k : K} (h : ∀ e ∈ es, e.1.key ≠ k) :
    ofKey es k = [] := by
  rw [ofKey, List.filter_eq_nil_iff]
  intro e he
  simpa using h e he

theorem ofKey_append {a b : MessageMap K V} {k : K} :
    ofKey (a ++ b) k = ofKey a k ++ ofKey b k := List.filter_append ..

theorem effect_of_absent [Add V] {d : V} {es : MessageMap K V} {k : K} {old : Option V}
    (h : ∀ e ∈ es, e.1.key ≠ k) : effect d es k old = old := by
  rw [effect, ofKey_eq_nil h]
  rfl

/-- The first message acts before the others. -/
theorem effect_cons [Add V] {d : V} {m : MessageKey K × Message V} {rest : MessageMap K V} {k : K}
    {old : Option V} :
    effect d (m :: rest) k old = effect d rest k (if m.1.key = k then m.2.act d old else old) := by
  unfold effect ofKey
  by_cases hk : m.1.key = k
  · rw [List.filter_cons, if_pos (by simpa using hk), if_pos hk]
    rfl
  · rw [List.filter_cons, if_neg (by simpa using hk), if_neg hk]

/-- Keeping only keys of a set keeps all messages of a key in it. -/
theorem ofKey_filter {es : MessageMap K V} {k : K} (p : K → Bool) :
    ofKey (es.filter (fun e => p e.1.key)) k = if p k then ofKey es k else [] := by
  unfold ofKey
  rw [List.filter_filter]
  cases hp : p k with
  | true =>
      rw [if_pos rfl]
      refine List.filter_congr (fun e _ => ?_)
      by_cases he : e.1.key = k
      · simp [he, hp]
      · simp [he]
  | false =>
      rw [if_neg (by simp), List.filter_eq_nil_iff]
      intro e _
      by_cases he : e.1.key = k
      · simp [he, hp]
      · simp [he]

/-! ## The messages of a key after a change of the map -/

section Maps

variable {es : MessageMap K V} {k : K} {mkey : MessageKey K} {m : Message V}

theorem sorted_ofKey (h : OrdMap.Sorted es) : OrdMap.Sorted (ofKey es k) := h.filter _

/-- The newest message of its key goes last. -/
theorem ofKey_assign_self (h : OrdMap.Sorted es)
    (hnew : ∀ e ∈ es, e.1.key = mkey.key → e.1.timestamp < mkey.timestamp) :
    ofKey (OrdMap.assign es mkey m) mkey.key = ofKey es mkey.key ++ [(mkey, m)] := by
  refine OrdMap.Sorted.ext (sorted_ofKey (OrdMap.sorted_assign h)) ?_ (fun e => ?_)
  · refine OrdMap.sorted_append.mpr ⟨sorted_ofKey h, OrdMap.sorted_singleton _, ?_⟩
    intro x hx y hy
    obtain ⟨hxm, hxk⟩ := mem_ofKey.mp hx
    rw [List.mem_singleton.mp hy]
    exact MessageKey.lt_iff.mpr (Or.inr ⟨hxk, hnew x hxm hxk⟩)
  · rw [mem_ofKey, OrdMap.mem_assign h, List.mem_append, mem_ofKey, List.mem_singleton]
    refine ⟨fun he => ?_, fun he => ?_⟩
    · rcases he with ⟨rfl | ⟨hm, _⟩, hk⟩
      · exact Or.inr rfl
      · exact Or.inl ⟨hm, hk⟩
    · rcases he with ⟨hm, hk⟩ | rfl
      · have hlt := hnew e hm hk
        refine ⟨Or.inr ⟨hm, fun he => ?_⟩, hk⟩
        rw [he] at hlt
        exact absurd hlt (Nat.lt_irrefl _)
      · exact ⟨Or.inl rfl, rfl⟩

theorem ofKey_assign_ne (h : OrdMap.Sorted es) (hk : k ≠ mkey.key) :
    ofKey (OrdMap.assign es mkey m) k = ofKey es k := by
  refine OrdMap.Sorted.ext (sorted_ofKey (OrdMap.sorted_assign h)) (sorted_ofKey h) (fun e => ?_)
  rw [mem_ofKey, OrdMap.mem_assign h, mem_ofKey]
  refine ⟨fun he => ?_, fun he => ⟨Or.inr ⟨he.1, fun hm => ?_⟩, he.2⟩⟩
  · rcases he with ⟨rfl | ⟨hm, _⟩, hek⟩
    · exact absurd hek.symm hk
    · exact ⟨hm, hek⟩
  · exact hk (he.2 ▸ congrArg MessageKey.key hm)

/-- Erasing from `range_start` to `range_end` takes out exactly the messages of the key. -/
theorem mem_eraseKey (h : OrdMap.Sorted es) (hs : ∀ e ∈ es, e.1.timestamp ≤ uint64Max)
    {e : MessageKey K × Message V} : e ∈ Node.eraseKey es k ↔ e ∈ es ∧ e.1.key ≠ k := by
  rw [Node.eraseKey, OrdMap.mem_eraseBetween h]
  refine and_congr_right (fun he => ?_)
  rw [MessageKey.lt_rangeStart, MessageKey.rangeEnd_lt (hs e he)]
  exact (ne_iff_lt_or_gt).symm

theorem sorted_eraseKey (h : OrdMap.Sorted es) : OrdMap.Sorted (Node.eraseKey es k) :=
  OrdMap.sorted_eraseBetween h (MessageKey.rangeStart_le_rangeEnd k)

theorem ofKey_eraseKey_self (h : OrdMap.Sorted es)
    (hs : ∀ e ∈ es, e.1.timestamp ≤ uint64Max) : ofKey (Node.eraseKey es k) k = [] :=
  ofKey_eq_nil (fun _ he => ((mem_eraseKey h hs).mp he).2)

theorem ofKey_eraseKey_ne {k' : K} (h : OrdMap.Sorted es)
    (hs : ∀ e ∈ es, e.1.timestamp ≤ uint64Max) (hk : k' ≠ k) :
    ofKey (Node.eraseKey es k) k' = ofKey es k' := by
  refine OrdMap.Sorted.ext (sorted_ofKey (sorted_eraseKey h)) (sorted_ofKey h) (fun e => ?_)
  rw [mem_ofKey, mem_eraseKey h hs, mem_ofKey]
  exact ⟨fun he => ⟨he.1.1, he.2⟩, fun he => ⟨⟨he.1, fun hk' => hk (he.2 ▸ hk')⟩, he.2⟩⟩

/-- The entry an `UPDATE` looks at is the newest message of its key, when there is one. -/
theorem updateEntry_of_some (h : OrdMap.Sorted es) (hs : ∀ e ∈ es, e.1.timestamp ≤ uint64Max)
    {e : MessageKey K × Message V} (he : (ofKey es k).getLast? = some e) :
    Node.updateEntry es k = some e := by
  have hsplit : OrdMap.upTo es (MessageKey.rangeEnd k)
      = es.filter (fun x => decide (x.1.key < k)) ++ ofKey es k := by
    rw [OrdMap.upTo_eq h]
    refine OrdMap.Sorted.ext (h.filter _) ?_ (fun x => ?_)
    · refine OrdMap.sorted_append.mpr ⟨h.filter _, sorted_ofKey h, ?_⟩
      intro x hx y hy
      have hxk : x.1.key < k := by simpa using (List.mem_filter.mp hx).2
      exact MessageKey.lt_iff.mpr (Or.inl ((mem_ofKey.mp hy).2 ▸ hxk))
    · rw [List.mem_append, mem_ofKey, List.mem_filter, List.mem_filter, decide_eq_true_eq,
        decide_eq_true_eq, ← and_or_left]
      refine and_congr_right (fun hx => ?_)
      rw [← not_lt, MessageKey.rangeEnd_lt (hs x hx), not_lt, le_iff_lt_or_eq]
  rw [Node.updateEntry, hsplit, List.getLast?_append, he]
  rfl

/-- Without one, it is of another key. -/
theorem updateEntry_of_none (h : OrdMap.Sorted es) (hk : ofKey es k = [])
    {e : MessageKey K × Message V} (he : Node.updateEntry es k = some e) : e.1.key ≠ k := by
  have hmem : e ∈ es := by
    unfold Node.updateEntry at he
    split at he
    · rename_i x hx
      injection he with he
      subst he
      rw [OrdMap.upTo_eq h] at hx
      exact (List.mem_filter.mp (List.mem_of_getLast? hx)).1
    · exact List.mem_of_head? he
  intro hek
  have : e ∈ ofKey es k := mem_ofKey.mpr ⟨hmem, hek⟩
  rw [hk] at this
  exact absurd this (by simp)

end Maps

end Linear

end BeTree
