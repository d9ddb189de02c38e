import BeTree.Proof.Meaning

/-!
# `apply` composes messages

`push` says what `apply` does to the messages of the one key it is about; the
other keys are untouched. On lists in normal form `push` is composition: the new
list means the old one followed by the new message, and is in normal form again.
-/

namespace BeTree

variable {K V : Type}

/-- The messages of a key after one more, newest last. -/
def push [Add V] (d : V) (leaf : Bool) (l : MessageMap K V) (mkey : MessageKey K)
    (elt : Message V) : MessageMap K V :=
  match elt.opcode with
  | .insert => [(mkey, ⟨.insert, elt.val⟩)]
  | .delete => if leaf then [] else [(mkey, elt)]
  | .update =>
    match l.getLast? with
    | some e =>
      if e.2.opcode = .insert then [(mkey, ⟨.insert, e.2.val + elt.val⟩)] else l ++ [(mkey, elt)]
    | none => if leaf then [(mkey, ⟨.insert, d + elt.val⟩)] else [(mkey, elt)]

/-- A list in normal form that ends in an `INSERT` is nothing but that. -/
theorem form_last_insert {leaf : Bool} {l : MessageMap K V} {e : MessageKey K × Message V}
    (h : Form leaf (opcodes l)) (he : l.getLast? = some e) (ho : e.2.opcode = .insert) :
    l = [e] := by
  cases l with
  | nil => simp at he
  | cons x rest =>
      cases rest with
      | nil => simpa using he
      | cons y rest =>
          exfalso
          cases leaf with
          | true => rcases h with h | h <;> simp [opcodes] at h
          | false =>
              have hmem : e ∈ y :: rest := by
                rw [List.getLast?_cons_cons] at he
                exact List.mem_of_getLast? he
              have htail : .insert ∈ opcodes (y :: rest) :=
                List.mem_map.mpr ⟨e, hmem, ho⟩
              have hform : InnerForm (x.2.opcode :: opcodes (y :: rest)) := h
              cases hx : x.2.opcode with
              | insert => rw [hx] at hform; simp [InnerForm, opcodes] at hform
              | delete => rw [hx] at hform; exact absurd (hform _ htail) (by simp)
              | update => rw [hx] at hform; exact absurd (hform _ htail) (by simp)

/-- A list in normal form that ends in something else is an inner node's. -/
theorem form_last_other {leaf : Bool} {l : MessageMap K V} {e : MessageKey K × Message V}
    (h : Form leaf (opcodes l)) (he : l.getLast? = some e) (ho : e.2.opcode ≠ .insert) :
    leaf = false ∧ ∀ m : Message V, m.opcode = .update → ∀ mkey : MessageKey K,
      InnerForm (opcodes (l ++ [(mkey, m)])) := by
  cases leaf with
  | true =>
      exfalso
      have hmem : e.2.opcode ∈ opcodes l := List.mem_map.mpr ⟨e, List.mem_of_getLast? he, rfl⟩
      rcases h with h | h
      · rw [h] at hmem; exact absurd hmem (by simp)
      · rw [h] at hmem; exact ho (List.mem_singleton.mp hmem)
  | false =>
      refine ⟨rfl, fun m hm mkey => ?_⟩
      cases l with
      | nil => simp at he
      | cons x rest =>
          have hform : InnerForm (x.2.opcode :: opcodes rest) := h
          show InnerForm (x.2.opcode :: opcodes (rest ++ [(mkey, m)]))
          have happ : opcodes (rest ++ [(mkey, m)]) = opcodes rest ++ [.update] := by
            simp [opcodes, hm]
          rw [happ]
          cases hx : x.2.opcode with
          | insert =>
              -- a lone `INSERT` would be the last message
              rw [hx] at hform
              have hnil : rest = [] := List.map_eq_nil_iff.mp hform
              subst hnil
              have hxe : x = e := by simpa using he
              exact absurd hx (hxe ▸ ho)
          | delete =>
              rw [hx] at hform
              intro u hu
              rcases List.mem_append.mp hu with hu | hu
              · exact hform u hu
              · exact List.mem_singleton.mp hu
          | update =>
              rw [hx] at hform
              intro u hu
              rcases List.mem_append.mp hu with hu | hu
              · exact hform u hu
              · exact List.mem_singleton.mp hu

theorem push_form [Add V] {d : V} {leaf : Bool} {l : MessageMap K V} {mkey : MessageKey K}
    {elt : Message V} (h : Form leaf (opcodes l)) : Form leaf (opcodes (push d leaf l mkey elt)) := by
  unfold push
  split
  · exact form_insert leaf
  · rename_i ho
    cases leaf
    · show InnerForm [elt.opcode]
      rw [ho]
      exact fun u hu => absurd hu (by simp)
    · exact form_nil true
  · rename_i ho
    split
    · rename_i e he
      split
      · exact form_insert leaf
      · rename_i hne
        obtain ⟨rfl, happ⟩ := form_last_other h he hne
        exact happ elt ho mkey
    · cases leaf
      · show InnerForm [elt.opcode]
        rw [ho]
        exact fun u hu => absurd hu (by simp)
      · exact form_insert true

/-- **`push` is composition.** In a leaf there is nothing older than its messages. -/
theorem push_denote [Add V] {d : V} {leaf : Bool} {l : MessageMap K V} {mkey : MessageKey K}
    {elt : Message V} {old : Option V} (h : Form leaf (opcodes l))
    (hold : leaf = true → old = none) :
    denote d (push d leaf l mkey elt) old = elt.act d (denote d l old) := by
  cases ho : elt.opcode with
  | insert => simp [push, denote, Message.act, ho]
  | delete =>
      cases leaf
      · simp [push, denote, Message.act, ho]
      · simp [push, denote, Message.act, ho, hold rfl]
  | update =>
      cases hl : l.getLast? with
      | some e =>
          by_cases hins : e.2.opcode = .insert
          · have hsingle := form_last_insert h hl hins
            subst hsingle
            simp [push, denote, Message.act, ho, hins]
          · have hp : push d leaf l mkey elt = l ++ [(mkey, elt)] := by
              simp [push, ho, hl, hins]
            rw [hp, denote_append]
            rfl
      | none =>
          have hnil := List.getLast?_eq_none_iff.mp hl
          subst hnil
          cases leaf
          · simp [push, denote, Message.act, ho]
          · simp [push, denote, Message.act, ho, hold rfl]

section Linear

variable [LinearOrder K] {fresh : Prop}

/--
What holds of a node's message map by itself, for keys in `R`.

`fresh` says that the clock has not wrapped around. What depends on the order of
the timestamps is asked for only then; the rest holds in any case.
-/
structure Buffer (fresh : Prop) (leaf : Bool) (R : K → Prop) (es : MessageMap K V) : Prop where
  sorted : OrdMap.Sorted es
  stamp : ∀ e ∈ es, e.1.timestamp ≤ uint64Max
  positive : fresh → ∀ e ∈ es, 0 < e.1.timestamp
  range : ∀ e ∈ es, R e.1.key
  form : leaf = true ∨ fresh → ∀ k, Form leaf (opcodes (ofKey es k))

namespace Buffer

variable {leaf : Bool} {R : K → Prop} {es : MessageMap K V}

theorem nil : Buffer fresh leaf R ([] : MessageMap K V) :=
  ⟨OrdMap.sorted_nil, by simp, by simp, by simp, fun _ _ => form_nil leaf⟩

theorem mono {R' : K → Prop} (h : Buffer fresh leaf R es) (hR : ∀ k, R k → R' k) : Buffer fresh leaf R' es :=
  ⟨h.sorted, h.stamp, h.positive, fun e he => hR _ (h.range e he), h.form⟩

/-- The part of a buffer with keys in a set. -/
theorem filter {R' : K → Prop} (h : Buffer fresh leaf R es) (p : K → Bool)
    (hR : ∀ k, R k → p k = true → R' k) :
    Buffer fresh leaf R' (es.filter (fun e => p e.1.key)) := by
  refine ⟨h.sorted.filter _, fun e he => h.stamp e (List.mem_filter.mp he).1,
    fun hf e he => h.positive hf e (List.mem_filter.mp he).1, ?_, fun hl k => ?_⟩
  · intro e he
    obtain ⟨hm, hp⟩ := List.mem_filter.mp he
    exact hR _ (h.range e hm) hp
  · rw [ofKey_filter p]
    split
    · exact h.form hl k
    · exact form_nil leaf

end Buffer

/-- A map that has nothing but the buffer's messages and one more, in normal form. -/
theorem Buffer.of_stored {leaf : Bool} {R : K → Prop} {es es' : MessageMap K V}
    {mkey : MessageKey K} (h : Buffer fresh leaf R es) (hs : OrdMap.Sorted es')
    (hmem : ∀ e ∈ es', e.1 = mkey ∨ e ∈ es) (hR : R mkey.key)
    (hst : mkey.timestamp ≤ uint64Max) (hpos : fresh → 0 < mkey.timestamp)
    (hform : leaf = true ∨ fresh → ∀ k, Form leaf (opcodes (ofKey es' k))) :
    Buffer fresh leaf R es' := by
  refine ⟨hs, fun e he => ?_, fun hf e he => ?_, fun e he => ?_, hform⟩
  · rcases hmem e he with h' | h'
    · rw [h']; exact hst
    · exact h.stamp e h'
  · rcases hmem e he with h' | h'
    · rw [h']; exact hpos hf
    · exact h.positive hf e h'
  · rcases hmem e he with h' | h'
    · rw [h']; exact hR
    · exact h.range e h'

namespace Node

variable [Add V] {n : Node K V} {d : V} {R : K → Prop} {mkey : MessageKey K} {elt : Message V}

omit [Add V] in
/-- A message that replaces all messages of its key. -/
theorem ofKey_assign_eraseKey {m : Message V} (h : Buffer fresh n.isLeaf R n.elements) :
    ofKey (OrdMap.assign (eraseKey n.elements mkey.key) mkey m) mkey.key = [(mkey, m)]
      ∧ ∀ k, k ≠ mkey.key →
        ofKey (OrdMap.assign (eraseKey n.elements mkey.key) mkey m) k = ofKey n.elements k := by
  have hs := sorted_eraseKey (k := mkey.key) h.sorted
  have hnone : ∀ e ∈ eraseKey n.elements mkey.key, e.1.key = mkey.key →
      e.1.timestamp < mkey.timestamp :=
    fun e he hk => absurd hk ((mem_eraseKey h.sorted h.stamp).mp he).2
  refine ⟨?_, fun k hk => ?_⟩
  · rw [ofKey_assign_self hs hnone, ofKey_eraseKey_self h.sorted h.stamp]
    rfl
  · rw [ofKey_assign_ne hs hk, ofKey_eraseKey_ne h.sorted h.stamp hk]

omit [Add V] in
/-- `apply` of an `INSERT` leaves one message of the key. -/
theorem ofKey_applyInsert {v : V} (h : Buffer fresh n.isLeaf R n.elements) :
    ofKey (n.applyInsert mkey v).elements mkey.key = [(mkey, ⟨.insert, v⟩)]
      ∧ ∀ k, k ≠ mkey.key → ofKey (n.applyInsert mkey v).elements k = ofKey n.elements k :=
  ofKey_assign_eraseKey h

omit [Add V] in
/-- A newer message that an inner node puts after the others of its key. -/
theorem ofKey_assign_newer {elt : Message V} (h : Buffer fresh n.isLeaf R n.elements)
    (hnew : ∀ e ∈ n.elements, e.1.key = mkey.key → e.1.timestamp < mkey.timestamp) :
    ofKey (OrdMap.assign n.elements mkey elt) mkey.key = ofKey n.elements mkey.key ++ [(mkey, elt)]
      ∧ ∀ k, k ≠ mkey.key → ofKey (OrdMap.assign n.elements mkey elt) k = ofKey n.elements k :=
  ⟨ofKey_assign_self h.sorted hnew, fun _ hk => ofKey_assign_ne h.sorted hk⟩

/-- `apply` of an `UPDATE` of a key without messages. -/
theorem ofKey_applyAbsent {elt : Message V} (h : Buffer fresh n.isLeaf R n.elements)
    (hnil : ofKey n.elements mkey.key = [])
    (hnew : n.isLeaf = false →
      ∀ e ∈ n.elements, e.1.key = mkey.key → e.1.timestamp < mkey.timestamp) :
    ofKey (n.applyAbsent mkey elt d).elements mkey.key
        = (if n.isLeaf then [(mkey, ⟨.insert, d + elt.val⟩)] else [(mkey, elt)])
      ∧ ∀ k, k ≠ mkey.key → ofKey (n.applyAbsent mkey elt d).elements k = ofKey n.elements k := by
  unfold applyAbsent
  split
  · exact ofKey_applyInsert h
  · rename_i hl
    have hnew' := hnew (by simpa using hl)
    refine ⟨?_, (ofKey_assign_newer h hnew').2⟩
    exact (ofKey_assign_newer h hnew').1.trans (by rw [hnil]; rfl)

/-- Applying a message keeps the map in order and puts nothing else into it. -/
theorem apply_stored (mkey : MessageKey K) (elt : Message V) (d : V)
    (h : Buffer fresh n.isLeaf R n.elements) :
    OrdMap.Sorted (n.apply mkey elt d).elements
      ∧ ∀ x ∈ (n.apply mkey elt d).elements, x.1 = mkey ∨ x ∈ n.elements := by
  have herase := sorted_eraseKey (k := mkey.key) h.sorted
  have hmem : ∀ x ∈ eraseKey n.elements mkey.key, x ∈ n.elements :=
    fun x hx => ((mem_eraseKey h.sorted h.stamp).mp hx).1
  -- every branch assigns the one key, to the buffer as it was or with that key erased
  have hassign : ∀ {es : MessageMap K V} {m : Message V}, OrdMap.Sorted es →
      (∀ x ∈ es, x ∈ n.elements) → OrdMap.Sorted (OrdMap.assign es mkey m)
        ∧ ∀ x ∈ OrdMap.assign es mkey m, x.1 = mkey ∨ x ∈ n.elements := by
    intro es m hs hsub
    refine ⟨OrdMap.sorted_assign hs, fun x hx => ?_⟩
    rcases (OrdMap.mem_assign hs).mp hx with rfl | ⟨hx, _⟩
    · exact Or.inl rfl
    · exact Or.inr (hsub x hx)
  have hall := hassign (m := elt) h.sorted (fun x hx => hx)
  have hinsert : ∀ v, OrdMap.Sorted (n.applyInsert mkey v).elements
      ∧ ∀ x ∈ (n.applyInsert mkey v).elements, x.1 = mkey ∨ x ∈ n.elements :=
    fun v => hassign herase hmem
  have habsent : OrdMap.Sorted (n.applyAbsent mkey elt d).elements
      ∧ ∀ x ∈ (n.applyAbsent mkey elt d).elements, x.1 = mkey ∨ x ∈ n.elements := by
    unfold applyAbsent
    split
    · exact hinsert _
    · exact hall
  unfold apply
  split
  · exact hinsert _
  · dsimp only
    split
    · exact ⟨herase, fun x hx => Or.inr (hmem x hx)⟩
    · exact hassign herase hmem
  · split
    · split
      · split
        · exact hinsert _
        · exact hall
      · exact habsent
    · exact habsent

/--
`apply` with a message newer than those of its key changes that key by `push`, and
no other. In a leaf the timestamps do not matter.
-/
theorem ofKey_apply (elt : Message V) (h : Buffer fresh n.isLeaf R n.elements)
    (hform : Form n.isLeaf (opcodes (ofKey n.elements mkey.key)))
    (hnew : n.isLeaf = false →
      ∀ e ∈ n.elements, e.1.key = mkey.key → e.1.timestamp < mkey.timestamp) :
    ofKey (n.apply mkey elt d).elements mkey.key
          = push d n.isLeaf (ofKey n.elements mkey.key) mkey elt
      ∧ ∀ k, k ≠ mkey.key → ofKey (n.apply mkey elt d).elements k = ofKey n.elements k := by
  cases ho : elt.opcode with
  | insert =>
      have hp : push d n.isLeaf (ofKey n.elements mkey.key) mkey elt
          = [(mkey, ⟨.insert, elt.val⟩)] := by simp [push, ho]
      rw [hp, apply, ho]
      exact ofKey_applyInsert h
  | delete =>
      have hp : push d n.isLeaf (ofKey n.elements mkey.key) mkey elt
          = if n.isLeaf then [] else [(mkey, elt)] := by simp [push, ho]
      rw [hp, apply, ho]
      dsimp only
      split
      · exact ⟨ofKey_eraseKey_self h.sorted h.stamp,
          fun k hk => ofKey_eraseKey_ne h.sorted h.stamp hk⟩
      · exact ofKey_assign_eraseKey h
  | update =>
      rw [apply, ho]
      dsimp only
      cases hl : (ofKey n.elements mkey.key).getLast? with
      | some e =>
          have hek : e.1.key = mkey.key := (mem_ofKey.mp (List.mem_of_getLast? hl)).2
          rw [updateEntry_of_some h.sorted h.stamp hl]
          simp only [push, ho, hl, hek, beq_self_eq_true, if_true]
          by_cases hins : e.2.opcode = .insert
          · rw [if_pos hins, hins]
            exact ofKey_applyInsert h
          · -- only an inner node has anything but an `INSERT` last
            rw [if_neg hins]
            split
            · rename_i hi; exact absurd hi hins
            · exact ofKey_assign_newer h (hnew (form_last_other hform hl hins).1)
      | none =>
          have hnil : ofKey n.elements mkey.key = [] := List.getLast?_eq_none_iff.mp hl
          have hp : push d n.isLeaf (ofKey n.elements mkey.key) mkey elt
              = if n.isLeaf then [(mkey, ⟨.insert, d + elt.val⟩)] else [(mkey, elt)] := by
            simp [push, ho, hl]
          rw [hp]
          cases hu : updateEntry n.elements mkey.key with
          | none => exact ofKey_applyAbsent h hnil hnew
          | some e =>
              -- the entry found is one of another key
              dsimp only
              rw [if_neg (by simpa using updateEntry_of_none h.sorted hnil hu)]
              exact ofKey_applyAbsent h hnil hnew

@[simp]
theorem apply_pivots : (n.apply mkey elt d).pivots = n.pivots := by
  unfold apply applyAbsent applyInsert
  repeat' split
  all_goals rfl

@[simp]
theorem apply_id : (n.apply mkey elt d).id = n.id := by
  unfold apply applyAbsent applyInsert
  repeat' split
  all_goals rfl

@[simp]
theorem apply_isLeaf : (n.apply mkey elt d).isLeaf = n.isLeaf := by
  rw [isLeaf, isLeaf, apply_pivots]

theorem applyAll_pivots {elts : MessageMap K V} : (n.applyAll elts d).pivots = n.pivots := by
  induction elts generalizing n with
  | nil => rfl
  | cons e elts ih => exact ih.trans apply_pivots

theorem applyAll_id {elts : MessageMap K V} : (n.applyAll elts d).id = n.id := by
  induction elts generalizing n with
  | nil => rfl
  | cons e elts ih => exact ih.trans apply_id

/-- A batch of messages: in order, with valid timestamps, for keys in `R`. -/
structure Batch (fresh : Prop) (R : K → Prop) (elts : MessageMap K V) : Prop where
  sorted : OrdMap.Sorted elts
  stamp : ∀ e ∈ elts, e.1.timestamp ≤ uint64Max
  positive : fresh → ∀ e ∈ elts, 0 < e.1.timestamp
  range : ∀ e ∈ elts, R e.1.key

omit [Add V] in
theorem Batch.tail {e : MessageKey K × Message V} {elts : MessageMap K V}
    (hb : Batch fresh R (e :: elts)) : Batch fresh R elts := by
  refine ⟨(OrdMap.sorted_cons.mp hb.sorted).2, fun x hx => ?_, fun hf x hx => ?_, fun x hx => ?_⟩
  · exact hb.stamp x (List.mem_cons_of_mem _ hx)
  · exact hb.positive hf x (List.mem_cons_of_mem _ hx)
  · exact hb.range x (List.mem_cons_of_mem _ hx)

/-- Every message of the batch is newer than the ones of its key in `es`. -/
def Newer (elts es : MessageMap K V) : Prop :=
  ∀ e ∈ elts, ∀ m ∈ es, m.1.key = e.1.key → m.1.timestamp < e.1.timestamp

/-- What applying a batch does to a node. -/
structure Applied (fresh : Prop) (d : V) (n : Node K V) (R : K → Prop) (elts : MessageMap K V)
    (n' : Node K V) : Prop where
  buffer : Buffer fresh n.isLeaf R n'.elements
  pivots : n'.pivots = n.pivots
  id : n'.id = n.id
  composed : fresh → ∀ k old, (n.isLeaf = true → old = none) →
    effect d n'.elements k old = effect d elts k (effect d n.elements k old)
  /-- No message key is invented. -/
  stored : ∀ e ∈ n'.elements, (∃ m ∈ elts, m.1 = e.1) ∨ e ∈ n.elements

/-- Applying one message keeps the buffer in order and in normal form. -/
theorem apply_buffer {e : MessageKey K × Message V} (h : Buffer fresh n.isLeaf R n.elements)
    (hR : R e.1.key) (hst : e.1.timestamp ≤ uint64Max) (hpos : fresh → 0 < e.1.timestamp)
    (hnew : fresh → ∀ m ∈ n.elements, m.1.key = e.1.key → m.1.timestamp < e.1.timestamp) :
    Buffer fresh n.isLeaf R (n.apply e.1 e.2 d).elements := by
  obtain ⟨hs, hstored⟩ := apply_stored e.1 e.2 d h
  refine h.of_stored hs hstored hR hst hpos (fun hl k => ?_)
  have hnew' : n.isLeaf = false →
      ∀ m ∈ n.elements, m.1.key = e.1.key → m.1.timestamp < e.1.timestamp := by
    intro hinner
    rcases hl with hl | hl
    · rw [hinner] at hl; exact absurd hl (by simp)
    · exact hnew hl
  obtain ⟨hself, hne⟩ := ofKey_apply (d := d) e.2 h (h.form hl e.1.key) hnew'
  by_cases hk : k = e.1.key
  · rw [hk, hself]; exact push_form (h.form hl _)
  · rw [hne k hk]; exact h.form hl k

/-- **`apply` over a batch** composes the batch onto every key. -/
theorem applyAll_applied {elts : MessageMap K V} (h : Buffer fresh n.isLeaf R n.elements)
    (hb : Batch fresh R elts) (hnew : fresh → Newer elts n.elements) :
    Applied fresh d n R elts (n.applyAll elts d) := by
  induction elts generalizing n with
  | nil => exact ⟨h, rfl, rfl, fun _ _ _ _ => rfl, fun e he => Or.inr he⟩
  | cons e elts ih =>
      obtain ⟨hlt, _⟩ := OrdMap.sorted_cons.mp hb.sorted
      have hmem := List.mem_cons_self (a := e) (l := elts)
      have hbuf : Buffer fresh n.isLeaf R (n.apply e.1 e.2 d).elements :=
        apply_buffer h (hb.range e hmem) (hb.stamp e hmem) (fun hf => hb.positive hf e hmem)
          (fun hf => hnew hf e hmem)
      have hstored := (apply_stored e.1 e.2 d h).2
      have hnew' : fresh → Newer elts (n.apply e.1 e.2 d).elements := by
        intro hf y hy m hm hk
        rcases hstored m hm with h' | h'
        · -- the message just applied: the batch is in timestamp order within a key
          rw [h'] at hk ⊢
          rcases MessageKey.lt_iff.mp (hlt y hy) with h'' | h''
          · exact absurd hk (ne_of_lt h'')
          · exact h''.2
        · exact hnew hf y (List.mem_cons_of_mem _ hy) m h' hk
      have hih := ih (n := n.apply e.1 e.2 d) (by rw [apply_isLeaf]; exact hbuf) hb.tail hnew'
      rw [show n.applyAll (e :: elts) d = (n.apply e.1 e.2 d).applyAll elts d from rfl]
      refine ⟨by have := hih.buffer; rwa [apply_isLeaf] at this,
        hih.pivots.trans apply_pivots, hih.id.trans apply_id, fun hf k old hold => ?_,
        fun x hx => ?_⟩
      · have hform := h.form (Or.inr hf)
        obtain ⟨hself, hne⟩ := ofKey_apply (d := d) e.2 h (hform e.1.key)
          (fun _ => hnew hf e hmem)
        rw [hih.composed hf k old (by rw [apply_isLeaf]; exact hold), effect_cons]
        by_cases hk : e.1.key = k
        · subst hk
          rw [if_pos rfl]
          unfold effect
          rw [hself, push_denote (hform _) hold]
        · rw [if_neg hk]
          unfold effect
          rw [hne k (Ne.symm hk)]
      · rcases hih.stored x hx with ⟨m, hm, hmx⟩ | hx'
        · exact Or.inl ⟨m, List.mem_cons_of_mem _ hm, hmx⟩
        · rcases hstored x hx' with h' | h'
          · exact Or.inl ⟨e, hmem, h'.symm⟩
          · exact Or.inr h'

end Node

end Linear

end BeTree
