import BeTree.Tree.Betree
import BeTree.Proof.Query

/-!
# Upserts, and the trees they reach

`Reached` says what holds of the tree after some number of upserts: its root keeps
the invariant for all keys, it stands for the reference map after the same
upserts, and the clock is ahead of every message. One upsert keeps it, so it holds
of every tree a sequence of upserts gives, whatever the environment answers.

As long as the clock has not wrapped around (`fresh`) the values agree; the shape
of the tree is kept in any case.
-/

namespace BeTree

open Node

variable {K V : Type} [LinearOrder K] [Add V] {fresh : Prop} {bet : Params K V}

/-! ## The reference map -/

/-- The message an upsert puts into the tree, at time `ts`. -/
def Upsert.message (d : V) (ts : Nat) : Upsert K V → MessageKey K × Message V
  | .insert k v => (⟨k, ts⟩, ⟨.insert, v⟩)
  | .update k v => (⟨k, ts⟩, ⟨.update, v⟩)
  | .erase k => (⟨k, ts⟩, ⟨.delete, d⟩)

theorem effect_single {d : V} {e : MessageKey K × Message V} {k : K} {old : Option V} :
    effect d [e] k old = if k = e.1.key then e.2.act d old else old := by
  rw [effect_cons, effect_of_absent (by simp)]
  simp only [eq_comm]

/-- The reference map takes an upsert as the tree's meaning does. -/
theorem Reference.apply_spec (d : V) {m : List (K × V)} (ts : Nat) (u : Upsert K V)
    (hs : OrdMap.Sorted m) :
    OrdMap.Sorted (Reference.apply d m u) ∧ ∀ k,
      OrdMap.lookup (Reference.apply d m u) k
        = effect d [u.message d ts] k (OrdMap.lookup m k) := by
  cases u with
  | insert k' v =>
      refine ⟨OrdMap.sorted_assign hs, fun k => ?_⟩
      rw [effect_single, Reference.apply, OrdMap.lookup_assign hs]
      rfl
  | update k' v =>
      refine ⟨OrdMap.sorted_assign hs, fun k => ?_⟩
      rw [effect_single, Reference.apply, OrdMap.lookup_assign hs]
      by_cases hk : k = k'
      · subst hk; rfl
      · rw [if_neg hk, if_neg (by exact hk)]
  | erase k' =>
      refine ⟨OrdMap.sorted_erase hs, fun k => ?_⟩
      rw [effect_single, Reference.apply, OrdMap.lookup_erase hs]
      rfl

/-! ## One upsert -/

/-- A new root over the nodes of a split one. -/
theorem all_growRoot {h : Nat} {root : Node K V} {elts : MessageMap K V} {news : PivotMap K V}
    {d : V} {R : K → Prop} {E : Fault → Prop} (hr : ∀ n, bet.reload n = some n)
    (hnews : Replacement fresh d h R root elts news) :
    Prog.All (Represents fresh d (h + 1) R (root.messages ++ elts)
        (fun k => effect d elts k (value d h root k))) E (Betree.growRoot bet root news) := by
  intro id _
  show Prog.All _ E ((⟨id, [], []⟩ : Node K V).deref bet true
    (fun n => return ({ n with pivots := news }, ())) >>= _)
  have hderef : Prog.All (fun r => r = (⟨id, news, []⟩, ())) E ((⟨id, [], []⟩ : Node K V).deref
      bet true (fun n => return ({ n with pivots := news }, ()))) := all_deref hr rfl
  refine hderef.bind (fun r hres => ?_)
  subst hres
  refine ⟨⟨Buffer.nil, hnews.forest, hnews.nonempty, by simp, fun _ p _ m hm => ?_⟩,
    fun hf k => ?_, fun m hm => ?_⟩
  · exact absurd hm (by simp)
  · rw [← hnews.value hf k]
    rfl
  · rcases mem_messages.mp hm with hm | ⟨p, hp, hm⟩
    · exact absurd hm (by simp)
    · exact hnews.messages p hp m hm

omit [Add V] in
/-- The batch of one upsert. -/
theorem batch_single {k : K} {ts : Nat} {m : Message V} {R : K → Prop} (hts : ts ≤ uint64Max)
    (hpos : fresh → 0 < ts) (hk : R k) : Batch fresh R [((⟨k, ts⟩ : MessageKey K), m)] := by
  refine ⟨OrdMap.sorted_singleton _, fun e he => ?_, fun hf e he => ?_, fun e he => ?_⟩
  · rw [List.mem_singleton.mp he]; exact hts
  · rw [List.mem_singleton.mp he]; exact hpos hf
  · rw [List.mem_singleton.mp he]; exact hk

/--
**One upsert** applies its message to what the tree stands for, if the flush does. The root
only grows when the flush may split nodes.
-/
theorem all_upsert {h : Nat} {t : Betree K V} {opcode : Opcode} {k : K} {v : V} {splits : Prop}
    {E : Fault → Prop} (hr : ∀ n, bet.reload n = some n)
    (hfl : Prog.All (fun r => Flushed fresh bet.defaultValue h (fun _ => True) t.root
          [(⟨k, t.nextTimestamp⟩, ⟨opcode, v⟩)] r ∧ (splits ∨ r.2 = [])) E
        (flush bet (t.root.height + 1) t.root [(⟨k, t.nextTimestamp⟩, ⟨opcode, v⟩)])) :
    Prog.All (fun t' => t'.nextTimestamp = (t.nextTimestamp + 1) % 2 ^ 64
        ∧ ∃ h', (splits ∨ h' = h) ∧ Represents fresh bet.defaultValue h' (fun _ => True)
          (t.root.messages ++ [(⟨k, t.nextTimestamp⟩, ⟨opcode, v⟩)])
          (fun x => effect bet.defaultValue [(⟨k, t.nextTimestamp⟩, ⟨opcode, v⟩)] x
            (value bet.defaultValue h t.root x)) t'.root)
      E (t.upsert bet opcode k v) := by
  unfold Betree.upsert
  dsimp only
  refine (all_deref hr hfl).bind (fun ⟨root, news⟩ hres => ?_)
  obtain ⟨hres, hsplits⟩ := hres
  by_cases hnil : news = []
  · subst hnil
    exact ⟨rfl, h, Or.inr rfl, hres.whole rfl⟩
  · have hsplits : splits := hsplits.elim (fun hs => hs) (fun hnews => absurd hnews hnil)
    dsimp only
    rw [if_neg (by simpa using hnil)]
    exact (all_growRoot hr (hres.parts hnil)).bind (fun n hn => ⟨rfl, h + 1, Or.inl hsplits, hn⟩)

/-! ## Sequences of upserts -/

/-- The tree after `count` upserts, where `m` is the reference map after the same ones. -/
structure Reached (fresh : Prop) (d : V) (count : Nat) (m : List (K × V)) (t : Betree K V) :
    Prop where
  sorted : OrdMap.Sorted m
  clock : t.nextTimestamp = (count + 1) % 2 ^ 64
  tree : ∃ h, Inv fresh h (fun _ => True) t.root
    ∧ (fresh → ∀ k, value d h t.root k = OrdMap.lookup m k)
  stamps : fresh → ∀ x ∈ t.root.messages, x.1.timestamp ≤ count

theorem Reached.clock_le {d : V} {count : Nat} {m : List (K × V)} {t : Betree K V}
    (ht : Reached fresh d count m t) : t.nextTimestamp ≤ uint64Max := by
  rw [ht.clock]
  exact Nat.le_of_lt_succ (Nat.mod_lt _ (by decide))

/-- The fresh tree stands for the empty map. -/
theorem all_create (fresh : Prop) (d : V) {E : Fault → Prop} :
    Prog.All (Reached fresh d 0 ([] : List (K × V))) E (Betree.create : BProg (Betree K V)) := by
  intro id
  refine ⟨OrdMap.sorted_nil, rfl, ⟨0, ⟨rfl, Buffer.nil⟩, fun _ k => rfl⟩, fun _ x hx => ?_⟩
  rcases mem_messages.mp hx with hx | ⟨p, hp, _⟩
  · exact absurd hx (by simp)
  · exact absurd hp (by simp)

/-- One upsert of a client, if every flush of the root does what it should. -/
theorem all_apply_of_flush {count : Nat} {m : List (K × V)} {t : Betree K V} {u : Upsert K V}
    {E : Fault → Prop} (splits : Prop) (hr : ∀ n, bet.reload n = some n)
    (ht : Reached fresh bet.defaultValue count m t) (hcount : fresh → count + 1 < uint64Max)
    (hflush : ∀ h elts, Inv fresh h (fun _ => True) t.root → Batch fresh (fun _ => True) elts →
      (fresh → Newer elts t.root.messages) →
      Prog.All (fun r => Flushed fresh bet.defaultValue h (fun _ => True) t.root elts r
          ∧ (splits ∨ r.2 = [])) E (flush bet (t.root.height + 1) t.root elts)) :
    Prog.All (fun t' => Reached fresh bet.defaultValue (count + 1)
          (Reference.apply bet.defaultValue m u) t'
        ∧ (splits ∨ t'.root.height = t.root.height)) E (t.apply bet u) := by
  obtain ⟨h, hinv, hval⟩ := ht.tree
  have hclock := ht.clock
  -- before the clock wraps around it is one ahead of the number of upserts
  have hnow : fresh → t.nextTimestamp = count + 1 := by
    intro hf
    have hlt := hcount hf
    rw [hclock]
    unfold uint64Max at hlt
    omega
  have hstep : ∀ {opcode : Opcode} {k : K} {v : V},
      u.message bet.defaultValue t.nextTimestamp = (⟨k, t.nextTimestamp⟩, ⟨opcode, v⟩) →
      Prog.All (fun t' => Reached fresh bet.defaultValue (count + 1)
          (Reference.apply bet.defaultValue m u) t'
        ∧ (splits ∨ t'.root.height = t.root.height)) E (t.upsert bet opcode k v) := by
    intro opcode k v hu
    obtain ⟨hs', hlook⟩ := Reference.apply_spec bet.defaultValue t.nextTimestamp u ht.sorted
    have hb : Batch fresh (fun _ => True) [((⟨k, t.nextTimestamp⟩ : MessageKey K),
        (⟨opcode, v⟩ : Message V))] := by
      refine batch_single ht.clock_le (fun hf => ?_) trivial
      rw [hnow hf]
      omega
    have hnewer : fresh → Newer [((⟨k, t.nextTimestamp⟩ : MessageKey K),
        (⟨opcode, v⟩ : Message V))] t.root.messages := by
      intro hf e he x hx _
      rw [List.mem_singleton.mp he]
      show x.1.timestamp < t.nextTimestamp
      rw [hnow hf]
      exact Nat.lt_succ_of_le (ht.stamps hf x hx)
    refine (all_upsert hr (hflush h _ hinv hb hnewer)).mono (fun t' ht' => ?_)
    obtain ⟨hclock', h', hsplits, hrep⟩ := ht'
    refine ⟨⟨hs', ?_, ⟨h', hrep.inv, fun hf k' => ?_⟩, fun hf x hx => ?_⟩, ?_⟩
    · rw [hclock', hclock]
      omega
    · rw [hrep.value hf k', hval hf k', hlook k', hu]
    · obtain ⟨x', hx', hxx⟩ := hrep.messages x hx
      rw [← hxx]
      rcases List.mem_append.mp hx' with hx' | hx'
      · exact Nat.le_succ_of_le (ht.stamps hf x' hx')
      · rw [List.mem_singleton.mp hx', hnow hf]
    · rw [hrep.inv.height, hinv.height]
      exact hsplits
  cases u with
  | insert k v => exact hstep rfl
  | update k v => exact hstep rfl
  | erase k => exact hstep rfl

theorem all_apply {count : Nat} {m : List (K × V)} {t : Betree K V} {u : Upsert K V}
    (hr : ∀ n, bet.reload n = some n) (hM : 3 ≤ bet.maxNodeSize)
    (ht : Reached fresh bet.defaultValue count m t) (hcount : fresh → count + 1 < uint64Max) :
    Prog.All (Reached fresh bet.defaultValue (count + 1) (Reference.apply bet.defaultValue m u))
      Fault.Excluded (t.apply bet u) := by
  refine (all_apply_of_flush True hr ht hcount (fun h elts hinv hb hnew => ?_)).mono
    (fun _ ht' => ht'.1)
  have hfuel : h < t.root.height + 1 := by
    rw [hinv.height]
    exact Nat.lt_succ_self _
  exact (flush_spec _ hr hM hfuel _ _ _ hinv hb hnew).mono (fun _ hfl => ⟨hfl, Or.inl trivial⟩)

/-- **Every tree that upserts reach** stands for the reference map. -/
theorem all_applyAll {count : Nat} {m : List (K × V)} {t : Betree K V} (us : List (Upsert K V))
    (hr : ∀ n, bet.reload n = some n) (hM : 3 ≤ bet.maxNodeSize)
    (ht : Reached fresh bet.defaultValue count m t)
    (hcount : fresh → count + us.length < uint64Max) :
    Prog.All (Reached fresh bet.defaultValue (count + us.length)
        (Reference.applyAll bet.defaultValue m us)) Fault.Excluded (t.applyAll bet us) := by
  induction us generalizing count m t with
  | nil => exact ht
  | cons u us ih =>
      rw [List.length_cons] at hcount ⊢
      refine (all_apply (u := u) hr hM ht (fun hf => ?_)).bind (fun t' ht' => ?_)
      · have := hcount hf
        omega
      · rw [show count + (us.length + 1) = count + 1 + us.length by omega] at hcount ⊢
        exact ih ht' hcount

/-- The same from a fresh tree. -/
theorem all_upserts (fresh : Prop) (us : List (Upsert K V)) (hr : ∀ n, bet.reload n = some n)
    (hM : 3 ≤ bet.maxNodeSize) (hcount : fresh → us.length < uint64Max) :
    Prog.All (Reached fresh bet.defaultValue us.length
        (Reference.applyAll bet.defaultValue [] us)) Fault.Excluded
      (Betree.create >>= fun t => t.applyAll bet us) := by
  refine (all_create fresh bet.defaultValue).bind (fun t ht => ?_)
  have h := all_applyAll us hr hM ht (by rw [Nat.zero_add]; exact hcount)
  rw [Nat.zero_add] at h
  exact h

/--
Inserts into nodes of five entries. The last one goes to the second of three leaves, which has
four entries, when the buffer has a message for the third: the flush loop splits the second leaf
and takes its entry out of the pivot map, and then flushes the third one.
-/
def erasingInserts : List (Upsert Nat Nat) :=
  [10, 20, 30, 40, 50, 60, 70, 80, 41, 71, 42].map (Upsert.insert · 7)

end BeTree
