import BeTree.Proof.Enumerate
import BeTree.Proof.Shape

/-!
# Sessions

What a client sees of a tree between two operations, whatever the swap space answers: the
operations are answered as by the reference map. Every upsert adds one message and at most one
level, so the number of operations bounds the recursion and the loops.
-/

namespace BeTree

open Node

variable {K V : Type} [LinearOrder K] {bet : Params K V}

/-! ## How large a tree can be -/

/--
How large a tree can be after so many operations. One whose nodes are too small to be split
stays a leaf.
-/
structure Grown (bet : Params K V) (count : Nat) (t : Betree K V) : Prop where
  splits : 3 ≤ bet.maxNodeSize ∨ t.root.height = 0
  tree : Inv False t.root.height (fun _ => True) t.root
  height : t.root.height ≤ count
  keys : ∃ ks : List (MessageKey K), ks.length ≤ count ∧ ∀ x ∈ t.root.messages, x.1 ∈ ks

theorem Grown.later {count : Nat} {t : Betree K V} (h : Grown bet count t) : Grown bet (count + 1) t := by
  obtain ⟨ks, hlen, hks⟩ := h.keys
  exact ⟨h.splits, h.tree, Nat.le_succ_of_le h.height, ks, Nat.le_succ_of_le hlen, hks⟩

section Grow

variable [Add V] {count : Nat} {t : Betree K V}

/-- No message is there twice, so there are no more than have been put in. -/
theorem Grown.messages_le {h : Nat} (ht : Grown bet count t)
    (hinv : Inv True h (fun _ => True) t.root) : t.root.messages.length ≤ count := by
  obtain ⟨ks, hlen, hks⟩ := ht.keys
  obtain ⟨L, hL⟩ := hinv.listing (d := bet.defaultValue) trivial
  have hnodup : (L.map Prod.fst).Nodup :=
    List.pairwise_map.mpr (hL.sorted.imp (fun hlt => ne_of_lt hlt))
  have hsub : L.map Prod.fst ⊆ ks := by
    intro k hk
    obtain ⟨x, hx, rfl⟩ := List.mem_map.mp hk
    exact hks x ((hL.mem x).mp hx)
  calc t.root.messages.length
      ≤ L.length := (List.subperm_of_subset (hinv.messages_nodup trivial)
        (fun x hx => (hL.mem x).mpr hx)).length_le
    _ = (L.map Prod.fst).length := (List.length_map _).symm
    _ ≤ ks.length := (List.subperm_of_subset hnodup hsub).length_le
    _ ≤ count := hlen

/-- What stands for the old tree and one message more, with at most one level more. -/
theorem Grown.of_represents {h : Nat} {f : K → Option V} {e : MessageKey K × Message V} {t' : Betree K V}
    (ht : Grown bet count t) (hrep : Represents False bet.defaultValue h (fun _ => True)
      (t.root.messages ++ [e]) f t'.root) (hle : h ≤ t.root.height + 1)
    (hsplits : 3 ≤ bet.maxNodeSize ∨ h = 0) : Grown bet (count + 1) t' := by
  obtain ⟨ks, hlen, hks⟩ := ht.keys
  have hheight := hrep.inv.height
  refine ⟨hheight.symm ▸ hsplits, hheight.symm ▸ hrep.inv, ?_, e.1 :: ks, Nat.succ_le_succ hlen,
    fun x hx => ?_⟩
  · rw [hheight]
    exact Nat.le_trans hle (Nat.succ_le_succ ht.height)
  · obtain ⟨y, hy, hyx⟩ := hrep.messages x hx
    rw [← hyx]
    rcases List.mem_append.mp hy with hy | hy
    · exact List.mem_cons_of_mem _ (hks y hy)
    · rw [List.mem_singleton.mp hy]
      exact List.mem_cons_self

theorem Grown.upsert {opcode : Opcode} {k : K} {v : V} (ht : Grown bet count t)
    (hr : ∀ n, bet.reload n = some n) (hts : t.nextTimestamp ≤ uint64Max) :
    Prog.All (Grown bet (count + 1)) (Fault.Stops bet.maxNodeSize) (t.upsert bet opcode k v) := by
  have hb : Batch False (fun _ => True)
      [((⟨k, t.nextTimestamp⟩ : MessageKey K), (⟨opcode, v⟩ : Message V))] :=
    batch_single hts (fun hf => hf.elim) trivial
  have hflush := all_flush_any hr ht.splits ht.tree hb (fun hf => hf.elim)
  unfold Betree.upsert
  dsimp only
  refine (all_deref hr hflush).bind (fun r hres => ?_)
  obtain ⟨root, news⟩ := r
  obtain ⟨hres, hsplit⟩ := hres
  by_cases hnil : news = []
  · subst hnil
    exact ht.of_represents (hres.whole rfl) (Nat.le_succ _) ht.splits
  · dsimp only
    rw [if_neg (by simpa using hnil)]
    have hM : 3 ≤ bet.maxNodeSize := hsplit.resolve_right hnil
    exact (all_growRoot hr (hres.parts hnil)).bind
      (fun n hn => ht.of_represents hn (Nat.le_refl _) (Or.inl hM))

theorem Grown.apply {u : Upsert K V} (ht : Grown bet count t) (hr : ∀ n, bet.reload n = some n)
    (hts : t.nextTimestamp ≤ uint64Max) :
    Prog.All (Grown bet (count + 1)) (Fault.Stops bet.maxNodeSize) (t.apply bet u) := by
  cases u with
  | insert k v => exact ht.upsert hr hts
  | update k v => exact ht.upsert hr hts
  | erase k => exact ht.upsert hr hts

end Grow

/-! ## Every operation -/

section Serving

variable [Add V] {count : Nat} {m : List (K × V)} {t : Betree K V}

/-- The tree after `count` operations, where `m` is the reference map after the same ones. -/
structure Serves (bet : Params K V) (count : Nat) (m : List (K × V)) (t : Betree K V) : Prop where
  grown : Grown bet count t
  reached : ∃ upserts, upserts ≤ count ∧ Reached True bet.defaultValue upserts m t

theorem Serves.later (h : Serves bet count m t) : Serves bet (count + 1) m t := by
  obtain ⟨upserts, hle, hreached⟩ := h.reached
  exact ⟨h.grown.later, upserts, Nat.le_succ_of_le hle, hreached⟩

theorem Serves.messages_le (h : Serves bet count m t) : t.root.messages.length ≤ count := by
  obtain ⟨_, _, hreached⟩ := h.reached
  obtain ⟨_, hinv, _⟩ := hreached.tree
  exact h.grown.messages_le hinv

theorem Serves.clock_le (h : Serves bet count m t) : t.nextTimestamp ≤ uint64Max := by
  obtain ⟨_, _, hreached⟩ := h.reached
  exact hreached.clock_le

variable (bet) in
theorem serves_create : Prog.All (Serves bet 0 ([] : List (K × V))) (Fault.Stops bet.maxNodeSize)
    (Betree.create : BProg (Betree K V)) := by
  intro id
  refine ⟨⟨Or.inr rfl, ⟨rfl, Buffer.nil⟩, Nat.le_refl 0, [], Nat.le_refl 0, fun x hx => ?_⟩, 0,
    Nat.le_refl 0, all_create (E := fun _ => True) True bet.defaultValue id⟩
  rw [messages_eq] at hx
  exact absurd hx List.not_mem_nil

theorem Serves.apply (h : Serves bet count m t) (hr : ∀ n, bet.reload n = some n)
    (hcount : count + 1 < uint64Max) (u : Upsert K V) :
    Prog.All (Serves bet (count + 1) (Reference.apply bet.defaultValue m u))
      (Fault.Stops bet.maxNodeSize) (t.apply bet u) := by
  obtain ⟨upserts, hle, hreached⟩ := h.reached
  have happly := all_apply_of_flush (u := u) True hr hreached (fun _ => by omega)
    (fun h' elts hinv hb hnew => (all_flush_any hr (hinv.height ▸ h.grown.splits) hinv hb hnew).mono
      (fun _ hfl => ⟨hfl.1, Or.inl trivial⟩))
  refine (happly.and (h.grown.apply hr hreached.clock_le)).mono (fun t' ht' => ?_)
  exact ⟨ht'.2, upserts + 1, Nat.succ_le_succ hle, ht'.1.1⟩

/-- A look at the next message leaves the tree as it is. -/
theorem Serves.getNextMessage (h : Serves bet count m t) (hr : ∀ n, bet.reload n = some n)
    (mkey : Option (MessageKey K)) :
    Prog.All (fun r => r.1 = t) (Fault.Stops bet.maxNodeSize) (t.getNextMessage bet mkey) := by
  refine (all_deref hr (all_getNextMessage hr (Nat.lt_succ_self _) h.grown.tree mkey)).bind
    (fun r hres => ?_)
  obtain ⟨root, found⟩ := r
  obtain ⟨rfl, _⟩ := hres
  rfl

variable [BEq V] [Inhabited K] [Inhabited V]

/-- **Every operation** is answered as by the reference map. -/
theorem Serves.exec (h : Serves bet count m t) (hr : ∀ n, bet.reload n = some n)
    (hcount : count + 1 < uint64Max) (c : Cmd K V) :
    Prog.All (fun r => Serves bet (count + 1) (Reference.exec bet.defaultValue m c).1 r.1
        ∧ r.2 = (Reference.exec bet.defaultValue m c).2) (Fault.Stops bet.maxNodeSize)
      (t.exec bet c) := by
  obtain ⟨_, _, hreached⟩ := h.reached
  cases c with
  | upsert u => exact (h.apply hr hcount u).bind (fun t' ht' => ⟨ht', rfl⟩)
  | query k =>
      refine (hreached.query trivial hr k).bind (fun r hres => ?_)
      obtain ⟨t', v⟩ := r
      obtain ⟨rfl, rfl⟩ := hres
      exact ⟨h.later, rfl⟩
  | scan start =>
      refine (hreached.scan trivial hr start).bind (fun r hres => ?_)
      subst hres
      exact ⟨h.later, rfl⟩
  | evictAll => exact fun _ => ⟨h.later, rfl⟩

/-- So is a sequence of operations. -/
theorem Serves.execAll {cs : List (Cmd K V)} (h : Serves bet count m t)
    (hr : ∀ n, bet.reload n = some n) (hcount : count + cs.length < uint64Max) :
    Prog.All (fun r => r.2 = Reference.execAll bet.defaultValue m cs) (Fault.Stops bet.maxNodeSize)
      (t.execAll bet cs) := by
  induction cs generalizing count m t with
  | nil => exact rfl
  | cons c cs ih =>
      rw [List.length_cons] at hcount
      refine (h.exec hr (by omega) c).bind (fun r hres => ?_)
      obtain ⟨t', reply⟩ := r
      obtain ⟨h', rfl⟩ := hres
      refine (ih h' (by omega)).bind (fun r hrs => ?_)
      obtain ⟨t'', replies⟩ := r
      exact congrArg (List.cons _) hrs

end Serving

end BeTree
