import BeTree.Proof.Scan

/-!
# Enumerating the messages

Calling `get_next_message` on the message it returned last goes through all messages of
a tree in order. In a tree that fewer than `2^64 - 1` upserts reach, no two messages have
the same key and timestamp, so each stored message is met exactly once.

The clock of the tree is a `uint64_t`. When it has wrapped around, a message can be
buffered above a leaf that still holds a message with the same key and timestamp; the
enumeration steps over one of the two.
-/

namespace BeTree

open Node

variable {K V : Type} [LinearOrder K] {bet : Params K V} {E : Fault → Prop}

/-! ## No message is stored twice -/

section Nodup

variable {fresh : Prop} {h : Nat} {R : K → Prop} {n : Node K V}

omit [LinearOrder K] in
theorem messages_eq (n : Node K V) : n.messages = n.elements ++ below n.pivots := by
  unfold messages below
  rw [nodes_eq, List.flatMap_cons, List.flatMap_assoc]
  rfl

/-- The messages of a subtree are all different, if newer ones are higher up. -/
theorem Inv.messages_nodup (hfresh : fresh) (hn : Inv fresh h R n) : n.messages.Nodup := by
  induction h generalizing R n with
  | zero =>
      have hno : below n.pivots = [] := by rw [hn.1]; rfl
      rw [messages_eq, hno, List.append_nil]
      exact hn.2.sorted.nodup
  | succ h ih =>
      have hinner : Inner fresh (Inv fresh h) R n := hn
      rw [messages_eq, List.nodup_append]
      refine ⟨hinner.buffer.sorted.nodup, ?_, ?_⟩
      · -- children have different keys
        refine List.nodup_flatMap.mpr ⟨fun p hp => ih (hinner.forest.child p hp), ?_⟩
        refine hinner.forest.ordered.imp (fun {a b} hlt x hx hx' => ?_)
        exact absurd (hlt x hx x hx') (lt_irrefl _)
      · intro x hx y hy hxy
        subst hxy
        obtain ⟨p, hp, hy⟩ := mem_below.mp hy
        have := hinner.newer hfresh p hp x hx x hy rfl
        omega

end Nodup

/-! ## The loop -/

/-- From any point on, the loop gives the rest of the list. -/
theorem all_dumpLoop {t : Betree K V} {L : MessageMap K V} {h : Nat} {R : K → Prop} {fresh : Prop}
    (hr : ∀ n, bet.reload n = some n) (hinv : Inv fresh h R t.root) (hs : OrdMap.Sorted L)
    (hmem : ∀ m, m ∈ L ↔ m ∈ t.root.messages) (before rest : MessageMap K V)
    (mkey : Option (MessageKey K)) (hL : L = before ++ rest) (hrest : elementsAfter L mkey = rest)
    {fuel : Nat} (hfuel : rest.length < fuel) :
    Prog.All (fun r => r = (t, rest)) E (t.dumpLoop bet fuel mkey) := by
  induction fuel generalizing before rest mkey with
  | zero => exact absurd hfuel (Nat.not_lt_zero _)
  | succ fuel ih =>
      have hheight : h < t.root.height + 1 := by
        rw [hinv.height]
        exact Nat.lt_succ_self h
      rw [Betree.dumpLoop]
      refine (all_deref hr (all_getNextMessage hr hheight hinv mkey)).bind (fun ⟨root, r⟩ hres => ?_)
      obtain ⟨hroot, hnext⟩ := hres
      dsimp only at hroot hnext
      subst hroot
      have hhead := hnext.eq_head hs hmem
      rw [hrest] at hhead
      subst hhead
      cases rest with
      | nil => rfl
      | cons m rest =>
          have hafter := elementsAfter_suffix hs hL
          have hL' : L = (before ++ [m]) ++ rest := by rw [hL]; simp
          rw [List.length_cons] at hfuel
          refine (ih (before ++ [m]) rest (some m.1) hL' hafter (by omega)).bind (fun r hres => ?_)
          rw [hres]
          rfl

/-- **`dump_messages`** gives the sorted list of the messages, and stops with no fault. -/
theorem all_dumpMessages [Add V] {t : Betree K V} {h : Nat} {R : K → Prop} {fresh : Prop} (d : V)
    (hr : ∀ n, bet.reload n = some n) (hfresh : fresh) (hinv : Inv fresh h R t.root) :
    Prog.All (fun r => r.1 = t ∧ OrdMap.Sorted r.2 ∧ r.2.Perm t.root.messages) E
      (t.dumpMessages bet) := by
  obtain ⟨L, hL⟩ := hinv.listing (d := d) hfresh
  have hperm : L.Perm t.root.messages :=
    (List.perm_ext_iff_of_nodup hL.sorted.nodup (hinv.messages_nodup hfresh)).mpr hL.mem
  have hfuel : L.length < t.root.messages.length + 1 := by
    rw [hperm.length_eq]
    exact Nat.lt_succ_self _
  have hloop := all_dumpLoop (E := E) hr hinv hL.sorted hL.mem [] L none rfl rfl hfuel
  refine hloop.mono (fun r hres => ?_)
  rw [hres]
  exact ⟨rfl, hL.sorted, hperm⟩

variable [Add V]

/--
**Enumeration.** In every tree that upserts reach, `get_next_message` on any message key,
stored or not, gives the smallest stored message above it, or none if there is none; and if
there were fewer than `2^64 - 1` upserts, `dump_messages` goes through every stored message
exactly once, in strictly increasing order, and ends there.
-/
theorem messages_enumerated (bet : Params K V) (hr : ∀ n, bet.reload n = some n)
    (hM : 3 ≤ bet.maxNodeSize) (us : List (Upsert K V)) :
    Prog.All (fun t =>
        (us.length < 2 ^ 64 - 1 →
          Prog.All (fun r => r.1 = t ∧ OrdMap.Sorted r.2 ∧ r.2.Perm t.root.messages)
            (fun _ => False) (t.dumpMessages bet))
        ∧ ∀ (dirty : Bool) (mkey : Option (MessageKey K)),
          Prog.All (fun r => r.1 = t.root ∧ IsNext t.root.messages mkey r.2) (fun _ => False)
            (t.root.deref bet dirty fun n => n.getNextMessage bet (t.root.height + 1) mkey))
      Fault.Excluded (do
        let t ← Betree.create
        t.applyAll bet us) := by
  refine (all_upserts (us.length < 2 ^ 64 - 1) us hr hM (fun hlen => hlen)).mono (fun t ht => ?_)
  obtain ⟨h, hinv, _⟩ := ht.tree
  have hheight : h < t.root.height + 1 := by
    rw [hinv.height]
    exact Nat.lt_succ_self h
  refine ⟨fun hlen => all_dumpMessages bet.defaultValue hr hlen hinv, fun dirty mkey => ?_⟩
  exact all_deref hr (all_getNextMessage hr hheight hinv mkey)

theorem messages_enumerated_small :
    3 ≤ 4 ∧ Prog.All (fun t => Prog.All
        (fun r => r.1 = t ∧ OrdMap.Sorted r.2 ∧ r.2.Perm t.root.messages) (fun _ => False)
        (t.dumpMessages (⟨4, 1, 10, some⟩ : Params Nat Nat)))
      Fault.Excluded (do
        let t ← Betree.create
        t.applyAll (⟨4, 1, 10, some⟩ : Params Nat Nat)
          [.insert 3 1, .insert 1 8, .update 2 7, .erase 3, .insert 5 1, .insert 0 4]) :=
  ⟨by decide, (messages_enumerated (⟨4, 1, 10, some⟩ : Params Nat Nat) (fun _ => rfl) (by decide)
    [.insert 3 1, .insert 1 8, .update 2 7, .erase 3, .insert 5 1, .insert 0 4]).mono
      (fun _ ht => ht.1 (by decide))⟩

/-- Nothing is enumerated: the last insert writes through an erased entry. -/
theorem dump_past_erased_entry :
    stoppedWith (Prog.run neverDirty (do
        let t ← Betree.create
        let t ← t.applyAll (⟨5, 0, 0, some⟩ : Params Nat Nat) erasingInserts
        t.dumpMessages ⟨5, 0, 0, some⟩) 1) = some .erasedEntry := by
  decide +kernel

/-! ## After the clock has wrapped around -/

section Buffered

variable {K V : Type} [LT K] [DecidableLT K] [BEq K] [Add V] {bet : Params K V}

/-- A small inner node takes a message into its buffer. -/
theorem run_flush_buffered (fuel next : Nat) {n : Node K V} {m : MessageKey K × Message V}
    {c : OrdMap.Cursor K (ChildInfo (Node K V))} (hinner : n.isLeaf = false)
    (hlow : n.lowerFirstPivot [m] = n) (hpivot : getPivot n.pivots m.1.key = .ok c)
    (hsize : (n.applyAll [m] bet.defaultValue).size < bet.maxNodeSize) :
    (n.flush bet (fuel + 1) [m]).run neverDirty next
      = (.ok (n.applyAll [m] bet.defaultValue, []), next) := by
  have hloop : flushLoop bet (flush bet fuel) ((n.applyAll [m] bet.defaultValue).elements.length + 1)
      (n.applyAll [m] bet.defaultValue) (some c.key) = pure (n.applyAll [m] bet.defaultValue) := by
    rw [flushLoop, if_neg (Nat.not_le.mpr hsize)]
  rw [flush]
  show (if n.isLeaf = true then _ else flushInner bet (flush bet fuel) n m.1.key m.1.key [m]).run
    neverDirty next = _
  rw [if_neg (by rw [hinner]; exact Bool.false_ne_true)]
  unfold flushInner
  dsimp only
  rw [hlow, hpivot]
  show ((if c.before.length = c.before.length then isDirty c.val.child.id else pure false)
    >>= _).run neverDirty next = _
  rw [if_pos rfl]
  show (flushLoop bet (flush bet fuel) ((n.applyAll [m] bet.defaultValue).elements.length + 1)
      (n.applyAll [m] bet.defaultValue) (some c.key) >>= _).run neverDirty next = _
  rw [hloop]
  show (if bet.maxNodeSize < (n.applyAll [m] bet.defaultValue).size then _ else _ :
    BProg (Node K V × PivotMap K V)).run neverDirty next = _
  rw [if_neg (Nat.lt_asymm hsize)]
  rfl

theorem run_upsert_buffered (next : Nat) {t : Betree K V} {opcode : Opcode} {k : K} {v : V}
    {c : OrdMap.Cursor K (ChildInfo (Node K V))} (hinner : t.root.isLeaf = false)
    (hlow : t.root.lowerFirstPivot [(⟨k, t.nextTimestamp⟩, ⟨opcode, v⟩)] = t.root)
    (hpivot : getPivot t.root.pivots k = .ok c)
    (hsize : (t.root.applyAll [(⟨k, t.nextTimestamp⟩, ⟨opcode, v⟩)] bet.defaultValue).size
      < bet.maxNodeSize) :
    (t.upsert bet opcode k v).run neverDirty next
      = (.ok ⟨t.root.applyAll [(⟨k, t.nextTimestamp⟩, ⟨opcode, v⟩)] bet.defaultValue,
        (t.nextTimestamp + 1) % 2 ^ 64⟩, next) := by
  have hflush := run_flush_buffered t.root.height next hinner hlow hpivot hsize
  have hderef : (t.root.deref bet true fun n => n.flush bet (t.root.height + 1)
      [(⟨k, t.nextTimestamp⟩, ⟨opcode, v⟩)]).run neverDirty next
      = (.ok (t.root.applyAll [(⟨k, t.nextTimestamp⟩, ⟨opcode, v⟩)] bet.defaultValue, []), next) := by
    show (t.root.flush bet (t.root.height + 1) [(⟨k, t.nextTimestamp⟩, ⟨opcode, v⟩)] >>= _).run
      neverDirty next = _
    rw [Prog.run_bind, hflush]
    rfl
  unfold Betree.upsert
  rw [Prog.run_bind, hderef]
  rfl

theorem run_applyAll_append {us us' : List (Upsert K V)} {t t' : Betree K V} {next next' : Nat}
    (h : (t.applyAll bet us).run neverDirty next = (.ok t', next')) :
    (t.applyAll bet (us ++ us')).run neverDirty next
      = (t'.applyAll bet us').run neverDirty next' := by
  induction us generalizing t next with
  | nil =>
      obtain ⟨ht, hnext⟩ := Prod.mk.inj h
      injection ht with ht
      subst ht hnext
      rfl
  | cons u us ih =>
      rw [Betree.applyAll, Prog.run_bind] at h
      rw [List.cons_append, Betree.applyAll, Prog.run_bind]
      split at h
      · exact ih h
      · exact absurd (congrArg Prod.fst h) (by simp)

end Buffered

section Wrapped

/-- Nodes of fewer than five entries, and no least flush. -/
def smallNodes : Params Nat Nat := ⟨5, 0, 0, some⟩

/-- A root with the given buffer over two leaves. -/
def twoLeaves (buffer : MessageMap Nat Nat) : Node Nat Nat :=
  ⟨4, [(1, ⟨⟨2, [], [(⟨1, 1⟩, ⟨.insert, 0⟩), (⟨2, 2⟩, ⟨.insert, 0⟩), (⟨3, 3⟩, ⟨.insert, 0⟩)]⟩, 3⟩),
    (4, ⟨⟨3, [], [(⟨4, 4⟩, ⟨.insert, 0⟩), (⟨5, 5⟩, ⟨.insert, 0⟩)]⟩, 2⟩)], buffer⟩

/-- The tree when an insert of 5 is the only message in the buffer, and the last one made. -/
def insertedAt (ts : Nat) : Betree Nat Nat :=
  ⟨twoLeaves [(⟨5, ts⟩, ⟨.insert, 0⟩)], (ts + 1) % 2 ^ 64⟩

/-- One more insert of 5 takes the place of the one before it. -/
theorem run_insertedAt {ts : Nat} (hts : ts ≤ uint64Max) :
    ((insertedAt ts).apply smallNodes (.insert 5 0)).run neverDirty 5
      = (.ok (insertedAt ((ts + 1) % 2 ^ 64)), 5) := by
  have herase : eraseKey [((⟨5, ts⟩ : MessageKey Nat), (⟨.insert, 0⟩ : Message Nat))] 5 = [] := by
    refine List.eq_nil_iff_forall_not_mem.mpr (fun x hx => ?_)
    have hstamp : ∀ x ∈ [((⟨5, ts⟩ : MessageKey Nat), (⟨.insert, 0⟩ : Message Nat))],
        x.1.timestamp ≤ uint64Max := by
      intro x hx
      rw [List.mem_singleton.mp hx]
      exact hts
    obtain ⟨hmem, hne⟩ := (mem_eraseKey (OrdMap.sorted_singleton _) hstamp).mp hx
    rw [List.mem_singleton.mp hmem] at hne
    exact hne rfl
  have happly : (insertedAt ts).root.applyAll [(⟨5, (ts + 1) % 2 ^ 64⟩, ⟨.insert, 0⟩)] 0
      = (insertedAt ((ts + 1) % 2 ^ 64)).root := by
    show (⟨4, _, OrdMap.assign (eraseKey [((⟨5, ts⟩ : MessageKey Nat), (⟨.insert, 0⟩ : Message Nat))] 5)
      _ _⟩ : Node Nat Nat) = _
    rw [herase]
    rfl
  have hsize : ((insertedAt ts).root.applyAll [(⟨5, (ts + 1) % 2 ^ 64⟩, ⟨.insert, 0⟩)] 0).size
      < smallNodes.maxNodeSize := by
    rw [happly]
    show 3 < 5
    decide
  have hrun : ((insertedAt ts).upsert smallNodes .insert 5 0).run neverDirty 5 = _ :=
    run_upsert_buffered 5 rfl rfl rfl hsize
  exact hrun.trans (congrArg (fun n => (Except.ok (Betree.mk n _), 5)) happly)

theorem run_insertedAt_many (count ts : Nat) (hts : ts ≤ uint64Max) :
    ((insertedAt ts).applyAll smallNodes (List.replicate count (.insert 5 0))).run neverDirty 5
      = (.ok (insertedAt ((ts + count) % 2 ^ 64)), 5) := by
  induction count generalizing ts with
  | zero =>
      have hmod : (ts + 0) % 2 ^ 64 = ts := by
        unfold uint64Max at hts
        omega
      rw [hmod]
      rfl
  | succ count ih =>
      have hlt : (ts + 1) % 2 ^ 64 ≤ uint64Max := Nat.le_of_lt_succ (Nat.mod_lt _ (by decide))
      have hmod : ((ts + 1) % 2 ^ 64 + count) % 2 ^ 64 = (ts + (count + 1)) % 2 ^ 64 := by omega
      rw [List.replicate_succ, Betree.applyAll, Prog.run_bind, run_insertedAt hts, ← hmod]
      exact ih _ hlt

/-- Five keys, then inserts of 5 until the clock shows 1 again, and an insert of 1. -/
def wrapping : List (Upsert Nat Nat) :=
  [.insert 1 0, .insert 2 0, .insert 3 0, .insert 4 0, .insert 5 0, .insert 5 0]
    ++ (List.replicate (2 ^ 64 - 6) (.insert 5 0) ++ [.insert 1 0])

theorem run_wrapping :
    (Betree.create >>= fun t => t.applyAll smallNodes wrapping).run neverDirty 1
      = (.ok ⟨twoLeaves [(⟨1, 1⟩, ⟨.insert, 0⟩), (⟨5, 0⟩, ⟨.insert, 0⟩)], 2⟩, 5) := by
  have hcreate : ∀ us, (Betree.create >>= fun t => t.applyAll smallNodes us).run neverDirty 1
      = (Betree.applyAll smallNodes ⟨⟨1, [], []⟩, 1⟩ us).run neverDirty 2 := fun _ => rfl
  have hfirst : (Betree.applyAll smallNodes ⟨⟨1, [], []⟩, 1⟩
      [.insert 1 0, .insert 2 0, .insert 3 0, .insert 4 0, .insert 5 0, .insert 5 0]).run neverDirty 2
      = (.ok (insertedAt 6), 5) := rfl
  have hmany := run_insertedAt_many (2 ^ 64 - 6) 6 (by decide)
  have hwrap : (6 + (2 ^ 64 - 6)) % 2 ^ 64 = 0 := by decide
  rw [hwrap] at hmany
  have hlast : ((insertedAt 0).applyAll smallNodes [.insert 1 0]).run neverDirty 5
      = (.ok ⟨twoLeaves [(⟨1, 1⟩, ⟨.insert, 0⟩), (⟨5, 0⟩, ⟨.insert, 0⟩)], 2⟩, 5) := rfl
  rw [hcreate, wrapping, run_applyAll_append hfirst, run_applyAll_append hmany, hlast]

/--
After `2^64 + 1` upserts the leaf holds the first insert of 1, and the buffer above it the last
one, both with timestamp 1: seven messages are stored, and six are enumerated.
-/
theorem messages_skipped :
    ∃ us : List (Upsert Nat Nat), ∃ t next,
      (Betree.create >>= fun t => t.applyAll (⟨5, 0, 0, some⟩ : Params Nat Nat) us).run neverDirty 1
        = (.ok t, next)
      ∧ (t.root.messages.map Prod.fst
        = [⟨1, 1⟩, ⟨5, 0⟩, ⟨1, 1⟩, ⟨2, 2⟩, ⟨3, 3⟩, ⟨4, 4⟩, ⟨5, 5⟩])
      ∧ ((t.dumpMessages (⟨5, 0, 0, some⟩ : Params Nat Nat)).run neverDirty next).1.toOption.map
          (fun r => r.2.map Prod.fst)
        = some [⟨1, 1⟩, ⟨2, 2⟩, ⟨3, 3⟩, ⟨4, 4⟩, ⟨5, 0⟩, ⟨5, 5⟩] := by
  refine ⟨wrapping, _, _, run_wrapping, ?_, ?_⟩
  · decide
  · decide +kernel

end Wrapped

end BeTree
