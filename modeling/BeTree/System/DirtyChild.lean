import BeTree.System.SafeFlush
import BeTree.System.Reading

/-!
# Nothing is buffered for a dirty child

The assertion of the path to a dirty child holds in every session in which no node is
accessed for writing that is clean and has a dirty child. Upserts keep the buffers free of
messages for dirty children; reads make nothing dirty but the root, which is nobody's
child.

A small cache breaks it. A node is written back and stays clean while its child is dirty;
then a batch of several messages is flushed to it and stays in its buffer, and the next
batch finds its way past.
-/

namespace BeTree

open Node Environment

variable {K V : Type} [LinearOrder K] [Add V] {bet : Params K V}
variable {h : Nat} {b e e' : Environment} {n : Node K V}
variable {R : K → Prop} {F : Nat → Prop} {elts : MessageMap K V}

/-! ## Upserts -/

/-- The tree between two operations. -/
structure Tidy (bet : Params K V) (t : Betree K V) (e : Environment) : Prop where
  tame : Tame e
  clock : t.nextTimestamp ≤ uint64Max
  tree : ∃ h, Inv False h (fun _ => True) t.root ∧ Settled e h [t.root]
    ∧ (3 ≤ bet.maxNodeSize ∨ h = 0)

variable {t : Betree K V}

omit [Add V] in
theorem Tidy.used (ht : Tidy bet t e) : t.root.id < e.fresh := by
  obtain ⟨h, _, hs, _⟩ := ht.tree
  refine hs.used _ ?_
  rw [idsOf_singleton]
  exact id_mem_ids t.root

omit [Add V] in
/-- The root may be written. -/
theorem Tidy.step (ht : Tidy bet t e) (htouch : Touches (· = t.root.id) e e') :
    Tidy bet t e' := by
  obtain ⟨h, hinv, hs, hM⟩ := ht.tree
  refine ⟨htouch.tame, ht.clock, h, hinv, hs.step htouch (fun i hi y hy => ?_), hM⟩
  rw [List.mem_singleton.mp hy, hi]
  exact hs.id_not_below

section Session

variable (hr : ∀ n, bet.reload n = some n)

include hr

omit [Add V] in
theorem safely_growRoot {root : Node K V} {news : PivotMap K V}
    (hm : Made F b h (kids news) e) :
    Safely (fun n e' => Made F b (h + 1) [n] e') (Betree.growRoot bet root news) e := by
  refine (safely_allocate hm.touches.tame).bind (fun n e₁ hn => ?_)
  obtain ⟨hn, hid, h₁⟩ := hn
  refine (safely_quiet (o := .depoint root.id) h₁.tame (fun _ hi => hi)).bind (fun _ e₂ h₂ => ?_)
  refine (safely_derefPure hr h₂.tame (Nat.lt_of_lt_of_le hid.2 h₂.fresh)).bind (fun r e₃ h₃ => ?_)
  rw [h₃.1]
  have ht : Touches (fun _ => False) e e₃ :=
    (h₁.trans h₂ (fun _ hi => hi.elim)).trans h₃.2 (fun _ hi => Or.inr (hi ▸ hid.1))
  have hlt := Nat.le_trans h₂.fresh h₃.2.fresh
  refine safely_pure ?_
  show Made F b (h + 1) [⟨n.id, news, n.elements⟩] e₃
  rw [show n.elements = [] from by rw [hn]]
  exact hm.over ht ⟨hid.1, Nat.lt_of_lt_of_le hid.2 hlt⟩

/-- **One upsert** leaves nothing buffered for a dirty child. -/
theorem safely_upsert {opcode : Opcode} {k : K} {v : V} (ht : Tidy bet t e) :
    Safely (Tidy bet) (t.upsert bet opcode k v) e := by
  obtain ⟨h, hinv, hs, hM⟩ := ht.tree
  have hb : Batch False (fun _ => True) [((⟨k, t.nextTimestamp⟩ : MessageKey K),
      (⟨opcode, v⟩ : Message V))] := batch_single ht.clock False.elim trivial
  have hclock : (t.nextTimestamp + 1) % 2 ^ 64 ≤ uint64Max := by
    unfold uint64Max
    omega
  have hfuel : h < t.root.height + 1 := by
    rw [hinv.height]
    exact Nat.lt_succ_self _
  have hall := all_flush_any hr hM hinv hb False.elim
  unfold Betree.upsert
  dsimp only
  refine (safely_flushChild hr (flush_safe _ hr hM hfuel) hall hinv hb ht.tame hs
    (Or.inl (Nat.le_refl 1))).bind (fun ⟨root, news⟩ e₁ h₁ => ?_)
  obtain ⟨⟨hfl, hnews⟩, hmade⟩ := h₁
  by_cases hnil : news = []
  · subst hnil
    exact safely_pure ⟨hmade.touches.tame, hclock, h, (hfl.whole rfl).inv, hmade.settled, hM⟩
  · have hM' : 3 ≤ bet.maxNodeSize := hnews.elim (fun hM => hM) (fun hc => absurd hc hnil)
    rw [results_parts hnil] at hmade
    dsimp only
    rw [if_neg (by simpa using hnil)]
    -- the old root only matters to the swap space
    have hgrow : Prog.All (Inv False (h + 1) (fun _ => True)) Fault.Other
        (Betree.growRoot bet root news) :=
      (all_growRoot hr (hfl.parts hnil)).mono (fun _ hn => hn.inv)
    refine ((safely_growRoot hr hmade).and_all hgrow).bind (fun n e₂ h₂ => safely_pure ?_)
    exact ⟨h₂.2.touches.tame, hclock, h + 1, h₂.1, h₂.2.settled, Or.inl hM'⟩

/-! ## Sessions -/

theorem safely_query {k : K} (ht : Tidy bet t e) :
    Safely (fun r e' => Tidy bet r.1 e') (t.query bet k) e := by
  have hroot : Safely (fun r e' => r.1 = t.root ∧ Touches (· = t.root.id) e e')
      (t.root.deref bet true (fun n => n.query bet (t.root.height + 1) k)) e := by
    refine safely_deref (S := fun r e' => r.1 = t.root ∧ Touches (· = t.root.id) e e') hr ht.tame
      ht.used (fun e₁ h₁ _ => ?_)
      (fun r e₂ h₂ => ⟨h₂.2.tame, fun e₃ h₃ => ⟨h₂.1, h₂.2.trans h₃ (fun _ hi => hi.elim)⟩⟩)
    exact (Safely.of_only (reads_query.of_ops (fun _ ho => ho.quiet)) h₁.tame).imp
      (fun r e₂ h₂ => ⟨h₂.1 hr, h₁.trans h₂.2 (fun _ hi => hi.elim)⟩)
  refine hroot.bind (fun r e₁ h₁ => safely_pure ?_)
  show Tidy bet ⟨r.1, t.nextTimestamp⟩ e₁
  rw [h₁.1]
  exact ht.step h₁.2

variable [BEq V] [Inhabited K] [Inhabited V]

/-- **Every operation** leaves nothing buffered for a dirty child. -/
theorem safely_exec {cmd : Cmd K V} (ht : Tidy bet t e) :
    Safely (fun r e' => Tidy bet r.1 e') (t.exec bet cmd) e := by
  have hcalm : ∀ {e'}, Touches (fun _ => False) e e' → Tidy bet t e' :=
    fun htouch => ht.step (htouch.mono (fun _ hi => hi.elim))
  cases cmd with
  | upsert u =>
      have hup : Safely (Tidy bet) (t.apply bet u) e := by
        cases u with
        | insert k v => exact safely_upsert hr ht
        | update k v => exact safely_upsert hr ht
        | erase k => exact safely_upsert hr ht
      exact hup.bind (fun t' e' ht' => safely_pure ht')
  | query k => exact (safely_query hr ht).bind (fun r e' ht' => safely_pure ht')
  | scan start =>
      refine (Safely.of_only (scans_scan.of_ops (fun _ ho => ho.quiet)) ht.tame).bind
        (fun r e' hres => safely_pure ?_)
      rw [hres.1 hr]
      exact hcalm hres.2
  | evictAll =>
      exact (safely_quiet (o := .evictAll) ht.tame (fun _ hi => hi)).bind
        (fun _ e' h' => safely_pure (hcalm h'))

theorem safely_execAll {cs : List (Cmd K V)} (ht : Tidy bet t e) :
    Safely (fun r e' => Tidy bet r.1 e') (t.execAll bet cs) e := by
  induction cs generalizing t e with
  | nil => exact safely_pure ht
  | cons cmd cs ih =>
      rw [Betree.execAll]
      refine (safely_exec hr ht).bind (fun r e₁ h₁ => ?_)
      exact (ih h₁).bind (fun r' e₂ h₂ => safely_pure h₂)

theorem safely_session {cs : List (Cmd K V)} (he : Tame e) :
    Safely (fun r e' => Tidy bet r.1 e') (session bet cs) e := by
  have hcreate : Safely (Tidy bet) (Betree.create : BProg (Betree K V)) e := by
    refine (safely_allocate he).bind (fun n e₁ hn => safely_pure ?_)
    obtain ⟨hn, hid, h₁⟩ := hn
    have hids : idsOf [n] = [n.id] := by
      rw [idsOf_singleton, ids_eq, hn]
      rfl
    have hclock : 1 ≤ uint64Max := by decide
    refine ⟨h₁.tame, hclock, 0, ?_, ⟨?_, fun i hi => ?_, fun _ _ => trivial⟩, Or.inr rfl⟩
    · show Inv False 0 (fun _ => True) n
      rw [hn]
      exact ⟨rfl, Buffer.nil⟩
    · rw [hids]
      exact List.nodup_singleton _
    · rw [hids] at hi
      rw [List.mem_singleton.mp hi]
      exact hid.2
  exact hcreate.bind (fun t e₁ ht => safely_execAll hr ht)

end Session

/--
**A dirty child has nothing waiting above it**, in every run in which no node is accessed
for writing that is clean and has a dirty child, and no id is given out twice.
-/
theorem dirtyChild_unbuffered [BEq V] [Inhabited K] [Inhabited V] (bet : Params K V)
    (hr : ∀ n, bet.reload n = some n) (c : Nat) (cs : List (Cmd K V))
    (hrun : (runSession bet c cs).2.cleanOverDirty = false)
    (hids : (runSession bet c cs).2.ss.nextId < 2 ^ 64) :
    (runSession bet c cs).1 ≠ .error (.assertion .dirtyChildBuffered) := by
  have hsafe : Safely (fun r e' => Tidy bet r.1 e') (session bet cs) (create c) :=
    safely_session hr (tame_create c)
  unfold Safely Prog.Meets at hsafe
  unfold runSession at hrun hids ⊢
  split at hsafe
  · rename_i r e' hres
    rw [hres]
    exact nofun
  · rename_i f e' hres
    rw [hres] at hrun hids ⊢
    rcases hsafe with (hbad | hbad) | hother
    · rw [hbad] at hrun
      exact absurd hrun (by simp)
    · exact absurd hbad (Nat.not_le_of_lt hids)
    · intro hc
      injection hc with hc
      exact hother hc

theorem dirtyChild_unbuffered_evicting :
    let cs := [64, 27, 38, 70, 73, 58, 66, 18, 1, 4, 23, 73, 59].map (fun k => Cmd.upsert (.insert k 0))
      ++ .query 26 :: [61, 39, 29].map (fun k => Cmd.upsert (.insert k 0))
    (runSession (⟨5, 1, 0, some⟩ : Params Nat Nat) 6 cs).2.cleanOverDirty = false
      ∧ (runSession (⟨5, 1, 0, some⟩ : Params Nat Nat) 6 cs).2.ss.nextId < 2 ^ 64
      ∧ (runSession (⟨5, 1, 0, some⟩ : Params Nat Nat) 6 cs).1
        ≠ .error (.assertion .dirtyChildBuffered) := by
  have happly : ∀ cs, ((runSession (⟨5, 1, 0, some⟩ : Params Nat Nat) 6 cs).2.cleanOverDirty = false
        ∧ (runSession (⟨5, 1, 0, some⟩ : Params Nat Nat) 6 cs).2.ss.nextId < 2 ^ 64) →
      (runSession (⟨5, 1, 0, some⟩ : Params Nat Nat) 6 cs).2.cleanOverDirty = false
        ∧ (runSession (⟨5, 1, 0, some⟩ : Params Nat Nat) 6 cs).2.ss.nextId < 2 ^ 64
        ∧ (runSession (⟨5, 1, 0, some⟩ : Params Nat Nat) 6 cs).1
          ≠ .error (.assertion .dirtyChildBuffered) :=
    fun cs h => ⟨h.1, h.2, dirtyChild_unbuffered _ (fun _ => rfl) 6 cs h.1 h.2⟩
  exact happly _ (by decide +kernel)

/-! ## A cache that is too small -/

theorem error_of_fault {ε α : Type} {r : Except ε α} {f : ε}
    (h : (match r with
      | .error f => some f
      | .ok _ => none) = some f) : r = .error f := by
  cases r with
  | error f' =>
      injection h with h
      rw [h]
  | ok _ => exact absurd h (by simp)

/--
With six objects in memory and nodes of at most five entries. The insert of 39 evicts the
inner node for the keys below 38, and leaves its leaf for 23 and 27 dirty in memory; the one
of 9 makes the root flush 9 and 29 to the inner node, which buffers them, since they go to two
leaves; and the one of 36 goes through it to the dirty leaf, past the buffered 29.
-/
theorem dirtyChild_buffered :
    1 ≤ 5 / 4 ∧ (runSession (⟨5, 1, 0, some⟩ : Params Nat Nat) 6
        ([64, 27, 38, 70, 73, 58, 66, 18, 1, 4, 23, 73, 59].map (fun k => Cmd.upsert (.insert k 0))
          ++ .query 26 :: [61, 39, 29, 9, 36].map (fun k => Cmd.upsert (.insert k 0)))).1
      = .error (.assertion .dirtyChildBuffered) :=
  ⟨by decide, error_of_fault (by decide +kernel)⟩

end BeTree
