import BeTree.Swap.Consistent
import BeTree.System.Environment

/-!
# Counting the nodes in memory

As long as no node has been freed that was not in memory, the counter of the swap
space is the number of nodes in memory after every operation of a tree, and the
cache is within its bound whenever an operation that may evict has returned.

A node that is split and then evicted is an empty leaf, and is freed without being
loaded; the counter goes down all the same.
-/

namespace BeTree

open Checked SwapSpace

/-- The operations that end with `maybe_evict_something`. -/
def Op.evicts : Op → Bool
  | .allocate => true
  | .access _ _ _ _ => true
  | .unpin _ _ => true
  | _ => false

namespace Environment

/-- The queue is in order, the counter is right, and the bound is `n`. -/
structure Sound (n : Nat) (e : Environment) : Prop where
  consistent : Consistent e.ss
  counted : Counted 0 e.ss
  limit : e.ss.maxInMemoryObjects = n

theorem sound_create (n : Nat) : Sound n (create n) := by
  refine ⟨⟨fun t i => ?_, fun i o ho => ?_, fun i j o o' ho => ?_, fun i o ho => ?_,
    fun i o ho => ?_⟩, fun _ => rfl, rfl⟩
  · refine ⟨fun ht => absurd ht (by simp [create, SwapSpace.create]), fun ⟨o, ho, _⟩ => ?_⟩
    exact absurd ho (by simp [create, SwapSpace.create])
  all_goals exact absurd ho (by simp [create, SwapSpace.create])

variable {n : Nat} {e e' : Environment}

theorem Sound.of_upkeep {s₀ ss : SwapSpace Unit (Payload Unit)} (h : Sound n e)
    (hup : Upkeep 0 s₀ ss) (hmax : s₀.maxInMemoryObjects = e.ss.maxInMemoryObjects)
    (he : e'.ss = ss) : Sound n e' := by
  subst he
  exact ⟨hup.consistent, hup.counted, (hup.limit.trans hmax).trans h.limit⟩

/-- Ids and access times only grow. -/
theorem inRange_step {o : Op} {r : o.Ans} (hstep : handler o e = (.ok r, e'))
    (hr : e'.ss.InRange) : e.ss.InRange := by
  cases o with
  | allocate =>
      obtain ⟨ss, hss, rfl⟩ := allocate_eq hstep
      exact (yields_allocate_advances _ _ _ _ hss).inRange hr
  | pin id =>
      obtain ⟨ss, hss, rfl⟩ := update_eq hstep
      exact (yields_doPin_advances ss hss).inRange hr
  | access id dirty size children =>
      obtain ⟨ss, hss, _, rfl⟩ := access_eq hstep
      exact (yields_access_advances _ _ _ _ _ hss).inRange hr
  | unpin id children =>
      obtain ⟨ss, hss, rfl⟩ := update_eq hstep
      obtain ⟨s₁, hs₁, hss⟩ := bind_eq_ok.mp hss
      have hunpin := (yields_unpin_advances _ _ _ _ hss).inRange hr
      exact (yields_store_advances s₁ hs₁).inRange hunpin
  | depoint id =>
      obtain ⟨ss, hss, rfl⟩ := update_eq hstep
      exact (yields_release_advances _ _ _ ss hss).inRange hr
  | isDirty id =>
      obtain ⟨_, rfl⟩ := answer_eq hstep
      exact hr
  | isInMemory id =>
      obtain ⟨_, rfl⟩ := answer_eq hstep
      exact hr
  | evictAll =>
      obtain ⟨ss, hss, rfl⟩ := update_eq hstep
      exact (yields_evictAll_advances _ _ ss hss).inRange hr

/-- **One operation** keeps the count; one that may evict leaves the cache within its bound. -/
theorem sound_step {o : Op} {r : o.Ans} (h : Sound n e) (hr : e.ss.InRange)
    (hstep : handler o e = (.ok r, e')) :
    Sound n e' ∧ (o.evicts = true → Within n e'.ss) := by
  have hup : Upkeep 0 e.ss e.ss := Upkeep.refl h.consistent h.counted
  cases o with
  | allocate =>
      obtain ⟨ss, hss, rfl⟩ := allocate_eq hstep
      obtain ⟨_, hs, hwithin⟩ := yields_allocate h.consistent h.counted hr _ hss
      exact ⟨⟨hs.consistent, hs.counted, hs.limit.trans h.limit⟩, fun _ => h.limit ▸ hwithin⟩
  | pin id =>
      obtain ⟨ss, hss, rfl⟩ := update_eq hstep
      refine ⟨?_, fun hc => absurd hc (by simp [Op.evicts])⟩
      rcases yields_doPin ss hss with ⟨_, rfl⟩ | ⟨x, hx, rfl⟩
      · exact h
      · exact h.of_upkeep (Upkeep.repinned h.consistent h.counted hx _) rfl rfl
  | access id dirty size children =>
      obtain ⟨ss, hss, _, rfl⟩ := access_eq hstep
      obtain ⟨s₁, hs₁, hs, hwithin⟩ := yields_access h.consistent h.counted hr _ hss
      exact ⟨h.of_upkeep hs hs₁.limit rfl, fun _ => h.limit ▸ hwithin⟩
  | unpin id children =>
      obtain ⟨ss, hss, rfl⟩ := update_eq hstep
      -- an unpin writes the object back first; neither step moves the bound
      have hunpin : Yields (e.ss.store id ⟨(), children⟩ >>= fun ss => ss.unpin pointerCodec id)
          (fun s' => ∃ s₀, s₀.maxInMemoryObjects = e.ss.maxInMemoryObjects ∧ Upkeep 0 s₀ s'
            ∧ Within e.ss.maxInMemoryObjects s') := by
        refine yields_store.bind (fun s₁ ⟨x, hx, hxt, hs₁⟩ => ?_)
        subst hs₁
        have hw : Upkeep 0 e.ss (e.ss.written id x ⟨(), children⟩) := hup.written hx hxt
        refine (yields_unpin hw.consistent hw.counted (h.consistent.ids id x hx).1).imp
          (fun s' ⟨y, _, _, hs', hwithin⟩ => ?_)
        exact ⟨(e.ss.written id x ⟨(), children⟩).repinned id y (y.pincount - 1), rfl, hs', hwithin⟩
      obtain ⟨s₀, hmax, hs, hwithin⟩ := hunpin _ hss
      exact ⟨h.of_upkeep hs hmax rfl, fun _ => h.limit ▸ hwithin⟩
  | depoint id =>
      obtain ⟨ss, hss, rfl⟩ := update_eq hstep
      exact ⟨h.of_upkeep (yields_release hup ss hss) rfl rfl, fun hc => absurd hc (by simp [Op.evicts])⟩
  | isDirty id =>
      obtain ⟨_, rfl⟩ := answer_eq hstep
      exact ⟨h, fun hc => absurd hc (by simp [Op.evicts])⟩
  | isInMemory id =>
      obtain ⟨_, rfl⟩ := answer_eq hstep
      exact ⟨h, fun hc => absurd hc (by simp [Op.evicts])⟩
  | evictAll =>
      obtain ⟨ss, hss, rfl⟩ := update_eq hstep
      exact ⟨h.of_upkeep (yields_evictAll hup ss hss).1 rfl rfl,
        fun hc => absurd hc (by simp [Op.evicts])⟩

end Environment

variable {K V : Type} [LT K] [DecidableLT K] [BEq K] [Add V] [BEq V] [Inhabited K] [Inhabited V]

/--
**Accounting.** In every state of every session, as long as no object has been
freed that was not in memory and neither ids nor access times have wrapped around, the
counter is the number of objects in memory; and whenever an allocation, an access or the
removal of a pin has returned, at most `n` objects are in memory, or all of them are pinned.
-/
theorem session_accounting (bet : Params K V) (n : Nat) (cs : List (Cmd K V)) (o : Op)
    (e : Environment) (he : (o, e) ∈ traceSession bet n cs) (hfreed : e.ss.freedUnloaded = false)
    (hr : e.ss.InRange) :
    e.ss.currentInMemoryObjects = e.ss.resident
      ∧ (o.evicts = true → e.ss.resident ≤ n
        ∨ ∀ i x, e.ss.objects.get? i = some x → x.target.isSome = true → 0 < x.pincount) := by
  -- what is in range now was in range at every step so far
  have hstep : ∀ o e r e', (e.ss.InRange → Environment.Sound n e) →
      Environment.handler o e = (.ok r, e') → (e'.ss.InRange → Environment.Sound n e')
        ∧ (e'.ss.InRange → o.evicts = true → Within n e'.ss) := by
    intro o e r e' hs hstep
    have hsound : e'.ss.InRange → _ := fun hr =>
      Environment.sound_step (hs (Environment.inRange_step hstep hr)) (Environment.inRange_step hstep hr)
        hstep
    exact ⟨fun hr => (hsound hr).1, fun hr => (hsound hr).2⟩
  obtain ⟨hs, hwithin⟩ := Prog.trace_invariant hstep (session bet cs)
    (fun _ => Environment.sound_create n) (o, e) he
  have hcount : e.ss.currentInMemoryObjects = e.ss.resident := by
    have hle := (hs hr).consistent.resident_le
    have hmod : e.ss.currentInMemoryObjects = (e.ss.resident + 0) % 2 ^ 64 := (hs hr).counted hfreed
    rw [hmod, Nat.add_zero, Nat.mod_eq_of_lt (Nat.lt_of_le_of_lt hle (Nat.lt_of_succ_lt hr.1))]
  exact ⟨hcount, fun ho => hcount ▸ hwithin hr ho⟩

/-- A tree of four nodes in a cache for two: the query has just loaded the leaf it looks in. -/
theorem session_accounting_four :
    let l := traceSession (⟨3, 0, 0, some⟩ : Params Nat Nat) 2
      [.upsert (.insert 0 0), .upsert (.insert 1 0), .upsert (.insert 2 0), .query 1]
    ∃ h : 46 < l.length, (l.get ⟨46, h⟩).2.ss.objects.size = 4
      ∧ (l.get ⟨46, h⟩).2.ss.evictions = [4, 6, 8, 4] ∧ (l.get ⟨46, h⟩).1.evicts = true
      ∧ (l.get ⟨46, h⟩).2.ss.currentInMemoryObjects = (l.get ⟨46, h⟩).2.ss.resident
      ∧ ((l.get ⟨46, h⟩).1.evicts = true → (l.get ⟨46, h⟩).2.ss.resident ≤ 2
        ∨ ∀ i x, (l.get ⟨46, h⟩).2.ss.objects.get? i = some x → x.target.isSome = true →
          0 < x.pincount) := by
  refine ⟨by decide +kernel, by decide +kernel, by decide +kernel, by decide +kernel, ?_⟩
  exact session_accounting (⟨3, 0, 0, some⟩ : Params Nat Nat) 2
    [.upsert (.insert 0 0), .upsert (.insert 1 0), .upsert (.insert 2 0), .query 1] _ _
    (List.get_mem _ ⟨46, by decide +kernel⟩) (by decide +kernel) (by decide +kernel)

/-- Three inserts split the root, which is evicted before its last pointer is destroyed. -/
theorem session_accounting_drifts :
    let ss := (runSession (⟨3, 0, 0, some⟩ : Params Nat Nat) 1
      [.upsert (.insert 0 0), .upsert (.insert 1 0), .upsert (.insert 2 0)]).2.ss
    ss.currentInMemoryObjects = 0 ∧ ss.resident = 1 := by
  decide +kernel

end BeTree
