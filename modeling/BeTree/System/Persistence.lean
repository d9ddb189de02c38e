import BeTree.Pointer.Session

/-!
# Saving everything

`evict_all` goes on until the counter of the swap space says that no object is in
memory. When the counter is right it moves every object that is not pinned to disk;
when an object has been freed that was not in memory, it stops too early.
-/

namespace BeTree

open Prog Checked SwapSpace

variable {K V B : Type}

/-- Without pins `evict_all` saves everything that the shadow of a swap space has. -/
theorem Tracks.persisted {D : Type} {codec : Codec D B} {g : Shadow D} {m : Pinning D B}
    (h : Tracks codec g m) (hpins : m.pins = []) (hfreed : m.ss.freedUnloaded = false)
    (hrange : m.ss.InRange) : Ensures (m.ss.evictAll codec) (Persisted codec m.ss) := by
  refine ensures_persisted h.exact h.full h.orderly.counted (fun i o ho => ?_) hfreed
    (Nat.lt_of_succ_lt hrange.1)
  rw [h.orderly.pincount i o ho, hpins]
  rfl

/--
**Everything is saved.** In every state of a session of a tree in which nothing is pinned,
whatever the number of objects in memory, if no object has been freed that was not in memory
and the ids and the clock of the accesses fit into 64 bits: `evict_all` succeeds, and then every
object is on disk and not dirty, and its file holds the serialization of the content that it
had before.
-/
theorem evictAll_persists [LinearOrder K] [Add V] [BEq V] [Inhabited K] [Inhabited V]
    (codec : Codec (NodeImage K V) B) (size maxNodeSize minFlushSize fuel : Nat) (d : V)
    (es : List (Event K V)) (hlen : es.length < uint64Max) (hfuel : es.length + 2 ≤ fuel)
    (hes : ∀ e ∈ es, e.Valid) :
    ∀ x ∈ (Pointer.session ⟨maxNodeSize, minFlushSize, d, some⟩ fuel es).trace
        (swapHandler codec (fun _ => .environment)) (Pinning.create size),
      x.2.pins = [] → x.2.ss.freedUnloaded = false → x.2.ss.InRange →
        ∃ s', x.2.ss.evictAll codec = .ok s' ∧ Persisted codec x.2.ss s' := by
  intro x hx hpins hfreed hrange
  obtain ⟨g, htracks⟩ := trace_of_wp (obeys_swapHandler codec (fun _ => Fault.environment))
    (wp_session ⟨maxNodeSize, minFlushSize, d, some⟩ (fun _ => rfl) hlen hfuel hes)
    (Tracks.create codec size) hx hrange
  exact htracks.persisted hpins hfreed hrange

/-- The last state of a session in which the root is split, and some of its nodes are dirty. -/
theorem evictAll_persists_split :
    let codec : Codec (NodeImage Nat Nat) (Payload (NodeImage Nat Nat)) := ⟨id, id, fun _ => rfl⟩
    ∃ x, ((Pointer.session ⟨3, 1, 0, some⟩ 8 [.command (.upsert (.insert 3 1)),
        .command (.upsert (.insert 5 1)), .command (.upsert (.insert 1 2)), .command .evictAll,
        .command (.upsert (.insert 7 2)), .command (.query 3)]).trace
          (swapHandler codec (fun _ => .environment)) (Pinning.create 9)).getLast? = some x
      ∧ x.2.ss.objects.size = 7 ∧ x.2.ss.dirtied = 4
      ∧ ∃ s', x.2.ss.evictAll codec = .ok s' ∧ Persisted codec x.2.ss s' := by
  intro codec
  have happly : ∀ es : List (Event Nat Nat), es.length < uint64Max → es.length + 2 ≤ 8 →
      (∀ e ∈ es, e.Valid) →
      ((Pointer.session ⟨3, 1, 0, some⟩ 8 es).trace (swapHandler codec (fun _ => .environment))
        (Pinning.create 9)).getLast?.map (fun x => (x.2.pins, x.2.ss.freedUnloaded,
          decide x.2.ss.InRange, x.2.ss.objects.size, x.2.ss.dirtied)) = some ([], false, true, 7, 4) →
      ∃ x, ((Pointer.session ⟨3, 1, 0, some⟩ 8 es).trace (swapHandler codec (fun _ => .environment))
          (Pinning.create 9)).getLast? = some x
        ∧ x.2.ss.objects.size = 7 ∧ x.2.ss.dirtied = 4
        ∧ ∃ s', x.2.ss.evictAll codec = .ok s' ∧ Persisted codec x.2.ss s' := by
    intro es hlen hfuel hes hlast
    obtain ⟨x, hx, hlast⟩ := Option.map_eq_some_iff.mp hlast
    simp only [Prod.mk.injEq, decide_eq_true_eq] at hlast
    obtain ⟨hpins, hfreed, hrange, hsize, hdirty⟩ := hlast
    exact ⟨x, hx, hsize, hdirty, evictAll_persists codec 9 3 1 8 0 es hlen hfuel hes x
      (List.mem_of_getLast? hx) hpins hfreed hrange⟩
  exact happly _ (by decide) (by decide) (by decide) (by decide +kernel)

/-- After three inserts `evict_all` does nothing, though a node is in memory and none is pinned. -/
theorem evictAll_leaves_node :
    let codec : Codec (NodeImage Nat Nat) (Payload (NodeImage Nat Nat)) := ⟨id, id, fun _ => rfl⟩
    let m := ((Pointer.session ⟨3, 0, 0, some⟩ 5 [.command (.upsert (.insert 0 0)),
      .command (.upsert (.insert 1 0)), .command (.upsert (.insert 2 0))]).run
      (swapHandler codec (fun _ => .environment)) (Pinning.create 1)).2
    m.pins = [] ∧ (m.ss.evictAll codec).map (fun s => s.resident) = .ok 1 := by
  decide +kernel

end BeTree
