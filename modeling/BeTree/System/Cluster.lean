import BeTree.Swap.Runs

/-!
# Many clients of one server

Every client of the server has a swap space of its own, and its calls interleave with
those of the others in any order. The server sees the nodes that are evicted under the
ids of their objects. Those are given out by each client by itself, so the node a client
allocates as its `k`-th has the same id for every client.
-/

namespace BeTree

open Checked SwapSpace

variable {D B : Type}

/-- A client, and the ids of the nodes it has allocated, in the order of allocation. -/
structure Client (D B : Type) where
  state : Pinning D B
  nodes : List Nat

namespace Client

/-- A client with a cache for `n` nodes. -/
def create (n : Nat) : Client D B := ⟨Pinning.create n, []⟩

/-- The id of the node that a call allocates, as `allocate` returns it. -/
def allocated (s : SwapSpace D B) : Call D → List Nat
  | .allocate _ => [s.newId]
  | _ => []

/-- One operation of a client. -/
def call (codec : Codec D B) (x : Client D B) (c : Call D) : Except SwapFault (Client D B) := do
  let m ← x.state.call codec c
  return ⟨m, x.nodes ++ allocated x.state.ss c⟩

/-- The client has sent its `k`-th node to the server, under the id `id`. -/
def Evicted (x : Client D B) (k id : Nat) : Prop :=
  x.nodes[k]? = some id ∧ ∃ buffer, Request.evictNode id buffer ∈ x.state.ss.requests

/-! ## The ids of a client -/

/-- The `k`-th node has the id `2 * (k + 1)`; all objects and all evictions are of such nodes. -/
structure Registered (nodes : List Nat) (s : SwapSpace D B) : Prop where
  nextId : s.nextId = 2 * nodes.length + 1
  node : ∀ k i, nodes[k]? = some i → i = uint64 (2 * (k + 1))
  object : ∀ i, (s.objects.get? i).isSome = true → i ∈ nodes
  evicted : ∀ i b, Request.evictNode i b ∈ s.requests → i ∈ nodes

variable {codec : Codec D B} {nodes : List Nat} {s s' : SwapSpace D B} {m : Pinning D B}

theorem registered_create (n : Nat) : Registered [] (SwapSpace.create n : SwapSpace D B) := by
  refine ⟨rfl, fun k i hi => ?_, fun i hi => ?_, fun i b hb => ?_⟩
  · exact absurd hi (by simp)
  · exact absurd hi (by simp [SwapSpace.create])
  · exact absurd hb (by simp [SwapSpace.create])

/-- No new objects and no new requests. -/
theorem Registered.of_objects (h : Registered nodes s) (hid : s'.nextId = s.nextId)
    (hobj : ∀ i, (s'.objects.get? i).isSome = true → (s.objects.get? i).isSome = true)
    (hreq : s'.requests = s.requests) : Registered nodes s' := by
  refine ⟨hid.trans h.nextId, h.node, fun i hi => h.object i (hobj i hi), fun i b hb => ?_⟩
  rw [hreq] at hb
  exact h.evicted i b hb

/-- Evictions and releases: what is sent is an object. -/
theorem Registered.of_settles (h : Registered nodes s) (hs : Settles s s') :
    Registered nodes s' := by
  refine ⟨hs.nextId.trans h.nextId, h.node, fun i hi => ?_, fun i b hb => ?_⟩
  · obtain ⟨o, ho⟩ := Option.isSome_iff_exists.mp hi
    obtain ⟨o₀, ho₀, _⟩ := hs.object i o ho
    exact h.object i (by rw [ho₀]; rfl)
  · rcases hs.sent _ hb with hb | ⟨j, b', hj, hsome⟩
    · exact h.evicted i b hb
    · injection hj with hj
      subst hj
      exact h.object i hsome

/-- An object is rewritten. -/
theorem Registered.setObject {id : Nat} {o o' : Object D} (h : Registered nodes s)
    (ho : s.objects.get? id = some o) : Registered nodes (s.setObject id o') := by
  refine h.of_objects rfl (fun i hi => ?_) rfl
  by_cases hid : i = id
  · rw [hid, ho]
    rfl
  · rwa [setObject_objects, Dict.get?_set, if_neg hid] at hi

/-- A new object gets the next even number. -/
theorem Registered.entered {p : Payload D} (h : Registered nodes s) :
    Registered (nodes ++ [s.newId]) (s.entered p) := by
  refine ⟨?_, fun k i hi => ?_, fun i hi => ?_, fun i b hb => ?_⟩
  · have := h.nextId
    show s.nextId + 2 = _
    rw [List.length_append, List.length_singleton]
    omega
  · by_cases hk : k < nodes.length
    · rw [List.getElem?_append_left hk] at hi
      exact h.node k i hi
    · rw [List.getElem?_append_right (by omega)] at hi
      obtain ⟨hk', hi⟩ := List.getElem?_eq_some_iff.mp hi
      rw [List.length_singleton] at hk'
      have hlen := h.nextId
      rw [List.getElem_singleton] at hi
      rw [← hi]
      exact congrArg uint64 (by omega)
  · rcases Option.isSome_iff_exists.mp hi with ⟨o, ho⟩
    rcases Dict.get?_set_eq_some.mp ho with ⟨rfl, _⟩ | ⟨_, ho⟩
    · exact List.mem_append_right _ (List.mem_singleton.mpr rfl)
    · exact List.mem_append_left _ (h.object i (by rw [ho]; rfl))
  · rcases List.mem_append.mp hb with hb | hb
    · exact List.mem_append_left _ (h.evicted i b hb)
    · exact absurd (List.mem_singleton.mp hb) (by simp)

/-- **An operation** registers the node that it allocates. -/
theorem yields_call (h : Registered nodes m.ss) (c : Call D) :
    Yields (m.call codec c) (fun m' => Registered (nodes ++ allocated m.ss c) m'.ss) := by
  -- only an allocation adds a node
  have h' : Registered (nodes ++ []) m.ss := by rwa [List.append_nil]
  cases c with
  | allocate p =>
      refine (yields_allocate_cases codec m.ss p).bind (fun r hr => yields_pure ?_)
      exact h.entered.of_settles (parks_of_evict hr.2.2).toSettles
  | copy id =>
      refine yields_addRef.bind (fun s hs => yields_pure ?_)
      rcases hs with ⟨_, rfl⟩ | ⟨o, ho, rfl⟩
      · exact h'
      · exact h'.setObject ho
  | destroy id =>
      exact (yields_release_settles codec m.ss id).bind (fun s hs => yields_pure (h'.of_settles hs))
  | pin id =>
      refine yields_doPin.bind (fun s hs => yields_pure ?_)
      rcases hs with ⟨_, rfl⟩ | ⟨o, ho, rfl⟩
      · exact h'
      · exact h'.setObject ho
  | unpin id =>
      refine yields_then (fun _ => (yields_unpin_cases codec m.ss id).bind
        (fun s hs => yields_pure ?_))
      rcases hs with ⟨_, rfl⟩ | ⟨o, ho, _, hevict⟩
      · exact h'
      · have hpin : Registered (nodes ++ []) (m.ss.repinned id o (o.pincount - 1)) := h'.setObject ho
        exact hpin.of_settles (parks_of_evict hevict).toSettles
  | access id dirty =>
      refine yields_then (fun _ => (yields_access_cases codec m.ss id dirty).bind
        (fun s hs => yields_pure ?_))
      obtain ⟨s₁, hs₁, hevict⟩ := hs
      refine Registered.of_settles (h'.of_objects hs₁.nextId (fun i hi => ?_) hs₁.requests)
        (parks_of_evict hevict).toSettles
      obtain ⟨x, p, hx, hsame, _⟩ := hs₁.object
      rw [hsame, accessed_objects, Dict.get?_set] at hi
      by_cases hid : i = id
      · rw [hid, hx]
        rfl
      · rwa [if_neg hid] at hi
  | store id p =>
      refine yields_store.bind (fun s hs => yields_pure ?_)
      obtain ⟨o, ho, _, rfl⟩ := hs
      exact h'.setObject ho
  | evictAll =>
      exact (yields_evictLoop_parks codec _ _ m.ss).bind
        (fun s hs => yields_pure (h'.of_settles hs.toSettles))

end Client

/-- The clients of a server, by number. -/
abbrev Cluster (D B : Type) : Type := Nat → Client D B

namespace Cluster

/-- The states of any number of clients, whatever they do and however it is interleaved. -/
inductive Reachable (codec : Codec D B) (n : Nat → Nat) : Cluster D B → Prop where
  | create : Reachable codec n (fun i => Client.create (n i))
  | call {w : Cluster D B} {x : Client D B} {i : Nat} {c : Call D} : Reachable codec n w →
      (w i).call codec c = .ok x → Reachable codec n (Function.update w i x)

variable {codec : Codec D B} {n : Nat → Nat} {w : Cluster D B}

theorem registered_reachable (h : Reachable codec n w) (i : Nat) :
    Client.Registered (w i).nodes (w i).state.ss := by
  induction h generalizing i with
  | create => exact Client.registered_create (n i)
  | @call w x j c _ hcall ih =>
      by_cases hij : i = j
      · subst hij
        rw [Function.update_self]
        have hyields : Yields ((w i).call codec c) (fun x => Client.Registered x.nodes x.state.ss) :=
          (Client.yields_call (ih i) c).bind (fun m hm => yields_pure hm)
        exact hyields x hcall
      · rw [Function.update_of_ne hij]
        exact ih i

/-- One client does a number of operations. -/
theorem Reachable.calls {x : Client D B} (i : Nat) (cs : List (Call D)) (h : Reachable codec n w)
    (hx : cs.foldlM (Client.call codec) (w i) = .ok x) :
    Reachable codec n (Function.update w i x) := by
  induction cs generalizing w with
  | nil =>
      injection hx with hx
      rwa [← hx, Function.update_eq_self]
  | cons c cs ih =>
      obtain ⟨y, hy, hx⟩ := bind_eq_ok.mp (List.foldlM_cons.symm.trans hx)
      have hrest := ih (h.call hy) (by rw [Function.update_self]; exact hx)
      rwa [Function.update_idem] at hrest

/-- Evictions under one id are evictions of one node. -/
def UniqueIdentity (w : Cluster D B) : Prop :=
  ∀ i j k l id, (w i).Evicted k id → (w j).Evicted l id → i = j ∧ k = l

end Cluster

/--
**The identity of nodes at the server.** All evictions are of nodes that the client has
allocated. With fewer than 2^63 nodes in every client, their ids tell the nodes of all clients
apart exactly when no two clients have evicted the nodes they allocated as their `k`-th, for any
`k`.
-/
theorem uniqueIdentity_iff (codec : Codec D B) (n : Nat → Nat) (w : Cluster D B)
    (h : Cluster.Reachable codec n w) (hn : ∀ i, (w i).nodes.length < 2 ^ 63) :
    (∀ i id b, Request.evictNode id b ∈ (w i).state.ss.requests → ∃ k, (w i).Evicted k id)
      ∧ (Cluster.UniqueIdentity w ↔ ∀ i j k, i ≠ j →
        ¬ ((∃ id, (w i).Evicted k id) ∧ ∃ id, (w j).Evicted k id)) := by
  have hreg := Cluster.registered_reachable h
  refine ⟨fun i id b hb => ?_, fun hu i j k hij hk => ?_, fun hne i j k l id hi hj => ?_⟩
  · obtain ⟨k, hk⟩ := List.getElem?_of_mem ((hreg i).evicted id b hb)
    exact ⟨k, hk, b, hb⟩
  · obtain ⟨⟨id, hi⟩, id', hj⟩ := hk
    -- the two nodes have the same number, and so the same id
    have hid : id = id' := ((hreg i).node k id hi.1).trans ((hreg j).node k id' hj.1).symm
    subst hid
    exact hij (hu i j k k id hi hj).1
  · -- below 2^63 nodes the ids of a client have not wrapped around
    have hpos : ∀ i k id, (w i).nodes[k]? = some id → id = 2 * (k + 1) := by
      intro i k id hid
      have hlt := (List.getElem?_eq_some_iff.mp hid).1
      have := hn i
      rw [(hreg i).node k id hid]
      exact uint64_of_lt (by omega)
    have hk := hpos i k id hi.1
    have hl := hpos j l id hj.1
    have hkl : k = l := by omega
    subst hkl
    by_cases hij : i = j
    · exact ⟨hij, rfl⟩
    · exact absurd ⟨⟨id, hi⟩, id, hj⟩ (hne i j k hij)

/-- The first client evicts its first node; the second one has that pinned, and evicts its second. -/
theorem uniqueIdentity_two :
    let codec : Codec Unit (Payload Unit) := ⟨id, id, fun _ => rfl⟩
    ∃ w, Cluster.Reachable codec (fun _ => 1) w ∧ (w 0).Evicted 0 2 ∧ (w 1).Evicted 1 4
      ∧ Cluster.UniqueIdentity w := by
  intro codec
  obtain ⟨x, hx, hnodes, hevicted⟩ : ∃ x : Client Unit (Payload Unit),
      [.allocate ⟨(), []⟩, .evictAll].foldlM (Client.call codec) (Client.create 1) = .ok x
        ∧ x.nodes = [2] ∧ x.Evicted 0 2 :=
    ⟨_, rfl, rfl, rfl, _, List.mem_cons_of_mem _ List.mem_cons_self⟩
  obtain ⟨y, hy, hnodes', hreq⟩ : ∃ y : Client Unit (Payload Unit),
      [.allocate ⟨(), []⟩, .pin 2, .allocate ⟨(), []⟩].foldlM (Client.call codec) (Client.create 1)
          = .ok y
        ∧ y.nodes = [2, 4] ∧ y.state.ss.requests = [.getNodeId, .getNodeId, .evictNode 4 ⟨(), []⟩] :=
    ⟨_, rfl, rfl, rfl⟩
  have h₀ := Cluster.Reachable.calls 0 _ (.create (n := fun _ => 1)) hx
  have h₁ := Cluster.Reachable.calls 1 _ h₀ hy
  have hevicted' : y.Evicted 1 4 := by
    refine ⟨by rw [hnodes']; rfl, ⟨(), []⟩, ?_⟩
    rw [hreq]
    exact List.mem_cons_of_mem _ (List.mem_cons_of_mem _ List.mem_cons_self)
  let w := Function.update (Function.update (fun _ => Client.create 1) 0 x) 1 y
  have hw : ∀ i, i ≠ 0 → i ≠ 1 → (w i).nodes = [] := by
    intro i hi hi'
    rw [show w i = Client.create 1 from
      (Function.update_of_ne hi' _ _).trans (Function.update_of_ne hi _ _)]
    rfl
  have hlen : ∀ i, (w i).nodes.length < 2 ^ 63 := by
    intro i
    by_cases hi : i = 0
    · subst hi
      exact lt_of_eq_of_lt (congrArg List.length hnodes) (by decide)
    · by_cases hi' : i = 1
      · subst hi'
        exact lt_of_eq_of_lt (congrArg List.length hnodes') (by decide)
      · rw [hw i hi hi']
        decide
  -- who has evicted its `k`-th node is decided by `k`
  have hwho : ∀ i k id, (w i).Evicted k id → (i = 0 ∧ k = 0) ∨ (i = 1 ∧ k = 1) := by
    intro i k id hid
    by_cases hi : i = 0
    · subst hi
      have hk : k < x.nodes.length := (List.getElem?_eq_some_iff.mp hid.1).1
      rw [hnodes] at hk
      have hk : k < 1 := hk
      exact Or.inl ⟨rfl, by omega⟩
    · by_cases hi' : i = 1
      · subst hi'
        have hk : k < y.nodes.length := (List.getElem?_eq_some_iff.mp hid.1).1
        rw [hnodes'] at hk
        have hk : k < 2 := hk
        refine Or.inr ⟨rfl, ?_⟩
        obtain ⟨hnode, b, hb⟩ := hid
        have hnode : y.nodes[k]? = some id := hnode
        have hb : Request.evictNode id b ∈ y.state.ss.requests := hb
        rw [hreq] at hb
        rw [hnodes'] at hnode
        have hid : id = 4 ∧ b = ⟨(), []⟩ := by simpa using hb
        rcases (by omega : k = 0 ∨ k = 1) with rfl | rfl
        · rw [hid.1] at hnode
          exact absurd hnode (by decide)
        · rfl
      · have hk : (w i).nodes[k]? = some id := hid.1
        rw [hw i hi hi'] at hk
        cases hk
  refine ⟨w, h₁, hevicted, hevicted', ?_⟩
  refine (uniqueIdentity_iff codec (fun _ => 1) w h₁ hlen).2.mpr (fun i j k hij hk => ?_)
  obtain ⟨⟨a, ha⟩, b, hb⟩ := hk
  have := hwho i k a ha
  have := hwho j k b hb
  omega

/-- Two clients that each evict their first node send the same id. -/
theorem uniqueIdentity_fails :
    let codec : Codec Unit (Payload Unit) := ⟨id, id, fun _ => rfl⟩
    ∃ w, Cluster.Reachable codec (fun _ => 1) w ∧ (w 0).Evicted 0 2 ∧ (w 1).Evicted 0 2
      ∧ ¬ Cluster.UniqueIdentity w := by
  intro codec
  obtain ⟨x, hx, hevicted⟩ : ∃ x : Client Unit (Payload Unit),
      [.allocate ⟨(), []⟩, .evictAll].foldlM (Client.call codec) (Client.create 1) = .ok x
        ∧ x.Evicted 0 2 :=
    ⟨_, rfl, rfl, _, List.mem_cons_of_mem _ List.mem_cons_self⟩
  have h₀ := Cluster.Reachable.calls 0 _ (.create (n := fun _ => 1)) hx
  have h₁ := Cluster.Reachable.calls 1 _ h₀ hx
  refine ⟨_, h₁, hevicted, hevicted, fun hu => ?_⟩
  exact absurd (hu 0 1 0 0 2 hevicted hevicted).1 (by decide)

end BeTree
