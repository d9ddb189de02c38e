import BeTree.Net.Transport

/-!
# Every call gets its own response

What holds in every state of every run, in three parts. `Resources`: the requests that
are prepared or in flight are of different clients and have tags and buffers of their
own, so nothing that happens to one of them touches the others. `Exchange`: a request
and its response carry the number of the one call that its client is in. `Ledger`: the
ids that the server has assigned, and the calls that have returned.
-/

namespace BeTree

/-- The message buffers of a request. -/
def Flight.buffers (f : Flight) : List Nat := [f.reqMsgbuf, f.respMsgbuf]

namespace World

/-- The request that is being prepared, if there is one. -/
def preparing (w : World) : List Flight :=
  match w.connecting with
  | none => []
  | some (i, reqType) => [w.crtFlight i reqType]

/-- The requests that have a tag and buffers. -/
def pending (w : World) : List Flight := w.inFlight ++ w.preparing

/-- No tag, buffer or client belongs to two requests. -/
structure Resources (w : World) : Prop where
  tags : w.ctx.reqTagPool.Owns (w.pending.map Flight.tag)
  buffers : (w.pending.flatMap Flight.buffers).Nodup
  live : ∀ f ∈ w.pending, ∀ b ∈ f.buffers, b ∈ w.live
  clients : (w.pending.map Flight.client).Nodup
  tagged : ∀ f ∈ w.inFlight, w.ctx.tags f.tag = ⟨f.reqMsgbuf, f.respMsgbuf, f.reqType, f.client⟩
  waiting : ∀ f ∈ w.inFlight, w.stage f.client = .waiting f.reqType
  idle : ∀ i t, w.connecting = some (i, t) → w.stage i = .idle

/-- Requests, responses and blocked clients go together. -/
structure Exchange (w : World) : Prop where
  request : ∀ f ∈ w.pending,
    (w.reqMem f.reqMsgbuf).reqNr = f.reqNr ∧ (w.reqMem f.reqMsgbuf).reqType = f.reqType
  blocked : ∀ f ∈ w.pending,
    (w.clients f.client).lastReqId = f.reqNr ∧ (w.clients f.client).blocked = true
  response : ∀ f ∈ w.pending, ∀ r, f.response = some r → r.reqNr = f.reqNr ∧ r.reqType = f.reqType
    ∧ ∀ nr id, r = .nodeid nr id → id < 2 ^ 32 ∧ ⟨f.client, f.reqNr, id⟩ ∈ w.assigned
  outstanding : ∀ i t, w.stage i = .waiting t → (w.clients i).blocked = true →
    ∃ f ∈ w.inFlight, f.client = i
  answered : ∀ i t, w.stage i = .waiting t → (w.clients i).blocked = false →
    (i, (w.clients i).lastReqId) ∈ w.handled
      ∧ (t = .getNodeId → ⟨i, (w.clients i).lastReqId, (w.clients i).nodeIdx⟩ ∈ w.assigned)

/-- Every request is assigned one id, by its number, and every call returns after its response. -/
structure Ledger (w : World) : Prop where
  currentId : w.app.currentId = w.assigned.length % 2 ^ 32
  id : ∀ k a, w.assigned[k]? = some a → a.id = k % 2 ^ 32
  bound : ∀ a ∈ w.assigned, a.reqNr ≤ (w.clients a.client).lastReqId
  fresh : ∀ f ∈ w.pending, f.response = none → ∀ a ∈ w.assigned,
    (a.client, a.reqNr) ≠ (f.client, f.reqNr)
  once : (w.assigned.map (fun a => (a.client, a.reqNr))).Nodup
  returned : ∀ r ∈ w.returned, (r.client, r.reqNr) ∈ w.handled
    ∧ (r.reqType = .getNodeId → ⟨r.client, r.reqNr, r.nodeIdx⟩ ∈ w.assigned)

/-- All of it. -/
structure Matched (w : World) : Prop where
  resources : Resources w
  exchange : Exchange w
  ledger : Ledger w

variable {w : World}

theorem mem_pending_of_inFlight {f : Flight} (h : f ∈ w.inFlight) : f ∈ w.pending :=
  List.mem_append_left _ h

theorem pending_of_none (h : w.connecting = none) : w.pending = w.inFlight := by
  rw [pending, preparing, h, List.append_nil]

theorem matched_initial (h : Initial w) : Matched w := by
  have hp : w.pending = [] := by rw [pending_of_none h.connecting, h.inFlight]
  refine ⟨⟨?_, ?_, ?_, ?_, ?_, ?_, ?_⟩, ⟨?_, ?_, ?_, ?_, ?_⟩, ⟨?_, ?_, ?_, ?_, ?_, ?_⟩⟩
  · rw [hp, h.pool]
    exact MemPool.owns_init
  · rw [hp]
    exact List.nodup_nil
  · simp [hp]
  · rw [hp]
    exact List.nodup_nil
  · simp [h.inFlight]
  · simp [h.inFlight]
  · exact fun i _ _ => h.stage i
  · simp [hp]
  · simp [hp]
  · simp [hp]
  · intro i t hi
    rw [h.stage i] at hi
    cases hi
  · intro i t hi
    rw [h.stage i] at hi
    cases hi
  · rw [h.app, h.assigned]
    rfl
  · simp [h.assigned]
  · simp [h.assigned]
  · simp [hp]
  · simp [h.assigned]
  · simp [h.returned]

/-! ## A call fills a request -/

section Fill

variable {i b b' : Nat} {rpc : Rpc} {old : Nat → Char}

theorem fill_reqNr (rpc : Rpc) (reqId : Nat) (old : Nat → Char) :
    (rpc.fill reqId old).reqNr = reqId ∧ (rpc.fill reqId old).reqType = rpc.reqType := by
  cases rpc <;> exact ⟨rfl, rfl⟩

/-- The request that a call prepares. -/
def newFlight (w : World) (i : Nat) (rpc : Rpc) (b b' : Nat) : Flight :=
  ⟨w.ctx.reqTagPool.alloc.1, b, b', rpc.reqType, none, i, (w.clients i).lastReqId + 1⟩

theorem pending_fillRequest (i b b' : Nat) (rpc : Rpc) (old : Nat → Char)
    (h : w.connecting = none) :
    (w.fillRequest i rpc b b' old).pending = w.pending ++ [w.newFlight i rpc b b'] := by
  rw [pending_of_none h]
  show w.inFlight ++ [(w.fillRequest i rpc b b' old).crtFlight i rpc.reqType] = _
  simp [crtFlight, newFlight, fillRequest, AppContext.getRequestBuf]

theorem mem_fillRequest {f : Flight} (h : w.connecting = none)
    (hf : f ∈ (w.fillRequest i rpc b b' old).pending) :
    f ∈ w.pending ∨ f = w.newFlight i rpc b b' := by
  rw [pending_fillRequest i b b' rpc old h] at hf
  rcases List.mem_append.mp hf with hf | hf
  · exact Or.inl hf
  · exact Or.inr (List.mem_singleton.mp hf)

/-- A client without a call has no request. -/
theorem Resources.not_client (h : Resources w) (hc : w.connecting = none) (hi : w.stage i = .idle)
    {f : Flight} (hf : f ∈ w.pending) : f.client ≠ i := by
  rintro rfl
  rw [pending_of_none hc] at hf
  have hw := h.waiting f hf
  rw [hi] at hw
  cases hw

theorem Resources.fillRequest (h : Resources w) (hc : w.connecting = none)
    (hi : w.stage i = .idle) (hb : b ∉ w.live) (hb' : b' ∉ w.live) (hne : b ≠ b') :
    Resources (w.fillRequest i rpc b b' old) := by
  have hpend := pending_fillRequest i b b' rpc old hc
  refine ⟨?_, ?_, fun f hf x hx => ?_, ?_, fun f hf => ?_, h.waiting, fun j t hj => ?_⟩
  · rw [hpend, List.map_append]
    exact h.tags.alloc.perm (List.perm_append_singleton _ _).symm
  · rw [hpend, List.flatMap_append]
    refine h.buffers.append (by simp [newFlight, Flight.buffers, hne]) (fun x hx hx' => ?_)
    obtain ⟨f, hf, hxf⟩ := List.mem_flatMap.mp hx
    have hlive := h.live f hf x hxf
    have hnew : x = b ∨ x = b' := by simpa [newFlight, Flight.buffers] using hx'
    rcases hnew with rfl | rfl
    · exact hb hlive
    · exact hb' hlive
  · show x ∈ b :: b' :: w.live
    rcases mem_fillRequest hc hf with hf | rfl
    · exact List.mem_cons_of_mem _ (List.mem_cons_of_mem _ (h.live f hf x hx))
    · have hnew : x = b ∨ x = b' := by simpa [newFlight, Flight.buffers] using hx
      rcases hnew with rfl | rfl
      · exact List.mem_cons_self
      · exact List.mem_cons_of_mem _ List.mem_cons_self
  · rw [hpend, List.map_append]
    refine h.clients.append (List.nodup_singleton _) (fun j hj hj' => ?_)
    obtain ⟨f, hf, rfl⟩ := List.mem_map.mp hj
    exact h.not_client hc hi hf (List.mem_singleton.mp hj')
  · -- the tag is a new one, so the tags of the other requests stay as they are
    have hnew := h.tags.alloc.held_nodup
    have hne : f.tag ≠ w.ctx.reqTagPool.alloc.1 := by
      rintro heq
      refine (List.nodup_cons.mp hnew).1 ?_
      rw [← heq]
      exact List.mem_map_of_mem (mem_pending_of_inFlight hf)
    show Function.update w.ctx.tags _ _ f.tag = _
    rw [Function.update_of_ne hne]
    exact h.tagged f hf
  · have hji : i = j := congrArg Prod.fst (Option.some.inj hj)
    exact hji ▸ hi

theorem Exchange.fillRequest (hr : Resources w) (h : Exchange w) (hc : w.connecting = none)
    (hi : w.stage i = .idle) (hb : b ∉ w.live) : Exchange (w.fillRequest i rpc b b' old) := by
  have hother : ∀ j, j ≠ i → (w.fillRequest i rpc b b' old).clients j = w.clients j :=
    fun j hj => Function.update_of_ne hj _ _
  have hstage : ∀ j t, w.stage j = .waiting t → j ≠ i := by
    rintro j t hj rfl
    rw [hi] at hj
    cases hj
  refine ⟨fun f hf => ?_, fun f hf => ?_, fun f hf r hfr => ?_, fun j t hj hblk => ?_,
    fun j t hj hblk => ?_⟩
  · have hmem : (w.fillRequest i rpc b b' old).reqMem f.reqMsgbuf
        = Function.update w.reqMem b (rpc.fill ((w.clients i).lastReqId + 1) old) f.reqMsgbuf := rfl
    rw [hmem]
    rcases mem_fillRequest hc hf with hf | rfl
    · have hne : f.reqMsgbuf ≠ b := by
        intro heq
        exact hb (heq ▸ hr.live f hf _ List.mem_cons_self)
      rw [Function.update_of_ne hne]
      exact h.request f hf
    · rw [show (w.newFlight i rpc b b').reqMsgbuf = b from rfl, Function.update_self]
      exact fill_reqNr rpc _ old
  · rcases mem_fillRequest hc hf with hf | rfl
    · rw [hother _ (hr.not_client hc hi hf)]
      exact h.blocked f hf
    · show (Function.update w.clients i _ i).lastReqId = _ ∧ (Function.update w.clients i _ i).blocked = _
      rw [Function.update_self]
      exact ⟨rfl, rfl⟩
  · rcases mem_fillRequest hc hf with hf | rfl
    · exact h.response f hf r hfr
    · cases hfr
  · rw [hother j (hstage j t hj)] at hblk
    exact h.outstanding j t hj hblk
  · rw [hother j (hstage j t hj)] at hblk ⊢
    exact h.answered j t hj hblk

theorem Ledger.fillRequest (h : Ledger w) (hc : w.connecting = none) :
    Ledger (w.fillRequest i rpc b b' old) := by
  refine ⟨h.currentId, h.id, fun a ha => ?_, fun f hf hfr a ha => ?_, h.once, h.returned⟩
  · have hle := h.bound a ha
    by_cases hai : a.client = i
    · show a.reqNr ≤ (Function.update w.clients i _ a.client).lastReqId
      rw [hai, Function.update_self]
      rw [hai] at hle
      exact Nat.le_succ_of_le hle
    · show a.reqNr ≤ (Function.update w.clients i _ a.client).lastReqId
      rw [Function.update_of_ne hai]
      exact hle
  · rcases mem_fillRequest hc hf with hf | rfl
    · exact h.fresh f hf hfr a ha
    · intro heq
      obtain ⟨hclient, hnr⟩ := Prod.mk.inj heq
      have hle := h.bound a ha
      rw [hclient, hnr] at hle
      exact absurd hle (Nat.not_succ_le_self _)

theorem Matched.fillRequest (h : Matched w) (hc : w.connecting = none) (hi : w.stage i = .idle)
    (hb : b ∉ w.live) (hb' : b' ∉ w.live) (hne : b ≠ b') :
    Matched (w.fillRequest i rpc b b' old) :=
  ⟨h.resources.fillRequest hc hi hb hb' hne, h.exchange.fillRequest h.resources hc hi hb,
    h.ledger.fillRequest hc⟩

end Fill

/-! ## The request is enqueued -/

section Enqueue

variable {i : Nat} {t : ReqType}

theorem pending_enqueueRequest (hc : w.connecting = some (i, t)) :
    (w.enqueueRequest i t).pending = w.pending := by
  rw [pending, pending, preparing, preparing, hc]
  exact List.append_nil _

theorem crtFlight_mem (hc : w.connecting = some (i, t)) : w.crtFlight i t ∈ w.pending := by
  rw [pending, preparing, hc]
  exact List.mem_append_right _ List.mem_cons_self

/-- A request in flight has nothing in common with the one that is being prepared. -/
theorem Resources.ne_crtFlight (h : Resources w) (hc : w.connecting = some (i, t)) {f : Flight}
    (hf : f ∈ w.inFlight) : f.tag ≠ w.ctx.crtReqTag ∧ f.client ≠ i := by
  have htags := h.tags.held_nodup
  have hclients := h.clients
  rw [pending, preparing, hc, List.map_append] at htags hclients
  refine ⟨fun heq => ?_, fun heq => ?_⟩
  · refine (List.nodup_append.mp htags).2.2 f.tag (List.mem_map_of_mem hf) _ ?_ heq
    exact List.mem_singleton.mpr rfl
  · refine (List.nodup_append.mp hclients).2.2 f.client (List.mem_map_of_mem hf) _ ?_ heq
    exact List.mem_singleton.mpr rfl

theorem Resources.enqueueRequest (h : Resources w) (hc : w.connecting = some (i, t)) :
    Resources (w.enqueueRequest i t) := by
  have hpend := pending_enqueueRequest hc
  refine ⟨?_, ?_, ?_, ?_, fun f hf => ?_, fun f hf => ?_, fun j t' hj => ?_⟩
  · rw [hpend]
    exact h.tags
  · rw [hpend]
    exact h.buffers
  · rw [hpend]
    exact h.live
  · rw [hpend]
    exact h.clients
  · show Function.update w.ctx.tags w.ctx.crtReqTag _ f.tag = _
    rcases List.mem_append.mp hf with hf | hf
    · rw [Function.update_of_ne (h.ne_crtFlight hc hf).1]
      exact h.tagged f hf
    · rw [List.mem_singleton.mp hf]
      exact Function.update_self _ _ _
  · show Function.update w.stage i _ f.client = _
    rcases List.mem_append.mp hf with hf | hf
    · rw [Function.update_of_ne (h.ne_crtFlight hc hf).2]
      exact h.waiting f hf
    · rw [List.mem_singleton.mp hf]
      exact Function.update_self _ _ _
  · cases hj

theorem Exchange.enqueueRequest (h : Exchange w) (hc : w.connecting = some (i, t)) :
    Exchange (w.enqueueRequest i t) := by
  have hpend := pending_enqueueRequest hc
  have hstage : ∀ j t', (w.enqueueRequest i t).stage j = .waiting t' → j ≠ i →
      w.stage j = .waiting t' := by
    intro j t' hj hne
    have hj' : Function.update w.stage i (.waiting t) j = .waiting t' := hj
    rwa [Function.update_of_ne hne] at hj'
  refine ⟨?_, ?_, ?_, fun j t' hj hblk => ?_, fun j t' hj hblk => ?_⟩
  · rw [hpend]
    exact h.request
  · rw [hpend]
    exact h.blocked
  · rw [hpend]
    exact h.response
  · by_cases hji : j = i
    · exact ⟨w.crtFlight i t, List.mem_append_right _ List.mem_cons_self, hji.symm⟩
    · obtain ⟨f, hf, hfj⟩ := h.outstanding j t' (hstage j t' hj hji) hblk
      exact ⟨f, List.mem_append_left _ hf, hfj⟩
  · by_cases hji : j = i
    · -- the client that is about to wait is blocked
      have hblocked := (h.blocked _ (crtFlight_mem hc)).2
      rw [hji] at hblk
      exact absurd (hblocked.symm.trans hblk) (by simp)
    · exact h.answered j t' (hstage j t' hj hji) hblk

theorem Matched.enqueueRequest (h : Matched w) (hc : w.connecting = some (i, t)) :
    Matched (w.enqueueRequest i t) := by
  refine ⟨h.resources.enqueueRequest hc, h.exchange.enqueueRequest hc, ?_⟩
  refine ⟨h.ledger.currentId, h.ledger.id, h.ledger.bound, ?_, h.ledger.once, h.ledger.returned⟩
  rw [pending_enqueueRequest hc]
  exact h.ledger.fresh

end Enqueue

/-! ## The server answers -/

section Answered

variable {l₁ l₂ : List Flight} {f : Flight} {r : ResponseMsg} {app : StorageServerApp}

/-- What the server makes of a request of the type it came with. -/
theorem receiveRequest_spec {app₀ : StorageServerApp} {msg : RequestMsg} {t : ReqType}
    (h : app₀.receiveRequest t msg = some (r, app)) :
    r.reqNr = msg.reqNr ∧ r.reqType = t
      ∧ ((∃ nr, r = .nodeid nr app₀.currentId ∧ app = ⟨(app₀.currentId + 1) % 2 ^ 32⟩)
        ∨ ((∀ nr id, r ≠ .nodeid nr id) ∧ app = app₀)) := by
  cases t with
  | getNodeId =>
      cases msg with
      | nodeid nr =>
          injection h with h
          obtain ⟨hr, happ⟩ := Prod.mk.inj h
          subst hr
          exact ⟨rfl, rfl, Or.inl ⟨nr, rfl, happ.symm⟩⟩
      | evictnode req => cases h
  | evictNode =>
      cases msg with
      | nodeid nr => cases h
      | evictnode req =>
          injection h with h
          obtain ⟨hr, happ⟩ := Prod.mk.inj h
          subst hr
          exact ⟨rfl, rfl, Or.inr ⟨fun _ _ hc => absurd hc (by simp), happ.symm⟩⟩

theorem pending_eq (hl : w.inFlight = l₁ ++ f :: l₂) :
    w.pending = l₁ ++ f :: (l₂ ++ w.preparing) := by
  rw [pending, hl, List.append_assoc, List.cons_append]

theorem pending_answered :
    (w.answered l₁ f l₂ r app).pending
      = l₁ ++ { f with response := some r } :: (l₂ ++ w.preparing) := by
  show l₁ ++ { f with response := some r } :: l₂ ++ w.preparing = _
  rw [List.append_assoc, List.cons_append]

/-- An answered request keeps everything but its response. -/
theorem mem_answered {g : Flight} (hl : w.inFlight = l₁ ++ f :: l₂)
    (hg : g ∈ (w.answered l₁ f l₂ r app).pending) :
    g = { f with response := some r } ∨ g ∈ w.pending := by
  rw [pending_answered] at hg
  rw [pending_eq hl]
  rcases List.mem_append.mp hg with hg | hg
  · exact Or.inr (List.mem_append_left _ hg)
  · rcases List.mem_cons.mp hg with hg | hg
    · exact Or.inl hg
    · exact Or.inr (List.mem_append_right _ (List.mem_cons_of_mem _ hg))

theorem mem_inFlight_answered {g : Flight} (hl : w.inFlight = l₁ ++ f :: l₂)
    (hg : g ∈ (w.answered l₁ f l₂ r app).inFlight) :
    g = { f with response := some r } ∨ g ∈ w.inFlight := by
  rw [hl]
  rcases List.mem_append.mp hg with hg | hg
  · exact Or.inr (List.mem_append_left _ hg)
  · rcases List.mem_cons.mp hg with hg | hg
    · exact Or.inl hg
    · exact Or.inr (List.mem_append_right _ (List.mem_cons_of_mem _ hg))

theorem Resources.serve (h : Resources w) (hl : w.inFlight = l₁ ++ f :: l₂) :
    Resources (w.answered l₁ f l₂ r app) := by
  have hf : f ∈ w.inFlight := hl ▸ List.mem_append_right _ List.mem_cons_self
  have htags : (w.answered l₁ f l₂ r app).pending.map Flight.tag = w.pending.map Flight.tag := by
    rw [pending_answered, pending_eq hl]
    simp
  have hbufs : (w.answered l₁ f l₂ r app).pending.flatMap Flight.buffers
      = w.pending.flatMap Flight.buffers := by
    rw [pending_answered, pending_eq hl]
    simp [Flight.buffers]
  have hclients : (w.answered l₁ f l₂ r app).pending.map Flight.client
      = w.pending.map Flight.client := by
    rw [pending_answered, pending_eq hl]
    simp
  refine ⟨?_, ?_, fun g hg => ?_, ?_, fun g hg => ?_, fun g hg => ?_, h.idle⟩
  · rw [htags]
    exact h.tags
  · rw [hbufs]
    exact h.buffers
  · rcases mem_answered hl hg with rfl | hg
    · exact h.live f (mem_pending_of_inFlight hf)
    · exact h.live g hg
  · rw [hclients]
    exact h.clients
  · rcases mem_inFlight_answered hl hg with rfl | hg
    · exact h.tagged f hf
    · exact h.tagged g hg
  · rcases mem_inFlight_answered hl hg with rfl | hg
    · exact h.waiting f hf
    · exact h.waiting g hg

theorem mem_assignment {a : Assignment} (ha : a ∈ assignment f r) :
    ∃ nr id, r = .nodeid nr id ∧ a = ⟨f.client, f.reqNr, id⟩ := by
  cases r with
  | nodeid nr id => exact ⟨nr, id, rfl, List.mem_singleton.mp ha⟩
  | evictnode resp => exact absurd ha List.not_mem_nil

/-- The server counts an id for every one it assigns. -/
theorem assignment_cases
    (hr : w.app.receiveRequest f.reqType (w.reqMem f.reqMsgbuf) = some (r, app)) :
    (assignment f r = [⟨f.client, f.reqNr, w.app.currentId⟩]
        ∧ app.currentId = (w.app.currentId + 1) % 2 ^ 32)
      ∨ (assignment f r = [] ∧ app = w.app) := by
  obtain ⟨_, _, hid⟩ := receiveRequest_spec hr
  rcases hid with ⟨nr, rfl, rfl⟩ | ⟨hno, rfl⟩
  · exact Or.inl ⟨rfl, rfl⟩
  · cases r with
    | nodeid nr id => exact absurd rfl (hno nr id)
    | evictnode resp => exact Or.inr ⟨rfl, rfl⟩

theorem Exchange.serve (h : Exchange w) (hledger : Ledger w) (hl : w.inFlight = l₁ ++ f :: l₂)
    (hr : w.app.receiveRequest f.reqType (w.reqMem f.reqMsgbuf) = some (r, app)) :
    Exchange (w.answered l₁ f l₂ r app) := by
  have hf : f ∈ w.pending :=
    mem_pending_of_inFlight (hl ▸ List.mem_append_right _ List.mem_cons_self)
  obtain ⟨hnr, htype, hid⟩ := receiveRequest_spec hr
  refine ⟨fun g hg => ?_, fun g hg => ?_, fun g hg r' hr' => ?_, fun i t hi hblk => ?_,
    fun i t hi hblk => ?_⟩
  · rcases mem_answered hl hg with rfl | hg
    · exact h.request f hf
    · exact h.request g hg
  · rcases mem_answered hl hg with rfl | hg
    · exact h.blocked f hf
    · exact h.blocked g hg
  · rcases mem_answered hl hg with rfl | hg
    · injection hr' with hr'
      subst hr'
      -- the new response: an id in it is the one the application has just handed out
      refine ⟨hnr.trans (h.request f hf).1, htype, fun nr id hrid => ?_⟩
      rcases hid with ⟨nr', hrid', _⟩ | ⟨hnone, _⟩
      · rw [hrid] at hrid'
        injection hrid' with _ hcur
        refine ⟨?_, List.mem_append_right _ ?_⟩
        · rw [hcur, hledger.currentId]
          exact Nat.mod_lt _ (by decide)
        · rw [hrid]
          exact List.mem_singleton.mpr rfl
      · exact absurd hrid (hnone nr id)
    · obtain ⟨h₁, h₂, h₃⟩ := h.response g hg r' hr'
      exact ⟨h₁, h₂, fun nr id hrid => ⟨(h₃ nr id hrid).1, List.mem_append_left _ (h₃ nr id hrid).2⟩⟩
  · obtain ⟨g, hg, hgi⟩ := h.outstanding i t hi hblk
    rw [hl] at hg
    -- the request served stays in its place, with its response
    rcases List.mem_append.mp hg with hg | hg
    · exact ⟨g, List.mem_append_left _ hg, hgi⟩
    · rcases List.mem_cons.mp hg with rfl | hg
      · exact ⟨_, List.mem_append_right _ List.mem_cons_self, hgi⟩
      · exact ⟨g, List.mem_append_right _ (List.mem_cons_of_mem _ hg), hgi⟩
  · obtain ⟨hh, ha⟩ := h.answered i t hi hblk
    exact ⟨hh, fun ht => List.mem_append_left _ (ha ht)⟩

/-- The requests that are left are of other calls than the one that was answered. -/
theorem Resources.ne_answered (h : Resources w) (hl : w.inFlight = l₁ ++ f :: l₂) {g : Flight}
    (hg : g ∈ l₁ ++ (l₂ ++ w.preparing)) : g.client ≠ f.client := by
  have hclients := h.clients
  rw [pending_eq hl, List.map_append, List.map_cons] at hclients
  have hmid := (List.perm_middle.nodup_iff.mp hclients)
  intro heq
  refine (List.nodup_cons.mp hmid).1 ?_
  rw [← heq, ← List.map_append]
  exact List.mem_map_of_mem hg

theorem Ledger.serve (h : Ledger w) (hres : Resources w) (hex : Exchange w)
    (hl : w.inFlight = l₁ ++ f :: l₂) (hnone : f.response = none)
    (hr : w.app.receiveRequest f.reqType (w.reqMem f.reqMsgbuf) = some (r, app)) :
    Ledger (w.answered l₁ f l₂ r app) := by
  have hf : f ∈ w.pending :=
    mem_pending_of_inFlight (hl ▸ List.mem_append_right _ List.mem_cons_self)
  have hbound : ∀ a ∈ w.assigned ++ assignment f r, a.reqNr ≤ (w.clients a.client).lastReqId := by
    intro a ha
    rcases List.mem_append.mp ha with ha | ha
    · exact h.bound a ha
    · obtain ⟨_, _, _, rfl⟩ := mem_assignment ha
      exact le_of_eq (hex.blocked f hf).1.symm
  have hfresh : ∀ g ∈ (w.answered l₁ f l₂ r app).pending, g.response = none →
      ∀ a ∈ w.assigned ++ assignment f r, (a.client, a.reqNr) ≠ (g.client, g.reqNr) := by
    intro g hg hgr a ha
    have hg' : g ∈ l₁ ++ (l₂ ++ w.preparing) := by
      rw [pending_answered] at hg
      rcases List.mem_append.mp hg with hg | hg
      · exact List.mem_append_left _ hg
      · rcases List.mem_cons.mp hg with rfl | hg
        · cases hgr
        · exact List.mem_append_right _ hg
    rcases List.mem_append.mp ha with ha | ha
    · rcases mem_answered hl hg with rfl | hg
      · cases hgr
      · exact h.fresh g hg hgr a ha
    · obtain ⟨_, _, _, rfl⟩ := mem_assignment ha
      intro heq
      exact hres.ne_answered hl hg' (Prod.mk.inj heq).1.symm
  have honce : ((w.assigned ++ assignment f r).map (fun a => (a.client, a.reqNr))).Nodup := by
    rw [List.map_append]
    refine h.once.append ?_ (fun x hx hx' => ?_)
    · cases r with
      | nodeid nr id => exact List.nodup_singleton _
      | evictnode resp => exact List.nodup_nil
    · obtain ⟨a, ha, rfl⟩ := List.mem_map.mp hx
      obtain ⟨a', ha', heq⟩ := List.mem_map.mp hx'
      obtain ⟨_, _, _, rfl⟩ := mem_assignment ha'
      exact h.fresh f hf hnone a ha heq.symm
  have hreturned : ∀ x ∈ w.returned, (x.client, x.reqNr) ∈ w.handled ∧ (x.reqType = .getNodeId →
      ⟨x.client, x.reqNr, x.nodeIdx⟩ ∈ w.assigned ++ assignment f r) :=
    fun x hx => ⟨(h.returned x hx).1, fun ht => List.mem_append_left _ ((h.returned x hx).2 ht)⟩
  refine ⟨?_, fun k a hk => ?_, hbound, hfresh, honce, hreturned⟩
  · show app.currentId = (w.assigned ++ assignment f r).length % 2 ^ 32
    rcases assignment_cases hr with ⟨hnew, happ⟩ | ⟨hnew, happ⟩
    · rw [hnew, happ, h.currentId, List.length_append, List.length_singleton]
      omega
    · rw [hnew, happ, List.append_nil]
      exact h.currentId
  · have hk : (w.assigned ++ assignment f r)[k]? = some a := hk
    rcases assignment_cases hr with ⟨hnew, _⟩ | ⟨hnew, _⟩
    · rw [hnew] at hk
      by_cases hlt : k < w.assigned.length
      · rw [List.getElem?_append_left hlt] at hk
        exact h.id k a hk
      · -- the id that was assigned last
        rw [List.getElem?_append_right (by omega), List.getElem?_singleton] at hk
        split at hk
        · injection hk with hk
          rw [← hk]
          show w.app.currentId = k % 2 ^ 32
          rw [h.currentId]
          congr 1
          omega
        · cases hk
    · rw [hnew, List.append_nil] at hk
      exact h.id k a hk

theorem Matched.serve (h : Matched w) (hl : w.inFlight = l₁ ++ f :: l₂)
    (hnone : f.response = none)
    (hr : w.app.receiveRequest f.reqType (w.reqMem f.reqMsgbuf) = some (r, app)) :
    Matched (w.answered l₁ f l₂ r app) :=
  ⟨h.resources.serve hl, h.exchange.serve h.ledger hl hr,
    h.ledger.serve h.resources h.exchange hl hnone hr⟩

end Answered

/-! ## A response is handled -/

section Respond

variable {l₁ l₂ : List Flight} {f : Flight} {r : ResponseMsg}

theorem receiveResponse_lastReqId (c : StorageClient) (t : ReqType) (r : ResponseMsg) :
    (c.receiveResponse t r).lastReqId = c.lastReqId := by
  cases t <;> cases r
  · show (c.handleGetNodeIdReply _ _).lastReqId = _
    unfold StorageClient.handleGetNodeIdReply
    split <;> rfl
  · rfl
  · rfl
  · show (c.handleEvictNodeReply _).lastReqId = _
    unfold StorageClient.handleEvictNodeReply
    split <;> rfl

/-- The response to the call a client is in unblocks it, and gives it the id. -/
theorem receiveResponse_spec {c : StorageClient} (h : r.reqNr = c.lastReqId) :
    (c.receiveResponse r.reqType r).blocked = false
      ∧ ∀ nr id, r = .nodeid nr id → (c.receiveResponse r.reqType r).nodeIdx = id % 2 ^ 32 := by
  cases r with
  | nodeid nr id =>
      have hnr : ¬ nr ≠ c.lastReqId := not_not.mpr h
      have hc : c.receiveResponse (ResponseMsg.nodeid nr id).reqType (.nodeid nr id)
          = { c with nodeIdx := id % 2 ^ 32, blocked := false } := if_neg hnr
      rw [hc]
      refine ⟨rfl, fun nr' id' heq => ?_⟩
      injection heq with _ heq
      rw [heq]
  | evictnode resp =>
      have hnr : ¬ resp.reqNr ≠ c.lastReqId := not_not.mpr h
      have hc : c.receiveResponse (ResponseMsg.evictnode resp).reqType (.evictnode resp)
          = { c with evictNodeReply := resp.success, blocked := false } := if_neg hnr
      rw [hc]
      exact ⟨rfl, fun nr id heq => absurd heq (by simp)⟩

/-- What handling the response of `f` does, when the tag is still that of `f`. -/
theorem clients_respond (htag : w.ctx.tags f.tag = ⟨f.reqMsgbuf, f.respMsgbuf, f.reqType, f.client⟩) :
    (w.respond l₁ f l₂ r).clients = Function.update w.clients f.client
      ((w.clients f.client).receiveResponse f.reqType r)
      ∧ (w.respond l₁ f l₂ r).live = (w.live.erase f.reqMsgbuf).erase f.respMsgbuf := by
  unfold respond
  dsimp only
  rw [htag]
  dsimp only
  rw [Function.update_self]
  exact ⟨rfl, rfl⟩

theorem lastReqId_respond (i : Nat) :
    ((w.respond l₁ f l₂ r).clients i).lastReqId = (w.clients i).lastReqId := by
  show (Function.update w.clients _ _ i).lastReqId = _
  by_cases h : i = (w.ctx.tags f.tag).src
  · rw [h, Function.update_self]
    exact receiveResponse_lastReqId _ _ _
  · rw [Function.update_of_ne h]

/-- The request that is being prepared is not touched. -/
theorem pending_respond : (w.respond l₁ f l₂ r).pending = l₁ ++ (l₂ ++ w.preparing) := by
  have hprep : (w.respond l₁ f l₂ r).preparing = w.preparing := by
    unfold preparing
    show (match w.connecting with | none => [] | some (i, t) => [(w.respond l₁ f l₂ r).crtFlight i t]) = _
    cases w.connecting with
    | none => rfl
    | some it =>
        show [(w.respond l₁ f l₂ r).crtFlight it.1 it.2] = [w.crtFlight it.1 it.2]
        unfold crtFlight
        rw [lastReqId_respond]
        rfl
  rw [pending, hprep]
  exact List.append_assoc _ _ _

theorem mem_respond {g : Flight} (hl : w.inFlight = l₁ ++ f :: l₂)
    (hg : g ∈ (w.respond l₁ f l₂ r).pending) : g ∈ w.pending := by
  rw [pending_respond] at hg
  rw [pending_eq hl]
  rcases List.mem_append.mp hg with hg | hg
  · exact List.mem_append_left _ hg
  · exact List.mem_append_right _ (List.mem_cons_of_mem _ hg)

theorem mem_inFlight_respond {g : Flight} (hl : w.inFlight = l₁ ++ f :: l₂)
    (hg : g ∈ (w.respond l₁ f l₂ r).inFlight) : g ∈ w.inFlight := by
  rw [hl]
  rcases List.mem_append.mp hg with hg | hg
  · exact List.mem_append_left _ hg
  · exact List.mem_append_right _ (List.mem_cons_of_mem _ hg)

/-- The buffers of one request, and those of the others. -/
theorem Resources.buffers_split (h : Resources w) (hl : w.inFlight = l₁ ++ f :: l₂) :
    (f.buffers ++ (l₁ ++ (l₂ ++ w.preparing)).flatMap Flight.buffers).Nodup := by
  have hbufs := h.buffers
  rw [pending_eq hl] at hbufs
  have hperm : ((l₁ ++ f :: (l₂ ++ w.preparing)).flatMap Flight.buffers).Perm
      (f.buffers ++ (l₁ ++ (l₂ ++ w.preparing)).flatMap Flight.buffers) :=
    List.perm_middle.flatMap_right Flight.buffers
  exact hperm.nodup_iff.mp hbufs

/-- The buffers that are freed are those of no other request. -/
theorem Resources.ne_buffers (h : Resources w) (hl : w.inFlight = l₁ ++ f :: l₂) {g : Flight}
    (hg : g ∈ l₁ ++ (l₂ ++ w.preparing)) {b : Nat} (hb : b ∈ g.buffers) : b ∉ f.buffers := by
  intro hbf
  exact (List.nodup_append.mp (h.buffers_split hl)).2.2 b hbf b (List.mem_flatMap.mpr ⟨g, hg, hb⟩) rfl

theorem Resources.respond (h : Resources w) (hl : w.inFlight = l₁ ++ f :: l₂) :
    Resources (w.respond l₁ f l₂ r) := by
  have hf : f ∈ w.inFlight := hl ▸ List.mem_append_right _ List.mem_cons_self
  have hsub : (l₁ ++ (l₂ ++ w.preparing)).Sublist w.pending := by
    rw [pending_eq hl]
    exact List.Sublist.append_left (List.sublist_cons_self _ _) _
  refine ⟨?_, ?_, fun g hg b hb => ?_, ?_, fun g hg => ?_, fun g hg => ?_, h.idle⟩
  · rw [pending_respond]
    refine MemPool.Owns.free ?_
    have htags := h.tags
    rw [pending_eq hl, List.map_append, List.map_cons] at htags
    rw [List.map_append]
    exact htags.perm List.perm_middle
  · rw [pending_respond]
    exact (h.buffers_split hl).of_append_right
  · rw [(clients_respond (h.tagged f hf)).2]
    have hlive := h.live g (mem_respond hl hg) b hb
    have hne := h.ne_buffers hl (pending_respond ▸ hg) hb
    have hreq : b ≠ f.reqMsgbuf := fun heq => hne (heq ▸ List.mem_cons_self)
    have hresp : b ≠ f.respMsgbuf := fun heq => hne (heq ▸ List.mem_cons_of_mem _ List.mem_cons_self)
    exact (List.mem_erase_of_ne hresp).mpr ((List.mem_erase_of_ne hreq).mpr hlive)
  · rw [pending_respond]
    exact h.clients.sublist (hsub.map Flight.client)
  · exact h.tagged g (mem_inFlight_respond hl hg)
  · exact h.waiting g (mem_inFlight_respond hl hg)

theorem Exchange.respond (h : Exchange w) (hres : Resources w) (hl : w.inFlight = l₁ ++ f :: l₂)
    (hr : f.response = some r) : Exchange (w.respond l₁ f l₂ r) := by
  have hf : f ∈ w.inFlight := hl ▸ List.mem_append_right _ List.mem_cons_self
  have hfp := mem_pending_of_inFlight hf
  have hclients : (w.respond l₁ f l₂ r).clients = Function.update w.clients f.client
      ((w.clients f.client).receiveResponse f.reqType r) := (clients_respond (hres.tagged f hf)).1
  obtain ⟨hnr, htype, hid⟩ := h.response f hfp r hr
  -- the client of `f` is unblocked, the others stay as they are
  obtain ⟨hunblocked, hidx⟩ := receiveResponse_spec (hnr.trans (h.blocked f hfp).1.symm)
  rw [htype] at hunblocked hidx
  have hself : (w.respond l₁ f l₂ r).clients f.client
      = (w.clients f.client).receiveResponse f.reqType r := by
    rw [hclients, Function.update_self]
  have hother : ∀ i, i ≠ f.client → (w.respond l₁ f l₂ r).clients i = w.clients i := by
    intro i hi
    rw [hclients, Function.update_of_ne hi]
  refine ⟨fun g hg => ?_, fun g hg => ?_, fun g hg => ?_, fun i t hi hblk => ?_,
    fun i t hi hblk => ?_⟩
  · exact h.request g (mem_respond hl hg)
  · rw [hother _ (hres.ne_answered hl (pending_respond ▸ hg))]
    exact h.blocked g (mem_respond hl hg)
  · exact h.response g (mem_respond hl hg)
  · by_cases hif : i = f.client
    · rw [hif, hself, hunblocked] at hblk
      cases hblk
    · rw [hother i hif] at hblk
      obtain ⟨g, hg, hgi⟩ := h.outstanding i t hi hblk
      rw [hl] at hg
      rcases List.mem_append.mp hg with hg | hg
      · exact ⟨g, List.mem_append_left _ hg, hgi⟩
      · rcases List.mem_cons.mp hg with rfl | hg
        · exact absurd hgi.symm hif
        · exact ⟨g, List.mem_append_right _ hg, hgi⟩
  · by_cases hif : i = f.client
    · subst hif
      have hlast : ((w.respond l₁ f l₂ r).clients f.client).lastReqId = f.reqNr := by
        rw [lastReqId_respond]
        exact (h.blocked f hfp).1
      rw [hlast]
      refine ⟨List.mem_append_right _ (List.mem_singleton.mpr rfl), fun ht => ?_⟩
      -- it waits for an id, so the response is one that carries an id
      have htf : f.reqType = .getNodeId := by
        have hw := hres.waiting f hf
        have hi : w.stage f.client = .waiting t := hi
        rw [hi] at hw
        injection hw with hw
        exact hw.symm.trans ht
      cases r with
      | evictnode resp =>
          rw [htf] at htype
          cases htype
      | nodeid nr id =>
          obtain ⟨hlt, hmem⟩ := hid nr id rfl
          rw [hself, hidx nr id rfl, Nat.mod_eq_of_lt hlt]
          exact hmem
    · rw [hother i hif] at hblk ⊢
      obtain ⟨hh, ha⟩ := h.answered i t hi hblk
      exact ⟨List.mem_append_left _ hh, ha⟩

theorem Ledger.respond (h : Ledger w) (hl : w.inFlight = l₁ ++ f :: l₂) :
    Ledger (w.respond l₁ f l₂ r) := by
  refine ⟨h.currentId, h.id, fun a ha => ?_, fun g hg => h.fresh g (mem_respond hl hg), h.once,
    fun x hx => ?_⟩
  · rw [lastReqId_respond]
    exact h.bound a ha
  · exact ⟨List.mem_append_left _ (h.returned x hx).1, (h.returned x hx).2⟩

theorem Matched.respond (h : Matched w) (hl : w.inFlight = l₁ ++ f :: l₂)
    (hr : f.response = some r) : Matched (w.respond l₁ f l₂ r) :=
  ⟨h.resources.respond hl, h.exchange.respond h.resources hl hr, h.ledger.respond hl⟩

end Respond

/-! ## A call returns -/

theorem Matched.finish {i : Nat} {t : ReqType} (h : Matched w) (hi : w.stage i = .waiting t)
    (hblk : (w.clients i).blocked = false) : Matched (w.finish i t) := by
  have hne : ∀ f ∈ w.inFlight, f.client ≠ i := by
    rintro f hf rfl
    have := (h.exchange.blocked f (mem_pending_of_inFlight hf)).2
    rw [hblk] at this
    cases this
  have hstage : ∀ j t', (w.finish i t).stage j = .waiting t' → w.stage j = .waiting t' := by
    intro j t' hj
    have hj : Function.update w.stage i .idle j = .waiting t' := hj
    by_cases hji : j = i
    · rw [hji, Function.update_self] at hj
      cases hj
    · rwa [Function.update_of_ne hji] at hj
  refine ⟨⟨h.resources.tags, h.resources.buffers, h.resources.live, h.resources.clients,
    h.resources.tagged, fun f hf => ?_, fun j t' hj => ?_⟩, ⟨h.exchange.request, h.exchange.blocked,
    h.exchange.response, fun j t' hj => h.exchange.outstanding j t' (hstage j t' hj),
    fun j t' hj => h.exchange.answered j t' (hstage j t' hj)⟩, ⟨h.ledger.currentId, h.ledger.id,
    h.ledger.bound, h.ledger.fresh, h.ledger.once, fun x hx => ?_⟩⟩
  · show Function.update w.stage i .idle f.client = _
    rw [Function.update_of_ne (hne f hf)]
    exact h.resources.waiting f hf
  · show Function.update w.stage i .idle j = .idle
    by_cases hji : j = i
    · rw [hji, Function.update_self]
    · rw [Function.update_of_ne hji]
      exact h.resources.idle j t' hj
  · rcases List.mem_append.mp hx with hx | hx
    · exact h.ledger.returned x hx
    · rw [List.mem_singleton.mp hx]
      exact h.exchange.answered i t hi hblk

/-- **One step** of any fiber, of the event loop or of the server. -/
theorem Matched.step {w' : World} (h : Matched w) (hs : Step w w') : Matched w' := by
  cases hs with
  | call hc hi hb hb' hne =>
      unfold World.call
      split
      · exact (h.fillRequest hc hi hb hb' hne).enqueueRequest rfl
      · exact h.fillRequest hc hi hb hb' hne
  | connected hc => exact h.enqueueRequest hc
  | serve hl hnone hr => exact h.serve hl hnone hr
  | respond hl hr => exact h.respond hl hr
  | finish _ hi hblk => exact h.finish hi hblk

theorem matched_reachable (h : Reachable w) : Matched w := by
  induction h with
  | initial hi => exact matched_initial hi
  | step _ hs ih => exact ih.step hs

end World

/--
**Matching.** In every state of every run: a call that has returned was handled the
response to it, and a `GetNodeId` has returned the id that the server assigned to it; the
server has assigned at most one id to each request, equal ids only to requests whose
ordinals agree modulo 2^32; no two requests, in flight or being prepared, share a tag or a
message buffer; and a client that is blocked in its wait loop has its request in flight.
-/
theorem requests_matched (w : World) (h : World.Reachable w) :
    (∀ x ∈ w.returned, (x.client, x.reqNr) ∈ w.handled
        ∧ (x.reqType = .getNodeId → ⟨x.client, x.reqNr, x.nodeIdx⟩ ∈ w.assigned))
      ∧ (w.assigned.map (fun a => (a.client, a.reqNr))).Nodup
      ∧ (∀ k l a b, w.assigned[k]? = some a → w.assigned[l]? = some b → a.id = b.id →
        k % 2 ^ 32 = l % 2 ^ 32)
      ∧ (w.pending.map Flight.tag).Nodup
      ∧ (w.pending.flatMap Flight.buffers).Nodup
      ∧ ∀ i t, w.stage i = .waiting t → (w.clients i).blocked = true →
        ∃ f ∈ w.inFlight, f.client = i ∧ f.reqNr = (w.clients i).lastReqId := by
  have hm := World.matched_reachable h
  refine ⟨hm.ledger.returned, hm.ledger.once, fun k l a b hk hl hid => ?_,
    hm.resources.tags.held_nodup, hm.resources.buffers, fun i t hi hblk => ?_⟩
  · rw [← hm.ledger.id k a hk, ← hm.ledger.id l b hl, hid]
  · obtain ⟨f, hf, hfi⟩ := hm.exchange.outstanding i t hi hblk
    refine ⟨f, hf, hfi, ?_⟩
    rw [← hfi]
    exact (hm.exchange.blocked f (World.mem_pending_of_inFlight hf)).1.symm

/-- Two clients call `GetNodeId`. The server gets to the second request first, and the response
to the first request is handled first. -/
theorem requests_matched_two :
    ∃ w, World.Reachable w ∧ w.returned = [⟨0, 1, .getNodeId, 1⟩, ⟨1, 1, .getNodeId, 0⟩]
      ∧ ⟨0, 1, 1⟩ ∈ w.assigned ∧ ⟨1, 1, 0⟩ ∈ w.assigned := by
  let w₀ := World.twoCalls
  have h₀ : World.Reachable w₀ :=
    (World.Reachable.initial World.start_initial).run World.run_twoCalls
  let f : Flight := ⟨0, 10, 11, .getNodeId, none, 0, 1⟩
  let g : Flight := ⟨2, 12, 13, .getNodeId, none, 1, 1⟩
  have hl₀ : w₀.inFlight = [f] ++ g :: [] := rfl
  let g' := { g with response := some (.nodeid 1 0) }
  let w₁ := w₀.answered [f] g [] (.nodeid 1 0) ⟨1⟩
  have h₁ : World.Reachable w₁ := h₀.step (.serve hl₀ rfl rfl)
  have hl₁ : w₁.inFlight = [] ++ f :: [g'] := rfl
  let f' := { f with response := some (.nodeid 1 1) }
  let w₂ := w₁.answered [] f [g'] (.nodeid 1 1) ⟨2⟩
  have h₂ : World.Reachable w₂ := h₁.step (.serve hl₁ rfl rfl)
  have hl₂ : w₂.inFlight = [] ++ f' :: [g'] := rfl
  let w₃ := w₂.respond [] f' [g'] (.nodeid 1 1)
  have h₃ : World.Reachable w₃ := h₂.step (.respond hl₂ rfl)
  have hl₃ : w₃.inFlight = [] ++ g' :: [] := rfl
  let w₄ := w₃.respond [] g' [] (.nodeid 1 0)
  have h₄ : World.Reachable w₄ := h₃.step (.respond hl₃ rfl)
  have h₅ : World.Reachable (w₄.finish 0 .getNodeId) := h₄.step (.finish rfl rfl rfl)
  have h₆ : World.Reachable ((w₄.finish 0 .getNodeId).finish 1 .getNodeId) :=
    h₅.step (.finish rfl rfl rfl)
  have hm := (requests_matched _ h₆).1
  exact ⟨_, h₆, rfl, (hm ⟨0, 1, .getNodeId, 1⟩ List.mem_cons_self).2 rfl,
    (hm ⟨1, 1, .getNodeId, 0⟩ (List.mem_cons_of_mem _ List.mem_cons_self)).2 rfl⟩

end BeTree
