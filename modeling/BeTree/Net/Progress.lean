import BeTree.Net.Matching

/-!
# Every call returns

A fiber in a call waits for its session, for the server, for the event loop that handles
the response, and for its turn. `remaining` counts these steps over all fibers. Every step
that is not a new call takes one from it, and as long as any is left some step can be taken.

`Accounted` is what that rests on: which buffers and tags are out, who has been answered and
has not returned yet, and which calls of a client have returned.
-/

namespace BeTree

/-- The steps until the call of a request has returned. -/
def Flight.left (f : Flight) : Nat := if f.response.isSome then 2 else 3

theorem Flight.left_pos (f : Flight) : 0 < f.left := by
  unfold Flight.left
  split <;> decide

namespace World

/-- The steps until every call has returned. -/
def remaining (w : World) : Nat :=
  4 * w.preparing.length + (w.inFlight.map Flight.left).sum + (w.handled.length - w.returned.length)

/-- A step in which no client makes a call. -/
def Settles (w w' : World) : Prop :=
  Step w w' ∧ ∀ i, (w'.clients i).lastReqId = (w.clients i).lastReqId

/-- `n` such steps. -/
inductive Settling : Nat → World → World → Prop where
  | refl {w : World} : Settling 0 w w
  | step {n : Nat} {w w' w'' : World} : Settles w w' → Settling n w' w'' → Settling (n + 1) w w''

/-- The client is in a call. -/
def inCall (w : World) (i : Nat) : Bool :=
  w.stage i ≠ .idle ∨ w.connecting.map Prod.fst = some i

/-- The numbers of the calls of a client that have returned. -/
def numbers (w : World) (i : Nat) : List Nat :=
  (w.returned.filter (fun x => x.client = i)).map Returned.reqNr

/-- Nothing is on its way: every call of every client has returned, in order, and the message
buffers and the tags are free again. -/
structure Quiet (w₀ w : World) : Prop where
  stage : ∀ i, w.stage i = .idle
  connecting : w.connecting = none
  inFlight : w.inFlight = []
  live : w.live.Perm w₀.live
  tags : w.ctx.reqTagPool.pool.Perm (List.range w.ctx.reqTagPool.created)
  numbers : ∀ i, w.numbers i = List.range' 1 (w.clients i).lastReqId

/-- The answered clients are those that wait and are not blocked. -/
structure Answered (w : World) (d : List Nat) : Prop where
  nodup : d.Nodup
  mem : ∀ i, i ∈ d ↔ (∃ t, w.stage i = .waiting t) ∧ (w.clients i).blocked = false
  handled : w.handled.length = w.returned.length + d.length

/-- What is out, in a run from `w₀`. -/
structure Accounted (w₀ w : World) : Prop where
  live : w.live.Perm (w.pending.flatMap Flight.buffers ++ w₀.live)
  tags : w.ctx.reqTagPool.Balanced w.pending.length
  created : ∀ n, (∀ i, 0 < (w.clients i).lastReqId → i < n) → w.ctx.reqTagPool.created ≤ 2 * n - 1
  answered : ∃ d, Answered w d
  numbers : ∀ i, w.numbers i ++ (if w.inCall i then [(w.clients i).lastReqId] else [])
    = List.range' 1 (w.clients i).lastReqId

variable {w₀ w : World}

theorem inCall_iff {i : Nat} : w.inCall i = true ↔
    w.stage i ≠ .idle ∨ w.connecting.map Prod.fst = some i := by
  unfold inCall
  exact decide_eq_true_iff

theorem accounted_initial (h : Initial w) : Accounted w w := by
  have hp : w.pending = [] := by rw [pending_of_none h.connecting, h.inFlight]
  refine ⟨?_, ?_, fun n _ => ?_, ⟨[], List.nodup_nil, fun i => ?_, ?_⟩, fun i => ?_⟩
  · rw [hp]
    exact List.Perm.refl _
  · rw [hp, h.pool]
    exact MemPool.balanced_init
  · rw [h.pool]
    exact Nat.zero_le _
  · simp [h.stage i]
  · rw [h.handled, h.returned]
    rfl
  · have hidle : ¬ w.inCall i = true := by simp [inCall_iff, h.stage i, h.connecting]
    rw [if_neg hidle, h.lastReqId i, numbers, h.returned]
    rfl

/-- The clients of the requests that are out have made a call. -/
theorem Accounted.lastReqId_pos (h : Accounted w₀ w) {i : Nat} (hi : w.inCall i = true) :
    0 < (w.clients i).lastReqId := by
  have hnum := congrArg List.length (h.numbers i)
  rw [if_pos hi, List.length_append, List.length_singleton, List.length_range'] at hnum
  omega

theorem Resources.inCall (h : Resources w) {f : Flight} (hf : f ∈ w.pending) :
    w.inCall f.client = true := by
  rw [inCall_iff]
  rcases List.mem_append.mp hf with hf | hf
  · left
    rw [h.waiting f hf]
    simp
  · right
    unfold preparing at hf
    split at hf
    · cases hf
    · rename_i hc
      rw [List.mem_singleton.mp hf, hc]
      rfl

/-! ## A call fills a request -/

section Fill

variable {i b b' : Nat} {rpc : Rpc} {old : Nat → Char}

/-- One more request than there are fits when every client below `n` has one. -/
theorem Accounted.pending_lt (h : Accounted w₀ w) (hres : Resources w) (hc : w.connecting = none)
    (hi : w.stage i = .idle) {n : Nat} (hin : i < n)
    (hn : ∀ j, 0 < (w.clients j).lastReqId → j < n) : w.pending.length < n := by
  have hnodup : (i :: w.pending.map Flight.client).Nodup := by
    refine List.nodup_cons.mpr ⟨fun hmem => ?_, hres.clients⟩
    obtain ⟨f, hf, hfi⟩ := List.mem_map.mp hmem
    exact hres.not_client hc hi hf hfi
  have hsub : i :: w.pending.map Flight.client ⊆ List.range n := by
    intro j hj
    rcases List.mem_cons.mp hj with rfl | hj
    · exact List.mem_range.mpr hin
    · obtain ⟨f, hf, rfl⟩ := List.mem_map.mp hj
      exact List.mem_range.mpr (hn _ (h.lastReqId_pos (hres.inCall hf)))
  have hlen := (hnodup.subperm hsub).length_le
  rw [List.length_cons, List.length_map, List.length_range] at hlen
  exact hlen

theorem lastReqId_fillRequest (i : Nat) (rpc : Rpc) (b b' : Nat) (old : Nat → Char) :
    ((w.fillRequest i rpc b b' old).clients i).lastReqId = (w.clients i).lastReqId + 1 := by
  show (Function.update w.clients i _ i).lastReqId = _
  rw [Function.update_self]

theorem Accounted.fillRequest (h : Accounted w₀ w) (hres : Resources w) (hc : w.connecting = none)
    (hi : w.stage i = .idle) : Accounted w₀ (w.fillRequest i rpc b b' old) := by
  have hpend := pending_fillRequest i b b' rpc old hc
  have hself := lastReqId_fillRequest (w := w) i rpc b b' old
  have hother : ∀ j, j ≠ i → (w.fillRequest i rpc b b' old).clients j = w.clients j :=
    fun j hj => Function.update_of_ne hj _ _
  obtain ⟨htags, hcreated⟩ := h.tags.alloc
  refine ⟨?_, ?_, fun n hn => ?_, ?_, fun j => ?_⟩
  · rw [hpend, List.flatMap_append]
    show (b :: b' :: w.live).Perm (w.pending.flatMap Flight.buffers ++ [b, b'] ++ w₀.live)
    rw [List.append_assoc]
    exact ((h.live.cons b').cons b).trans (List.perm_append_comm_assoc [b, b'] _ _)
  · rw [hpend, List.length_append]
    exact htags
  · have hin : i < n := hn i (by omega)
    have hn' : ∀ j, 0 < (w.clients j).lastReqId → j < n := by
      intro j hj
      by_cases hji : j = i
      · exact hji ▸ hin
      · refine hn j ?_
        rw [hother j hji]
        exact hj
    show w.ctx.reqTagPool.alloc.2.created ≤ 2 * n - 1
    rcases hcreated with hsame | hmore
    · rw [hsame]
      exact h.created n hn'
    · have hlt := h.pending_lt hres hc hi hin hn'
      omega
  · -- the client that makes the call was not waiting
    obtain ⟨d, hd⟩ := h.answered
    refine ⟨d, hd.nodup, fun j => ?_, hd.handled⟩
    rw [hd.mem j]
    show (∃ t, w.stage j = .waiting t) ∧ _ ↔ (∃ t, w.stage j = .waiting t) ∧ _
    by_cases hji : j = i
    · simp [hji, hi]
    · rw [hother j hji]
  · have hnum := h.numbers j
    show w.numbers j ++ _ = _
    by_cases hji : j = i
    · subst hji
      have hbefore : ¬ w.inCall j = true := by simp [inCall_iff, hi, hc]
      have hafter : (w.fillRequest j rpc b b' old).inCall j = true := inCall_iff.mpr (Or.inr rfl)
      rw [if_neg hbefore, List.append_nil] at hnum
      rw [if_pos hafter, hself, hnum, List.range'_1_concat, Nat.add_comm 1]
    · have hsame : (w.fillRequest i rpc b b' old).inCall j = w.inCall j := by
        have hne : ¬ i = j := fun h => hji h.symm
        simp [World.inCall, World.fillRequest, hc, hne]
      rw [hsame, hother j hji]
      exact hnum

end Fill

/-! ## The request is enqueued -/

section Enqueue

variable {i : Nat} {t : ReqType}

theorem Accounted.enqueueRequest (h : Accounted w₀ w) (hm : Matched w)
    (hc : w.connecting = some (i, t)) : Accounted w₀ (w.enqueueRequest i t) := by
  have hpend := pending_enqueueRequest hc
  have hidle := hm.resources.idle i t hc
  have hblocked : (w.clients i).blocked = true := (hm.exchange.blocked _ (crtFlight_mem hc)).2
  have hself : (w.enqueueRequest i t).stage i = .waiting t := Function.update_self _ _ _
  have hother : ∀ j, j ≠ i → (w.enqueueRequest i t).stage j = w.stage j :=
    fun j hj => Function.update_of_ne hj _ _
  refine ⟨?_, ?_, h.created, ?_, fun j => ?_⟩
  · rw [hpend]
    exact h.live
  · rw [hpend]
    exact h.tags
  · obtain ⟨d, hd⟩ := h.answered
    refine ⟨d, hd.nodup, fun j => ?_, hd.handled⟩
    rw [hd.mem j]
    show _ ↔ _ ∧ (w.clients j).blocked = false
    by_cases hji : j = i
    · simp [hji, hblocked]
    · rw [hother j hji]
  · have hsame : (w.enqueueRequest i t).inCall j = w.inCall j := by
      rw [Bool.eq_iff_iff, inCall_iff, inCall_iff, hc]
      by_cases hji : j = i
      · simp [hji, hself]
      · have hne : ¬ i = j := fun h => hji h.symm
        rw [hother j hji]
        simp [World.enqueueRequest, hne]
    rw [hsame]
    exact h.numbers j

end Enqueue

/-! ## The server answers -/

section Flights

variable {l₁ l₂ : List Flight} {f : Flight} {r : ResponseMsg} {app : StorageServerApp}

theorem Accounted.serve (h : Accounted w₀ w) (hl : w.inFlight = l₁ ++ f :: l₂) :
    Accounted w₀ (w.answered l₁ f l₂ r app) := by
  obtain ⟨d, hd⟩ := h.answered
  refine ⟨?_, ?_, h.created, ⟨d, hd.nodup, hd.mem, hd.handled⟩, h.numbers⟩
  · have hbufs : (w.answered l₁ f l₂ r app).pending.flatMap Flight.buffers
        = w.pending.flatMap Flight.buffers := by
      rw [pending_answered, pending_eq hl]
      simp [Flight.buffers]
    rw [hbufs]
    exact h.live
  · have hlen : (w.answered l₁ f l₂ r app).pending.length = w.pending.length := by
      rw [pending_answered, pending_eq hl]
      simp
    rw [hlen]
    exact h.tags

/-! ## A response is handled -/

theorem Accounted.respond (h : Accounted w₀ w) (hm : Matched w) (hl : w.inFlight = l₁ ++ f :: l₂)
    (hr : f.response = some r) : Accounted w₀ (w.respond l₁ f l₂ r) := by
  have hf : f ∈ w.inFlight := hl ▸ List.mem_append_right _ List.mem_cons_self
  have hfp := mem_pending_of_inFlight hf
  have hspec : (w.respond l₁ f l₂ r).clients = _ ∧ (w.respond l₁ f l₂ r).live = _ :=
    clients_respond (hm.resources.tagged f hf)
  obtain ⟨hclients, hlive⟩ := hspec
  have hblocked : (w.clients f.client).blocked = true := (hm.exchange.blocked f hfp).2
  refine ⟨?_, ?_, fun n hn => h.created n (fun i hi => hn i ?_), ?_, fun i => ?_⟩
  · have hperm : w.live.Perm (f.reqMsgbuf :: f.respMsgbuf
        :: ((l₁ ++ (l₂ ++ w.preparing)).flatMap Flight.buffers ++ w₀.live)) := by
      have hlive₀ := h.live
      rw [pending_eq hl] at hlive₀
      exact hlive₀.trans ((List.perm_middle.flatMap_right Flight.buffers).append_right w₀.live)
    rw [hlive, pending_respond]
    have herase := (hperm.erase f.reqMsgbuf).trans (by rw [List.erase_cons_head])
    exact (herase.erase f.respMsgbuf).trans (by rw [List.erase_cons_head])
  · have htags := h.tags
    have hlen : w.pending.length = (l₁ ++ (l₂ ++ w.preparing)).length + 1 := by
      rw [pending_eq hl]
      simp
      omega
    rw [hlen] at htags
    rw [pending_respond]
    exact htags.free f.tag
  · rw [lastReqId_respond]
    exact hi
  · -- the client of the request is answered now
    obtain ⟨d, hd⟩ := h.answered
    have hnot : f.client ∉ d := by
      intro hmem
      have hfalse := ((hd.mem f.client).mp hmem).2
      rw [hblocked] at hfalse
      cases hfalse
    obtain ⟨hnr, htype, _⟩ := hm.exchange.response f hfp r hr
    have hunblocked := (receiveResponse_spec (hnr.trans (hm.exchange.blocked f hfp).1.symm)).1
    rw [htype] at hunblocked
    refine ⟨f.client :: d, List.nodup_cons.mpr ⟨hnot, hd.nodup⟩, fun i => ?_, ?_⟩
    · rw [List.mem_cons, hd.mem i, hclients]
      show _ ↔ (∃ t, w.stage i = .waiting t) ∧ _
      by_cases hif : i = f.client
      · have hwaiting : ∃ t, w.stage i = .waiting t := ⟨f.reqType, hif ▸ hm.resources.waiting f hf⟩
        rw [hif, Function.update_self] at *
        exact ⟨fun _ => ⟨hwaiting, hunblocked⟩, fun _ => Or.inl rfl⟩
      · rw [Function.update_of_ne hif]
        exact ⟨fun h => h.resolve_left hif, Or.inr⟩
    · show (w.handled ++ [_]).length = w.returned.length + (d.length + 1)
      rw [List.length_append, hd.handled]
      rfl
  · rw [lastReqId_respond]
    exact h.numbers i

end Flights

/-! ## A call returns -/

theorem Accounted.finish {i : Nat} {t : ReqType} (h : Accounted w₀ w) (hc : w.connecting = none)
    (hi : w.stage i = .waiting t) (hblk : (w.clients i).blocked = false) :
    Accounted w₀ (w.finish i t) := by
  have hself : (w.finish i t).stage i = .idle := Function.update_self _ _ _
  have hother : ∀ j, j ≠ i → (w.finish i t).stage j = w.stage j :=
    fun j hj => Function.update_of_ne hj _ _
  refine ⟨h.live, h.tags, h.created, ?_, fun j => ?_⟩
  · obtain ⟨d, hd⟩ := h.answered
    have hmem : i ∈ d := (hd.mem i).mpr ⟨⟨t, hi⟩, hblk⟩
    refine ⟨d.erase i, hd.nodup.erase i, fun j => ?_, ?_⟩
    · rw [hd.nodup.mem_erase_iff, hd.mem j]
      show _ ↔ _ ∧ (w.clients j).blocked = false
      by_cases hji : j = i
      · simp [hji, hself]
      · rw [hother j hji]
        exact and_iff_right hji
    · have hpos := List.length_pos_of_mem hmem
      show w.handled.length = (w.returned ++ [_]).length + (d.erase i).length
      rw [List.length_append, List.length_erase_of_mem hmem, List.length_singleton, hd.handled]
      omega
  · have hnum := h.numbers j
    show (w.finish i t).numbers j ++ _ = List.range' 1 (w.clients j).lastReqId
    have hreturned : (w.finish i t).numbers j
        = w.numbers j ++ (if i = j then [(w.clients i).lastReqId] else []) := by
      show ((w.returned ++ [_]).filter _).map _ = _
      rw [List.filter_append, List.map_append]
      by_cases hij : i = j
      · simp [hij, World.numbers]
      · simp [hij, World.numbers]
    by_cases hji : j = i
    · subst hji
      have hbefore : w.inCall j = true := inCall_iff.mpr (Or.inl (by simp [hi]))
      have hafter : ¬ (w.finish j t).inCall j = true := by
        simp [inCall_iff, World.finish, hc]
      rw [if_pos hbefore] at hnum
      rw [if_neg hafter, List.append_nil, hreturned, if_pos rfl]
      exact hnum
    · have hsame : (w.finish i t).inCall j = w.inCall j := by
        rw [Bool.eq_iff_iff, inCall_iff, inCall_iff, hother j hji]
        rfl
      rw [hsame, hreturned, if_neg (fun h => hji h.symm), List.append_nil]
      exact hnum

theorem Accounted.step {w' : World} (h : Accounted w₀ w) (hm : Matched w) (hs : Step w w') :
    Accounted w₀ w' := by
  cases hs with
  | call hc hi hb hb' hne =>
      unfold World.call
      split
      · exact (h.fillRequest hm.resources hc hi).enqueueRequest (hm.fillRequest hc hi hb hb' hne) rfl
      · exact h.fillRequest hm.resources hc hi
  | connected hc => exact h.enqueueRequest hm hc
  | serve hl _ _ => exact h.serve hl
  | respond hl hr => exact h.respond hm hl hr
  | finish hc hi hblk => exact h.finish hc hi hblk

/-! ## Runs -/

/-- What holds in every state of a run from `w₀`. -/
theorem accounted_run (h₀ : Initial w₀) (hw : Relation.ReflTransGen Step w₀ w) :
    Matched w ∧ Accounted w₀ w := by
  induction hw with
  | refl => exact ⟨matched_initial h₀, accounted_initial h₀⟩
  | tail _ hs ih => exact ⟨ih.1.step hs, ih.2.step ih.1 hs⟩

theorem sum_left_middle (l₁ l₂ : List Flight) (f : Flight) :
    ((l₁ ++ f :: l₂).map Flight.left).sum = ((l₁ ++ l₂).map Flight.left).sum + f.left := by
  simp only [List.map_append, List.map_cons, List.sum_append, List.sum_cons]
  omega

/-- **A step that is not a call** is one of those that were left. -/
theorem Accounted.remaining_settles {w' : World} (h : Accounted w₀ w) (hs : Settles w w') :
    w.remaining = w'.remaining + 1 := by
  obtain ⟨hs, hlast⟩ := hs
  unfold remaining
  cases hs with
  | @call i b b' rpc old hc hi hb hb' hne =>
      have hsame := hlast i
      unfold World.call at hsame
      have hfill := lastReqId_fillRequest (w := w) i rpc b b' old
      split at hsame
      · have henqueue : (((w.fillRequest i rpc b b' old).enqueueRequest i rpc.reqType).clients i).lastReqId
            = ((w.fillRequest i rpc b b' old).clients i).lastReqId := rfl
        omega
      · omega
  | @connected i t hc =>
      have hbefore : w.preparing.length = 1 := by
        unfold preparing
        rw [hc]
        rfl
      show 4 * w.preparing.length + _ + (w.handled.length - w.returned.length)
        = 4 * 0 + ((w.inFlight ++ [w.crtFlight i t]).map Flight.left).sum
          + (w.handled.length - w.returned.length) + 1
      have hleft : (w.crtFlight i t).left = 3 := rfl
      rw [sum_left_middle, List.append_nil, hleft, hbefore]
      omega
  | @serve l₁ l₂ f r app hl hnone _ =>
      show 4 * w.preparing.length + _ + (w.handled.length - w.returned.length)
        = 4 * w.preparing.length + ((l₁ ++ { f with response := some r } :: l₂).map Flight.left).sum
          + (w.handled.length - w.returned.length) + 1
      have hbefore : f.left = 3 := by simp [Flight.left, hnone]
      have hafter : ({ f with response := some r } : Flight).left = 2 := rfl
      rw [hl, sum_left_middle, sum_left_middle, hbefore, hafter]
      omega
  | @respond l₁ l₂ f r hl hr =>
      obtain ⟨d, hd⟩ := h.answered
      have hhandled := hd.handled
      have hbefore : f.left = 2 := by simp [Flight.left, hr]
      have hprep : (w.respond l₁ f l₂ r).preparing.length = w.preparing.length := by
        have hpend : (w.respond l₁ f l₂ r).pending = l₁ ++ (l₂ ++ w.preparing) := pending_respond
        have hlen := congrArg List.length hpend
        have hfly : (w.respond l₁ f l₂ r).inFlight = l₁ ++ l₂ := rfl
        rw [pending, hfly] at hlen
        simp only [List.length_append] at hlen
        omega
      show _ = 4 * (w.respond l₁ f l₂ r).preparing.length + ((l₁ ++ l₂).map Flight.left).sum
          + ((w.handled ++ [_]).length - w.returned.length) + 1
      rw [hl, sum_left_middle, hbefore, hprep, List.length_append, List.length_singleton]
      omega
  | @finish i t hc hi hblk =>
      obtain ⟨d, hd⟩ := h.answered
      have hhandled := hd.handled
      have hpos := List.length_pos_of_mem ((hd.mem i).mpr ⟨⟨t, hi⟩, hblk⟩)
      show _ = 4 * w.preparing.length + (w.inFlight.map Flight.left).sum
          + (w.handled.length - (w.returned ++ [_]).length) + 1
      rw [List.length_append, List.length_singleton]
      omega

/-- The server can answer what a client has sent. -/
theorem Exchange.receiveRequest (h : Exchange w) {f : Flight} (hf : f ∈ w.pending) :
    ∃ r app, w.app.receiveRequest f.reqType (w.reqMem f.reqMsgbuf) = some (r, app) := by
  have htype := (h.request f hf).2
  rw [← htype]
  cases w.reqMem f.reqMsgbuf with
  | nodeid reqNr => exact ⟨_, _, rfl⟩
  | evictnode req => exact ⟨_, _, rfl⟩

/-- **No deadlock.** While a call has not returned, something can happen that is not a call. -/
theorem Accounted.exists_settles (h : Accounted w₀ w) (hm : Matched w) (hne : w.remaining ≠ 0) :
    ∃ w', Settles w w' := by
  cases hc : w.connecting with
  | some it => exact ⟨_, .connected hc, fun _ => rfl⟩
  | none =>
      cases hl : w.inFlight with
      | cons f l =>
          have hfirst : w.inFlight = [] ++ f :: l := hl
          cases hr : f.response with
          | some r => exact ⟨_, .respond hfirst hr, fun i => lastReqId_respond i⟩
          | none =>
              have hf : f ∈ w.pending := mem_pending_of_inFlight (hl ▸ List.mem_cons_self)
              obtain ⟨r, app, hserve⟩ := hm.exchange.receiveRequest hf
              exact ⟨_, .serve hfirst hr hserve, fun _ => rfl⟩
      | nil =>
          -- all that is left is an answered client that has not had its turn
          obtain ⟨d, hd⟩ := h.answered
          have hhandled := hd.handled
          have hprep : w.preparing = [] := by rw [preparing, hc]
          have hpos : 0 < d.length := by
            simp only [remaining, hprep, hl, List.length_nil, List.map_nil, List.sum_nil] at hne
            omega
          obtain ⟨i, hi⟩ := List.exists_mem_of_length_pos hpos
          obtain ⟨⟨t, hstage⟩, hblk⟩ := (hd.mem i).mp hi
          exact ⟨_, .finish hc hstage hblk, fun _ => rfl⟩

/-- When no step is left, every call has returned. -/
theorem Accounted.quiet (h : Accounted w₀ w) (hm : Matched w) (hz : w.remaining = 0) :
    Quiet w₀ w := by
  obtain ⟨d, hd⟩ := h.answered
  have hhandled := hd.handled
  unfold remaining at hz
  have hconnecting : w.connecting = none := by
    cases hc : w.connecting with
    | none => rfl
    | some it =>
        have hlen : w.preparing.length = 1 := by
          unfold preparing
          rw [hc]
          rfl
        omega
  have hflights : w.inFlight = [] := by
    cases hl : w.inFlight with
    | nil => rfl
    | cons f l =>
        have hpos := f.left_pos
        rw [hl, List.map_cons, List.sum_cons] at hz
        omega
  have hd0 : d = [] := List.length_eq_zero_iff.mp (by omega)
  have hstage : ∀ i, w.stage i = .idle := by
    intro i
    cases hi : w.stage i with
    | idle => rfl
    | waiting t =>
        -- it is blocked, so its request is in flight, or answered
        cases hblk : (w.clients i).blocked with
        | true =>
            obtain ⟨f, hf, _⟩ := hm.exchange.outstanding i t hi hblk
            rw [hflights] at hf
            cases hf
        | false =>
            have hmem := (hd.mem i).mpr ⟨⟨t, hi⟩, hblk⟩
            rw [hd0] at hmem
            cases hmem
  have hpending : w.pending = [] := by rw [pending_of_none hconnecting, hflights]
  refine ⟨hstage, hconnecting, hflights, ?_, ?_, fun i => ?_⟩
  · have hlive := h.live
    rwa [hpending] at hlive
  · have howns := hm.resources.tags
    have htags := h.tags.total
    rw [hpending] at howns htags
    exact howns.perm_range htags
  · have hnum := h.numbers i
    have hidle : ¬ w.inCall i = true := by simp [inCall_iff, hstage i, hconnecting]
    rwa [if_neg hidle, List.append_nil] at hnum

/-- The run goes on, with as many steps less. -/
theorem settling_remaining {n : Nat} {w' : World} (h : Accounted w₀ w) (hm : Matched w)
    (hs : Settling n w w') : w.remaining = w'.remaining + n ∧ Matched w' ∧ Accounted w₀ w' := by
  induction hs with
  | refl => exact ⟨rfl, hm, h⟩
  | step hs _ ih =>
      have hone := h.remaining_settles hs
      obtain ⟨hrest, hm', h'⟩ := ih (h.step hm hs.1) (hm.step hs.1)
      exact ⟨by omega, hm', h'⟩

end World

/--
**Every call returns.** From any state of any run: the steps of the fibers, the event loops and
the server that are not new calls come to an end after as many as `remaining` counts, four for
each call at most, in whatever order they are taken. Then all the calls of every client have
returned, each once and in order, and every message buffer and every tag is free again.
-/
theorem calls_return {w₀ w : World} (h₀ : w₀.Initial)
    (hw : Relation.ReflTransGen World.Step w₀ w) :
    (∀ n w', World.Settling n w w' → n ≤ w.remaining)
      ∧ ∀ n w', World.Settling n w w' → (∀ w'', ¬ World.Settles w' w'') →
        n = w.remaining ∧ World.Quiet w₀ w' := by
  obtain ⟨hm, hacc⟩ := World.accounted_run h₀ hw
  refine ⟨fun n w' hs => ?_, fun n w' hs hend => ?_⟩
  · obtain ⟨heq, _⟩ := World.settling_remaining hacc hm hs
    omega
  · obtain ⟨heq, hm', hacc'⟩ := World.settling_remaining hacc hm hs
    have hzero : w'.remaining = 0 := by
      by_contra hne
      obtain ⟨w'', hnext⟩ := hacc'.exists_settles hm' hne
      exact hend w'' hnext
    exact ⟨by omega, hacc'.quiet hm' hzero⟩

/-- A first call of `GetNodeId` takes four more steps. -/
theorem calls_return_getNodeId :
    ∃ w, Relation.ReflTransGen World.Step World.start w ∧ w.remaining = 4
      ∧ ∃ w', World.Settling 4 w w' ∧ World.Quiet World.start w' := by
  let w₁ := World.start.call 0 .getNodeId 10 11 (fun _ => ' ')
  have hcall : World.Step World.start w₁ :=
    .call rfl rfl List.not_mem_nil List.not_mem_nil (by decide)
  let f := w₁.crtFlight 0 .getNodeId
  let w₂ := w₁.enqueueRequest 0 .getNodeId
  have h₁ : World.Settles w₁ w₂ := ⟨.connected rfl, fun _ => rfl⟩
  have hl₂ : w₂.inFlight = [] ++ f :: [] := rfl
  let w₃ := w₂.answered [] f [] (.nodeid 1 0) ⟨1⟩
  have h₂ : World.Settles w₂ w₃ := ⟨.serve hl₂ rfl rfl, fun _ => rfl⟩
  let f' := { f with response := some (.nodeid 1 0) }
  have hl₃ : w₃.inFlight = [] ++ f' :: [] := rfl
  let w₄ := w₃.respond [] f' [] (.nodeid 1 0)
  have h₃ : World.Settles w₃ w₄ := ⟨.respond hl₃ rfl, fun i => World.lastReqId_respond i⟩
  have h₄ : World.Settles w₄ (w₄.finish 0 .getNodeId) := ⟨.finish rfl rfl rfl, fun _ => rfl⟩
  have hreturns := calls_return World.start_initial (Relation.ReflTransGen.single hcall)
  refine ⟨w₁, .single hcall, rfl, _, .step h₁ (.step h₂ (.step h₃ (.step h₄ .refl))), ?_⟩
  refine (hreturns.2 4 _ (.step h₁ (.step h₂ (.step h₃ (.step h₄ .refl)))) (fun w'' h₅ => ?_)).2
  have hlong := hreturns.1 5 w'' (.step h₁ (.step h₂ (.step h₃ (.step h₄ (.step h₅ .refl)))))
  exact absurd hlong (by decide)

/--
**Bounded resources.** If only the clients below `n` have made calls, at most `2 * n - 1` tags
have been created and at most `2 * n` message buffers are in use, however long the run is.
-/
theorem resources_bounded {w₀ w : World} (h₀ : w₀.Initial)
    (hw : Relation.ReflTransGen World.Step w₀ w) (n : Nat)
    (hn : ∀ i, 0 < (w.clients i).lastReqId → i < n) :
    w.ctx.reqTagPool.created ≤ 2 * n - 1 ∧ w.live.length ≤ w₀.live.length + 2 * n := by
  obtain ⟨hm, hacc⟩ := World.accounted_run h₀ hw
  refine ⟨hacc.created n hn, ?_⟩
  have hsub : w.pending.map Flight.client ⊆ List.range n := by
    intro j hj
    obtain ⟨f, hf, rfl⟩ := List.mem_map.mp hj
    exact List.mem_range.mpr (hn _ (hacc.lastReqId_pos (hm.resources.inCall hf)))
  have hlen := (hm.resources.clients.subperm hsub).length_le
  have hlive := hacc.live.length_eq
  have hbuffers : (w.pending.flatMap Flight.buffers).length = 2 * w.pending.length := by
    generalize w.pending = l
    induction l with
    | nil => rfl
    | cons f l ih =>
        rw [List.flatMap_cons, List.length_append, ih, List.length_cons]
        show 2 + 2 * l.length = _
        omega
  rw [List.length_map, List.length_range] at hlen
  rw [List.length_append, hbuffers] at hlive
  omega

/-- Two clients in their first calls: at most three tags and four buffers. -/
theorem resources_bounded_two :
    ∃ w, Relation.ReflTransGen World.Step World.start w ∧ (w.clients 0).lastReqId = 1
      ∧ (w.clients 1).lastReqId = 1 ∧ w.ctx.reqTagPool.created ≤ 2 * 2 - 1
      ∧ w.live.length ≤ 0 + 2 * 2 := by
  refine ⟨World.twoCalls, World.run_twoCalls, rfl, rfl, ?_⟩
  refine resources_bounded World.start_initial World.run_twoCalls 2 (fun i hi => ?_)
  by_contra hge
  have hsame : World.twoCalls.clients i = World.start.clients i :=
    (Function.update_of_ne (show i ≠ 1 by omega) _ _).trans
      (Function.update_of_ne (show i ≠ 0 by omega) _ _)
  rw [hsame] at hi
  exact Nat.lt_irrefl 0 hi

end BeTree
