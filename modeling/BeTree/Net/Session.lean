import BeTree.Lib.Checked
import BeTree.Net.Configuration
import Mathlib.Logic.Function.Basic

/-!
# Sessions

`SendRequestToServer` enqueues a request on the session that its receiver has to a server
core, and `GetSession` opens it when there is none yet. From the call to the enqueuing no
fiber yields, so the calls of all receivers happen one after the other.

The server is an index into the configuration. It is a `uint32_t` in `SendRequestToServer`
and a `uint8_t` in `GetSession`, so that a request to server 256 goes to server 0.
-/

namespace BeTree

open Checked

/-- `erpc::kBaseSmUdpPort`. -/
def baseSmUdpPort : Nat := 31850

/-- What `create_session` was called with, and the receiver it was called for. -/
structure Session where
  creator : Nat
  uri : List Char
  rpcId : UInt8
deriving DecidableEq, Repr

/-- The arguments of `SendRequestToServer`. `connects` tells whether eRPC would open a
session and connect it; an error code of `create_session` is used as an index. -/
structure SendCall where
  src : Nat
  reqType : UInt8
  serverIdx : UInt32
  dstRpcIdx : UInt8
  msgLen : Nat
  connects : Bool
deriving DecidableEq, Repr

/-- A call, and the session that its request was enqueued on. -/
structure Enqueued where
  call : SendCall
  sessionId : Nat
deriving DecidableEq, Repr

/-- The ways a call can end without enqueuing its request. -/
inductive SendFault where
  | assertion
  /-- `servers[idx]` behind the end of the vector. -/
  | noServer
  | noSession
deriving DecidableEq, Repr

/-- The sessions of a transport: `client.sessions`, and the `session_vec_` of its `Rpc`.
`enqueued` is a history that nothing reads. -/
structure Sessions where
  sessions : Nat → UInt8 × UInt8 → Option Nat
  opened : List Session
  enqueued : List Enqueued

namespace Sessions

def create : Sessions := ⟨fun _ _ => none, [], []⟩

/-- The URI of a core of a server. -/
def uriOf (address : ServerAddress) (dstRpcIdx : UInt8) : List Char :=
  address.host ++ ':' :: Nat.toDigits 10 (baseSmUdpPort + dstRpcIdx.toNat)

/-- `GetSession`. -/
def getSession (config : Configuration) (connects : Bool) (st : Sessions) (src : Nat)
    (serverIdx dstRpcIdx : UInt8) : Except SendFault (Nat × Sessions) :=
  let sessionKey := (serverIdx, dstRpcIdx)
  match st.sessions src sessionKey with
  | some sessionId => return (sessionId, st)
  | none => do
    let address ← need .noServer config.servers[serverIdx.toNat]?
    check connects .noSession
    let sessionId := st.opened.length
    return (sessionId, { st with
      opened := st.opened ++ [⟨src, uriOf address dstRpcIdx, dstRpcIdx⟩]
      sessions := Function.update st.sessions src
        (Function.update (st.sessions src) sessionKey (some sessionId)) })

/-- `SendRequestToServer`, up to where the receiver waits. The comparison is unsigned. -/
def sendRequestToServer (config : Configuration) (st : Sessions) (call : SendCall) :
    Except SendFault Sessions := do
  check (call.serverIdx.toNat < config.n % 2 ^ 32) .assertion
  let (sessionId, st) ← getSession config call.connects st call.src call.serverIdx.toUInt8
    call.dstRpcIdx
  return { st with enqueued := st.enqueued ++ [⟨call, sessionId⟩] }

/-- Calls one after the other. -/
def sendAll (config : Configuration) (calls : List SendCall) : Except SendFault Sessions :=
  calls.foldlM (sendRequestToServer config) create

/-! ## The cache -/

/-- Every cached session was opened for its receiver, to the server and core of its key,
and is cached under no other key. -/
structure Cached (config : Configuration) (st : Sessions) : Prop where
  opened : ∀ {src key sessionId}, st.sessions src key = some sessionId →
    ∃ address, config.servers[key.1.toNat]? = some address
      ∧ st.opened[sessionId]? = some ⟨src, uriOf address key.2, key.2⟩
  unique : ∀ {src key src' key' sessionId}, st.sessions src key = some sessionId →
    st.sessions src' key' = some sessionId → src = src' ∧ key = key'

/-- A cached session stays cached. -/
def Extends (st st' : Sessions) : Prop :=
  st'.enqueued = st.enqueued
    ∧ ∀ src key sessionId, st.sessions src key = some sessionId →
      st'.sessions src key = some sessionId

variable {config : Configuration} {st st' : Sessions} {src : Nat} {key : UInt8 × UInt8}
  {address : ServerAddress}

theorem update_apply (src' : Nat) (key' : UInt8 × UInt8) (sessionId : Nat) :
    Function.update st.sessions src (Function.update (st.sessions src) key (some sessionId)) src' key'
      = if src' = src ∧ key' = key then some sessionId else st.sessions src' key' := by
  by_cases hsrc : src' = src
  · subst hsrc
    rw [Function.update_self]
    by_cases hkey : key' = key
    · rw [hkey, Function.update_self, if_pos ⟨rfl, rfl⟩]
    · rw [Function.update_of_ne hkey, if_neg (fun h => hkey h.2)]
  · rw [Function.update_of_ne hsrc, if_neg (fun h => hsrc h.1)]

/-- The id of a cached session is that of an opened one. -/
theorem Cached.lt (h : Cached config st) {sessionId : Nat}
    (hs : st.sessions src key = some sessionId) : sessionId < st.opened.length := by
  obtain ⟨address, -, hopened⟩ := h.opened hs
  exact (List.getElem?_eq_some_iff.mp hopened).1

/-- A session is opened under the next id. -/
theorem Cached.open (h : Cached config st) (hserver : config.servers[key.1.toNat]? = some address) :
    Cached config { st with
      opened := st.opened ++ [⟨src, uriOf address key.2, key.2⟩]
      sessions := Function.update st.sessions src
        (Function.update (st.sessions src) key (some st.opened.length)) } := by
  constructor
  · intro src' key' sessionId hs
    dsimp only at hs ⊢
    rw [update_apply] at hs
    split at hs
    · rename_i heq
      obtain ⟨rfl, rfl⟩ := heq
      rw [← Option.some.inj hs]
      exact ⟨address, hserver, List.getElem?_concat_length⟩
    · obtain ⟨address', hserver', hopened⟩ := h.opened hs
      refine ⟨address', hserver', ?_⟩
      rw [List.getElem?_append_left (h.lt hs)]
      exact hopened
  · intro src₁ key₁ src₂ key₂ sessionId h₁ h₂
    dsimp only at h₁ h₂
    rw [update_apply] at h₁ h₂
    -- an id that is in use is not the next one
    split at h₁
    · rename_i heq₁
      split at h₂
      · rename_i heq₂
        exact ⟨heq₁.1.trans heq₂.1.symm, heq₁.2.trans heq₂.2.symm⟩
      · have hlt := h.lt h₂
        have hid := Option.some.inj h₁
        omega
    · split at h₂
      · have hlt := h.lt h₁
        have hid := Option.some.inj h₂
        omega
      · exact h.unique h₁ h₂

/-- `GetSession` gives the session that is then in the cache. -/
theorem yields_getSession {connects : Bool} {serverIdx dstRpcIdx : UInt8} (h : Cached config st) :
    Yields (getSession config connects st src serverIdx dstRpcIdx)
      (fun r => Cached config r.2 ∧ Extends st r.2
        ∧ r.2.sessions src (serverIdx, dstRpcIdx) = some r.1) := by
  unfold getSession
  dsimp only
  split
  · rename_i sessionId hs
    exact yields_pure ⟨h, ⟨rfl, fun _ _ _ hs' => hs'⟩, hs⟩
  · rename_i hs
    refine yields_need.bind (fun address hserver => yields_check.bind (fun _ _ => yields_pure ?_))
    refine ⟨h.open hserver, ⟨rfl, fun src' key' sessionId hs' => ?_⟩, ?_⟩
    · dsimp only
      rw [update_apply, if_neg]
      · exact hs'
      · rintro ⟨rfl, rfl⟩
        rw [hs] at hs'
        exact absurd hs' nofun
    · dsimp only
      rw [update_apply, if_pos ⟨rfl, rfl⟩]

/-! ## Whole runs -/

/-- The cache is right, and the requests went to the sessions it has for them. -/
structure Linked (config : Configuration) (st : Sessions) : Prop where
  cached : Cached config st
  enqueued : ∀ r ∈ st.enqueued,
    st.sessions r.call.src (r.call.serverIdx.toUInt8, r.call.dstRpcIdx) = some r.sessionId

/-- One call. -/
theorem yields_sendRequestToServer {call : SendCall} (h : Linked config st) :
    Yields (sendRequestToServer config st call) (fun st' => Linked config st'
      ∧ st'.enqueued.map Enqueued.call = st.enqueued.map Enqueued.call ++ [call]) := by
  refine yields_check.bind (fun _ _ => (yields_getSession h.cached).bind (fun r hr => ?_))
  obtain ⟨sessionId, st'⟩ := r
  obtain ⟨hcached, ⟨hlog, hkept⟩, hs⟩ := hr
  refine yields_pure ⟨⟨⟨hcached.opened, hcached.unique⟩, ?_⟩, ?_⟩
  · intro r hr
    dsimp only at hr
    rw [hlog] at hr
    rcases List.mem_append.mp hr with hr | hr
    · exact hkept _ _ _ (h.enqueued r hr)
    · rw [List.mem_singleton.mp hr]
      exact hs
  · dsimp only at hlog ⊢
    rw [hlog, List.map_append]
    rfl

/-- Calls one after the other, from any state. -/
theorem yields_sends {calls : List SendCall} (h : Linked config st) :
    Yields (calls.foldlM (sendRequestToServer config) st) (fun st' => Linked config st'
      ∧ st'.enqueued.map Enqueued.call = st.enqueued.map Enqueued.call ++ calls) := by
  induction calls generalizing st with
  | nil => exact yields_pure ⟨h, (List.append_nil _).symm⟩
  | cons call calls ih =>
      rw [List.foldlM_cons]
      refine (yields_sendRequestToServer h).bind (fun st' hst' => (ih hst'.1).imp (fun r hr => ?_))
      rw [hr.2, hst'.2, List.append_assoc]
      exact ⟨hr.1, rfl⟩

theorem linked_create : Linked config create :=
  ⟨⟨nofun, nofun⟩, fun _ hr => absurd hr List.not_mem_nil⟩

/-- Every request is on a session that its receiver opened, to the server and core that it
names, and no two requests with different ones share a session. -/
structure Addressed (config : Configuration) (st : Sessions) : Prop where
  opened : ∀ r ∈ st.enqueued, ∃ address, config.servers[r.call.serverIdx.toNat]? = some address
    ∧ st.opened[r.sessionId]? = some ⟨r.call.src, uriOf address r.call.dstRpcIdx, r.call.dstRpcIdx⟩
  unshared : ∀ r ∈ st.enqueued, ∀ s ∈ st.enqueued, r.sessionId = s.sessionId →
    r.call.src = s.call.src ∧ r.call.serverIdx = s.call.serverIdx
      ∧ r.call.dstRpcIdx = s.call.dstRpcIdx

theorem toNat_toUInt8 {serverIdx : UInt32} (h : serverIdx.toNat < 256) :
    serverIdx.toUInt8.toNat = serverIdx.toNat := by
  rw [UInt32.toNat_toUInt8]
  exact Nat.mod_eq_of_lt h

/-- An index of eight bits names the server it is passed for. -/
theorem Linked.addressed (h : Linked config st)
    (hidx : ∀ r ∈ st.enqueued, r.call.serverIdx.toNat < 256) : Addressed config st := by
  constructor
  · intro r hr
    obtain ⟨address, hserver, hopened⟩ := h.cached.opened (h.enqueued r hr)
    dsimp only at hserver
    rw [toNat_toUInt8 (hidx r hr)] at hserver
    exact ⟨address, hserver, hopened⟩
  · intro r hr s hs hid
    have hrs := h.enqueued r hr
    rw [hid] at hrs
    obtain ⟨hsrc, hkey⟩ := h.cached.unique hrs (h.enqueued s hs)
    rw [Prod.mk.injEq] at hkey
    refine ⟨hsrc, UInt32.toNat.inj ?_, hkey.2⟩
    rw [← toNat_toUInt8 (hidx r hr), ← toNat_toUInt8 (hidx s hs), hkey.1]

/-- A call whose server there is, and whose session can be opened. -/
def Valid (config : Configuration) (call : SendCall) : Prop :=
  call.serverIdx.toNat < config.servers.length ∧ call.connects = true

theorem ensures_sendRequestToServer {call : SendCall} (hn : config.n = config.servers.length)
    (hint : config.servers.length < 2 ^ 31) (hcall : Valid config call)
    (hidx : call.serverIdx.toNat < 256) :
    Ensures (sendRequestToServer config st call) (fun _ => True) := by
  obtain ⟨hserver, hconnects⟩ := hcall
  refine (ensures_check (S := fun _ => True) ?_ trivial).bind (fun _ _ => ?_)
  · rw [decide_eq_true_eq]
    omega
  · have hget : Ensures (getSession config call.connects st call.src call.serverIdx.toUInt8
        call.dstRpcIdx) (fun _ => True) := by
      unfold getSession
      dsimp only
      split
      · exact ensures_pure trivial
      · refine (ensures_need (Q := fun _ => True) (List.getElem?_eq_getElem ?_) trivial).bind (fun _ _ =>
          (ensures_check (S := fun _ => True) hconnects trivial).bind
            (fun _ _ => ensures_pure trivial))
        rw [toNat_toUInt8 hidx]
        exact hserver
    exact hget.bind (fun _ _ => ensures_pure trivial)

/--
**Requests go to the server they name**, in every run in which the indices are of eight
bits. Such a run does not stop as long as the servers are there and can be connected to.
-/
theorem requests_addressed (config : Configuration) (calls : List SendCall)
    (hidx : ∀ call ∈ calls, call.serverIdx.toNat < 256) :
    (∀ st, sendAll config calls = .ok st →
      Addressed config st ∧ st.enqueued.map Enqueued.call = calls)
    ∧ (config.n = config.servers.length → config.servers.length < 2 ^ 31 →
      (∀ call ∈ calls, Valid config call) → ∃ st, sendAll config calls = .ok st) := by
  constructor
  · intro st hrun
    obtain ⟨hlinked, hcalls⟩ := yields_sends linked_create st hrun
    rw [create, List.map_nil, List.nil_append] at hcalls
    refine ⟨hlinked.addressed (fun r hr => ?_), hcalls⟩
    exact hidx r.call (hcalls ▸ List.mem_map_of_mem hr)
  · intro hn hint hvalid
    have hrun := ensures_foldlM (f := sendRequestToServer config)
      (I := fun l _ => ∀ call ∈ l, Valid config call ∧ call.serverIdx.toNat < 256)
      (fun call l st h => by
        rw [List.forall_mem_cons] at h
        exact (ensures_sendRequestToServer hn hint h.1.1 h.1.2).imp (fun _ _ => h.2))
      calls (s := create) (fun call hc => ⟨hvalid call hc, hidx call hc⟩)
    obtain ⟨st, hst, -⟩ := hrun
    exact ⟨st, hst⟩

/-- 257 servers, the last one on another host. -/
def manyServers : Configuration :=
  ⟨257, List.replicate 256 ⟨"a".toList, "1".toList⟩ ++ [⟨"b".toList, "1".toList⟩]⟩

theorem manyServers_length : manyServers.servers.length = 257 := by
  unfold manyServers
  rw [List.length_append, List.length_replicate]
  rfl

/-- A request of one receiver to the first core of a server. -/
def sendTo (serverIdx : UInt32) : SendCall := ⟨1, 1, serverIdx, 0, 8, true⟩

theorem requests_addressed_two : ∃ st, sendAll manyServers [sendTo 0, sendTo 1, sendTo 0] = .ok st
    ∧ Addressed manyServers st := by
  have hidx : ∀ call ∈ [sendTo 0, sendTo 1, sendTo 0], call.serverIdx.toNat < 256 := by decide
  obtain ⟨haddressed, hruns⟩ := requests_addressed manyServers _ hidx
  have hvalid : ∀ call ∈ [sendTo 0, sendTo 1, sendTo 0], Valid manyServers call := by
    unfold Valid
    rw [manyServers_length]
    decide
  obtain ⟨st, hst⟩ := hruns (by rw [manyServers_length]; rfl) (by rw [manyServers_length]; decide)
    hvalid
  exact ⟨st, hst, (haddressed st hst).1⟩

/-- The request to server 256 is enqueued on the session to server 0. -/
theorem session_shared : ∃ st, sendAll manyServers [sendTo 0, sendTo 256] = .ok st
    ∧ (∀ call ∈ [sendTo 0, sendTo 256], Valid manyServers call)
    ∧ st.enqueued = [⟨sendTo 0, 0⟩, ⟨sendTo 256, 0⟩] ∧ ¬ Addressed manyServers st := by
  refine ⟨_, rfl, ?_, rfl, fun h => ?_⟩
  · unfold Valid
    rw [manyServers_length]
    decide
  · have hsame := h.unshared ⟨sendTo 0, 0⟩ List.mem_cons_self ⟨sendTo 256, 0⟩
      (List.mem_cons_of_mem _ List.mem_cons_self) rfl
    exact absurd hsame.2.1 (by decide)

end Sessions

end BeTree
