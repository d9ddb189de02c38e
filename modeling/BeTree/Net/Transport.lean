import BeTree.Lib.MemPool
import BeTree.Net.EvictNode
import Mathlib.Logic.Function.Basic
import Mathlib.Logic.Relation

/-!
# Requests and responses

The fibers of one thread share a `FastTransport` and talk to one server. A call of a
`StorageClient` takes a request tag and two message buffers, fills the request, opens a
session if it has none, and enqueues the request; then its fiber runs the event loop and
yields to the others until a callback has unblocked it. The callback of any request may
be run by the event loop of any fiber, also by one that is opening a session.

Fibers are switched only where one yields, so between the filling and the enqueuing of a
request no other fiber makes a call: `connecting` is the fiber that is there. eRPC gives a
message buffer that is not in use, and delivers one response for each request, to the
continuation with the tag of that request, in any order. A request is read from its
buffer when it is delivered, and a response is written to the buffer that was enqueued.

A flight also records which call it is of. `assigned`, `handled` and `returned` are
histories that nothing reads.
-/

namespace BeTree

/-! ## Messages -/

/-- The request types. -/
inductive ReqType where
  | getNodeId
  | evictNode
deriving DecidableEq, Repr

/-- A call of a `StorageClient`. -/
inductive Rpc where
  | getNodeId
  | evictNode (nodeId : Nat) (request : List Char)

/-- The content of a request buffer: `nodeid_request_t` or `evictnode_request_t`. -/
inductive RequestMsg where
  | nodeid (reqNr : Nat)
  | evictnode (req : EvictnodeRequest)

/-- The content of a response buffer: `nodeid_response_t` or `evictnode_response_t`. -/
inductive ResponseMsg where
  | nodeid (reqNr id : Nat)
  | evictnode (resp : EvictnodeResponse)
deriving DecidableEq, Repr

def Rpc.reqType : Rpc → ReqType
  | .getNodeId => .getNodeId
  | .evictNode _ _ => .evictNode

/-- What a call writes into its request buffer, where `old` was before. -/
def Rpc.fill (rpc : Rpc) (reqId : Nat) (old : Nat → Char) : RequestMsg :=
  match rpc with
  | .getNodeId => .nodeid reqId
  | .evictNode nodeId request => .evictnode (fillEvictNode old reqId nodeId request)

namespace RequestMsg

def reqNr : RequestMsg → Nat
  | .nodeid reqNr => reqNr
  | .evictnode req => req.reqNr

def reqType : RequestMsg → ReqType
  | .nodeid _ => .getNodeId
  | .evictnode _ => .evictNode

end RequestMsg

namespace ResponseMsg

def reqNr : ResponseMsg → Nat
  | .nodeid reqNr _ => reqNr
  | .evictnode resp => resp.reqNr

def reqType : ResponseMsg → ReqType
  | .nodeid _ _ => .getNodeId
  | .evictnode _ => .evictNode

end ResponseMsg

/-! ## The client -/

/-- `StorageClient`. Of `nodeIdReply` only `nodeIdx` comes from the server. -/
structure StorageClient where
  lastReqId : Nat
  blocked : Bool
  nodeIdx : Nat
  evictNodeReply : Bool

namespace StorageClient

/-- `HandleGetNodeIdReply`. `nodeIdx` is a `uint32_t`. -/
def handleGetNodeIdReply (this : StorageClient) (reqNr id : Nat) : StorageClient :=
  if reqNr ≠ this.lastReqId then this
  else { this with nodeIdx := id % 2 ^ 32, blocked := false }

/-- `HandleEvictNodeReply`. -/
def handleEvictNodeReply (this : StorageClient) (resp : EvictnodeResponse) : StorageClient :=
  if resp.reqNr ≠ this.lastReqId then this
  else { this with evictNodeReply := resp.success, blocked := false }

/-- `ReceiveResponse`. A buffer that holds the other kind of response is not looked into. -/
def receiveResponse (this : StorageClient) : ReqType → ResponseMsg → StorageClient
  | .getNodeId, .nodeid reqNr id => this.handleGetNodeIdReply reqNr id
  | .evictNode, .evictnode resp => this.handleEvictNodeReply resp
  | _, _ => this

end StorageClient

/-! ## The server -/

/-- `StorageServerApp`. -/
structure StorageServerApp where
  currentId : Nat
deriving DecidableEq, Repr

/-- `StorageServerApp::GetNodeId`. `current_id` is a `uint32_t`. -/
def StorageServerApp.getNodeId (app : StorageServerApp) : Nat × StorageServerApp :=
  (app.currentId, ⟨(app.currentId + 1) % 2 ^ 32⟩)

/-- `StorageServer::ReceiveRequest`, for a buffer that holds a request of the given type. -/
def StorageServerApp.receiveRequest (app : StorageServerApp) :
    ReqType → RequestMsg → Option (ResponseMsg × StorageServerApp)
  | .getNodeId, .nodeid reqNr =>
    let (id, app) := app.getNodeId
    some (.nodeid reqNr id, app)
  | .evictNode, .evictnode req => some (.evictnode (handleEvictNode req).2, app)
  | _, _ => none

/-! ## The transport -/

/-- `req_tag_t`. Buffers and receivers are numbers. -/
structure ReqTag where
  reqMsgbuf : Nat
  respMsgbuf : Nat
  reqType : ReqType
  src : Nat
deriving DecidableEq, Repr

/-- The client part of `AppContext`. -/
structure AppContext where
  crtReqTag : Nat
  /-- The tags that the pool hands out. -/
  tags : Nat → ReqTag
  reqTagPool : MemPool
  /-- The receivers that have a session to the server. -/
  sessions : Nat → Bool

namespace AppContext

/-- `GetRequestBuf`, which gets the message buffers `b` and `b'` of eRPC. -/
def getRequestBuf (c : AppContext) (b b' : Nat) : AppContext :=
  let t := c.reqTagPool.alloc.1
  { c with
    crtReqTag := t
    tags := Function.update c.tags t { c.tags t with reqMsgbuf := b, respMsgbuf := b' }
    reqTagPool := c.reqTagPool.alloc.2 }

/-- `SendRequestToServer` from the session to the enqueuing. -/
def tagged (c : AppContext) (src : Nat) (reqType : ReqType) : AppContext :=
  { c with
    tags := Function.update c.tags c.crtReqTag
      { c.tags c.crtReqTag with src := src, reqType := reqType }
    sessions := Function.update c.sessions src true }

end AppContext

/-- A request that eRPC has been given, with the response once the server has made one. -/
structure Flight where
  tag : Nat
  reqMsgbuf : Nat
  respMsgbuf : Nat
  reqType : ReqType
  response : Option ResponseMsg
  /-- The client that made the call, and its number there. -/
  client : Nat
  reqNr : Nat

/-- Where the fiber of a client is: in the wait loop of a call, or not. -/
inductive Stage where
  | idle
  | waiting (reqType : ReqType)
deriving DecidableEq, Repr

/-- A node id that the server has assigned to a request. -/
structure Assignment where
  client : Nat
  reqNr : Nat
  id : Nat
deriving DecidableEq, Repr

/-- A call that has returned, with `nodeIdReply.nodeIdx`. -/
structure Returned where
  client : Nat
  reqNr : Nat
  reqType : ReqType
  nodeIdx : Nat
deriving DecidableEq, Repr

/-- The clients, the transport they share, and the server. -/
structure World where
  clients : Nat → StorageClient
  stage : Nat → Stage
  /-- The fiber that has filled a request and is opening a session for it. -/
  connecting : Option (Nat × ReqType)
  ctx : AppContext
  /-- The message buffers in use. -/
  live : List Nat
  reqMem : Nat → RequestMsg
  respMem : Nat → ResponseMsg
  inFlight : List Flight
  app : StorageServerApp
  assigned : List Assignment
  handled : List (Nat × Nat)
  returned : List Returned

namespace World

/-- `GetNodeId` and `EvictNode` up to `GetSession`. -/
def fillRequest (w : World) (i : Nat) (rpc : Rpc) (b b' : Nat) (old : Nat → Char) : World :=
  let reqId := (w.clients i).lastReqId + 1
  { w with
    clients := Function.update w.clients i { w.clients i with lastReqId := reqId, blocked := true }
    connecting := some (i, rpc.reqType)
    ctx := w.ctx.getRequestBuf b b'
    live := b :: b' :: w.live
    reqMem := Function.update w.reqMem b (rpc.fill reqId old) }

/-- The request under `crt_req_tag`, as client `i` enqueues it. -/
def crtFlight (w : World) (i : Nat) (reqType : ReqType) : Flight :=
  { tag := w.ctx.crtReqTag
    reqMsgbuf := (w.ctx.tags w.ctx.crtReqTag).reqMsgbuf
    respMsgbuf := (w.ctx.tags w.ctx.crtReqTag).respMsgbuf
    reqType := reqType
    response := none
    client := i
    reqNr := (w.clients i).lastReqId }

/-- `SendRequestToServer`, from the session to the wait loop. -/
def enqueueRequest (w : World) (i : Nat) (reqType : ReqType) : World :=
  { w with
    stage := Function.update w.stage i (.waiting reqType)
    connecting := none
    ctx := w.ctx.tagged i reqType
    inFlight := w.inFlight ++ [w.crtFlight i reqType] }

/-- A call of client `i` up to its wait loop, or up to the event loop of `GetSession`. -/
def call (w : World) (i : Nat) (rpc : Rpc) (b b' : Nat) (old : Nat → Char) : World :=
  if w.ctx.sessions i then (w.fillRequest i rpc b b' old).enqueueRequest i rpc.reqType
  else w.fillRequest i rpc b b' old

/-- The id that a response assigns. -/
def assignment (f : Flight) : ResponseMsg → List Assignment
  | .nodeid _ id => [⟨f.client, f.reqNr, id⟩]
  | .evictnode _ => []

/-- The server has answered the flight `f`. -/
def answered (w : World) (l₁ : List Flight) (f : Flight) (l₂ : List Flight) (r : ResponseMsg)
    (app : StorageServerApp) : World :=
  { w with
    inFlight := l₁ ++ { f with response := some r } :: l₂
    app := app
    assigned := w.assigned ++ assignment f r }

/-- The response `r` of the flight `f` arrives, and `fasttransport_response` is called with its tag. -/
def respond (w : World) (l₁ : List Flight) (f : Flight) (l₂ : List Flight) (r : ResponseMsg) :
    World :=
  let respMem := Function.update w.respMem f.respMsgbuf r
  let rt := w.ctx.tags f.tag
  { w with
    clients := Function.update w.clients rt.src
      ((w.clients rt.src).receiveResponse rt.reqType (respMem rt.respMsgbuf))
    ctx := { w.ctx with reqTagPool := w.ctx.reqTagPool.free f.tag }
    live := (w.live.erase rt.reqMsgbuf).erase rt.respMsgbuf
    respMem := respMem
    inFlight := l₁ ++ l₂
    handled := w.handled ++ [(f.client, f.reqNr)] }

/-- The wait loop of client `i` ends and its call returns. -/
def finish (w : World) (i : Nat) (reqType : ReqType) : World :=
  { w with
    stage := Function.update w.stage i .idle
    returned := w.returned ++ [⟨i, (w.clients i).lastReqId, reqType, (w.clients i).nodeIdx⟩] }

/-- The start: nothing has been called. Memory that is not initialized can hold anything. -/
structure Initial (w : World) : Prop where
  lastReqId : ∀ i, (w.clients i).lastReqId = 0
  stage : ∀ i, w.stage i = .idle
  connecting : w.connecting = none
  pool : w.ctx.reqTagPool = MemPool.init
  inFlight : w.inFlight = []
  app : w.app = ⟨0⟩
  assigned : w.assigned = []
  handled : w.handled = []
  returned : w.returned = []

/-- What can happen next. -/
inductive Step (w : World) : World → Prop where
  /-- A fiber makes a call. -/
  | call {i b b' : Nat} {rpc : Rpc} {old : Nat → Char} : w.connecting = none → w.stage i = .idle →
      b ∉ w.live → b' ∉ w.live → b ≠ b' → Step w (w.call i rpc b b' old)
  /-- The session of the fiber in `GetSession` is connected. -/
  | connected {i : Nat} {reqType : ReqType} : w.connecting = some (i, reqType) →
      Step w (w.enqueueRequest i reqType)
  /-- The server receives a request. -/
  | serve {l₁ l₂ : List Flight} {f : Flight} {r : ResponseMsg} {app : StorageServerApp} :
      w.inFlight = l₁ ++ f :: l₂ → f.response = none →
      w.app.receiveRequest f.reqType (w.reqMem f.reqMsgbuf) = some (r, app) →
      Step w (w.answered l₁ f l₂ r app)
  /-- Some fiber's event loop handles a response. -/
  | respond {l₁ l₂ : List Flight} {f : Flight} {r : ResponseMsg} :
      w.inFlight = l₁ ++ f :: l₂ → f.response = some r → Step w (w.respond l₁ f l₂ r)
  /-- A fiber is scheduled that is not blocked any more. -/
  | finish {i : Nat} {reqType : ReqType} : w.connecting = none → w.stage i = .waiting reqType →
      (w.clients i).blocked = false → Step w (w.finish i reqType)

/-- The states of all runs. -/
inductive Reachable : World → Prop where
  | initial {w : World} : Initial w → Reachable w
  | step {w w' : World} : Reachable w → Step w w' → Reachable w'

theorem Reachable.run {w w' : World} (h : Reachable w) (hs : Relation.ReflTransGen Step w w') :
    Reachable w' := by
  induction hs with
  | refl => exact h
  | tail _ hstep ih => exact ih.step hstep

/-- A world in which nothing has been called. -/
def start : World where
  clients _ := ⟨0, false, 0, false⟩
  stage _ := .idle
  connecting := none
  ctx := ⟨0, fun _ => ⟨0, 0, .getNodeId, 0⟩, MemPool.init, fun _ => false⟩
  live := []
  reqMem _ := .nodeid 0
  respMem _ := .nodeid 0 0
  inFlight := []
  app := ⟨0⟩
  assigned := []
  handled := []
  returned := []

theorem start_initial : Initial start :=
  ⟨fun _ => rfl, fun _ => rfl, rfl, rfl, rfl, rfl, rfl, rfl, rfl⟩

/-- Two clients are in their first call of `GetNodeId`, and nothing has been answered. -/
def twoCalls : World :=
  let w := (start.call 0 .getNodeId 10 11 (fun _ => ' ')).enqueueRequest 0 .getNodeId
  (w.call 1 .getNodeId 12 13 (fun _ => ' ')).enqueueRequest 1 .getNodeId

theorem run_twoCalls : Relation.ReflTransGen Step start twoCalls :=
  .tail (.tail (.tail (.single (.call rfl rfl List.not_mem_nil List.not_mem_nil (by decide)))
    (.connected rfl)) (.call rfl rfl (by decide) (by decide) (by decide))) (.connected rfl)

end World

end BeTree
