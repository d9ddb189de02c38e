import BeTree.Codec.FKey
import BeTree.Codec.NodeText

/-!
# Sending nodes to the server

`write_back` hands the text of a dirty node to `StorageClient::EvictNode`, which copies
it into a request with a buffer of 4096 characters. The request has no length, so the
server takes all of the buffer. What it takes begins with the text, and the copy stays
within the buffer, exactly when the text has no more than 4096 characters.
-/

namespace BeTree

open Formatted

/-- The length of the `buffer` of an `evictnode_request_t`. -/
def bufferLength : Nat := 4096

/-- `evictnode_request_t`. `buffer` is the memory from that field on, which is the last one. -/
structure EvictnodeRequest where
  reqNr : Nat
  nodeId : Nat
  buffer : Nat → Char

/-- `evictnode_response_t`. -/
structure EvictnodeResponse where
  reqNr : Nat
  success : Bool
deriving DecidableEq, Repr

/-- `memcpy`, to the memory from `dst` on. -/
def memcpy (dst : Nat → Char) (src : List Char) : Nat → Char := fun i => src.getD i (dst i)

/-- The offsets that `memcpy` writes to. -/
def memcpyWrites (src : List Char) : List Nat := List.range src.length

/-- The request that `EvictNode` fills, in memory that held `old`. -/
def fillEvictNode (old : Nat → Char) (reqNr nodeId : Nat) (request : List Char) :
    EvictnodeRequest :=
  ⟨reqNr, nodeId, memcpy old request⟩

/-- `HandleEvictNode`: the string it makes of the buffer, and its response. -/
def handleEvictNode (req : EvictnodeRequest) : List Char × EvictnodeResponse :=
  ((List.range bufferLength).map req.buffer, ⟨req.reqNr, true⟩)

/-- The server's string begins with the text, and the copy stayed in the buffer. -/
def ReachesWhole (old : Nat → Char) (reqNr nodeId : Nat) (request : List Char) : Prop :=
  request <+: (handleEvictNode (fillEvictNode old reqNr nodeId request)).1
    ∧ ∀ i ∈ memcpyWrites request, i < bufferLength

theorem length_handleEvictNode (req : EvictnodeRequest) :
    (handleEvictNode req).1.length = bufferLength := by
  simp [handleEvictNode]

/-- A text that fits is followed by what was in the rest of the buffer. -/
theorem handleEvictNode_fits {old : Nat → Char} {reqNr nodeId : Nat} {request : List Char}
    (h : request.length ≤ bufferLength) :
    (handleEvictNode (fillEvictNode old reqNr nodeId request)).1
      = request ++ (List.range' request.length (bufferLength - request.length)).map old := by
  apply List.ext_getElem
  · simp [handleEvictNode]
    omega
  · intro i h₁ h₂
    by_cases hi : i < request.length
    · rw [List.getElem_append_left hi]
      simp [handleEvictNode, fillEvictNode, memcpy, hi]
    · rw [List.getElem_append_right (by omega)]
      simp [handleEvictNode, fillEvictNode, memcpy, hi]
      congr 1
      omega

theorem reachesWhole_iff (old : Nat → Char) (reqNr nodeId : Nat) (request : List Char) :
    ReachesWhole old reqNr nodeId request ↔ request.length ≤ bufferLength := by
  constructor
  · rintro ⟨hpre, _⟩
    have hle := hpre.length_le
    rwa [length_handleEvictNode] at hle
  · intro h
    constructor
    · rw [handleEvictNode_fits h]
      exact List.prefix_append request _
    · intro i hi
      rw [memcpyWrites, List.mem_range] at hi
      exact Nat.lt_of_lt_of_le hi h

section Rebuild

variable {K V : Type}

/-- Every entry of a map has a text. -/
theorem length_le_mapText {α β : Type} (kw : α → List Char) (vw : β → List Char)
    (mp : List (α × β)) : mp.length ≤ (mapText kw vw mp).length := by
  have hentries : mp.length ≤ (mp.flatMap (entryText kw vw)).length := by
    induction mp with
    | nil => exact le_rfl
    | cons e mp ih =>
        rw [List.flatMap_cons, List.length_append, List.length_cons]
        have : 0 < (entryText kw vw e).length := by simp [entryText]
        omega
  unfold mapText
  simp only [List.length_append]
  omega

/-- A text that fits comes from a node with few entries. -/
theorem entries_le_text (kf : Format K) (vf : Format V) (n : NodeImage K V) :
    n.pivots.length ≤ (n.text kf vf).length ∧ n.elements.length ≤ (n.text kf vf).length := by
  have hp := length_le_mapText kf.serialize ChildInfo.text n.pivots
  have he := length_le_mapText (MessageKey.text kf) (Message.text vf) n.elements
  unfold NodeImage.text
  simp only [List.length_append]
  omega

/-- **The server's string rebuilds the node**, if its text fits and its types round-trip. -/
theorem deserialize_handleEvictNode [LinearOrder K] {live : Nat → Bool} {kf : Format K}
    {vf : Format V} {n : NodeImage K V} (h : n.Valid live) (hk : ∀ k, kf.RoundTrips k)
    (hv : ∀ v, vf.RoundTrips v) (hlen : (n.text kf vf).length ≤ bufferLength)
    (old : Nat → Char) (reqNr nodeId : Nat) :
    ∃ rest, NodeImage.deserialize live kf vf
      (handleEvictNode (fillEvictNode old reqNr nodeId (n.text kf vf))).1 = some (n, rest) := by
  obtain ⟨hp, he⟩ := entries_le_text kf vf n
  have hbound : bufferLength < 2 ^ 31 := by decide
  rw [handleEvictNode_fits hlen]
  exact ⟨_, (h.reads hk hv (by omega) (by omega)).run _⟩

end Rebuild

/--
**An evicted node reaches the server whole** exactly when its text fits into the
buffer of the request, whatever was in that memory before.
-/
theorem evictNode_reachesWhole_iff {K V : Type} (live : Nat → Bool) (kf : Format K) (vf : Format V)
    (n : NodeImage K V) (h : ∀ e ∈ n.pivots, 0 < e.2.child ∧ live e.2.child = true)
    (old : Nat → Char) (reqNr nodeId : Nat) :
    ∃ text, n.serialize live kf vf ⟨[], true⟩ = .ok (n.zeroed, ⟨text, n.pivots.isEmpty⟩)
      ∧ (ReachesWhole old reqNr nodeId text ↔ text.length ≤ bufferLength) := by
  refine ⟨n.text kf vf, ?_, reachesWhole_iff old reqNr nodeId _⟩
  rw [NodeImage.writes_node kf vf h, List.nil_append, Bool.true_and, Bool.not_not]

/-- A leaf with the one message that inserts `val` under the key `7`. -/
def oneMessage (val : FieldType.Val .string) : NodeImage FKey (FieldType.Val .string) :=
  ⟨[], [(⟨FKey.ofString ['7'], 1⟩, ⟨.insert, val⟩)]⟩

theorem evictNode_reachesWhole_short :
    ∃ text, (oneMessage ⟨['x'], by decide⟩).serialize (fun _ => false) FKey.format stringFormat
        ⟨[], true⟩ = .ok (oneMessage ⟨['x'], by decide⟩, ⟨text, true⟩)
      ∧ ReachesWhole (fun _ => ' ') 5 2 text := by
  obtain ⟨text, hser, hiff⟩ := evictNode_reachesWhole_iff (fun _ => false) FKey.format stringFormat
    (oneMessage ⟨['x'], by decide⟩) (fun e he => absurd he List.not_mem_nil) (fun _ => ' ') 5 2
  have htext : text = (oneMessage ⟨['x'], by decide⟩).text FKey.format stringFormat := by
    rw [NodeImage.writes_node FKey.format stringFormat (fun e he => absurd he List.not_mem_nil)] at hser
    injection hser with hser
    exact (congrArg (fun r => r.2.text) hser).symm
  refine ⟨text, hser, hiff.mpr ?_⟩
  rw [htext]
  decide +kernel

/-- A value of 5000 characters, as repeated updates make it, does not fit. -/
theorem evictNode_reachesWhole_fails :
    ∃ val text, (oneMessage val).serialize (fun _ => false) FKey.format stringFormat
        ⟨[], true⟩ = .ok (oneMessage val, ⟨text, true⟩)
      ∧ val.val.length = 5000
      ∧ ¬ text <+: (handleEvictNode (fillEvictNode (fun _ => ' ') 5 2 text)).1
      ∧ 4096 ∈ memcpyWrites text := by
  have hlen : ∀ val : FieldType.Val .string,
      val.val.length ≤ ((oneMessage val).text FKey.format stringFormat).length := by
    intro val
    simp [oneMessage, NodeImage.text, mapText, entryText, Message.text, stringFormat, serializeString]
    omega
  obtain ⟨val, hval⟩ : ∃ val : FieldType.Val .string, val.val.length = 5000 :=
    ⟨⟨List.replicate 5000 'x', by rw [List.length_replicate]; decide⟩, List.length_replicate⟩
  have hlong := hlen val
  refine ⟨val, (oneMessage val).text FKey.format stringFormat, ?_, hval, fun hpre => ?_, ?_⟩
  · exact NodeImage.writes_node FKey.format stringFormat (fun e he => absurd he List.not_mem_nil) _
  · have hle := hpre.length_le
    rw [length_handleEvictNode, bufferLength] at hle
    omega
  · rw [memcpyWrites, List.mem_range]
    omega

end BeTree
