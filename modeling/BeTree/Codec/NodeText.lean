import BeTree.Codec.Field
import BeTree.Swap.SwapSpace
import BeTree.Tree.Node

/-!
# The text of a node

`_serialize` and `_deserialize` of `betree::node`, with the codecs of maps, message
keys, messages and child pointers that they are made of. Writing a pointer zeroes it
and clears `is_leaf` in the context. `live` says which objects the swap space has.

Whatever the keys and values are, a node is read back as it was, and the newline its
text ends in is left in the stream. The number of entries of a map is read as an `int`,
so maps of 2^31 entries and more cannot be read back.
-/

namespace BeTree

open Formatted Checked

/-- A node as it is written: its children are ids. -/
structure NodeImage (K V : Type) where
  pivots : List (K × ChildInfo Nat)
  elements : MessageMap K V
deriving DecidableEq, Repr

/-! ## Writing -/

/-- The stream, and the `is_leaf` of the context. -/
structure Output where
  text : List Char
  isLeaf : Bool
deriving DecidableEq, Repr

/-- A computation that writes to the stream, or fails an assert. -/
abbrev Serializer (α : Type) : Type := StateT Output (Except SwapFault) α

/-- `fs << w`. -/
def emit (w : List Char) : Serializer Unit := modify (fun o => { o with text := o.text ++ w })

/-- `int opcode`, as the `#define`s have it. -/
def Opcode.toNat : Opcode → Nat
  | .insert => 0
  | .delete => 1
  | .update => 2

section Serialize

variable {K V : Type} (live : Nat → Bool) (kf : Format K) (vf : Format V)

/-- `MessageKey::_serialize`. -/
def serializeMessageKey (mkey : MessageKey K) : Serializer Unit := do
  emit (decimal mkey.timestamp ++ [' '])
  emit (kf.serialize mkey.key)

/-- `Message::_serialize`. -/
def serializeMessage (m : Message V) : Serializer (Message V) := do
  emit (decimal m.opcode.toNat ++ [' '])
  emit (vf.serialize m.val)
  return m

/-- `pointer::_serialize`, with what it leaves of the pointer. -/
def serializePointer (target : Nat) : Serializer Nat := do
  check (decide (0 < target)) SwapFault.nullPointer
  check (live target) SwapFault.missingObject
  emit (decimal target ++ [' '])
  modify (fun o => { o with isLeaf := false })
  return 0

/-- `child_info::_serialize`. -/
def serializeChild (c : ChildInfo Nat) : Serializer (ChildInfo Nat) := do
  let child ← serializePointer live c.child
  emit [' ']
  emit (decimal c.childSize ++ [' '])
  return { c with child := child }

/-- The body of the loop over a map. -/
def serializeEntry {α β : Type} (key : α → Serializer Unit) (value : β → Serializer β)
    (e : α × β) : Serializer (α × β) := do
  emit [' ', ' ']
  key e.1
  emit [' ', '-', '>', ' ']
  let v ← value e.2
  emit ['\n']
  return (e.1, v)

/-- The loop over a map. -/
def serializeEntries {α β : Type} (key : α → Serializer Unit) (value : β → Serializer β) :
    List (α × β) → Serializer (List (α × β))
  | [] => return []
  | e :: mp => do
    let e ← serializeEntry key value e
    let mp ← serializeEntries key value mp
    return e :: mp

/-- `serialize` of a `std::map`. -/
def serializeMap {α β : Type} (key : α → Serializer Unit) (value : β → Serializer β)
    (mp : List (α × β)) : Serializer (List (α × β)) := do
  emit (['m', 'a', 'p', ' '] ++ decimal mp.length ++ [' ', '\x7b', '\n'])
  let mp ← serializeEntries key value mp
  emit ['\x7d', '\n']
  return mp

/-- `node::_serialize`, with what it leaves of the node. -/
def NodeImage.serialize (n : NodeImage K V) : Serializer (NodeImage K V) := do
  emit ['p', 'i', 'v', 'o', 't', 's', ':', '\n']
  let pivots ← serializeMap (fun k => emit (kf.serialize k)) (serializeChild live) n.pivots
  emit ['e', 'l', 'e', 'm', 'e', 'n', 't', 's', ':', '\n']
  let elements ← serializeMap (serializeMessageKey kf) (serializeMessage vf) n.elements
  return ⟨pivots, elements⟩

end Serialize

/-! ## Reading -/

/-- `fs >> dummy`, where nothing asks whether the stream is still good. -/
def skipWord : Reader Unit := fun text =>
  some ((), (text.dropWhile isSpace).dropWhile (fun c => !isSpace c))

/-- The opcode of an `int`. Nothing else is ever written. -/
def Opcode.ofInt : Int → Option Opcode
  | 0 => some .insert
  | 1 => some .delete
  | 2 => some .update
  | _ => none

section Deserialize

variable {K V : Type} (live : Nat → Bool) (kf : Format K) (vf : Format V)

/-- `MessageKey::_deserialize`. -/
def deserializeMessageKey : Reader (MessageKey K) := do
  let timestamp ← unsigned (2 ^ 64)
  let key ← kf.deserialize
  return ⟨key, timestamp⟩

/-- `Message::_deserialize`. -/
def deserializeMessage : Reader (Message V) := do
  let z ← signed (2 ^ 31)
  let opcode ← (Opcode.ofInt z : Option Opcode)
  let val ← vf.deserialize
  return ⟨opcode, val⟩

/-- `pointer::_deserialize`. -/
def deserializePointer : Reader Nat := do
  let target ← unsigned (2 ^ 64)
  if live target then return target else failure

/-- `child_info::_deserialize`. -/
def deserializeChild : Reader (ChildInfo Nat) := do
  let child ← deserializePointer live
  let childSize ← unsigned (2 ^ 64)
  return ⟨child, childSize⟩

/-- The loop over the entries of a map, `mp[k] = v` for each. -/
def deserializeEntries {α β : Type} [LT α] [DecidableLT α] (key : Reader α) (value : Reader β) :
    Nat → List (α × β) → Reader (List (α × β))
  | 0, mp => return mp
  | n + 1, mp => do
    let k ← key
    let _ ← word
    let v ← value
    deserializeEntries key value n (OrdMap.assign mp k v)

/-- `deserialize` of a `std::map`. -/
def deserializeMap {α β : Type} [LT α] [DecidableLT α] (key : Reader α) (value : Reader β) :
    Reader (List (α × β)) := do
  let _ ← word
  let size ← signed (2 ^ 31)
  let _ ← word
  let mp ← deserializeEntries key value size.toNat []
  skipWord
  return mp

/-- `node::_deserialize`, into a new node. -/
def NodeImage.deserialize [LT K] [DecidableLT K] [BEq K] : Reader (NodeImage K V) := do
  let _ ← word
  let pivots ← deserializeMap kf.deserialize (deserializeChild live)
  let _ ← word
  let elements ← deserializeMap (deserializeMessageKey kf) (deserializeMessage vf)
  return ⟨pivots, elements⟩

end Deserialize

/-! ## What is written -/

/-- `m` writes `w` and returns `a`; `inner` says whether it clears `is_leaf`. -/
def Writes {α : Type} (m : Serializer α) (w : List Char) (inner : Bool) (a : α) : Prop :=
  ∀ o, m o = .ok (a, ⟨o.text ++ w, o.isLeaf && !inner⟩)

section Writes

variable {α β : Type} {m : Serializer α} {w w' : List Char} {i i' : Bool} {a : α} {b : β}

theorem writes_emit (w : List Char) : Writes (emit w) w false () := by
  intro o
  show Except.ok ((), _) = _
  rw [Bool.not_false, Bool.and_true]

theorem writes_pure (a : α) : Writes (pure a) [] false a := by
  intro o
  show Except.ok (a, o) = _
  rw [List.append_nil, Bool.not_false, Bool.and_true]

theorem Writes.bind {f : α → Serializer β} (h : Writes m w i a) (h' : Writes (f a) w' i' b) :
    Writes (m >>= f) (w ++ w') (i || i') b := by
  intro o
  show (m o).bind _ = _
  rw [h o]
  show f a _ = _
  rw [h', List.append_assoc, Bool.not_or, Bool.and_assoc]

theorem writes_emit_bind {f : Unit → Serializer β} (w : List Char) (h : Writes (f ()) w' i b) :
    Writes (emit w >>= f) (w ++ w') i b := (writes_emit w).bind h

theorem Writes.bind_quiet {f : α → Serializer β} (h : Writes m w i a)
    (h' : Writes (f a) w' false b) : Writes (m >>= f) (w ++ w') i b := by
  have hb := h.bind h'
  rwa [Bool.or_false] at hb

/-- A value computed from what was returned. -/
theorem Writes.bind_pure {g : α → β} (h : Writes m w i a) :
    Writes (m >>= fun x => pure (g x)) w i (g a) := by
  intro o
  show (m o).bind _ = _
  rw [h o]
  rfl

theorem writes_pointer {live : Nat → Bool} {target : Nat} (h : 0 < target) (hl : live target = true) :
    Writes (serializePointer live target) (decimal target ++ [' ']) true 0 := by
  intro o
  unfold serializePointer
  rw [decide_eq_true h, hl]
  show Except.ok (0, _) = _
  rw [Bool.not_true, Bool.and_false]

/-- The text of a child. -/
def ChildInfo.text (c : ChildInfo Nat) : List Char :=
  (decimal c.child ++ [' ']) ++ ([' '] ++ (decimal c.childSize ++ [' ']))

theorem writes_child {live : Nat → Bool} {c : ChildInfo Nat} (h : 0 < c.child)
    (hl : live c.child = true) : Writes (serializeChild live c) c.text true ⟨0, c.childSize⟩ :=
  (writes_pointer h hl).bind (writes_emit_bind [' '] (writes_emit _).bind_pure)

/-- The text of a message key. -/
def MessageKey.text {K : Type} (kf : Format K) (mkey : MessageKey K) : List Char :=
  (decimal mkey.timestamp ++ [' ']) ++ kf.serialize mkey.key

theorem writes_messageKey {K : Type} (kf : Format K) (mkey : MessageKey K) :
    Writes (serializeMessageKey kf mkey) (mkey.text kf) false () :=
  writes_emit_bind _ (writes_emit _)

/-- The text of a message. -/
def Message.text {V : Type} (vf : Format V) (m : Message V) : List Char :=
  (decimal m.opcode.toNat ++ [' ']) ++ vf.serialize m.val

theorem writes_message {V : Type} (vf : Format V) (m : Message V) :
    Writes (serializeMessage vf m) (m.text vf) false m :=
  writes_emit_bind _ (writes_emit _).bind_pure

end Writes

section MapText

variable {α β : Type} (kw : α → List Char) (vw : β → List Char)

/-- The text of an entry of a map. -/
def entryText (e : α × β) : List Char :=
  [' ', ' '] ++ (kw e.1 ++ ([' ', '-', '>', ' '] ++ (vw e.2 ++ ['\n'])))

/-- The text of a map. -/
def mapText (mp : List (α × β)) : List Char :=
  (['m', 'a', 'p', ' '] ++ decimal mp.length ++ [' ', '\x7b', '\n'])
    ++ (mp.flatMap (entryText kw vw) ++ ['\x7d', '\n'])

variable {kw vw} {key : α → Serializer Unit} {value : β → Serializer β} (zero : β → β) {inner : Bool}

theorem writes_entry {e : α × β} (hk : Writes (key e.1) (kw e.1) false ())
    (hv : Writes (value e.2) (vw e.2) inner (zero e.2)) :
    Writes (serializeEntry key value e) (entryText kw vw e) inner (e.1, zero e.2) := by
  refine writes_emit_bind _ ((hk.bind ?_ : Writes _ _ inner _))
  refine writes_emit_bind _ (hv.bind_quiet ?_)
  exact (writes_emit _).bind_pure

/-- The loop writes one entry after the other. -/
theorem writes_entries {mp : List (α × β)} (hk : ∀ e ∈ mp, Writes (key e.1) (kw e.1) false ())
    (hv : ∀ e ∈ mp, Writes (value e.2) (vw e.2) inner (zero e.2)) :
    Writes (serializeEntries key value mp) (mp.flatMap (entryText kw vw)) (!mp.isEmpty && inner)
      (mp.map (fun e => (e.1, zero e.2))) := by
  induction mp with
  | nil => exact writes_pure _
  | cons e mp ih =>
      have he := writes_entry zero (hk e List.mem_cons_self) (hv e List.mem_cons_self)
      have ih := ih (fun x hx => hk x (List.mem_cons_of_mem _ hx))
        (fun x hx => hv x (List.mem_cons_of_mem _ hx))
      have h := he.bind (f := fun e => serializeEntries key value mp >>= fun mp => pure (e :: mp))
        ih.bind_pure
      have hinner : (inner || (!mp.isEmpty && inner)) = inner := by
        cases inner <;> simp
      rw [hinner] at h
      exact h

theorem writes_map {mp : List (α × β)} (hk : ∀ e ∈ mp, Writes (key e.1) (kw e.1) false ())
    (hv : ∀ e ∈ mp, Writes (value e.2) (vw e.2) inner (zero e.2)) :
    Writes (serializeMap key value mp) (mapText kw vw mp) (!mp.isEmpty && inner)
      (mp.map (fun e => (e.1, zero e.2))) := by
  refine writes_emit_bind _ ((writes_entries zero hk hv).bind_quiet ?_)
  exact (writes_emit _).bind_pure

end MapText

/-! ## What is read -/

section Reads

variable {α β : Type}

theorem reads_skipWord {w : List Char} {c s : Char} (hc : isSpace c = false)
    (hw : w.all (fun d => !isSpace d) = true) (hs : isSpace s = true) :
    Reads skipWord (c :: w ++ [s]) () [s] := by
  refine ⟨blank_singleton hs, fun lead rest hlead => ?_⟩
  have h := (reads_word hc hw hs).2 lead rest hlead
  unfold word at h
  dsimp only at h
  split at h
  · rename_i hdrop
    injection h with h
    injection h with _ h
    unfold skipWord
    rw [hdrop, h]
  · cases h

theorem reads_messageKey {K : Type} {kf : Format K} {mkey : MessageKey K}
    (ht : mkey.timestamp < 2 ^ 64) (hk : kf.RoundTrips mkey.key) :
    ∃ t, Reads (deserializeMessageKey kf) (mkey.text kf) mkey t := by
  obtain ⟨t, hk⟩ := hk
  exact ⟨t, (reads_unsigned ht (by decide)).bind hk.bind_pure⟩

/-- A natural number read as an `int`. -/
theorem reads_int {n : Nat} (hn : n < 2 ^ 31) :
    Reads (signed (2 ^ 31)) (decimal n ++ [' ']) (n : Int) [' '] := by
  have hz : -((2 ^ 31 : Nat) : Int) ≤ (n : Int) ∧ (n : Int) < ((2 ^ 31 : Nat) : Int) := by omega
  have h := reads_signed hz (s := ' ') (by decide)
  have htext : decimalInt n = decimal n := by
    unfold decimalInt
    rw [if_neg (by omega), Int.natAbs_natCast]
  rwa [htext] at h

theorem reads_message {V : Type} {vf : Format V} {m : Message V} (hv : vf.RoundTrips m.val) :
    ∃ t, Reads (deserializeMessage vf) (m.text vf) m t := by
  obtain ⟨t, hv⟩ := hv
  have hop : m.opcode.toNat < 2 ^ 31 ∧ Opcode.ofInt m.opcode.toNat = some m.opcode := by
    cases m.opcode <;> decide
  refine ⟨t, (reads_int hop.1).bind ?_⟩
  rw [hop.2]
  exact hv.bind_pure

theorem reads_child {live : Nat → Bool} {c : ChildInfo Nat} (h : c.child < 2 ^ 64)
    (hl : live c.child = true) (hs : c.childSize < 2 ^ 64) :
    Reads (deserializeChild live) c.text c [' '] := by
  have hp : Reads (deserializePointer live) (decimal c.child ++ [' ']) c.child [' '] := by
    refine ⟨blank_singleton (by decide), fun lead rest hlead => ?_⟩
    have hu := (reads_unsigned h (s := ' ') (by decide)).2 lead rest hlead
    unfold deserializePointer
    show (unsigned _ _).bind _ = _
    rw [hu]
    show (if live c.child then _ else _ : Reader Nat) _ = _
    rw [if_pos hl]
    rfl
  exact hp.bind ((reads_unsigned hs (by decide)).lead (blank_singleton (by decide))).bind_pure

section Map

variable [LT α] [DecidableLT α] {key : Reader α} {value : Reader β} {kw : α → List Char}
  {vw : β → List Char}

/-- A map is read when its entries are. -/
theorem reads_map_of_entries {mp mp' : List (α × β)} (hlen : mp.length < 2 ^ 31)
    (hentries : Reads (deserializeEntries key value mp.length [] >>= fun mp =>
        skipWord >>= fun _ => pure mp) (mp.flatMap (entryText kw vw) ++ ['\x7d', '\n']) mp' ['\n']) :
    Reads (deserializeMap key value) (mapText kw vw mp) mp' ['\n'] := by
  have hmap : Reads word ['m', 'a', 'p', ' '] ['m', 'a', 'p'] [' '] :=
    reads_word (w := ['a', 'p']) (by decide) (by decide) (by decide)
  have hbrace : Reads word ['\x7b', '\n'] ['\x7b'] ['\n'] :=
    reads_word (w := []) (by decide) (by decide) (by decide)
  have htext : mapText kw vw mp = ['m', 'a', 'p', ' '] ++ ((decimal mp.length ++ [' '])
      ++ (['\x7b', '\n'] ++ (mp.flatMap (entryText kw vw) ++ ['\x7d', '\n']))) := by
    simp [mapText]
  rw [htext]
  exact hmap.bind ((reads_int hlen).bind (hbrace.bind hentries))

/-- The loop when no entries are left, and the word after it. -/
theorem reads_noEntries (mp : List (α × β)) :
    Reads (deserializeEntries key value 0 mp >>= fun mp => skipWord >>= fun _ => pure mp)
      ['\x7d', '\n'] mp ['\n'] := by
  have h : Reads skipWord ['\x7d', '\n'] () ['\n'] :=
    reads_skipWord (w := []) (by decide) (by decide) (by decide)
  exact h.bind_pure (g := fun _ => mp)

end Map

variable [LinearOrder α] {key : Reader α} {value : Reader β} {kw : α → List Char}
  {vw : β → List Char}

/-- The loop and the word after it. The entries that are left come after those read so far. -/
theorem reads_entries {es : List (α × β)} (mp : List (α × β)) (hs : OrdMap.Sorted (mp ++ es))
    (hk : ∀ e ∈ es, ∃ t, Reads key (kw e.1) e.1 t) (hv : ∀ e ∈ es, ∃ t, Reads value (vw e.2) e.2 t) :
    Reads (deserializeEntries key value es.length mp >>= fun mp => skipWord >>= fun _ => pure mp)
      (es.flatMap (entryText kw vw) ++ ['\x7d', '\n']) (mp ++ es) ['\n'] := by
  induction es generalizing mp with
  | nil =>
      rw [List.append_nil]
      exact reads_noEntries mp
  | cons e es ih =>
      obtain ⟨tk, hkey⟩ := hk e List.mem_cons_self
      obtain ⟨tv, hval⟩ := hv e List.mem_cons_self
      -- entries are written in order, so each one is assigned behind those read so far
      have hassign : OrdMap.assign mp e.1 e.2 = mp ++ [e] := by
        obtain ⟨hm, _, hlt⟩ := OrdMap.sorted_append.mp hs
        exact OrdMap.assign_append hm (fun x hx => hlt x hx e List.mem_cons_self)
      have ih := ih (mp ++ [e]) (by simpa using hs)
        (fun x hx => hk x (List.mem_cons_of_mem _ hx)) (fun x hx => hv x (List.mem_cons_of_mem _ hx))
      have harrow : Reads word ([' '] ++ ['-', '>', ' ']) ['-', '>'] [' '] :=
        (reads_word (w := ['>']) (by decide) (by decide) (by decide)).lead
          (blank_singleton (by decide))
      have hblank : Blank [' ', ' '] := (blank_singleton (by decide)).append (blank_singleton (by decide))
      have hnewline : Blank ['\n'] := blank_singleton (by decide)
      have hloop : (deserializeEntries key value (e :: es).length mp >>= fun mp =>
          skipWord >>= fun _ => pure mp)
          = key >>= fun k => word >>= fun _ => value >>= fun v =>
            deserializeEntries key value es.length (OrdMap.assign mp k v) >>= fun mp =>
              skipWord >>= fun _ => pure mp := by
        rw [List.length_cons, deserializeEntries]
        simp only [bind_assoc]
      have htext : (e :: es).flatMap (entryText kw vw) ++ ['\x7d', '\n']
          = ([' ', ' '] ++ kw e.1) ++ (([' '] ++ ['-', '>', ' ']) ++ ((vw e.2 ++ ['\n'])
            ++ (es.flatMap (entryText kw vw) ++ ['\x7d', '\n']))) := by
        simp [entryText]
      rw [hloop, htext]
      refine (hkey.lead hblank).bind (harrow.bind ((hval.trail hnewline).bind ?_))
      rw [hassign]
      simpa using ih

theorem reads_map {mp : List (α × β)} (hlen : mp.length < 2 ^ 31) (hs : OrdMap.Sorted mp)
    (hk : ∀ e ∈ mp, ∃ t, Reads key (kw e.1) e.1 t) (hv : ∀ e ∈ mp, ∃ t, Reads value (vw e.2) e.2 t) :
    Reads (deserializeMap key value) (mapText kw vw mp) mp ['\n'] :=
  reads_map_of_entries hlen (reads_entries [] hs hk hv)

/-- The number of entries does not fit into an `int`. -/
theorem fails_map {mp : List (α × β)} (hlen : 2 ^ 31 ≤ mp.length) (rest : List Char) :
    Fails (deserializeMap key value) (mapText kw vw mp ++ rest) := by
  have hmap : Reads word ['m', 'a', 'p', ' '] ['m', 'a', 'p'] [' '] :=
    reads_word (w := ['a', 'p']) (by decide) (by decide) (by decide)
  have htext : mapText kw vw mp ++ rest = ['m', 'a', 'p', ' '] ++ (decimal mp.length
      ++ ' ' :: (['\x7b', '\n'] ++ (mp.flatMap (entryText kw vw) ++ ['\x7d', '\n']) ++ rest)) := by
    simp [mapText]
  rw [htext]
  exact hmap.bind_fails (fails_signed _ hlen (by decide)).bind

end Reads

/-! ## The round trip -/

namespace NodeImage

variable {K V : Type}

/-- The text of a node. -/
def text (kf : Format K) (vf : Format V) (n : NodeImage K V) : List Char :=
  ['p', 'i', 'v', 'o', 't', 's', ':', '\n'] ++ (mapText kf.serialize ChildInfo.text n.pivots
    ++ (['e', 'l', 'e', 'm', 'e', 'n', 't', 's', ':', '\n']
      ++ mapText (MessageKey.text kf) (Message.text vf) n.elements))

/-- The node with its child pointers zeroed. -/
def zeroed (n : NodeImage K V) : NodeImage K V :=
  { n with pivots := n.pivots.map (fun e => (e.1, ⟨0, e.2.childSize⟩)) }

/-- `_serialize` writes the text of the node and zeroes its pointers. -/
theorem writes_node {live : Nat → Bool} {n : NodeImage K V} (kf : Format K) (vf : Format V)
    (h : ∀ e ∈ n.pivots, 0 < e.2.child ∧ live e.2.child = true) :
    Writes (n.serialize live kf vf) (n.text kf vf) (!n.pivots.isEmpty) n.zeroed := by
  have hpivots : Writes
      (serializeMap (fun k => emit (kf.serialize k)) (serializeChild live) n.pivots)
      (mapText kf.serialize ChildInfo.text n.pivots) (!n.pivots.isEmpty && true) n.zeroed.pivots :=
    writes_map (fun c => ⟨0, c.childSize⟩) (fun e _ => writes_emit (kf.serialize e.1))
      (fun e he => writes_child (h e he).1 (h e he).2)
  have helements : Writes (serializeMap (serializeMessageKey kf) (serializeMessage vf) n.elements)
      (mapText (MessageKey.text kf) (Message.text vf) n.elements) (!n.elements.isEmpty && false)
      (n.elements.map (fun e => (e.1, e.2))) :=
    writes_map id (fun e _ => writes_messageKey kf e.1) (fun e _ => writes_message vf e.2)
  rw [Bool.and_true] at hpivots
  rw [Bool.and_false] at helements
  have hid : n.elements.map (fun e => (e.1, e.2)) = n.elements := by simp
  rw [hid] at helements
  refine writes_emit_bind _ (hpivots.bind_quiet (writes_emit_bind _ ?_))
  exact helements.bind_pure

/-- A node as the tree can have it: two maps, `uint64_t` fields and pointers to live objects. -/
structure Valid [LinearOrder K] (live : Nat → Bool) (n : NodeImage K V) : Prop where
  pivots : OrdMap.Sorted n.pivots
  elements : OrdMap.Sorted n.elements
  child : ∀ e ∈ n.pivots, 0 < e.2.child ∧ e.2.child < 2 ^ 64 ∧ live e.2.child = true
  childSize : ∀ e ∈ n.pivots, e.2.childSize < 2 ^ 64
  timestamp : ∀ e ∈ n.elements, e.1.timestamp < 2 ^ 64

theorem Valid.linked [LinearOrder K] {live : Nat → Bool} {n : NodeImage K V} (h : n.Valid live) :
    ∀ e ∈ n.pivots, 0 < e.2.child ∧ live e.2.child = true :=
  fun e he => ⟨(h.child e he).1, (h.child e he).2.2⟩

variable [LinearOrder K] {live : Nat → Bool} {kf : Format K} {vf : Format V} {n : NodeImage K V}

theorem reads_pivotsWord : Reads word ['p', 'i', 'v', 'o', 't', 's', ':', '\n']
    ['p', 'i', 'v', 'o', 't', 's', ':'] ['\n'] :=
  reads_word (w := ['i', 'v', 'o', 't', 's', ':']) (by decide) (by decide) (by decide)

theorem reads_elementsWord : Reads word ['e', 'l', 'e', 'm', 'e', 'n', 't', 's', ':', '\n']
    ['e', 'l', 'e', 'm', 'e', 'n', 't', 's', ':'] ['\n'] :=
  reads_word (w := ['l', 'e', 'm', 'e', 'n', 't', 's', ':']) (by decide) (by decide) (by decide)

theorem Valid.reads_pivots (h : n.Valid live) (hk : ∀ k, kf.RoundTrips k)
    (hp : n.pivots.length < 2 ^ 31) :
    Reads (deserializeMap kf.deserialize (deserializeChild live))
      (mapText kf.serialize ChildInfo.text n.pivots) n.pivots ['\n'] :=
  reads_map hp h.pivots (fun e _ => hk e.1)
    (fun e he => ⟨_, reads_child (h.child e he).2.1 (h.child e he).2.2 (h.childSize e he)⟩)

/-- `_deserialize` reads it back. -/
theorem Valid.reads (h : n.Valid live) (hk : ∀ k, kf.RoundTrips k) (hv : ∀ v, vf.RoundTrips v)
    (hp : n.pivots.length < 2 ^ 31) (he : n.elements.length < 2 ^ 31) :
    Reads (NodeImage.deserialize live kf vf) (n.text kf vf) n ['\n'] := by
  have helements : Reads (deserializeMap (deserializeMessageKey kf) (deserializeMessage vf))
      (mapText (MessageKey.text kf) (Message.text vf) n.elements) n.elements ['\n'] :=
    reads_map he h.elements (fun e he => reads_messageKey (h.timestamp e he) (hk e.1.key))
      (fun e _ => reads_message (hv e.2.val))
  exact reads_pivotsWord.bind ((h.reads_pivots hk hp).bind (reads_elementsWord.bind helements.bind_pure))

/-- With too many messages the second map cannot be read. -/
theorem Valid.unreadable (h : n.Valid live) (hk : ∀ k, kf.RoundTrips k)
    (hp : n.pivots.length < 2 ^ 31) (he : 2 ^ 31 ≤ n.elements.length) (rest : List Char) :
    NodeImage.deserialize live kf vf (n.text kf vf ++ rest) = none := by
  have htext : n.text kf vf ++ rest = ['p', 'i', 'v', 'o', 't', 's', ':', '\n']
      ++ (mapText kf.serialize ChildInfo.text n.pivots
        ++ (['e', 'l', 'e', 'm', 'e', 'n', 't', 's', ':', '\n']
          ++ (mapText (MessageKey.text kf) (Message.text vf) n.elements ++ rest))) := by
    simp [text]
  have hfails : Fails (NodeImage.deserialize live kf vf) (n.text kf vf ++ rest) := by
    rw [htext]
    exact reads_pivotsWord.bind_fails ((h.reads_pivots hk hp).bind_fails
      (reads_elementsWord.bind_fails (fails_map he rest).bind))
  exact hfails [] blank_nil

/-- A leaf with the messages of one key at the times below `count`. -/
def ticks (count : Nat) : NodeImage (FieldType.Val .uint64) (FieldType.Val .uint64) :=
  ⟨[], (List.range count).map (fun t =>
    (⟨(0 : Fin (2 ^ 64)), t⟩, ⟨.insert, (0 : Fin (2 ^ 64))⟩))⟩

theorem ticks_valid (live : Nat → Bool) {count : Nat} (h : count ≤ 2 ^ 64) :
    (ticks count).Valid live where
  pivots := List.Pairwise.nil
  elements := by
    refine List.pairwise_map.mpr (List.pairwise_lt_range.imp ?_)
    intro a b hab
    exact MessageKey.lt_iff.mpr (Or.inr ⟨rfl, hab⟩)
  child := by
    intro e he
    exact absurd he List.not_mem_nil
  childSize := by
    intro e he
    exact absurd he List.not_mem_nil
  timestamp := by
    intro e he
    obtain ⟨t, ht, rfl⟩ := List.mem_map.mp he
    exact lt_of_lt_of_le (List.mem_range.mp ht) h

end NodeImage

open NodeImage

/--
**The round trip of nodes.** Whatever the keys and values are, `_deserialize` of what
`_serialize` wrote gives the node back, and leaves the newline at its end and what follows.
-/
theorem node_roundTrips (kt vt : FieldType) (live : Nat → Bool) (n : NodeImage kt.Val vt.Val)
    (h : n.Valid live) (hp : n.pivots.length < 2 ^ 31) (he : n.elements.length < 2 ^ 31) :
    ∃ text, n.serialize live kt.format vt.format ⟨[], true⟩
        = .ok (n.zeroed, ⟨text, n.pivots.isEmpty⟩)
      ∧ ∀ rest, NodeImage.deserialize live kt.format vt.format (text ++ rest)
        = some (n, '\n' :: rest) := by
  refine ⟨n.text kt.format vt.format, ?_, fun rest => ?_⟩
  · rw [writes_node _ _ h.linked, List.nil_append, Bool.true_and, Bool.not_not]
  · exact (h.reads kt.roundTrips vt.roundTrips hp he).run rest

theorem node_roundTrips_inner :
    let n : NodeImage (FieldType.Val .string) (FieldType.Val .int64) :=
      ⟨[(⟨['-', '>', '\n'], by decide⟩, ⟨2, 7⟩)],
        [(⟨⟨[], by decide⟩, 3⟩, ⟨.update, ⟨-5, by decide⟩⟩)]⟩
    ∃ text, n.serialize (fun id => id == 2) stringFormat int64Format ⟨[], true⟩
        = .ok (n.zeroed, ⟨text, false⟩)
      ∧ ∀ rest, NodeImage.deserialize (fun id => id == 2) stringFormat int64Format (text ++ rest)
        = some (n, '\n' :: rest) := by
  refine node_roundTrips .string .int64 (fun id => id == 2) _ ⟨?_, ?_, ?_, ?_, ?_⟩ (by decide) (by decide)
  · exact OrdMap.sorted_singleton _
  · exact OrdMap.sorted_singleton _
  · simp
  · simp
  · simp

/--
The newline at the end of an empty node is left in the stream, and a leaf of 2^31 messages
is not read back at all.
-/
theorem node_roundTrip_fails :
    (∃ text, (ticks 0).serialize (fun _ => false) uint64Format uint64Format ⟨[], true⟩
        = .ok (ticks 0, ⟨text, true⟩)
      ∧ NodeImage.deserialize (fun _ => false) uint64Format uint64Format text = some (ticks 0, ['\n']))
    ∧ (ticks (2 ^ 31)).Valid (fun _ => false)
    ∧ ∃ text, (ticks (2 ^ 31)).serialize (fun _ => false) uint64Format uint64Format ⟨[], true⟩
        = .ok (ticks (2 ^ 31), ⟨text, true⟩)
      ∧ ∀ rest, NodeImage.deserialize (K := FieldType.Val .uint64) (V := FieldType.Val .uint64)
        (fun _ => false) uint64Format uint64Format (text ++ rest) = none := by
  have hvalid : ∀ count ≤ 2 ^ 64, (ticks count).Valid (fun _ => false) :=
    fun _ => ticks_valid _
  have hwrites : ∀ count ≤ 2 ^ 64,
      (ticks count).serialize (fun _ => false) uint64Format uint64Format ⟨[], true⟩
        = .ok (ticks count, ⟨(ticks count).text uint64Format uint64Format, true⟩) :=
    fun count h => writes_node _ _ (hvalid count h).linked _
  have hkeys : ∀ k, uint64Format.RoundTrips k := FieldType.roundTrips .uint64
  have hlen : ∀ count, (ticks count).elements.length = count := by
    intro count
    simp [ticks]
  refine ⟨⟨_, hwrites 0 (by decide), ?_⟩, hvalid _ (by decide), _, hwrites _ (by decide), ?_⟩
  · rw [← List.append_nil ((ticks 0).text _ _)]
    exact ((hvalid 0 (by decide)).reads hkeys hkeys (by decide) (by decide)).run []
  · exact (hvalid _ (by decide)).unreadable hkeys (by show 0 < _; decide) (by rw [hlen])

/-! ## Nodes of the tree -/

namespace Node

variable {K V : Type} (kf : Format K) (vf : Format V)

/-- The node as it is written. -/
def image (n : Node K V) : NodeImage K V :=
  ⟨n.pivots.map (fun e => (e.1, ⟨e.2.child.id, e.2.childSize⟩)), n.elements⟩

/-- The text that `write_back` leaves on disk. -/
def written (n : Node K V) : List Char :=
  match n.image.serialize (fun _ => true) kf vf ⟨[], true⟩ with
  | .ok (_, out) => out.text
  | .error _ => []

/-- The children that the ids of a pivot map stand for. -/
def relink (n : Node K V) (pivots : List (K × ChildInfo Nat)) : PivotMap K V :=
  pivots.filterMap (fun e =>
    (n.pivots.find? (fun p => p.2.child.id == e.2.child)).map
      (fun p => (e.1, ⟨p.2.child, e.2.childSize⟩)))

/-- `load`: a new node, read from the text. An assert fails on a text that makes no sense. -/
def readBack [LT K] [DecidableLT K] [BEq K] (n : Node K V) : Option (Node K V) :=
  match NodeImage.deserialize (fun _ => true) kf vf (n.written kf vf) with
  | some (m, _) => some ⟨n.id, n.relink m.pivots, m.elements⟩
  | none => none

/-- A node without entries comes back as it was. -/
theorem readBack_empty [LT K] [DecidableLT K] [BEq K] {n : Node K V} (h : n.size = 0) :
    n.readBack kf vf = some n := by
  obtain ⟨id, pivots, elements⟩ := n
  have hps : pivots = [] := List.length_eq_zero_iff.mp (Nat.eq_zero_of_add_eq_zero_right h)
  have hes : elements = [] := List.length_eq_zero_iff.mp (Nat.eq_zero_of_add_eq_zero_left h)
  subst hps hes
  have hwrites : Writes ((⟨[], []⟩ : NodeImage K V).serialize (fun _ => true) kf vf) _ _ _ :=
    writes_node kf vf (fun e he => absurd he List.not_mem_nil)
  have hwritten : (⟨id, [], []⟩ : Node K V).written kf vf = NodeImage.text kf vf ⟨[], []⟩ := by
    unfold written
    rw [show (⟨id, [], []⟩ : Node K V).image = ⟨[], []⟩ from rfl, hwrites]
    rfl
  have hpivots : Reads (deserializeMap kf.deserialize (deserializeChild (fun _ => true)))
      (mapText kf.serialize ChildInfo.text []) [] ['\n'] :=
    reads_map_of_entries (Nat.two_pow_pos 31) (reads_noEntries [])
  have helements : Reads (deserializeMap (deserializeMessageKey kf) (deserializeMessage vf))
      (mapText (MessageKey.text kf) (Message.text vf) []) [] ['\n'] :=
    reads_map_of_entries (Nat.two_pow_pos 31) (reads_noEntries [])
  have hreads : Reads (NodeImage.deserialize (fun _ => true) kf vf) (NodeImage.text kf vf ⟨[], []⟩)
      (⟨[], []⟩ : NodeImage K V) ['\n'] :=
    reads_pivotsWord.bind (hpivots.bind (reads_elementsWord.bind helements.bind_pure))
  have hread := hreads.run []
  rw [List.append_nil] at hread
  unfold readBack
  rw [hwritten, hread]
  rfl

end Node

end BeTree
