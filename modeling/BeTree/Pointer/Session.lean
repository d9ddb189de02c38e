import BeTree.Pointer.Betree
import BeTree.Pointer.Tracks
import BeTree.Proof.Session

/-!
# A tree over the swap space

What a client sees of a tree over the swap space, whatever becomes of the cache meanwhile. An
event is an operation of the client, a look at one message, or a new size of the cache. All that
an iterator does is to look at one message after the other, so the iterators of a client may be
anywhere in the tree while it goes on. The answers are those of the reference map, no assert of
the swap space or of the backing store fails, and at the end the swap space holds the nodes of
the tree and nothing else.
-/

namespace BeTree

/-- What happens to a tree: an operation of a client, a look at a message, or another size of the
cache. -/
inductive Event (K V : Type) where
  | command (c : Cmd K V)
  /-- `root->get_next_message(mkey)`, which an iterator calls to read ahead. -/
  | getNextMessage (mkey : Option (MessageKey K))
  | setCacheSize (size : Nat)
deriving DecidableEq, Repr

/-- A cache has room for an object. -/
def Event.Valid {K V : Type} : Event K V → Prop
  | .command _ => True
  | .getNextMessage _ => True
  | .setCacheSize size => 0 < size

instance {K V : Type} : DecidablePred (Event.Valid : Event K V → Prop)
  | .command _ => inferInstanceAs (Decidable True)
  | .getNextMessage _ => inferInstanceAs (Decidable True)
  | .setCacheSize size => inferInstanceAs (Decidable (0 < size))

namespace Reference

variable {K V : Type} [LT K] [DecidableLT K] [Add V]

/-- The map after an event, and what is to be answered. -/
def serve (defaultValue : V) (m : List (K × V)) : Event K V → List (K × V) × Reply K V
  | .command c => exec defaultValue m c
  | .getNextMessage _ => (m, .done)
  | .setCacheSize _ => (m, .done)

/-- What is to be answered to a sequence of events. -/
def serveAll (defaultValue : V) : List (K × V) → List (Event K V) → List (Reply K V)
  | _, [] => []
  | m, e :: es => (serve defaultValue m e).2 :: serveAll defaultValue (serve defaultValue m e).1 es

/-- The map after a sequence of events. -/
def mapAfter (defaultValue : V) (m : List (K × V)) (es : List (Event K V)) : List (K × V) :=
  es.foldl (fun m e => (serve defaultValue m e).1) m

end Reference

namespace Pointer

variable {K V : Type} [LT K] [DecidableLT K] [BEq K] [Add V] [BEq V] [Inhabited K] [Inhabited V]
variable (bet : Params K V) (fuel : Nat)

/-- Perform one operation, look at a message, or change the size of the cache. -/
def serve (t : Tree) : Event K V → PProg K V (Tree × Reply K V)
  | .command c => exec bet fuel t c
  | .getNextMessage mkey => do
    let _ ← nextMessage fuel t mkey
    return (t, .done)
  | .setCacheSize size => do
    Prog.perform (HeapOp.setCacheSize size : HeapOp (NodeImage K V))
    return (t, .done)

/-- A sequence of events. -/
def serveAll : Tree → List (Event K V) → PProg K V (Tree × List (Reply K V))
  | t, [] => return (t, [])
  | t, e :: es => do
    let (t, r) ← serve bet fuel t e
    let (t, rs) ← serveAll t es
    return (t, r :: rs)

/-- A new tree, and what happens to it. -/
def session (es : List (Event K V)) : PProg K V (Tree × List (Reply K V)) := do
  let t ← create
  serveAll bet fuel t es

end Pointer

open Prog Shadow Node

variable {K V : Type} [LinearOrder K] {bet : Params K V}

/-! ## Every event -/

/-- The faults that the tree model has and the code has not. -/
def Fault.Artificial (e : Fault) : Prop := e = .keyTaken ∨ e = .fuel

theorem Fault.Stops.not_artificial {maxNodeSize : Nat} {e : Fault} (he : e.Stops maxNodeSize) :
    ¬ e.Artificial := by
  rintro (rfl | rfl) <;> rcases he with (he | he | ⟨_, _, he | he⟩) | ⟨_, _, he⟩ <;>
    exact absurd he (by simp)

section Serving

variable [Add V] {count : Nat} {m : List (K × V)} {p : Pointer.Tree} {g : Shadow (NodeImage K V)}

/-- The tree after `count` events, where `m` is the reference map after the same ones. -/
def Serving (bet : Params K V) (count : Nat) (m : List (K × V)) (p : Pointer.Tree)
    (g : Shadow (NodeImage K V)) : Prop :=
  ∃ t, Holds p t g ∧ Serves bet count m t

theorem Serving.later (h : Serving bet count m p g) : Serving bet (count + 1) m p g := by
  obtain ⟨t, hp, hserves⟩ := h
  exact ⟨t, hp, hserves.later⟩

variable (bet) in
theorem wp_create : (Pointer.create : Pointer.PProg K V Pointer.Tree).Wp rule
    (fun p g => Serving bet 0 [] p g) (Fault.Stops bet.maxNodeSize) Shadow.create := by
  refine (follows_createTree.wp (serves_create bet) (fun e he => he.not_artificial)).imp
    (fun p g h => ?_) (fun _ he => he)
  obtain ⟨t, hserves, hp⟩ := h
  exact ⟨t, hp, hserves⟩

variable [BEq V] [Inhabited K] [Inhabited V] {fuel : Nat}

/-- **Every event** is answered as by the reference map. -/
theorem Serving.wp (h : Serving bet count m p g) (hr : ∀ n, bet.reload n = some n)
    (hcount : count + 1 < uint64Max) (hfuel : count + 2 ≤ fuel)
    {e : Event K V} (he : e.Valid) :
    (Pointer.serve bet fuel p e).Wp rule
      (fun a g' => a.2 = (Reference.serve bet.defaultValue m e).2
        ∧ Serving bet (count + 1) (Reference.serve bet.defaultValue m e).1 a.1 g')
      (Fault.Stops bet.maxNodeSize) g := by
  cases e with
  | setCacheSize size =>
      refine ⟨he, fun _ g' hpost => ?_⟩
      have hpost : g' = g := hpost
      subst hpost
      exact ⟨rfl, h.later⟩
  | getNextMessage mkey =>
      obtain ⟨t, hp, hserves⟩ := h
      have hheight := hserves.grown.height
      have hbound : Fault.Artificial .fuel := Or.inr rfl
      have hlevels : t.root.height + 1 ≤ fuel := by omega
      refine ((follows_nextMessage hbound hlevels hp).wp (hserves.getNextMessage hr mkey)
        (fun e he => he.not_artificial)).bind (fun a g' ha => ?_)
      obtain ⟨_, _, _, hp'⟩ := ha
      exact ⟨rfl, t, hp', hserves.later⟩
  | command c =>
      obtain ⟨t, hp, hserves⟩ := h
      have hmessages := hserves.messages_le
      have hheight := hserves.grown.height
      have hkey : Fault.Artificial .keyTaken := Or.inl rfl
      have hbound : Fault.Artificial .fuel := Or.inr rfl
      have hfollows := follows_exec hkey hbound hr hserves.grown.splits hserves.grown.tree
        hserves.clock_le (by omega : t.root.height + 1 ≤ fuel) (by omega) c hp
      refine (hfollows.wp (hserves.exec hr hcount c) (fun e he => he.not_artificial)).imp
        (fun a g' ha => ?_) (fun _ he => he)
      obtain ⟨r, ⟨hserves', hreply⟩, ha, hp'⟩ := ha
      exact ⟨ha.trans hreply, r.1, hp', hserves'⟩

/-- A sequence of events. -/
theorem Serving.wp_all {es : List (Event K V)} (h : Serving bet count m p g)
    (hr : ∀ n, bet.reload n = some n) (hcount : count + es.length < uint64Max)
    (hfuel : count + es.length + 2 ≤ fuel) (hes : ∀ e ∈ es, e.Valid) :
    (Pointer.serveAll bet fuel p es).Wp rule
      (fun a g' => a.2 = Reference.serveAll bet.defaultValue m es
        ∧ Serving bet (count + es.length) (Reference.mapAfter bet.defaultValue m es) a.1 g')
      (Fault.Stops bet.maxNodeSize) g := by
  induction es generalizing count m p g with
  | nil => exact ⟨rfl, h⟩
  | cons e es ih =>
      rw [List.length_cons] at hcount hfuel ⊢
      refine (h.wp hr (by omega) (by omega) (hes e List.mem_cons_self)).bind (fun a g₁ ha => ?_)
      obtain ⟨p₁, r⟩ := a
      obtain ⟨hreply, h₁⟩ := ha
      refine (ih h₁ (by omega) (by omega) (fun x hx => hes x (List.mem_cons_of_mem _ hx))).bind
        (fun b g₂ hb => ?_)
      obtain ⟨p₂, rs⟩ := b
      obtain ⟨hreplies, h₂⟩ := hb
      rw [Nat.add_right_comm] at h₂
      exact ⟨congrArg₂ List.cons hreply hreplies, h₂⟩

variable (bet) in
/-- **A session**, as the rule has it. -/
theorem wp_session {es : List (Event K V)} (hr : ∀ n, bet.reload n = some n)
    (hlen : es.length < uint64Max) (hfuel : es.length + 2 ≤ fuel) (hes : ∀ e ∈ es, e.Valid) :
    (Pointer.session bet fuel es).Wp rule
      (fun a g' => a.2 = Reference.serveAll bet.defaultValue [] es
        ∧ Serving bet es.length (Reference.mapAfter bet.defaultValue [] es) a.1 g')
      (Fault.Stops bet.maxNodeSize) Shadow.create := by
  refine (wp_create bet).bind (fun p g hp => ?_)
  have hlen : 0 + es.length < uint64Max := by omega
  have hall := hp.wp_all hr hlen (by omega : 0 + es.length + 2 ≤ fuel) hes
  rw [Nat.zero_add] at hall
  exact hall

/-- The same, over a swap space whose counters have not wrapped around at the end. -/
theorem run_session {B : Type} (codec : Codec (NodeImage K V) B) (size : Nat)
    {es : List (Event K V)} (hr : ∀ n, bet.reload n = some n)
    (hlen : es.length < uint64Max) (hfuel : es.length + 2 ≤ fuel) (hes : ∀ e ∈ es, e.Valid)
    {res : Except Fault (Pointer.Tree × List (Reply K V))} {s : Pinning (NodeImage K V) B}
    (hrun : (Pointer.session bet fuel es).run (swapHandler codec (fun _ => .environment))
      (Pinning.create size) = (res, s)) (hrange : s.ss.InRange) :
    match res with
    | .ok r => ∃ g, (r.2 = Reference.serveAll bet.defaultValue [] es
        ∧ Serving bet es.length (Reference.mapAfter bet.defaultValue [] es) r.1 g) ∧ Tracks codec g s
    | .error e => e.Stops bet.maxNodeSize := by
  have hwp := run_of_wp (obeys_swapHandler codec (fun _ => Fault.environment))
    (wp_session bet hr hlen hfuel hes) (Tracks.create codec size) (by rw [hrun]; exact hrange)
  rw [hrun] at hwp
  cases res with
  | ok r => exact hwp
  | error e => exact hwp

end Serving

end BeTree
