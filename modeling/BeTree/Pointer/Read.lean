import BeTree.Pointer.Flush
import BeTree.Proof.Query

/-!
# Reading, with pointers

`query` and `get_next_message` over the swap space give what they give on the tree, and leave
all objects as they are. Nothing is needed of the tree for that, but that its nodes are there.
-/

namespace BeTree

open Prog Shadow Node

variable {K V : Type} [LinearOrder K] {bet : Params K V} {out : Fault → Prop}
variable {own frame : Cells (NodeImage K V)} {base extra : Multiset Nat} {rest : List Pin}
variable {g : Shadow (NodeImage K V)} {n : Node K V} {dirty : Bool}

/-! ## The children -/

/-- What reads a node: the same answer, and nothing is changed. -/
def FollowsRead {γ : Type} (out : Fault → Prop) (read : Nat → Pointer.PProg K V γ)
    (read' : Node K V → BProg (Node K V × γ)) : Prop :=
  ∀ (n : Node K V) (frame : Cells (NodeImage K V)) (base : Multiset Nat) (dirty : Bool)
    (rest : List Pin) (g : Shadow (NodeImage K V)),
    Owned n.cells frame base 0 (⟨n.id, true, dirty⟩ :: rest) g →
    Follows rule out (fun a r g' => r = (n, a)
        ∧ Owned n.cells frame base 0 (⟨n.id, true, dirty⟩ :: rest) g')
      (read n.id) (read' n) g

section Child

variable {γ : Type} {read : Nat → Pointer.PProg K V γ} {read' : Node K V → BProg (Node K V × γ)}

omit [LinearOrder K] in
/-- A child is read through the pointer in the node. -/
theorem follows_readChild {e : K × ChildInfo (Node K V)} (hspec : FollowsRead out read read')
    (he : e ∈ n.pivots)
    (hown : Owned (e.2.child.cells + n.cell ::ₘ own) frame base extra (⟨n.id, true, dirty⟩ :: rest) g) :
    Follows rule out (fun a r g' => r = (e.2.child, a)
        ∧ Owned (e.2.child.cells + n.cell ::ₘ own) frame base extra (⟨n.id, true, dirty⟩ :: rest) g')
      (Pointer.deref false e.2.child.id (read e.2.child.id)) (e.2.child.deref bet false read') g := by
  have hknown : Known (n.cell ::ₘ own) frame base extra (⟨n.id, true, dirty⟩ :: rest) e.2.child.id :=
    known_child List.mem_cons_self (Multiset.mem_cons_self _ _) rfl he
  refine (follows_deref hown hknown (fun g' h' => hspec _ _ _ _ _ g' h')).imp (fun a r g' _ hr => ?_)
  exact ⟨hr.1, hr.2.congr rfl (Multiset.add_zero _).symm⟩

end Child

/-! ## `query` -/

section Query

variable [Add V] {k : K} {query : Nat → Pointer.PProg K V (Option V)}
variable {query' : Node K V → BProg (Node K V × Option V)}

theorem follows_applyUpdates {v : V} {es : MessageMap K V} :
    Follows rule out (fun a b g' => a = b ∧ g' = g)
      (applyUpdates k v es : Pointer.PProg K V V) (applyUpdates k v es : BProg V) g := by
  induction es generalizing v with
  | nil => exact follows_pure ⟨rfl, rfl⟩
  | cons e es ih =>
      refine follows_ite (fun _ => ?_) (fun _ => follows_pure ⟨rfl, rfl⟩)
      exact follows_require (fun _ => ih)

omit [Add V] in
theorem follows_queryChild (hspec : FollowsRead out query query')
    (hown : Owned n.cells frame base 0 (⟨n.id, true, dirty⟩ :: rest) g) :
    Follows rule out (fun a r g' => r = (n, a)
        ∧ Owned n.cells frame base 0 (⟨n.id, true, dirty⟩ :: rest) g')
      (Pointer.queryChild query n.shallow k) (n.queryChild bet query' k) g := by
  unfold Pointer.queryChild queryChild
  rw [shallow_pivots, getPivot_flat]
  rcases getPivot_cases n.pivots k with ⟨c, hc, hmap⟩ | hc | hc
  · rw [hc]
    have hmem : (c.key, c.val) ∈ n.pivots := hmap ▸ c.mem_toMap
    rw [cells_at hmap] at hown ⊢
    refine Follows.map_right (g := fun r => (n.setChild c r.1, r.2))
      ((follows_readChild hspec hmem hown).imp (fun a r g' _ hr => ?_))
    obtain ⟨rfl, h'⟩ := hr
    exact ⟨congrArg (Prod.mk · a) (setChild_same hmap), h'⟩
  · rw [hc]
    exact follows_stop _
  · rw [hc]
    exact follows_pure ⟨rfl, hown⟩

omit [Add V] in
theorem follows_queryLeaf (hown : Owned n.cells frame base 0 (⟨n.id, true, dirty⟩ :: rest) g) :
    Follows rule out (fun a r g' => r = (n, a)
        ∧ Owned n.cells frame base 0 (⟨n.id, true, dirty⟩ :: rest) g')
      (Pointer.queryLeaf n.shallow k) (n.queryLeaf k) g := by
  unfold Pointer.queryLeaf queryLeaf
  rw [shallow_elements]
  cases OrdMap.lowerBound n.elements (MessageKey.rangeStart k) with
  | nil => exact follows_pure ⟨rfl, hown⟩
  | cons e es =>
      refine follows_ite (fun _ => ?_) (fun _ => follows_pure ⟨rfl, hown⟩)
      exact follows_require (fun _ => follows_pure ⟨rfl, hown⟩)

/-- The updates of the key are applied to what came from below. -/
theorem follows_updated {v : V} {es : MessageMap K V}
    (hown : Owned n.cells frame base 0 (⟨n.id, true, dirty⟩ :: rest) g) :
    Follows rule out (fun a r g' => r = (n, a)
        ∧ Owned n.cells frame base 0 (⟨n.id, true, dirty⟩ :: rest) g')
      (do return some (← applyUpdates k v es) : Pointer.PProg K V (Option V))
      (do return (n, some (← applyUpdates k v es)) : BProg (Node K V × Option V)) g := by
  refine follows_applyUpdates.bind (fun a b g' _ hr => ?_)
  obtain ⟨rfl, rfl⟩ := hr
  exact follows_pure ⟨rfl, hown⟩

theorem follows_queryInner (hspec : FollowsRead out query query')
    (hown : Owned n.cells frame base 0 (⟨n.id, true, dirty⟩ :: rest) g) :
    Follows rule out (fun a r g' => r = (n, a)
        ∧ Owned n.cells frame base 0 (⟨n.id, true, dirty⟩ :: rest) g')
      (Pointer.queryInner bet query n.shallow k) (n.queryInner bet query' k) g := by
  have hchild : Follows rule out _ (Pointer.queryChild query n.shallow k) (n.queryChild bet query' k) g :=
    follows_queryChild hspec hown
  unfold Pointer.queryInner queryInner
  rw [shallow_elements]
  cases getElementBegin n.elements k with
  | nil => exact hchild
  | cons e es =>
      refine follows_ite (fun _ => ?_) (fun _ => ?_)
      · refine hchild.bind (fun a r g' _ hr => ?_)
        obtain ⟨rfl, h'⟩ := hr
        cases a with
        | none => exact follows_pure ⟨rfl, h'⟩
        | some v => exact follows_updated h'
      · cases e.2.opcode with
        | insert => exact follows_updated hown
        | update =>
            refine hchild.bind (fun a r g' _ hr => ?_)
            obtain ⟨rfl, h'⟩ := hr
            exact follows_updated h'
        | delete =>
            cases es with
            | nil => exact follows_pure ⟨rfl, hown⟩
            | cons e' es =>
                refine follows_ite (fun _ => follows_pure ⟨rfl, hown⟩) (fun _ => follows_updated hown)

/-- **`query`, with pointers**, gives the value that it gives on the tree. -/
theorem follows_query {fuel fuel' : Nat} (hout : out .fuel) (hle : fuel' ≤ fuel) :
    FollowsRead out (Pointer.query bet fuel k) (Node.query bet fuel' k) := by
  induction fuel' generalizing fuel with
  | zero => exact fun n frame base dirty rest g _ => follows_out hout
  | succ fuel' ih =>
      intro n frame base dirty rest g hown
      obtain ⟨fuel, rfl⟩ : ∃ more, fuel = more + 1 := ⟨fuel - 1, by omega⟩
      rw [Pointer.query, Node.query]
      refine follows_readNode hown n.cell_mem_cells ?_
      rw [shallow_isLeaf]
      refine follows_ite (fun _ => follows_queryLeaf hown) (fun _ => ?_)
      exact follows_queryInner (ih (Nat.le_of_succ_le_succ hle)) hown

end Query

/-! ## `get_next_message` -/

section Next

variable {mkey : Option (MessageKey K)}

omit [LinearOrder K] in
/-- The first child that has a message. -/
theorem follows_nextInChildren {next : Nat → Pointer.PProg K V (Option (MessageKey K × Message V))}
    {next' : Node K V → BProg (Node K V × Option (MessageKey K × Message V))} {ps : PivotMap K V}
    (hspec : FollowsRead out next next') (hps : ∀ e ∈ ps, e ∈ n.pivots)
    (hown : Owned (cellsOf ps + n.cell ::ₘ own) frame base extra (⟨n.id, true, dirty⟩ :: rest) g) :
    Follows rule out (fun a r g' => r = (ps, a)
        ∧ Owned (cellsOf ps + n.cell ::ₘ own) frame base extra (⟨n.id, true, dirty⟩ :: rest) g')
      (Pointer.nextInChildren next (flat ps)) (nextInChildren bet next' ps) g := by
  induction ps generalizing own g with
  | nil => exact follows_pure ⟨rfl, hown⟩
  | cons e ps ih =>
      have hswap : cellsOf (e :: ps) + n.cell ::ₘ own = e.2.child.cells + n.cell ::ₘ (cellsOf ps + own) := by
        rw [cellsOf_cons, Multiset.add_assoc, Multiset.add_cons]
      have hswap' : cellsOf (e :: ps) + n.cell ::ₘ own = cellsOf ps + n.cell ::ₘ (e.2.child.cells + own) := by
        rw [cellsOf_cons, Multiset.add_comm e.2.child.cells, Multiset.add_assoc, Multiset.add_cons]
      rw [hswap] at hown
      rw [flat_cons, Pointer.nextInChildren, nextInChildren]
      refine (follows_readChild hspec (hps e List.mem_cons_self) hown).bind (fun a r g' _ hr => ?_)
      obtain ⟨rfl, h'⟩ := hr
      rw [← hswap] at h'
      cases a with
      | some m => exact follows_pure ⟨rfl, h'⟩
      | none =>
          rw [hswap'] at h' ⊢
          refine Follows.map_right (g := fun r => (e :: r.1, r.2))
            ((ih (fun x hx => hps x (List.mem_cons_of_mem _ hx)) h').imp (fun a r g' _ hr => ?_))
          obtain ⟨rfl, h''⟩ := hr
          exact ⟨rfl, h''⟩

theorem follows_nextFromChildren
    {next : Option (MessageKey K) → Nat → Pointer.PProg K V (Option (MessageKey K × Message V))}
    {next' : Option (MessageKey K) → Node K V → BProg (Node K V × Option (MessageKey K × Message V))}
    (hspec : ∀ mkey, FollowsRead out (next mkey) (next' mkey))
    (hown : Owned n.cells frame base 0 (⟨n.id, true, dirty⟩ :: rest) g) :
    Follows rule out (fun a r g' => r = (n, a)
        ∧ Owned n.cells frame base 0 (⟨n.id, true, dirty⟩ :: rest) g')
      (Pointer.getNextMessageFromChildren next n.shallow mkey)
      (n.getNextMessageFromChildren bet next' mkey) g := by
  unfold Pointer.getNextMessageFromChildren getNextMessageFromChildren
  simp only [shallow_pivots, belowFirstPivot_flat, getPivot_flat]
  cases mkey.filter (fun m => !belowFirstPivot n.pivots m) with
  | none =>
      have hcells : n.cells = cellsOf n.pivots + n.cell ::ₘ 0 := by
        rw [cells_eq, Multiset.add_cons, Multiset.add_zero]
      rw [hcells] at hown ⊢
      refine Follows.map_right (g := fun r => ({ n with pivots := r.1 }, r.2))
        ((follows_nextInChildren (hspec none) (fun _ he => he) hown).imp (fun a r g' _ hr => ?_))
      obtain ⟨rfl, h'⟩ := hr
      exact ⟨congrArg (Prod.mk · a) (eta n), h'⟩
  | some m =>
      dsimp only
      rcases getPivot_cases n.pivots m.key with ⟨c, hc, hmap⟩ | hc | hc
      · rw [hc]
        have hps : c.before ++ ((c.key, c.val) :: c.after) = n.pivots := hmap
        have hcells : n.cells = cellsOf ((c.key, c.val) :: c.after) + n.cell ::ₘ cellsOf c.before := by
          rw [cells_eq, ← hps, cellsOf_append, Multiset.add_cons, Multiset.add_comm (cellsOf c.before)]
        rw [hcells] at hown ⊢
        refine Follows.map_right (g := fun r => ({ n with pivots := c.before ++ r.1 }, r.2))
          ((follows_nextInChildren (hspec (some m)) (fun e he => ?_) hown).imp (fun a r g' _ hr => ?_))
        · rw [← hps]
          exact List.mem_append_right _ he
        · obtain ⟨rfl, h'⟩ := hr
          refine ⟨?_, h'⟩
          show (_, _) = (_, _)
          rw [hps, eta]
      · rw [hc]
        exact follows_stop _
      · rw [hc]
        exact follows_pure ⟨rfl, hown⟩

/-- **`get_next_message`, with pointers**, gives the message that it gives on the tree. -/
theorem follows_getNextMessage {fuel fuel' : Nat} (hout : out .fuel) (hle : fuel' ≤ fuel) :
    FollowsRead out (Pointer.getNextMessage fuel mkey) (Node.getNextMessage bet fuel' mkey) := by
  induction fuel' generalizing fuel mkey with
  | zero => exact fun n frame base dirty rest g _ => follows_out hout
  | succ fuel' ih =>
      intro n frame base dirty rest g hown
      obtain ⟨fuel, rfl⟩ : ∃ more, fuel = more + 1 := ⟨fuel - 1, by omega⟩
      rw [Pointer.getNextMessage, Node.getNextMessage]
      refine follows_readNode hown n.cell_mem_cells ?_
      rw [shallow_isLeaf]
      refine follows_ite (fun _ => follows_pure ⟨rfl, hown⟩) (fun _ => ?_)
      refine (follows_nextFromChildren (fun mkey => ih (Nat.le_of_succ_le_succ hle)) hown).bind
        (fun a r g' _ hr => ?_)
      obtain ⟨rfl, h'⟩ := hr
      exact follows_pure ⟨rfl, h'⟩

end Next

end BeTree
