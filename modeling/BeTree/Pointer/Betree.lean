import BeTree.Pointer.Read
import BeTree.Proof.Scan

/-!
# The betree, with pointers

The root is a pointer, held by the tree. The operations follow it, and `upsert` makes a new root
over the nodes that the old one was split into. Between two operations the tree is the only one
that holds a pointer, and nothing is pinned.

The recursion over the levels and the loops of the iterator are bounded by `fuel`.
-/

namespace BeTree

namespace Pointer

variable {K V : Type}

/-- The fields of `betree` that change. -/
structure Tree where
  root : Nat
  nextTimestamp : Nat

/-- The constructor. -/
def create : PProg K V Tree := do
  -- the pointer that `allocate` returns is a temporary, from which `root` is assigned
  let id ← allocate
  copy id
  destroy id
  return ⟨id, 1⟩

/-- `root = ss->allocate(new node); root->pivots = new_nodes`. -/
def growRoot (root : Nat) (newNodes : PivotMap K V) : PProg K V Nat := do
  let id ← allocate
  destroy root
  copy id
  destroy id
  deref true id (do
    let n ← read id
    copyAll newNodes
    write { n with pivots := newNodes })
  return id

section Operations

variable [LT K] [DecidableLT K] [BEq K] (bet : Params K V) (fuel : Nat)

/-- Insert the specified message and handle a split of the root if it occurs. -/
def upsert [Add V] (t : Tree) (opcode : Opcode) (k : K) (v : V) : PProg K V Tree := do
  let tmp : MessageMap K V := [(⟨k, t.nextTimestamp⟩, ⟨opcode, v⟩)]
  let nextTimestamp := (t.nextTimestamp + 1) % 2 ^ 64
  let newNodes ← deref true t.root (flush bet fuel t.root tmp)
  if newNodes.isEmpty then return ⟨t.root, nextTimestamp⟩
  else do
    let root ← growRoot t.root newNodes
    destroyAll newNodes
    return ⟨root, nextTimestamp⟩

/-- `insert`, `update` and `erase`. -/
def apply [Add V] (t : Tree) : Upsert K V → PProg K V Tree
  | .insert k v => upsert bet fuel t .insert k v
  | .update k v => upsert bet fuel t .update k v
  | .erase k => upsert bet fuel t .delete k bet.defaultValue

/-- `query`; `none` is `std::out_of_range`. -/
def queryRoot [Add V] (t : Tree) (k : K) : PProg K V (Option V) :=
  deref true t.root (query bet fuel k t.root)

/-- `root->get_next_message(mkey)` on a `const` tree. -/
def nextMessage (t : Tree) (mkey : Option (MessageKey K)) :
    PProg K V (Option (MessageKey K × Message V)) :=
  deref false t.root (getNextMessage fuel mkey t.root)

/-- The loop of `setup_next_element`. -/
def setupLoop [Add V] (t : Tree) : Nat → Iterator K V → PProg K V (Iterator K V)
  | 0, _ => Prog.stop .fuel
  | rounds + 1, it =>
    if it.posIsValid && (!it.isValid || it.position.1.key == it.first) then do
      let it := it.apply bet it.position.1 it.position.2
      match ← nextMessage fuel t (some it.position.1) with
      | some m => setupLoop t rounds { it with position := m }
      | none => setupLoop t rounds { it with posIsValid := false }
    else return it

/-- `setup_next_element`. -/
def setupNextElement [Add V] (t : Tree) (it : Iterator K V) : PProg K V (Iterator K V) :=
  setupLoop bet fuel t fuel { it with isValid := false }

/-- The constructor that positions the iterator. -/
def start [Add V] [Inhabited K] [Inhabited V] (t : Tree) (mkey : Option (MessageKey K)) :
    PProg K V (Iterator K V) := do
  match ← nextMessage fuel t mkey with
  | some m => setupNextElement bet fuel t { Iterator.finish with position := m, posIsValid := true }
  | none => return Iterator.finish

/-- `begin()`, `lower_bound(k)` and `upper_bound(k)`. -/
def startAt [Add V] [Inhabited K] [Inhabited V] (t : Tree) : Start K → PProg K V (Iterator K V)
  | .first => start bet fuel t none
  | .lowerBound k => start bet fuel t (some (MessageKey.rangeStart k))
  | .upperBound k => start bet fuel t (some (MessageKey.rangeEnd k))

/-- `for (; it != end(); ++it)`, collecting the entries. -/
def scanLoop [Add V] [BEq V] [Inhabited K] [Inhabited V] (t : Tree) :
    Nat → Iterator K V → PProg K V (List (K × V))
  | 0, _ => Prog.stop .fuel
  | rounds + 1, it =>
    if it.equal Iterator.finish then return []
    else do
      let next ← setupNextElement bet fuel t it
      let rest ← scanLoop t rounds next
      return (it.first, it.second) :: rest

/-- A scan from `start` to `end()`. -/
def scan [Add V] [BEq V] [Inhabited K] [Inhabited V] (t : Tree) (start : Start K) :
    PProg K V (List (K × V)) := do
  let it ← startAt bet fuel t start
  scanLoop bet fuel t fuel it

/-- Perform one operation. -/
def exec [Add V] [BEq V] [Inhabited K] [Inhabited V] (t : Tree) : Cmd K V →
    PProg K V (Tree × Reply K V)
  | .upsert u => do
    let t ← apply bet fuel t u
    return (t, .done)
  | .query k => do
    let v ← queryRoot bet fuel t k
    return (t, .value v)
  | .scan start => do
    let es ← scan bet fuel t start
    return (t, .entries es)
  | .evictAll => do
    Prog.perform (HeapOp.evictAll : HeapOp (NodeImage K V))
    return (t, .done)

end Operations

end Pointer

open Prog Shadow Node

variable {K V : Type} [LinearOrder K] {bet : Params K V} {out : Fault → Prop}
variable {own frame : Cells (NodeImage K V)} {base extra : Multiset Nat} {pins : List Pin}
variable {g : Shadow (NodeImage K V)} {t : Betree K V} {fuel : Nat}

/-- The tree that the pointer leads to, and nothing else, is there. -/
structure Holds (p : Pointer.Tree) (t : Betree K V) (g : Shadow (NodeImage K V)) : Prop where
  root : p.root = t.root.id
  clock : p.nextTimestamp = t.nextTimestamp
  owned : Owned t.root.cells 0 0 {t.root.id} [] g

/-! ## A new root -/

omit [LinearOrder K] in
theorem follows_copyAll {α β : Type} {R : α → β → Shadow (NodeImage K V) → Prop} {ps : PivotMap K V}
    {f : Unit → Pointer.PProg K V α} {y : BProg β} (hps : ∀ e ∈ ps, e.2.child.id ∈ base)
    (h : Owned own frame base extra pins g)
    (hf : ∀ g', Owned own frame base (pointersOf ps + extra) pins g' → Follows rule out R (f ()) y g') :
    Follows rule out R (Pointer.copyAll (flat ps) >>= f) y g := by
  induction ps generalizing extra g with
  | nil => exact hf g (h.congr rfl (Multiset.zero_add _))
  | cons e ps ih =>
      refine follows_copy h (Or.inl (Multiset.mem_add.mpr (Or.inl (hps e List.mem_cons_self))))
        (fun g₁ h₁ => ih (fun x hx => hps x (List.mem_cons_of_mem _ hx)) h₁ (fun g₂ h₂ => ?_))
      refine hf g₂ (h₂.congr rfl ?_)
      rw [pointersOf_cons, Multiset.cons_add, Multiset.add_cons]
      rfl

omit [LinearOrder K] in
theorem follows_createTree :
    Follows rule out Holds (Pointer.create : Pointer.PProg K V Pointer.Tree) Betree.create
      Shadow.create := by
  have h : Owned (0 : Cells (NodeImage K V)) 0 0 0 [] Shadow.create := by
    refine ⟨⟨fun c hc => absurd hc (Multiset.notMem_zero c), Multiset.nodup_zero,
      fun c hc => absurd hc (Multiset.notMem_zero c), fun i p hp => ?_⟩, rfl, rfl, trivial⟩
    exact absurd hp (by simp [Shadow.create, Dict.get?_empty])
  refine follows_allocateNode h (fun id g₁ h₁ => ?_)
  refine follows_copy h₁ (known_extra (Multiset.mem_cons_self _ _)) (fun g₂ h₂ => ?_)
  refine follows_destroy h₂ (fun g₃ h₃ => follows_pure ⟨rfl, rfl, h₃⟩)

omit [LinearOrder K] in
/-- The old root has been emptied, and goes; the new one takes over the new nodes. -/
theorem follows_growRoot {root : Node K V} {news : PivotMap K V} (hempty : root.pivots = [])
    (h : Owned (root.cells + cellsOf news) 0 0 ({root.id} + pointersOf news) [] g) :
    Follows rule out (fun a n g' => a = n.id
        ∧ Owned n.cells 0 0 ({n.id} + pointersOf news) [] g')
      (Pointer.growRoot root.id (flat news)) (Betree.growRoot bet root news) g := by
  rw [cells_eq root, hempty, cellsOf_nil, Multiset.cons_add, Multiset.zero_add] at h
  refine follows_allocateNode h (fun id g₁ h₁ => ?_)
  have h₁ : Owned (root.cell ::ₘ cell ⟨id, [], []⟩ ::ₘ cellsOf news) 0 0
      (root.id ::ₘ (id ::ₘ pointersOf news)) [] g₁ := by
    refine h₁.congr (Multiset.cons_swap _ _ _) ?_
    rw [Multiset.singleton_add, Multiset.cons_swap]
  refine follows_destroy h₁ (fun g₂ h₂ => ?_)
  have h₂ : Owned (cell ⟨id, [], []⟩ ::ₘ cellsOf news) 0 0 (id ::ₘ pointersOf news) [] g₂ := by
    refine h₂.drop ?_
    show root.pivots.map _ = []
    rw [hempty]
    rfl
  refine follows_right () ?_
  refine follows_copy h₂ (known_extra (Multiset.mem_cons_self _ _)) (fun g₃ h₃ => ?_)
  refine follows_destroy h₃ (fun g₄ h₄ => ?_)
  have hbody : ∀ g', Owned {cell ⟨id, [], []⟩} (cellsOf news + 0) (0 + id ::ₘ pointersOf news) 0
      [⟨id, true, true⟩] g' →
      Follows rule out (fun _ r g' => r = ((⟨id, news, []⟩ : Node K V), ())
          ∧ Owned {r.1.cell} (cellsOf news + 0) (0 + id ::ₘ pointersOf news) 0 [⟨id, true, true⟩] g')
        (do
          let m ← Pointer.read id
          Pointer.copyAll (flat news)
          Pointer.write { m with pivots := flat news })
        (pure (⟨id, news, []⟩, ()) : BProg _) g' := by
    intro g' h'
    refine follows_readNode (n := ⟨id, [], []⟩) h' (Multiset.mem_singleton_self _) ?_
    refine follows_copyAll (fun e he => ?_) h' (fun g'' h'' => ?_)
    · exact Multiset.mem_add.mpr (Or.inr (Multiset.mem_cons_of_mem (mem_pointersOf he)))
    · exact follows_writeLast (n := ⟨id, [], []⟩) ⟨id, news, []⟩ 0 h'' rfl rfl
        (Multiset.zero_add _).symm (fun g₃ h₃ => ⟨rfl, h₃⟩)
  refine (follows_derefCell (n := ⟨id, [], []⟩) h₄ (known_extra (Multiset.mem_cons_self _ _)) hbody).bind
    (fun _ r g₅ _ hr => ?_)
  obtain ⟨rfl, h₅⟩ := hr
  refine follows_pure ⟨rfl, h₅.congr ?_ ?_⟩
  · rw [cells_eq, Multiset.singleton_add]
  · rw [Multiset.add_zero, Multiset.singleton_add]

/-! ## The operations -/

section Operations

variable [Add V] {p : Pointer.Tree}

omit [LinearOrder K] [Add V] in
/-- The root is followed, and everything is handed to the body. -/
theorem Holds.enter (h : Holds p t g) : Owned (t.root.cells + 0) 0 0 {t.root.id} [] g :=
  h.owned.congr (Multiset.add_zero _) rfl

/-- **An upsert, with pointers.** -/
theorem follows_upsert {h : Nat} {opcode : Opcode} {k : K} {v : V} (hout : out .keyTaken)
    (hr : ∀ n, bet.reload n = some n) (hM : 3 ≤ bet.maxNodeSize ∨ h = 0)
    (hinv : Inv False h (fun _ => True) t.root)
    (hts : t.nextTimestamp ≤ uint64Max) (hfuel : t.root.height + 1 ≤ fuel) (hp : Holds p t g) :
    Follows rule out Holds (Pointer.upsert bet fuel p opcode k v) (t.upsert bet opcode k v) g := by
  have hb : Batch False (fun _ => True)
      [((⟨k, t.nextTimestamp⟩ : MessageKey K), (⟨opcode, v⟩ : Message V))] :=
    batch_single hts (fun hf => hf.elim) trivial
  have hspec : FollowsFlush out h (Pointer.flush bet fuel) (flush bet (t.root.height + 1)) := by
    refine follows_flush hout hr hM ?_ hfuel
    rw [hinv.height]
    exact Nat.lt_succ_self _
  have hknown : Known (0 : Cells (NodeImage K V)) 0 0 {t.root.id} [] t.root.id :=
    known_extra (Multiset.mem_singleton_self _)
  unfold Pointer.upsert Betree.upsert
  rw [hp.root, hp.clock]
  refine (follows_deref hp.enter hknown (fun g' h' => hspec _ _ _ _ _ _ g' hinv hb h')).bind
    (fun a r g₁ _ hr₁ => ?_)
  obtain ⟨root, news⟩ := r
  obtain ⟨⟨rfl, hid, hempty⟩, h₁⟩ := hr₁
  rw [Multiset.add_zero] at h₁
  dsimp only at hid hempty h₁ ⊢
  rw [flat_isEmpty]
  refine follows_ite (fun hnil => ?_) (fun hne => ?_)
  · rw [List.isEmpty_iff.mp hnil, ← hid] at h₁
    refine follows_pure ⟨hid.symm, rfl, h₁.congr ?_ ?_⟩
    · exact (Multiset.add_zero _).symm
    · exact (Multiset.add_zero _).symm
  · have hne : news ≠ [] := fun hc => hne (List.isEmpty_iff.mpr hc)
    rw [← hid] at h₁ ⊢
    refine (follows_growRoot (hempty hne) h₁).bind (fun id n g₂ _ hr₂ => ?_)
    obtain ⟨rfl, h₂⟩ := hr₂
    rw [Multiset.add_comm] at h₂
    exact follows_destroyAll h₂ (fun g₃ h₃ => follows_pure ⟨rfl, rfl, h₃⟩)

theorem follows_apply {h : Nat} {u : Upsert K V} (hout : out .keyTaken)
    (hr : ∀ n, bet.reload n = some n) (hM : 3 ≤ bet.maxNodeSize ∨ h = 0)
    (hinv : Inv False h (fun _ => True) t.root)
    (hts : t.nextTimestamp ≤ uint64Max) (hfuel : t.root.height + 1 ≤ fuel) (hp : Holds p t g) :
    Follows rule out Holds (Pointer.apply bet fuel p u) (t.apply bet u) g := by
  cases u with
  | insert k v => exact follows_upsert hout hr hM hinv hts hfuel hp
  | update k v => exact follows_upsert hout hr hM hinv hts hfuel hp
  | erase k => exact follows_upsert hout hr hM hinv hts hfuel hp

/-! ## Reading -/

omit [LinearOrder K] [Add V] in
theorem follows_readRoot {γ : Type} {dirty : Bool} {read : Nat → Pointer.PProg K V γ}
    {read' : Node K V → BProg (Node K V × γ)} (hspec : FollowsRead out read read') (hp : Holds p t g) :
    Follows rule out (fun a r g' => r = (t, a) ∧ Holds p t g')
      (Pointer.deref dirty p.root (read p.root))
      (do
        let (root, a) ← t.root.deref bet dirty read'
        return ({ t with root := root }, a)) g := by
  have hknown : Known (0 : Cells (NodeImage K V)) 0 0 {t.root.id} [] t.root.id :=
    known_extra (Multiset.mem_singleton_self _)
  rw [hp.root]
  refine Follows.map_right (g := fun r => ({ t with root := r.1 }, r.2))
    ((follows_deref hp.enter hknown (fun g' h' => hspec _ _ _ _ _ g' h')).imp (fun a r g' _ hr => ?_))
  obtain ⟨rfl, h'⟩ := hr
  exact ⟨rfl, hp.root, hp.clock, h'.congr (Multiset.add_zero _).symm (Multiset.add_zero _).symm⟩

theorem follows_queryRoot {k : K} (hout : out .fuel) (hfuel : t.root.height + 1 ≤ fuel)
    (hp : Holds p t g) :
    Follows rule out (fun a r g' => r = (t, a) ∧ Holds p t g') (Pointer.queryRoot bet fuel p k)
      (t.query bet k) g :=
  follows_readRoot (follows_query hout hfuel) hp

omit [Add V] in
theorem follows_nextMessage {mkey : Option (MessageKey K)} (hout : out .fuel)
    (hfuel : t.root.height + 1 ≤ fuel) (hp : Holds p t g) :
    Follows rule out (fun a r g' => r = (t, a) ∧ Holds p t g') (Pointer.nextMessage fuel p mkey)
      (t.getNextMessage bet mkey) g :=
  follows_readRoot (follows_getNextMessage hout hfuel) hp

/-! ## The iterator -/

theorem follows_setupLoop {rounds rounds' : Nat} {it : Iterator K V} (hout : out .fuel)
    (hfuel : t.root.height + 1 ≤ fuel) (hle : rounds' ≤ rounds) (hp : Holds p t g) :
    Follows rule out (fun a r g' => r = (t, a) ∧ Holds p t g') (Pointer.setupLoop bet fuel p rounds it)
      (Iterator.setupLoop bet rounds' t it) g := by
  induction rounds' generalizing rounds it g with
  | zero => exact follows_out hout
  | succ rounds' ih =>
      obtain ⟨rounds, rfl⟩ : ∃ more, rounds = more + 1 := ⟨rounds - 1, by omega⟩
      have hle := Nat.le_of_succ_le_succ hle
      refine follows_ite (fun _ => ?_) (fun _ => follows_pure ⟨rfl, hp⟩)
      refine (follows_nextMessage hout hfuel hp).bind (fun a r g' _ hr => ?_)
      obtain ⟨rfl, hp'⟩ := hr
      cases a with
      | some m => exact ih hle hp'
      | none => exact ih hle hp'

theorem follows_setupNextElement {it : Iterator K V} (hout : out .fuel)
    (hfuel : t.root.height + 1 ≤ fuel) (hrounds : t.root.messages.length + 2 ≤ fuel) (hp : Holds p t g) :
    Follows rule out (fun a r g' => r = (t, a) ∧ Holds p t g') (Pointer.setupNextElement bet fuel p it)
      (Iterator.setupNextElement bet t it) g :=
  follows_setupLoop hout hfuel hrounds hp

variable [BEq V] [Inhabited K] [Inhabited V]

omit [BEq V] in
theorem follows_startAt {start : Start K} (hout : out .fuel) (hfuel : t.root.height + 1 ≤ fuel)
    (hrounds : t.root.messages.length + 2 ≤ fuel) (hp : Holds p t g) :
    Follows rule out (fun a r g' => r = (t, a) ∧ Holds p t g') (Pointer.startAt bet fuel p start)
      (Iterator.startAt bet t start) g := by
  have hstart : ∀ mkey, Follows rule out (fun a r g' => r = (t, a) ∧ Holds p t g')
      (Pointer.start bet fuel p mkey) (Iterator.start bet t mkey) g := by
    intro mkey
    refine (follows_nextMessage hout hfuel hp).bind (fun a r g' _ hr => ?_)
    obtain ⟨rfl, hp'⟩ := hr
    cases a with
    | some m => exact follows_setupNextElement hout hfuel hrounds hp'
    | none => exact follows_pure ⟨rfl, hp'⟩
  cases start with
  | first => exact hstart _
  | lowerBound k => exact hstart _
  | upperBound k => exact hstart _

theorem follows_scanLoop {rounds rounds' : Nat} {it : Iterator K V} (hout : out .fuel)
    (hfuel : t.root.height + 1 ≤ fuel) (hrounds : t.root.messages.length + 2 ≤ fuel)
    (hle : rounds' ≤ rounds) (hp : Holds p t g) :
    Follows rule out (fun a r g' => r = (t, a) ∧ Holds p t g') (Pointer.scanLoop bet fuel p rounds it)
      (Iterator.scanLoop bet rounds' t it) g := by
  induction rounds' generalizing rounds it g with
  | zero => exact follows_out hout
  | succ rounds' ih =>
      obtain ⟨rounds, rfl⟩ : ∃ more, rounds = more + 1 := ⟨rounds - 1, by omega⟩
      refine follows_ite (fun _ => follows_pure ⟨rfl, hp⟩) (fun _ => ?_)
      refine (follows_setupNextElement hout hfuel hrounds hp).bind (fun a r g₁ _ hr => ?_)
      obtain ⟨rfl, hp₁⟩ := hr
      refine (ih (Nat.le_of_succ_le_succ hle) hp₁).bind (fun es r g₂ _ hr => ?_)
      obtain ⟨rfl, hp₂⟩ := hr
      exact follows_pure ⟨rfl, hp₂⟩

/-- **A scan, with pointers.** -/
theorem follows_scan {start : Start K} (hout : out .fuel) (hfuel : t.root.height + 1 ≤ fuel)
    (hrounds : t.root.messages.length + 2 ≤ fuel) (hp : Holds p t g) :
    Follows rule out (fun a r g' => r = (t, a) ∧ Holds p t g') (Pointer.scan bet fuel p start)
      (Iterator.scan bet t start) g := by
  refine (follows_startAt hout hfuel hrounds hp).bind (fun it r g' _ hr => ?_)
  obtain ⟨rfl, hp'⟩ := hr
  exact follows_scanLoop hout hfuel hrounds hrounds hp'

/-- **Every operation, with pointers**, does what it does on the tree. -/
theorem follows_exec {h : Nat} (hkey : out .keyTaken) (hout : out .fuel) (hr : ∀ n, bet.reload n = some n)
    (hM : 3 ≤ bet.maxNodeSize ∨ h = 0)
    (hinv : Inv False h (fun _ => True) t.root)
    (hts : t.nextTimestamp ≤ uint64Max) (hfuel : t.root.height + 1 ≤ fuel)
    (hrounds : t.root.messages.length + 2 ≤ fuel) (c : Cmd K V) (hp : Holds p t g) :
    Follows rule out (fun a r g' => a.2 = r.2 ∧ Holds a.1 r.1 g') (Pointer.exec bet fuel p c)
      (t.exec bet c) g := by
  cases c with
  | upsert u =>
      refine (follows_apply hkey hr hM hinv hts hfuel hp).bind (fun p' t' g' _ hp' => ?_)
      exact follows_pure ⟨rfl, hp'⟩
  | query k =>
      refine (follows_queryRoot hout hfuel hp).bind (fun a r g' _ hr => ?_)
      obtain ⟨rfl, hp'⟩ := hr
      exact follows_pure ⟨rfl, hp'⟩
  | scan start =>
      refine (follows_scan hout hfuel hrounds hp).bind (fun a r g' _ hr => ?_)
      obtain ⟨rfl, hp'⟩ := hr
      exact follows_pure ⟨rfl, hp'⟩
  | evictAll =>
      refine follows_left trivial (fun _ g' hpost => follows_right () ?_)
      subst hpost
      exact follows_pure ⟨rfl, hp⟩

end Operations

end BeTree
