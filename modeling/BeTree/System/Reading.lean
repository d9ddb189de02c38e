import BeTree.System.Footprint

/-!
# Reading makes nothing dirty

A query below the root and a scan pin nodes, access them without marking them, and unpin
them, and do nothing else, whatever the keys are and whatever the swap space answers. When
reading a node back gives the node, they leave the tree as it was.
-/

namespace BeTree

open Node

variable {K V : Type} [LT K] [DecidableLT K] [BEq K] {bet : Params K V} {n n' : Node K V}

/-- What is asked of the swap space to read a node. -/
def Op.Reader : Op → Prop
  | .pin _ => True
  | .access _ dirty _ _ => dirty = false
  | .unpin _ _ => True
  | _ => False

theorem Op.Reader.quiet {o : Op} (h : o.Reader) : o.Quiet := by
  intro i hi
  cases o with
  | access id dirty size children =>
      have hd : dirty = false := h
      rw [hd] at hi
      exact absurd hi.1 (by simp)
  | _ => exact hi

/-- Reading a node back gives the node. -/
def Params.Faithful (bet : Params K V) : Prop := ∀ n, bet.reload n = some n

/-! ## Nodes -/

omit [BEq K] in
/-- `get_pivot` gives a cursor in the map, or fails in a way of its own. -/
theorem getPivot_outcome {C : Type} (mp : List (K × C)) (k : K) :
    (∃ cur, getPivot mp k = .ok cur ∧ cur.toMap = mp) ∨ ∃ f, getPivot mp k = .error f ∧ f.Other := by
  rcases getPivot_cases mp k with hc | hc | hc
  · exact Or.inl hc
  · exact Or.inr ⟨_, hc, nofun⟩
  · exact Or.inr ⟨_, hc, nofun⟩

/-- A program that only reads, and gives the node back as it was. -/
def Reads {α : Type} (bet : Params K V) (n : Node K V) (x : BProg (Node K V × α)) : Prop :=
  Prog.Only Op.Reader (fun r => bet.Faithful → r.1 = n) Fault.Other x

section Reads

omit [LT K] [DecidableLT K] [BEq K] in
theorem reads_pure {α : Type} {a : α} (h : bet.Faithful → n' = n) :
    Reads bet n (pure (n', a) : BProg (Node K V × α)) := h

omit [LT K] [DecidableLT K] [BEq K] in
theorem only_found {loaded : Bool} :
    Prog.Only Op.Reader (fun m => bet.Faithful → m = n) Fault.Other (n.found bet loaded) := by
  unfold found
  split
  · split
    · rename_i m heq
      intro hf
      rw [hf n] at heq
      exact (Option.some.inj heq).symm
    · exact nofun
  · exact fun _ => rfl

omit [LT K] [DecidableLT K] [BEq K] in
/-- Following a pointer to read a node. -/
theorem reads_deref {α : Type} {body : Node K V → BProg (Node K V × α)}
    (hbody : ∀ m, Reads bet m (body m)) : Reads bet n (n.deref bet false body) := by
  refine ⟨trivial, fun _ => ⟨rfl, fun loaded => ?_⟩⟩
  show Prog.Only _ _ _ (n.found bet loaded >>= fun n => body n >>= _)
  refine only_found.bind (fun m hm => (hbody m).bind (fun r hres => ?_))
  exact ⟨trivial, fun _ hf => (hres hf).trans (hm hf)⟩

omit [LT K] [DecidableLT K] in
theorem only_applyUpdates [Add V] {k : K} {v : V} {es : MessageMap K V} :
    Prog.Only Op.Reader (fun _ => True) Fault.Other (applyUpdates k v es : BProg V) := by
  induction es generalizing v with
  | nil => trivial
  | cons m es ih =>
      rw [applyUpdates]
      split
      · refine Prog.Only.bind (Prog.only_require ?_) (fun _ _ => ih)
        intro h
        cases h
      · trivial

omit [LT K] [DecidableLT K] in
/-- A value computed from buffered updates. -/
theorem reads_applyUpdates [Add V] {k : K} {v : V} {es : MessageMap K V}
    (h : bet.Faithful → n' = n) :
    Reads bet n (do return (n', some (← applyUpdates k v es))) :=
  only_applyUpdates.bind (fun _ _ => h)

theorem reads_queryLeaf {k : K} : Reads bet n (n.queryLeaf k) := by
  unfold queryLeaf
  split
  · exact reads_pure (fun _ => rfl)
  · split
    · refine Prog.Only.bind (Prog.only_require ?_) (fun _ _ _ => rfl)
      exact nofun
    · exact reads_pure (fun _ => rfl)

omit [BEq K] in
theorem reads_queryChild {query : Node K V → BProg (Node K V × Option V)} {k : K}
    (hq : ∀ x, Reads bet x (query x)) : Reads bet n (n.queryChild bet query k) := by
  unfold queryChild
  rcases getPivot_outcome n.pivots k with ⟨cur, hc, hmap⟩ | ⟨f, hc, hf⟩
  · rw [hc]
    refine (reads_deref hq).bind (fun r hchild hfaith => ?_)
    show n.setChild cur r.1 = n
    rw [hchild hfaith]
    exact setChild_same hmap
  · rw [hc]
    split
    · exact reads_pure (fun _ => rfl)
    · rename_i heq
      injection heq with heq
      exact heq ▸ hf
    · rename_i heq
      exact absurd heq (by simp)

theorem reads_queryInner [Add V] {query : Node K V → BProg (Node K V × Option V)} {k : K}
    (hq : ∀ x, Reads bet x (query x)) : Reads bet n (n.queryInner bet query k) := by
  have hchild := reads_queryChild (n := n) (k := k) hq
  unfold queryInner
  dsimp only
  split
  · exact hchild
  · split
    · refine hchild.bind (fun r hn => ?_)
      obtain ⟨n', v⟩ := r
      cases v with
      | none => exact reads_pure hn
      | some v => exact reads_applyUpdates hn
    · split
      · exact hchild.bind (fun r hn => reads_applyUpdates hn)
      · split
        · exact reads_pure (fun _ => rfl)
        · split
          · exact reads_pure (fun _ => rfl)
          · exact reads_applyUpdates (fun _ => rfl)
      · exact reads_applyUpdates (fun _ => rfl)

/-- **A query** only reads, below the root. -/
theorem reads_query [Add V] {fuel : Nat} {k : K} : Reads bet n (query bet fuel k n) := by
  induction fuel generalizing n with
  | zero => exact nofun
  | succ fuel ih =>
      rw [query]
      split
      · exact reads_queryLeaf
      · exact reads_queryInner (fun x => ih)

omit [LT K] [DecidableLT K] [BEq K] in
theorem only_nextInChildren {next : Node K V → BProg (Node K V × Option (MessageKey K × Message V))}
    {ps : PivotMap K V} (hnext : ∀ x, Reads bet x (next x)) :
    Prog.Only Op.Reader (fun r => bet.Faithful → r.1 = ps) Fault.Other
      (nextInChildren bet next ps) := by
  induction ps with
  | nil => exact fun _ => rfl
  | cons p ps ih =>
      rw [nextInChildren]
      refine (reads_deref hnext).bind (fun r hchild => ?_)
      obtain ⟨child, m⟩ := r
      have hsame : bet.Faithful → ((p.1, { p.2 with child := child }) : K × ChildInfo (Node K V)) = p :=
        fun hf => by
          have hc : child = p.2.child := hchild hf
          rw [hc]
      cases m with
      | some m => exact fun hf => congrArg (· :: ps) (hsame hf)
      | none => exact ih.bind (fun r hps hf => congrArg₂ List.cons (hsame hf) (hps hf))

omit [BEq K] in
theorem reads_nextFromChildren
    {next : Option (MessageKey K) → Node K V → BProg (Node K V × Option (MessageKey K × Message V))}
    {mkey : Option (MessageKey K)} (hnext : ∀ mkey x, Reads bet x (next mkey x)) :
    Reads bet n (n.getNextMessageFromChildren bet next mkey) := by
  unfold getNextMessageFromChildren
  split
  · refine (only_nextInChildren (hnext none)).bind (fun r hps hf => ?_)
    show (⟨n.id, r.1, n.elements⟩ : Node K V) = n
    rw [hps hf, eta]
  · rename_i m _
    rcases getPivot_outcome n.pivots m.key with ⟨cur, hc, hmap⟩ | ⟨f, hc, hf⟩
    · rw [hc]
      refine (only_nextInChildren (hnext (some m))).bind (fun r hps hf => ?_)
      have hmap : cur.before ++ (cur.key, cur.val) :: cur.after = n.pivots := hmap
      show (⟨n.id, cur.before ++ r.1, n.elements⟩ : Node K V) = n
      rw [hps hf, hmap, eta]
    · rw [hc]
      split
      · exact reads_pure (fun _ => rfl)
      · rename_i heq
        injection heq with heq
        exact heq ▸ hf
      · rename_i heq
        exact absurd heq (by simp)

/-- **The next message**, likewise. -/
theorem reads_getNextMessage {fuel : Nat} {mkey : Option (MessageKey K)} :
    Reads bet n (getNextMessage bet fuel mkey n) := by
  induction fuel generalizing n mkey with
  | zero => exact nofun
  | succ fuel ih =>
      rw [getNextMessage]
      dsimp only
      split
      · exact reads_pure (fun _ => rfl)
      · exact (reads_nextFromChildren (fun mkey x => ih)).bind (fun r hn => reads_pure hn)

end Reads

/-! ## Scans -/

section Scan

variable {t : Betree K V}

/-- A program that only reads, and gives the tree back as it was. -/
abbrev Scans {α : Type} (bet : Params K V) (t : Betree K V) (x : BProg (Betree K V × α)) : Prop :=
  Prog.Only Op.Reader (fun r => bet.Faithful → r.1 = t) Fault.Other x

theorem scans_getNextMessage {mkey : Option (MessageKey K)} :
    Scans bet t (t.getNextMessage bet mkey) := by
  refine (reads_deref (fun m => reads_getNextMessage)).bind (fun r hroot hf => ?_)
  show (⟨r.1, t.nextTimestamp⟩ : Betree K V) = t
  rw [hroot hf]

variable [Add V]

theorem scans_setupLoop {fuel : Nat} {it : Iterator K V} :
    Scans bet t (Iterator.setupLoop bet fuel t it) := by
  induction fuel generalizing t it with
  | zero => exact nofun
  | succ fuel ih =>
      rw [Iterator.setupLoop]
      split
      · refine scans_getNextMessage.bind (fun r ht => ?_)
        obtain ⟨t', m⟩ := r
        have hloop : ∀ it, Scans bet t (Iterator.setupLoop bet fuel t' it) :=
          fun _ => (ih (t := t')).imp (fun r hr hf => (hr hf).trans (ht hf))
        cases m with
        | some m => exact hloop _
        | none => exact hloop _
      · exact fun _ => rfl

variable [Inhabited K] [Inhabited V]

theorem scans_startAt {start : Start K} : Scans bet t (Iterator.startAt bet t start) := by
  have hstart : ∀ mkey, Scans bet t (Iterator.start bet t mkey) := by
    intro mkey
    refine scans_getNextMessage.bind (fun r ht => ?_)
    obtain ⟨t', m⟩ := r
    cases m with
    | some m => exact scans_setupLoop.imp (fun r hr hf => (hr hf).trans (ht hf))
    | none => exact ht
  cases start with
  | first => exact hstart _
  | lowerBound k => exact hstart _
  | upperBound k => exact hstart _

variable [BEq V]

theorem scans_scanLoop {fuel : Nat} {it : Iterator K V} :
    Scans bet t (Iterator.scanLoop bet fuel t it) := by
  induction fuel generalizing t it with
  | zero => exact nofun
  | succ fuel ih =>
      rw [Iterator.scanLoop]
      split
      · exact fun _ => rfl
      · refine scans_setupLoop.bind (fun r ht => ?_)
        exact ih.bind (fun r' ht' hf => (ht' hf).trans (ht hf))

theorem scans_scan {start : Start K} : Scans bet t (Iterator.scan bet t start) :=
  scans_startAt.bind (fun _ ht => scans_scanLoop.imp (fun _ hr hf => (hr hf).trans (ht hf)))

end Scan

end BeTree
