import BeTree.Tree.Betree
import BeTree.Proof.Parts

/-!
# The tree with another flush

`flushBy` is the flush with another fast path and other rounds of the flush loop, and the upserts
here are those of the tree with such a flush. With the fast path and the rounds of the source they
are the upserts of the tree. With assertions added to them they go through fewer runs; a run that
does go through is one of the tree.
-/

namespace BeTree

open Node

variable {K V : Type} [LinearOrder K] {bet : Params K V} {n : Node K V}

section By

variable [Add V]

/-- `flush`, with another fast path and other rounds. -/
def flushBy (bet : Params K V)
    (dirty : Flush K V → Node K V → OrdMap.Cursor K (ChildInfo (Node K V)) → MessageMap K V →
      BProg (Node K V))
    (round : Flush K V → Node K V → OrdMap.Cursor K (ChildInfo (Node K V)) → Option K →
      BProg (Node K V × Option K)) : Nat → Flush K V
  | 0, _, _ => Prog.stop .fuel
  | fuel + 1, n, elts =>
    flushWith bet (splitFull bet)
      (fun lo hi => innerWith bet
        (fun n first => do return (← dirty (flushBy bet dirty round fuel) n first elts, []))
        (fun n => loopBy bet (round (flushBy bet dirty round fuel)) (n.elements.length + 1) n)
        (splitOver bet) n lo hi elts)
      (n, []) n elts

theorem flush_eq (fuel : Nat) :
    flush bet fuel = flushBy bet
      (fun flushChild n first elts => n.flushDirty bet flushChild first elts)
      (fun flushChild n c first => n.flushRound bet flushChild c first) fuel := by
  induction fuel with
  | zero => rfl
  | succ fuel ih =>
      funext n elts
      rw [flush_succ, ih]
      rfl

end By

/-! ## Upserts with another flush -/

namespace Betree

variable {σ ρ : Type} {Q : ρ → Prop} {E : Fault → Prop}

/-- `upsert`, for a flush of the root that returns more, and with what is `done` at the end. -/
def upsertWith (bet : Params K V) (flush : Nat → Node K V → MessageMap K V → BProg (Node K V × σ))
    (news : σ → PivotMap K V) (done : Betree K V → σ → ρ) (t : Betree K V) (opcode : Opcode) (k : K)
    (v : V) : BProg ρ := do
  let tmp : MessageMap K V := [(⟨k, t.nextTimestamp⟩, ⟨opcode, v⟩)]
  let nextTimestamp := (t.nextTimestamp + 1) % 2 ^ 64
  let (root, made) ← t.root.deref bet true fun n => flush (t.root.height + 1) n tmp
  if (news made).isEmpty then return done ⟨root, nextTimestamp⟩ made
  else return done ⟨← growRoot bet root (news made), nextTimestamp⟩ made

/-- `insert`, `update` and `erase`, by some `upsert`. -/
def applyWith (bet : Params K V) (upsert : Opcode → K → V → BProg ρ) : Upsert K V → BProg ρ
  | .insert k v => upsert .insert k v
  | .update k v => upsert .update k v
  | .erase k => upsert .delete k bet.defaultValue

/-- A sequence of upserts, with another flush. -/
def applyAllBy (bet : Params K V) (flush : Nat → Flush K V) (t : Betree K V)
    (us : List (Upsert K V)) : BProg (Betree K V) :=
  us.foldlM (fun t u => applyWith bet (t.upsertWith bet flush id (fun t _ => t)) u) t

omit [LinearOrder K] in
theorem all_upsertWith {P : Node K V × σ → Prop} {t : Betree K V} {opcode : Opcode} {k : K} {v : V}
    {flush : Nat → Node K V → MessageMap K V → BProg (Node K V × σ)} {news : σ → PivotMap K V}
    {done : Betree K V → σ → ρ} (hr : ∀ n, bet.reload n = some n)
    (hflush : Prog.All P E
      (flush (t.root.height + 1) t.root [(⟨k, t.nextTimestamp⟩, ⟨opcode, v⟩)]))
    (hwhole : ∀ root made, P (root, made) → news made = [] →
      Q (done ⟨root, (t.nextTimestamp + 1) % 2 ^ 64⟩ made))
    (hgrow : ∀ root made, P (root, made) → news made ≠ [] →
      Prog.All (fun n => Q (done ⟨n, (t.nextTimestamp + 1) % 2 ^ 64⟩ made)) E
        (growRoot bet root (news made))) :
    Prog.All Q E (t.upsertWith bet flush news done opcode k v) := by
  unfold upsertWith
  refine (all_deref hr hflush).bind (fun r hres => ?_)
  obtain ⟨root, made⟩ := r
  dsimp only
  by_cases hnil : news made = []
  · rw [if_pos (by rw [hnil]; rfl)]
    exact hwhole root made hres hnil
  · rw [if_neg (by simpa using hnil)]
    exact (hgrow root made hres hnil).bind (fun n hn => hn)

omit [LinearOrder K] in
/-- The new root is over the new nodes, and has an empty buffer. -/
theorem all_growRoot_eq {root : Node K V} {news : PivotMap K V}
    (hr : ∀ n, bet.reload n = some n) :
    Prog.All (fun n => n.pivots = news ∧ n.elements = []) E (growRoot bet root news) := by
  intro id _
  have hderef : Prog.All (fun r => r.1.pivots = news ∧ r.1.elements = []) E
      ((⟨id, [], []⟩ : Node K V).deref bet true
        (fun n => return ({ n with pivots := news }, ()))) := all_deref hr ⟨rfl, rfl⟩
  exact hderef.bind (fun r hres => hres)

variable [Add V]

theorem apply_eq (t : Betree K V) (u : Upsert K V) :
    t.apply bet u = applyWith bet
      (t.upsertWith bet (fun fuel n elts => n.flush bet fuel elts) id (fun t _ => t)) u := by
  cases u <;> rfl

theorem applyAll_eq (t : Betree K V) (us : List (Upsert K V)) :
    t.applyAll bet us
      = t.applyAllBy bet (fun fuel n elts => n.flush bet fuel elts) us := by
  induction us generalizing t with
  | nil => rfl
  | cons u us ih =>
      have hrest : (fun t => applyAll bet t us)
          = fun t => applyAllBy bet (fun fuel n elts => n.flush bet fuel elts) t us := funext ih
      rw [applyAll, hrest, apply_eq]
      rfl

end Betree

/-! ## Flushes with more assertions -/

section Restricts

open Prog

variable {e : Fault}

omit [LinearOrder K] in
theorem restricts_deref {α : Type} {dirty : Bool} {body body' : Node K V → BProg (Node K V × α)}
    (hbody : ∀ m, Restricts e (body m) (body' m)) :
    Restricts e (n.deref bet dirty body) (n.deref bet dirty body') := by
  unfold deref
  refine (Restricts.refl _).bind (fun _ => (Restricts.refl _).bind (fun _ => ?_))
  exact (Restricts.refl _).bind (fun _ => (hbody _).bind (fun _ => Restricts.refl _))

theorem restricts_flushDirty {flushChild flushChild' : Flush K V}
    {c : OrdMap.Cursor K (ChildInfo (Node K V))} {elts : MessageMap K V}
    (hchild : ∀ m elts, Restricts e (flushChild m elts) (flushChild' m elts)) :
    Restricts e (n.flushDirty bet flushChild c elts) (n.flushDirty bet flushChild' c elts) := by
  unfold flushDirty
  refine (Restricts.refl _).bind (fun _ => ?_)
  exact (restricts_deref (fun m => hchild m elts)).bind (fun _ => Restricts.refl _)

theorem restricts_flushRound {flushChild flushChild' : Flush K V}
    {c : OrdMap.Cursor K (ChildInfo (Node K V))} {first : Option K}
    (hchild : ∀ m elts, Restricts e (flushChild m elts) (flushChild' m elts)) :
    Restricts e (n.flushRound bet flushChild c first) (n.flushRound bet flushChild' c first) := by
  unfold flushRound
  exact (restricts_deref (fun m => hchild m _)).bind (fun _ => Restricts.refl _)

theorem restricts_loopBy {round round' : Node K V → OrdMap.Cursor K (ChildInfo (Node K V)) →
      Option K → BProg (Node K V × Option K)} {fuel : Nat} {first : Option K}
    (hround : ∀ n c first, Restricts e (round n c first) (round' n c first)) :
    Restricts e (loopBy bet round fuel n first) (loopBy bet round' fuel n first) := by
  induction fuel generalizing n first with
  | zero => exact Restricts.refl _
  | succ fuel ih =>
      unfold loopBy loopStep
      refine restricts_ite ?_ (Restricts.refl _)
      cases n.pivots with
      | nil => exact Restricts.refl _
      | cons p rest =>
          refine (Restricts.refl _).bind (fun worth => restricts_ite ?_ (Restricts.refl _))
          exact (hround _ _ _).bind (fun r => ih)

variable [Add V]

/-- Assertions in the fast path and in the rounds are assertions of the whole flush. -/
theorem restricts_flushBy
    {dirty dirty' : Flush K V → Node K V → OrdMap.Cursor K (ChildInfo (Node K V)) →
      MessageMap K V → BProg (Node K V)}
    {round round' : Flush K V → Node K V → OrdMap.Cursor K (ChildInfo (Node K V)) → Option K →
      BProg (Node K V × Option K)}
    (hdirty : ∀ flushChild flushChild', (∀ m elts, Restricts e (flushChild m elts) (flushChild' m elts)) →
      ∀ n c elts, Restricts e (dirty flushChild n c elts) (dirty' flushChild' n c elts))
    (hround : ∀ flushChild flushChild', (∀ m elts, Restricts e (flushChild m elts) (flushChild' m elts)) →
      ∀ n c first, Restricts e (round flushChild n c first) (round' flushChild' n c first))
    (fuel : Nat) (n : Node K V) (elts : MessageMap K V) :
    Restricts e (flushBy bet dirty round fuel n elts) (flushBy bet dirty' round' fuel n elts) := by
  induction fuel generalizing n elts with
  | zero => exact Restricts.refl _
  | succ fuel ih =>
      unfold flushBy flushWith
      split
      · refine restricts_ite (Restricts.refl _) ?_
        unfold innerWith
        refine (Restricts.refl _).bind (fun first => (Restricts.refl _).bind (fun last => ?_))
        refine (Restricts.refl _).bind (fun toDirty => restricts_ite ?_ ?_)
        · exact (hdirty _ _ ih _ _ _).bind (fun _ => Restricts.refl _)
        · exact (restricts_loopBy (hround _ _ ih)).bind (fun _ => Restricts.refl _)
      · exact Restricts.refl _

omit [LinearOrder K] [Add V] in
theorem Betree.restricts_applyWith {flush flush' : Nat → Flush K V}
    (hflush : ∀ fuel n elts, Restricts e (flush fuel n elts) (flush' fuel n elts))
    (u : Upsert K V) (t : Betree K V) :
    Restricts e (applyWith bet (t.upsertWith bet flush id (fun t _ => t)) u)
      (applyWith bet (t.upsertWith bet flush' id (fun t _ => t)) u) := by
  have hupsert : ∀ opcode k v,
      Restricts e (t.upsertWith bet flush id (fun t _ => t) opcode k v)
        (t.upsertWith bet flush' id (fun t _ => t) opcode k v) := by
    intro opcode k v
    exact (restricts_deref (fun m => hflush _ m _)).bind (fun _ => Restricts.refl _)
  cases u <;> exact hupsert _ _ _

omit [LinearOrder K] [Add V] in
theorem restricts_applyAllBy {flush flush' : Nat → Flush K V}
    (hflush : ∀ fuel n elts, Restricts e (flush fuel n elts) (flush' fuel n elts))
    (us : List (Upsert K V)) (t : Betree K V) :
    Restricts e (t.applyAllBy bet flush us) (t.applyAllBy bet flush' us) := by
  induction us generalizing t with
  | nil => exact Restricts.refl _
  | cons u us ih => exact (Betree.restricts_applyWith hflush u t).bind (fun t => ih t)

end Restricts

end BeTree
