import BeTree.Tree.Merge
import BeTree.Proof.Shape
import Mathlib.Algebra.Order.BigOperators.Group.List
import Mathlib.Algebra.Order.Ring.Nat

/-!
# What merging children does to the pivots

Every run of `merge_small_children` goes through the pivots from left to right and either
keeps an entry or replaces a run of entries by one, whose child holds what the children of
the run hold. `Grouped` says so for the whole loop.

The number of children in a run is what the size of the first one goes into the limit. So
the limit is kept when the children that are counted in this way fit, as they do when no
child is larger than the one before it.
-/

namespace BeTree

open Node

variable {K V : Type} [LinearOrder K] {bet : Params K V} {E : Fault → Prop}

/-- The node that holds what the children of a run hold. -/
def joined (id : Nat) (run : PivotMap K V) : Node K V :=
  ⟨id, run.flatMap (fun e => e.2.child.pivots), run.flatMap (fun e => e.2.child.elements)⟩

/-- The pivots and the messages of the children are in order across the children. -/
structure Consecutive (ps : PivotMap K V) : Prop where
  pivots : OrdMap.Sorted (ps.flatMap (fun e => e.2.child.pivots))
  elements : OrdMap.Sorted (ps.flatMap (fun e => e.2.child.elements))

theorem Consecutive.append {a b : PivotMap K V} (h : Consecutive (a ++ b)) :
    Consecutive a ∧ Consecutive b := by
  obtain ⟨hp, he⟩ := h
  rw [List.flatMap_append] at hp he
  obtain ⟨hpa, hpb, -⟩ := OrdMap.sorted_append.mp hp
  obtain ⟨hea, heb, -⟩ := OrdMap.sorted_append.mp he
  exact ⟨⟨hpa, hea⟩, ⟨hpb, heb⟩⟩

/-! ## One run -/

omit [LinearOrder K] in
theorem all_read {α : Type} {c : Node K V} (hr : ∀ n, bet.reload n = some n) (f : Node K V → α) :
    Prog.All (fun r => r = (c, f c)) E
      (c.deref bet true fun c => c.deref bet true fun c => return (c, f c)) :=
  all_deref hr (all_deref hr rfl)

theorem all_mergeChild {n c : Node K V} (hr : ∀ n, bet.reload n = some n)
    (hp : OrdMap.Sorted (n.pivots ++ c.pivots)) (he : OrdMap.Sorted (n.elements ++ c.elements)) :
    Prog.All (fun r => r = (⟨n.id, n.pivots ++ c.pivots, n.elements ++ c.elements⟩, c)) E
      (mergeChild bet n c) := by
  refine Prog.All.bind (Q := fun r => r = (⟨n.id, n.pivots, n.elements ++ c.elements⟩, c)) ?_
    (fun r hres => ?_)
  · refine all_deref hr ((all_read hr Node.elements).bind (fun r hres => ?_))
    rw [hres]
    show (_, _) = (_, _)
    rw [OrdMap.insertAll_append he]
  · rw [hres]
    refine all_deref hr ((all_read hr Node.pivots).bind (fun r hres => ?_))
    rw [hres]
    show (_, _) = (_, _)
    rw [OrdMap.insertAll_append hp]

theorem all_mergeChildren {n : Node K V} {run : PivotMap K V} (hr : ∀ n, bet.reload n = some n)
    (hp : OrdMap.Sorted (n.pivots ++ run.flatMap (fun e => e.2.child.pivots)))
    (he : OrdMap.Sorted (n.elements ++ run.flatMap (fun e => e.2.child.elements))) :
    Prog.All (fun r => r = (⟨n.id, n.pivots ++ run.flatMap (fun e => e.2.child.pivots),
      n.elements ++ run.flatMap (fun e => e.2.child.elements)⟩, run)) E
      (mergeChildren bet run n) := by
  induction run generalizing n with
  | nil =>
      show (n, _) = (_, _)
      rw [List.flatMap_nil, List.flatMap_nil, List.append_nil, List.append_nil, eta]
  | cons e run ih =>
      rw [List.flatMap_cons, ← List.append_assoc] at hp he
      rw [mergeChildren]
      refine (all_mergeChild hr (OrdMap.sorted_append.mp hp).1
        (OrdMap.sorted_append.mp he).1).bind (fun r hres => ?_)
      rw [hres]
      refine (ih hp he).bind (fun r hres => ?_)
      rw [hres]
      show (_, _) = (_, _)
      rw [List.flatMap_cons, List.flatMap_cons, List.append_assoc, List.append_assoc]

theorem all_merge {run : PivotMap K V} (hr : ∀ n, bet.reload n = some n) (h : Consecutive run) :
    Prog.All (fun r => (∃ id, r.1 = joined id run) ∧ r.2 = run) E (merge bet run) := by
  refine Prog.All.bind (Q := fun n => n.pivots = [] ∧ n.elements = []) (fun _ => ⟨rfl, rfl⟩)
    (fun n hn => ?_)
  obtain ⟨id, pivots, elements⟩ := n
  obtain ⟨rfl, rfl⟩ := hn
  refine (all_mergeChildren (n := ⟨id, [], []⟩) hr h.pivots h.elements).mono (fun r hres => ?_)
  rw [hres]
  exact ⟨⟨id, rfl⟩, rfl⟩

omit [LinearOrder K] in
theorem all_clearChildren {run : PivotMap K V} (hr : ∀ n, bet.reload n = some n) :
    Prog.All (fun _ => True) E (clearChildren bet run) := by
  induction run with
  | nil => trivial
  | cons e run ih =>
      rw [clearChildren]
      refine Prog.All.bind (Q := fun _ => True) (all_deref hr ?_) (fun _ _ => ?_)
      · exact trivial
      · refine Prog.All.bind (Q := fun _ => True) (all_deref hr ?_) (fun _ _ => ih)
        exact trivial

omit [LinearOrder K] in
theorem all_releaseChildren {run : PivotMap K V} :
    Prog.All (fun _ => True) E (releaseChildren run) := by
  induction run with
  | nil => trivial
  | cons e run ih => exact fun _ => ih

/-! ## The loop -/

section Runs

omit [LinearOrder K]

variable {limit s : Nat}

theorem mergeRun_append (ps : PivotMap K V) (total : Nat) :
    (mergeRun limit s ps total).1 ++ (mergeRun limit s ps total).2 = ps := by
  induction ps generalizing total with
  | nil => rfl
  | cons e ps ih =>
      rw [mergeRun]
      split
      · rfl
      · exact congrArg (e :: ·) (ih _)

/-- The first child is in the run, or there is none. -/
theorem mergeRun_cons (limit s : Nat) (e : K × ChildInfo (Node K V)) (rest : PivotMap K V)
    (total : Nat) :
    (limit < (total + s) % 2 ^ 64 ∧ mergeRun limit s (e :: rest) total = ([], e :: rest))
    ∨ ((total + s) % 2 ^ 64 ≤ limit ∧ ∃ run left,
      mergeRun limit s (e :: rest) total = (e :: run, left) ∧ rest = run ++ left) := by
  rw [mergeRun]
  split
  · rename_i hlt
    exact .inl ⟨hlt, rfl⟩
  · rename_i hle
    exact .inr ⟨Nat.le_of_not_lt hle, _, _, rfl, (mergeRun_append rest _).symm⟩

end Runs

/-- The pivots before and after the loop. -/
inductive Grouped (limit : Nat) : PivotMap K V → PivotMap K V → Prop
  | nil : Grouped limit [] []
  /-- The child is too large to begin a run. -/
  | keep {e rest res} : limit < e.2.childSize % 2 ^ 64 → Grouped limit rest res →
      Grouped limit (e :: rest) (e :: res)
  | merge {e run left res} (id : Nat) : e.2.childSize % 2 ^ 64 ≤ limit →
      mergeRun limit e.2.childSize (e :: (run ++ left)) 0 = (e :: run, left) →
      Grouped limit left res →
      Grouped limit (e :: (run ++ left))
        ((e.1, ⟨joined id (e :: run), (joined id (e :: run)).size⟩) :: res)

/-- One entry in the place of a run. -/
theorem sorted_merged {front run left : PivotMap K V} {e : K × ChildInfo (Node K V)}
    (hs : OrdMap.Sorted (front ++ e :: (run ++ left))) (c : ChildInfo (Node K V)) :
    OrdMap.Sorted (front ++ (e.1, c) :: left) := by
  obtain ⟨hfront, hrest, hlt⟩ := OrdMap.sorted_append.mp hs
  obtain ⟨he, hrest⟩ := OrdMap.sorted_cons.mp hrest
  refine OrdMap.sorted_append.mpr ⟨hfront, OrdMap.sorted_cons.mpr
    ⟨fun x hx => he x (List.mem_append_right _ hx), (OrdMap.sorted_append.mp hrest).2.1⟩,
    fun x hx y hy => ?_⟩
  rcases List.mem_cons.mp hy with rfl | hy
  · exact hlt x hx e List.mem_cons_self
  · exact hlt x hx y (List.mem_cons_of_mem _ (List.mem_append_right _ hy))

theorem all_mergeLoop {fuel : Nat} {front rest : PivotMap K V} (hr : ∀ n, bet.reload n = some n)
    (hfuel : rest.length ≤ fuel) (hs : OrdMap.Sorted (front ++ rest)) (hc : Consecutive rest) :
    Prog.All (fun r => ∃ res, r = front ++ res ∧ Grouped (mergeLimit bet.maxNodeSize) rest res) E
      (mergeLoop bet fuel front rest) := by
  induction fuel generalizing front rest with
  | zero =>
      rw [List.length_eq_zero_iff.mp (Nat.le_zero.mp hfuel), mergeLoop]
      exact ⟨[], (List.append_nil front).symm, .nil⟩
  | succ fuel ih =>
      cases rest with
      | nil =>
          rw [mergeLoop]
          exact ⟨[], (List.append_nil front).symm, .nil⟩
      | cons e rest =>
          rw [List.length_cons] at hfuel
          rw [mergeLoop]
          rcases mergeRun_cons (mergeLimit bet.maxNodeSize) e.2.childSize e rest 0 with
            ⟨hlt, hrun⟩ | ⟨hle, run, left, hrun, rfl⟩
          · rw [hrun]
            rw [Nat.zero_add] at hlt
            have hs' : OrdMap.Sorted ((front ++ [e]) ++ rest) := by
              rw [List.append_assoc]
              exact hs
            refine (ih (Nat.le_of_succ_le_succ hfuel) hs'
              (Consecutive.append (a := [e]) hc).2).mono (fun r hres => ?_)
            obtain ⟨res, rfl, hres⟩ := hres
            exact ⟨e :: res, List.append_assoc _ _ _, .keep hlt hres⟩
          · rw [hrun]
            rw [Nat.zero_add] at hle
            obtain ⟨hcrun, hcleft⟩ := Consecutive.append (a := e :: run) hc
            refine (all_merge hr hcrun).bind (fun r hres => ?_)
            obtain ⟨merged, run'⟩ := r
            obtain ⟨⟨id, rfl⟩, rfl⟩ := hres
            refine (all_clearChildren hr).bind (fun _ _ => all_releaseChildren.bind (fun _ _ => ?_))
            refine (all_derefSize hr).bind (fun r hres => ?_)
            rw [hres]
            dsimp only
            -- the new entry takes the place of the first one of the run
            have hs' := sorted_merged hs ⟨joined id (e :: run), (joined id (e :: run)).size⟩
            rw [OrdMap.assign_between hs', (OrdMap.front_at hs').1, (OrdMap.front_at hs').2]
            have hleft : left.length ≤ fuel := by
              rw [List.length_append] at hfuel
              omega
            refine (ih hleft (by rw [List.append_assoc]; exact hs') hcleft).mono (fun r hres => ?_)
            obtain ⟨res, rfl, hres⟩ := hres
            exact ⟨_, List.append_assoc _ _ _, .merge id hle hrun hres⟩

/-! ## In a search tree -/

theorem SearchTree.consecutive {n : Node K V} (hn : SearchTree n)
    (hord : ∀ x ∈ n.nodes, OrdMap.Sorted x.elements) : Consecutive n.pivots := by
  have hlt : ∀ e ∈ n.pivots, ∀ e' ∈ n.pivots, e.1 < e'.1 → ∀ k ∈ e.2.child.keys,
      ∀ k' ∈ e'.2.child.keys, k < k' := by
    intro e he e' he' hlt k hk k' hk'
    have hslot := hn.slot (mem_nodes_self n) he hk
    exact lt_of_lt_of_le (hslot.2 e' he' hlt) (hn.slot (mem_nodes_self n) he' hk').1
  constructor
  · refine List.pairwise_flatMap.mpr ⟨fun e he => hn.pivots _ (child_mem_nodes he), ?_⟩
    refine List.Pairwise.imp_of_mem (fun he he' h x hx y hy => ?_) hn.sorted
    exact hlt _ he _ he' h _ (mem_keys.mpr (.inl ⟨x, hx, .inl rfl⟩)) _
      (mem_keys.mpr (.inl ⟨y, hy, .inl rfl⟩))
  · refine List.pairwise_flatMap.mpr ⟨fun e he => hord _ (child_mem_nodes he), ?_⟩
    refine List.Pairwise.imp_of_mem (fun he he' h x hx y hy => ?_) hn.sorted
    exact MessageKey.lt_iff.mpr (.inl (hlt _ he _ he' h _ (mem_keys.mpr (.inr ⟨x, hx, rfl⟩)) _
      (mem_keys.mpr (.inr ⟨y, hy, rfl⟩))))

/-- **`merge_small_children`** groups the pivots of a search tree, and stops with no fault. -/
theorem all_mergeSmallChildren {n : Node K V} (hr : ∀ n, bet.reload n = some n) (hn : SearchTree n)
    (hord : ∀ x ∈ n.nodes, OrdMap.Sorted x.elements) :
    Prog.All (fun r => ∃ res, r = { n with pivots := res }
      ∧ Grouped (mergeLimit bet.maxNodeSize) n.pivots res) E (n.mergeSmallChildren bet) := by
  unfold mergeSmallChildren
  split
  · rename_i hl
    have hnil : n.pivots = [] := List.isEmpty_iff.mp hl
    refine ⟨n.pivots, (eta n).symm, ?_⟩
    rw [hnil]
    exact .nil
  · refine (all_mergeLoop hr le_rfl (List.nil_append n.pivots ▸ hn.sorted) (hn.consecutive hord)).bind
      (fun r hres => ?_)
    obtain ⟨res, hr', hres⟩ := hres
    rw [hr']
    exact ⟨res, rfl, hres⟩

/-! ## The limit -/

/-- Wherever a run begins, with a child of size `s`, the next `limit / s` children have
together at most `bound` entries. -/
def Fits (limit bound : Nat) : List Nat → Prop
  | [] => True
  | s :: sizes =>
    if limit < s then Fits limit bound sizes
    else
      let count := if s = 0 then sizes.length + 1 else limit / s
      ((s :: sizes).take count).sum ≤ bound ∧ Fits limit bound (sizes.drop (count - 1))
termination_by sizes => sizes.length
decreasing_by
  · exact Nat.lt_succ_self _
  · rw [List.length_drop, List.length_cons]
    omega

omit [LinearOrder K] in
theorem joined_size (id : Nat) (run : PivotMap K V) :
    (joined id run).size = (run.map (fun e => e.2.child.size)).sum := by
  induction run with
  | nil => rfl
  | cons e run ih =>
      unfold joined size at ih ⊢
      rw [List.flatMap_cons, List.flatMap_cons, List.length_append, List.length_append,
        List.map_cons, List.sum_cons, ← ih]
      dsimp only
      omega

omit [LinearOrder K] in
/-- The inner loop counts how often the first size goes into the limit. -/
theorem mergeRun_eq {limit s total : Nat} (hlimit : 2 * limit < 2 ^ 64) (hs : s ≤ limit)
    (htotal : total ≤ limit) (ps : PivotMap K V) :
    mergeRun limit s ps total
      = (ps.take (if s = 0 then ps.length else (limit - total) / s),
        ps.drop (if s = 0 then ps.length else (limit - total) / s)) := by
  induction ps generalizing total with
  | nil => simp [mergeRun]
  | cons e ps ih =>
      have hmod : (total + s) % 2 ^ 64 = total + s := Nat.mod_eq_of_lt (by omega)
      rw [mergeRun, hmod]
      by_cases hfit : total + s ≤ limit
      · rw [if_neg (Nat.not_lt.mpr hfit), ih hfit]
        by_cases hzero : s = 0
        · rw [if_pos hzero, if_pos hzero]
          rfl
        · have hstep : (limit - total) / s = (limit - (total + s)) / s + 1 := by
            rw [Nat.div_eq_sub_div (Nat.pos_of_ne_zero hzero) (by omega), Nat.sub_sub]
          rw [if_neg hzero, if_neg hzero, hstep]
          rfl
      · have hzero : s ≠ 0 := by omega
        have hnone : (limit - total) / s = 0 := Nat.div_eq_of_lt (by omega)
        rw [if_pos (Nat.lt_of_not_le hfit), if_neg hzero, hnone]
        rfl

/-- The entries that the loop has made are within the bound when the sizes fit. -/
theorem Grouped.within_iff {limit bound : Nat} {ps rest res : PivotMap K V}
    (hlimit : 2 * limit < 2 ^ 64) (hbound : limit ≤ bound) (hs : OrdMap.Sorted ps)
    (hg : Grouped limit rest res) (hsub : ∀ e ∈ rest, e ∈ ps)
    (hacc : ∀ e ∈ rest, e.2.childSize = e.2.child.size ∧ e.2.child.size < 2 ^ 64) :
    (∀ e ∈ res, e ∉ ps → e.2.child.size ≤ bound)
      ↔ Fits limit bound (rest.map (fun e => e.2.child.size)) := by
  induction hg with
  | nil =>
      rw [List.map_nil, Fits]
      exact iff_of_true (fun _ hmem => absurd hmem List.not_mem_nil) trivial
  | @keep e rest res hlt hg ih =>
      rw [List.forall_mem_cons] at hsub hacc ⊢
      rw [hacc.1.1, Nat.mod_eq_of_lt hacc.1.2] at hlt
      rw [ih hsub.2 hacc.2, List.map_cons, Fits, if_pos hlt]
      exact and_iff_right (fun hno => absurd hsub.1 hno)
  | @merge e run left res id hle hrun hg ih =>
      have he := hsub e List.mem_cons_self
      obtain ⟨hsize, hmod⟩ := hacc e List.mem_cons_self
      rw [hsize, Nat.mod_eq_of_lt hmod] at hle
      rw [hsize, mergeRun_eq hlimit hle (Nat.zero_le _), Nat.sub_zero, List.length_cons,
        Prod.mk.injEq] at hrun
      have hleft : ∀ x ∈ left, x ∈ e :: (run ++ left) :=
        fun x hx => List.mem_cons_of_mem _ (List.mem_append_right _ hx)
      rw [List.forall_mem_cons, ih (fun x hx => hsub x (hleft x hx)) (fun x hx => hacc x (hleft x hx)),
        List.map_cons, Fits, if_neg (Nat.not_lt.mpr hle), List.length_map]
      dsimp only
      generalize (if e.2.child.size = 0 then (run ++ left).length + 1
        else limit / e.2.child.size) = count at hrun ⊢
      cases count with
      | zero => exact absurd hrun.1 (List.cons_ne_nil _ _).symm
      | succ count =>
          have htake : (run ++ left).take count = run := (List.cons.inj hrun.1).2
          have hdrop : (run ++ left).drop count = left := hrun.2
          have hsum : (e.2.child.size :: run.map (fun e => e.2.child.size)).sum
              = (joined id (e :: run)).size := (joined_size id (e :: run)).symm
          rw [Nat.add_sub_cancel, List.take_succ_cons, ← List.map_take, ← List.map_drop, htake, hdrop,
            hsum]
          refine and_congr_left (fun _ => ⟨fun hin => ?_, fun hin _ => hin⟩)
          by_contra hover
          -- the entry that was under this key has a smaller child
          refine hover (hin (fun hmem => hover ?_))
          have heq := hs.eq_of_key hmem he rfl
          rw [← heq] at hle
          exact le_trans hle hbound

theorem mergeLimit_le (maxNodeSize : Nat) : mergeLimit maxNodeSize ≤ 6 * maxNodeSize / 10 :=
  Nat.div_le_div_right (Nat.mod_le _ _)

theorem two_mul_mergeLimit_lt (maxNodeSize : Nat) : 2 * mergeLimit maxNodeSize < 2 ^ 64 := by
  unfold mergeLimit
  omega

/-- Sizes fit when none is larger than the one before it. -/
theorem fits_of_antitone {limit bound : Nat} (hbound : limit ≤ bound) {sizes : List Nat}
    (h : sizes.Pairwise (· ≥ ·)) : Fits limit bound sizes := by
  induction sizes using Fits.induct limit with
  | case1 => rw [Fits]; trivial
  | case2 s sizes hlt ih =>
      rw [Fits, if_pos hlt]
      exact ih (List.pairwise_cons.mp h).2
  | case3 s sizes hle count ih =>
      obtain ⟨hs, hsizes⟩ := List.pairwise_cons.mp h
      rw [Fits, if_neg hle]
      refine ⟨?_, ih (hsizes.sublist (List.drop_sublist _ _))⟩
      have hall : ∀ x ∈ (s :: sizes).take count, x ≤ s := by
        intro x hx
        rcases List.mem_cons.mp (List.mem_of_mem_take hx) with rfl | hx
        · exact le_rfl
        · exact hs x hx
      calc ((s :: sizes).take count).sum
          ≤ ((s :: sizes).take count).length * s := List.sum_le_card_nsmul _ _ hall
        _ ≤ limit := by
            rw [List.length_take]
            by_cases hzero : s = 0
            · rw [hzero, Nat.mul_zero]
              exact Nat.zero_le _
            · have hcount : count = limit / s := dif_neg hzero
              calc min count (s :: sizes).length * s
                  ≤ limit / s * s := by
                    rw [← hcount]
                    exact Nat.mul_le_mul_right s (Nat.min_le_left _ _)
                _ ≤ limit := Nat.div_mul_le_self _ _
        _ ≤ bound := hbound

/-- The limit is kept when no child is larger than the one before it. -/
theorem all_merged_within {n : Node K V} (hr : ∀ n, bet.reload n = some n) (hn : SearchTree n)
    (hord : ∀ x ∈ n.nodes, OrdMap.Sorted x.elements)
    (hacc : ∀ e ∈ n.pivots, e.2.childSize = e.2.child.size ∧ e.2.child.size < 2 ^ 64)
    (hanti : (n.pivots.map (fun e => e.2.child.size)).Pairwise (· ≥ ·)) :
    Prog.All (fun r => ∀ e ∈ r.pivots, e ∉ n.pivots → e.2.child.size ≤ 6 * bet.maxNodeSize / 10) E
      (n.mergeSmallChildren bet) := by
  refine (all_mergeSmallChildren hr hn hord).mono (fun r hres => ?_)
  obtain ⟨res, rfl, hg⟩ := hres
  exact (hg.within_iff (two_mul_mergeLimit_lt _) (mergeLimit_le _) hn.sorted (fun _ he => he)
    hacc).mpr (fits_of_antitone (mergeLimit_le _) hanti)

/--
**The size limit of `merge_small_children`.** In a search tree whose recorded sizes are
right, the new children hold at most `6 * max_node_size / 10` entries exactly when the
sizes fit.
-/
theorem merged_within_iff (bet : Params K V) (hr : ∀ n, bet.reload n = some n) (n : Node K V)
    (hn : SearchTree n) (hord : ∀ x ∈ n.nodes, OrdMap.Sorted x.elements)
    (hacc : ∀ e ∈ n.pivots, e.2.childSize = e.2.child.size ∧ e.2.child.size < 2 ^ 64) :
    Prog.All
      (fun r => (∀ e ∈ r.pivots, e ∉ n.pivots → e.2.child.size ≤ 6 * bet.maxNodeSize / 10)
        ↔ Fits (mergeLimit bet.maxNodeSize) (6 * bet.maxNodeSize / 10)
          (n.pivots.map (fun e => e.2.child.size)))
      (fun _ => False) (n.mergeSmallChildren bet) := by
  refine (all_mergeSmallChildren hr hn hord).mono (fun r hres => ?_)
  obtain ⟨res, rfl, hg⟩ := hres
  exact hg.within_iff (two_mul_mergeLimit_lt _) (mergeLimit_le _) hn.sorted (fun _ he => he) hacc

/-- A leaf with one insert for each key. -/
def leafOf (id : Nat) (keys : List Nat) : Node Nat Nat :=
  ⟨id, [], keys.map (fun k => (⟨k, k + 1⟩, ⟨.insert, 0⟩))⟩

/-- A small leaf, and two larger ones. -/
def threeLeaves : Node Nat Nat :=
  ⟨1, [(0, ⟨leafOf 2 [0], 1⟩), (1, ⟨leafOf 3 [1, 2, 3], 3⟩), (4, ⟨leafOf 4 [4, 5, 6], 3⟩)], []⟩

theorem leafForm_leafOf {id : Nat} {keys : List Nat} (hs : keys.Pairwise (· < ·)) (k : Nat) :
    LeafForm (opcodes (ofKey (leafOf id keys).elements k)) := by
  induction keys with
  | nil => exact .inl rfl
  | cons x keys ih =>
      obtain ⟨hx, hs⟩ := List.pairwise_cons.mp hs
      unfold leafOf ofKey at ih ⊢
      rw [List.map_cons]
      by_cases hk : x = k
      · have hrest : (keys.map (fun k => ((⟨k, k + 1⟩ : MessageKey Nat),
            (⟨.insert, 0⟩ : Message Nat)))).filter (fun e => decide (e.1.key = k)) = [] := by
          refine List.filter_eq_nil_iff.mpr (fun e he => ?_)
          obtain ⟨y, hy, rfl⟩ := List.mem_map.mp he
          have hne : y ≠ k := hk ▸ ne_of_gt (hx y hy)
          simpa using hne
        rw [List.filter_cons_of_pos (by simpa using hk), hrest]
        exact .inr rfl
      · rw [List.filter_cons_of_neg (by simpa using hk)]
        exact ih hs

theorem inv_leafOf {R : Nat → Prop} {id : Nat} {keys : List Nat} (hs : keys.Pairwise (· < ·))
    (hkeys : ∀ k ∈ keys, k < uint64Max ∧ R k) : Inv True 0 R (leafOf id keys) := by
  have hmem : ∀ e ∈ (leafOf id keys).elements, ∃ k ∈ keys, e = (⟨k, k + 1⟩, ⟨.insert, 0⟩) := by
    intro e he
    obtain ⟨k, hk, rfl⟩ := List.mem_map.mp he
    exact ⟨k, hk, rfl⟩
  refine ⟨rfl, ?_, ?_, ?_, ?_, fun _ k => leafForm_leafOf hs k⟩
  · exact List.pairwise_map.mpr (hs.imp (fun hlt => MessageKey.lt_iff.mpr (.inl hlt)))
  · intro e he
    obtain ⟨k, hk, rfl⟩ := hmem e he
    exact (hkeys k hk).1
  · intro _ e he
    obtain ⟨k, hk, rfl⟩ := hmem e he
    exact Nat.succ_pos k
  · intro e he
    obtain ⟨k, hk, rfl⟩ := hmem e he
    exact (hkeys k hk).2

theorem inv_threeLeaves : Inv True 1 (fun _ => True) threeLeaves := by
  refine ⟨Buffer.nil, ⟨?_, fun _ _ => trivial, ?_⟩, by simp [threeLeaves], ?_, ?_⟩
  · unfold OrdMap.Sorted threeLeaves
    decide
  · refine List.forall_mem_cons.mpr ⟨?_, List.forall_mem_cons.mpr ⟨?_, List.forall_mem_singleton.mpr ?_⟩⟩
    · exact inv_leafOf (by decide) (by simp [Slot, threeLeaves, uint64Max])
    · exact inv_leafOf (by decide) (by simp [Slot, threeLeaves, uint64Max])
    · exact inv_leafOf (by decide) (by simp [Slot, threeLeaves, uint64Max])
  · exact fun e he => absurd he List.not_mem_nil
  · exact fun _ _ _ e he => absurd he List.not_mem_nil

theorem threeLeaves_accurate : ∀ e ∈ threeLeaves.pivots,
    e.2.childSize = e.2.child.size ∧ e.2.child.size < 2 ^ 64 := by
  unfold threeLeaves
  decide

theorem merged_within_iff_three : Prog.All
    (fun r => ∀ e ∈ r.pivots, e ∉ threeLeaves.pivots → e.2.child.size ≤ 7) (fun _ => False)
    (threeLeaves.mergeSmallChildren ⟨12, 0, 0, some⟩) := by
  have hinv := inv_threeLeaves
  refine (merged_within_iff ⟨12, 0, 0, some⟩ (fun _ => rfl) threeLeaves hinv.searchTree
    (hinv.messageDiscipline trivial).ordered threeLeaves_accurate).mono (fun r hres => hres.mpr ?_)
  show Fits 7 7 [1, 3, 3]
  simp [Fits]

/-- With a maximum size of 5 the limit is 3, and three children with 7 entries are merged. -/
theorem merged_too_large :
    SearchTree threeLeaves ∧ MessageDiscipline threeLeaves
    ∧ (∀ e ∈ threeLeaves.pivots, e.2.childSize = e.2.child.size ∧ e.2.child.size < 2 ^ 64)
    ∧ ∃ r, (threeLeaves.mergeSmallChildren ⟨5, 0, 0, some⟩).run neverDirty 5 = (.ok r, 6)
      ∧ ∃ e ∈ r.pivots, e ∉ threeLeaves.pivots ∧ 6 * 5 / 10 < e.2.child.size := by
  have hinv := inv_threeLeaves
  refine ⟨hinv.searchTree, hinv.messageDiscipline trivial, threeLeaves_accurate,
    ⟨1, [(0, ⟨leafOf 5 [0, 1, 2, 3, 4, 5, 6], 7⟩)], []⟩, rfl, _, List.mem_cons_self, fun hmem => ?_,
    by decide⟩
  have hsize : ∀ e ∈ threeLeaves.pivots, e.2.child.size < 7 := by
    unfold threeLeaves
    decide
  exact absurd (hsize _ hmem) (by decide)

end BeTree
