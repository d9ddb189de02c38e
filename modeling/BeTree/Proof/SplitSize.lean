import Mathlib.Tactic.Ring
import BeTree.Proof.Split

/-!
# How large the pieces of a split are

With `q = 10 * max_node_size / 24`, a node of `n` entries is split into `n / q` pieces. That
is at least two, so what is over after as many quotas is shared, and a piece is to get at
most one and a half of them. The cumulative targets are overshot by the messages of one
child, and what one piece gets too much the next one gets less.
-/

namespace BeTree

open Node

variable {K V : Type}

/-! ## The arithmetic of `split` -/

section Counts

variable {m size e : Nat}

/-- The divisor of `num_new_leaves`, when nothing wraps around. -/
theorem leafQuota_eq (hm : m < 2 ^ 31) : leafQuota m = 10 * m / 24 := by
  unfold leafQuota
  rw [Nat.mod_eq_of_lt (by omega)]

/-- A node with `e` entries too many is split into at most `e + 1`. -/
theorem numNewLeaves_le (hm : 24 ≤ m) (hlt : m < 2 ^ 31) (he : 0 < e) (hsize : size ≤ m + e) :
    numNewLeaves m size ≤ e + 1 := by
  unfold numNewLeaves
  rw [leafQuota_eq hlt]
  have hq : 10 ≤ 10 * m / 24 := by omega
  have h3 : m + 1 < 3 * (10 * m / 24) := by omega
  have hbound : m + e < (e + 2) * (10 * m / 24) := by
    have hmul : (e - 1) * 1 ≤ (e - 1) * (10 * m / 24) := Nat.mul_le_mul_left _ (by omega)
    have hsplit : (e + 2) * (10 * m / 24) = (e - 1) * (10 * m / 24) + 3 * (10 * m / 24) := by
      rw [← Nat.add_mul]
      congr 1
      omega
    omega
  exact Nat.le_of_lt_succ ((Nat.div_lt_iff_lt_mul (by omega)).mpr (by
    rw [show (e + 1).succ = e + 2 from rfl]; omega))

/-- A piece is to hold at most one and a half times the quota. -/
theorem thingsPerNewLeaf_le (hm : 3 ≤ m) (hlt : m < 2 ^ 31) (hsize : m ≤ size) :
    thingsPerNewLeaf size (numNewLeaves m size) ≤ 10 * m / 24 + 10 * m / 24 / 2 := by
  unfold thingsPerNewLeaf numNewLeaves
  rw [leafQuota_eq hlt]
  generalize hq : 10 * m / 24 = q
  have hqpos : 0 < q := by omega
  have htwo : 2 ≤ size / q := (Nat.le_div_iff_mul_le hqpos).mpr (by omega)
  have hdiv := Nat.div_add_mod size q
  have hmod := Nat.mod_lt size hqpos
  generalize hnum : size / q = num at *
  -- with two pieces or more, what is over after `num` quotas is shared by them
  have hbound : size + num - 1 < num * (q + q / 2 + 1) := by
    have hhalf : q ≤ 2 * (q / 2) + 1 := by omega
    have hmul : 2 * (q / 2) ≤ num * (q / 2) := Nat.mul_le_mul_right _ htwo
    have hexp : num * (q + q / 2 + 1) = q * num + num * (q / 2) + num := by ring
    omega
  have hlt := (Nat.div_lt_iff_lt_mul (show 0 < num by omega)).mpr (by
    rw [Nat.mul_comm]; exact hbound)
  omega

end Counts

variable [LinearOrder K]

/-! ## The pieces -/

namespace Node

variable {this : Node K V} {m bound : Nat} {res : PivotMap K V}

/-- A node that is larger than every piece is cut into two at least. -/
theorem IsSplit.two_le (h : IsSplit m this bound res)
    (hlt : thingsPerNewLeaf this.size (numNewLeaves m this.size) + bound < this.size) :
    2 ≤ res.length := by
  have hpivots := h.partition.pivots
  have helements := h.partition.elements
  match res, h, hpivots, helements with
  | [], _, hpivots, helements =>
      have hzero : this.size = 0 := by
        rw [Node.size, ← hpivots, ← helements]
        rfl
      omega
  | [e], h, hpivots, helements =>
      -- one piece is the whole node
      have hwhole : e.2.child.size = this.size := by
        rw [Node.size, Node.size, ← hpivots, ← helements]
        simp [subtrees]
      have := h.size e List.mem_cons_self
      omega
  | _ :: _ :: _, _, _, _ => exact Nat.le_add_left _ _

end Node

/--
**The sizes of a split.** A node of fewer than `2^30` entries whose children have at most `m`
messages each is split, with `q = 10 * max_node_size / 24`, into pieces of at most
`things_per_new_leaf + m` entries, where `things_per_new_leaf` is at most one and a half `q`.
-/
theorem split_sizes (bet : Params K V) (hr : ∀ n, bet.reload n = some n) (hM : 3 ≤ bet.maxNodeSize)
    (n : Node K V) (hn : n.WellFormed) (hsize : bet.maxNodeSize ≤ n.size) (hint : n.size < 2 ^ 30)
    (m : Nat) (hm : ∀ p ∈ n.pivots, n.slotCount p.1 ≤ m) :
    Prog.All (fun counts =>
        counts.2 ≤ 10 * bet.maxNodeSize / 24 + 10 * bet.maxNodeSize / 24 / 2
        ∧ Prog.All (fun r => (∀ e ∈ r.2, e.2.child.size ≤ counts.2 + m)
            ∧ (m ≤ bet.maxNodeSize / 4 → 2 ≤ r.2.length)
            ∧ (n.isLeaf = true → ∀ e ∈ r.2, e.2.child.size < bet.maxNodeSize)
            ∧ (m ≤ bet.maxNodeSize / 4 → ∀ e ∈ r.2, e.2.child.size ≤ bet.maxNodeSize))
          (fun _ => False) (n.split bet))
      (fun _ => False) (splitCounts bet n.size : BProg (Nat × Nat)) := by
  have hfew : ∀ e, ¬ Fault.TooLarge n.size e := fun e he => absurd he.1 (by omega)
  have hthings := thingsPerNewLeaf_le hM (show bet.maxNodeSize < 2 ^ 31 by omega) hsize
  refine (all_splitCounts hM hsize).imp (fun ⟨num, things⟩ hcounts => ?_) hfew
  obtain ⟨hnum, hth, _⟩ := hcounts
  dsimp only at hnum hth ⊢
  rw [hnum] at hth
  rw [hth]
  refine ⟨hthings, ?_⟩
  -- the pieces of a leaf have no overshoot
  have hleaf : Prog.All (fun r => n.isLeaf = true → ∀ e ∈ r.2, e.2.child.size < bet.maxNodeSize)
      (Fault.TooLarge n.size) (n.split bet) := by
    cases hl : n.isLeaf with
    | false =>
        exact (all_split_emptied hr hM hsize hn.splittable hm).mono
          (fun _ _ hc => absurd hc (by simp))
    | true =>
        have hnone : ∀ p ∈ n.pivots, n.slotCount p.1 ≤ 0 := by
          intro p hp
          rw [List.isEmpty_iff.mp hl] at hp
          exact absurd hp (by simp)
        refine (all_split_emptied hr hM hsize hn.splittable hnone).mono (fun r hres _ e he => ?_)
        have := hres.2.size e he
        omega
  refine ((all_split_emptied hr hM hsize hn.splittable hm).and hleaf).imp (fun r hres => ?_) hfew
  obtain ⟨⟨_, hsplit⟩, hr'⟩ := hres
  refine ⟨hsplit.size, fun hq => hsplit.two_le ?_, hr', fun hq e he => ?_⟩
  · omega
  · have := hsplit.size e he
    omega

/-- An inner node of two pivots, with a message for each child. -/
theorem split_sizes_inner :
    let n : Node Nat Nat := ⟨1, [(0, ⟨⟨2, [], []⟩, 0⟩), (5, ⟨⟨3, [], []⟩, 0⟩)],
      [(⟨0, 1⟩, ⟨.update, 7⟩), (⟨6, 2⟩, ⟨.delete, 0⟩)]⟩
    Prog.All (fun counts => counts.2 ≤ 1 + 0
        ∧ Prog.All (fun r => (∀ e ∈ r.2, e.2.child.size ≤ counts.2 + 1)
            ∧ (1 ≤ 1 → 2 ≤ r.2.length)
            ∧ (n.isLeaf = true → ∀ e ∈ r.2, e.2.child.size < 4)
            ∧ (1 ≤ 1 → ∀ e ∈ r.2, e.2.child.size ≤ 4))
          (fun _ => False) (n.split ⟨4, 0, 0, some⟩))
      (fun _ => False) (splitCounts (⟨4, 0, 0, some⟩ : Params Nat Nat) 4 : BProg (Nat × Nat)) := by
  intro n
  refine split_sizes ⟨4, 0, 0, some⟩ (fun _ => rfl) (by decide) n ⟨?_, ?_, ?_, ?_⟩ (by decide)
    (by decide) 1 (by decide)
  · exact OrdMap.sorted_cons.mpr ⟨by simp, OrdMap.sorted_singleton _⟩
  · exact OrdMap.sorted_cons.mpr ⟨by simp [MessageKey.lt_iff], OrdMap.sorted_singleton _⟩
  · exact fun hl => absurd hl (by decide)
  · intro p hp m _
    injection hp with hp
    rw [← hp]
    exact Nat.zero_le _

end BeTree
