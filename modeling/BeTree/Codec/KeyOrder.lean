import BeTree.Codec.FKey

/-!
# The order of keys, and when a comparison ends

Keys of one directory have as many components as each other, and the same ones but for the
last. Since the number of components is compared first and the components from the left,
everything between two keys of a directory is a key of that directory, so one range scan
lists it.

The comparisons walk the components with an index of eight bits. Paths with more components
than it can count are compared for ever, unless they differ in one of the first 256.
-/

namespace BeTree

namespace FKey

/-! ## Directories -/

/-- Between two lists with one front and one more entry there are only such lists. -/
theorem eq_append_of_between {p l : List (List Char)} {x y : List Char}
    (hlen : l.length = p.length + 1) (hx : p ++ [x] ≤ l) (hy : l ≤ p ++ [y]) :
    ∃ z, l = p ++ [z] := by
  induction p generalizing l with
  | nil =>
      obtain ⟨z, rfl⟩ := List.length_eq_one_iff.mp hlen
      exact ⟨z, rfl⟩
  | cons q p ih =>
      cases l with
      | nil => simp at hlen
      | cons w l =>
          rw [List.cons_append, ← not_lt, List.cons_lt_cons_iff, not_or] at hx hy
          obtain ⟨hqw, hx⟩ := hx
          obtain ⟨hwq, hy⟩ := hy
          -- the first component lies between itself and itself
          have hw : w = q := le_antisymm (not_lt.mp hwq) (not_lt.mp hqw)
          subst hw
          obtain ⟨z, hz⟩ := ih (Nat.succ.inj hlen) (not_lt.mp (fun h => hx ⟨rfl, h⟩))
            (not_lt.mp (fun h => hy ⟨rfl, h⟩))
          exact ⟨z, by rw [hz]; rfl⟩

/-- A key that comes before another has no larger rank. -/
theorem rank_le_of_less {a b : FKey} (ha : a.tokens.length ≤ 255) (h : a.less b = some true) :
    a.tokens.length < b.tokens.length
      ∨ a.tokens.length = b.tokens.length ∧ a.tokens ≤ b.tokens := by
  rw [less_eq ha, Option.some.injEq, decide_eq_true_eq] at h
  exact Prod.Lex.toLex_le_toLex.mp h.2

end FKey

open FKey

/-- **The keys of a directory** are one range of the order. -/
theorem directory_contiguous (d a b c x y : List Char) (ha : (splitPath a).length ≤ 255)
    (hb : (splitPath b).length ≤ 255)
    (hab : (ofString a).less (ofString b) = some true)
    (hbc : (ofString b).less (ofString c) = some true)
    (hx : splitPath a = splitPath d ++ [x]) (hy : splitPath c = splitPath d ++ [y]) :
    ∃ z, splitPath b = splitPath d ++ [z] := by
  have hab := rank_le_of_less ha hab
  have hbc := rank_le_of_less hb hbc
  rw [show (ofString a).tokens = splitPath d ++ [x] from hx] at hab
  rw [show (ofString c).tokens = splitPath d ++ [y] from hy] at hbc
  rw [show (ofString b).tokens = splitPath b from rfl] at hab hbc
  rw [List.length_append, List.length_singleton] at hab hbc
  -- the number of components lies between itself and itself
  have hlen : (splitPath b).length = (splitPath d).length + 1 := by omega
  refine eq_append_of_between (x := x) (y := y) hlen ?_ ?_
  · rcases hab with h | h
    · omega
    · exact h.2
  · rcases hbc with h | h
    · omega
    · exact h.2

theorem directory_contiguous_home :
    ∃ z, splitPath ['h', '/', 'b', '/'] = splitPath ['h', '/'] ++ [z] :=
  directory_contiguous ['h', '/'] ['h', '/', 'a'] ['h', '/', 'b', '/'] ['h', '/', 'c'] ['a'] ['c']
    (by decide) (by decide) (by decide) (by decide) (by decide) (by decide)

/-! ## When a comparison ends -/

namespace FKey

/-- `operator<` returns. -/
def LessReturns (a b : FKey) : Prop :=
  ∃ rounds, compareWithin rounds (fun x y => decide (x < y)) (fun m n => decide (m < n)) a b ≠ none

/-- `operator>` returns. -/
def GreaterReturns (a b : FKey) : Prop :=
  ∃ rounds, compareWithin rounds (fun x y => decide (y < x)) (fun m n => decide (n < m)) a b ≠ none

/-- The components end at an index, or differ there. -/
def Decided (a b : List (List Char)) (i : Nat) : Prop := a.length ≤ i ∨ a.getD i [] ≠ b.getD i []

section Loop

variable {before : List Char → List Char → Bool} {a b : List (List Char)}

/-- The loop ends where the components do or differ, if the index gets there. -/
theorem compareLoop_returns (htotal : ∀ x y, x ≠ y → before x y = true ∨ before y x = true)
    {j : Nat} (hj : j < 256) (hdec : Decided a b j) (rounds i : Nat) (hi : i ≤ j)
    (hrounds : j < rounds + i) : compareLoop before a b rounds i ≠ none := by
  induction rounds generalizing i with
  | zero => omega
  | succ rounds ih =>
      unfold compareLoop
      split
      · rename_i hlt
        split
        · simp
        · rename_i hba
          split
          · simp
          · rename_i hab
            have hne : i ≠ j := by
              rintro rfl
              rcases hdec with hle | hne
              · omega
              · rcases htotal _ _ hne with h | h
                · exact hab h
                · exact hba h
            rw [Nat.mod_eq_of_lt (by omega)]
            exact ih (i + 1) (by omega) (by omega)
      · simp

/-- The loop goes round for ever when nothing is decided at any index of eight bits. -/
theorem compareLoop_eq_none (hirrefl : ∀ x, before x x = false)
    (hdec : ∀ i, i < 256 → ¬ Decided a b i) (rounds i : Nat) (hi : i < 256) :
    compareLoop before a b rounds i = none := by
  induction rounds generalizing i with
  | zero => rfl
  | succ rounds ih =>
      have h := hdec i hi
      unfold Decided at h
      rw [not_or, not_not, Nat.not_le] at h
      unfold compareLoop
      rw [if_pos h.1, h.2, if_neg (by simp [hirrefl]), if_neg (by simp [hirrefl])]
      exact ih _ (Nat.mod_lt _ (by decide))

end Loop

section Returns

variable {before : List Char → List Char → Bool} {fewer : Nat → Nat → Bool} {a b : FKey}

/-- The keys are equal, or have not as many components as each other, or are told apart. -/
def Comparable (a b : FKey) : Prop :=
  a.key = b.key ∨ a.tokens.length ≠ b.tokens.length ∨ ∃ i, i < 256 ∧ Decided a.tokens b.tokens i

theorem compareWithin_ne_none
    (htotal : ∀ x y, x ≠ y → before x y = true ∨ before y x = true)
    (hfewer : ∀ m n, fewer m n = false → fewer n m = false → m = n) (h : Comparable a b) :
    compareWithin 256 before fewer a b ≠ none := by
  unfold compareWithin
  split
  · simp
  · rename_i hkey
    split
    · simp
    · rename_i hab
      split
      · simp
      · rename_i hba
        have hlen : a.tokens.length = b.tokens.length :=
          hfewer _ _ (Bool.eq_false_iff.mpr hab) (Bool.eq_false_iff.mpr hba)
        rcases h with h | h | ⟨i, hi, hdec⟩
        · exact absurd h hkey
        · exact absurd hlen h
        · exact compareLoop_returns htotal hi hdec 256 0 (Nat.zero_le _) hi

theorem comparable_of_returns {rounds : Nat} (hirrefl : ∀ x, before x x = false)
    (hself : ∀ m, fewer m m = false) (h : compareWithin rounds before fewer a b ≠ none) :
    Comparable a b := by
  by_contra hc
  unfold Comparable at hc
  rw [not_or, not_or, not_not] at hc
  obtain ⟨hkey, hlen, hdec⟩ := hc
  unfold compareWithin at h
  rw [if_neg hkey, hlen, if_neg (by simp [hself]), if_neg (by simp [hself])] at h
  exact h (compareLoop_eq_none hirrefl (fun i hi hd => hdec ⟨i, hi, hd⟩) rounds 0 (by decide))

theorem lessReturns_iff : a.LessReturns b ↔ Comparable a b := by
  refine ⟨fun ⟨_, h⟩ => comparable_of_returns (fun x => by simp) (fun m => by simp) h,
    fun h => ⟨256, compareWithin_ne_none (fun x y hne => ?_) (fun m n h h' => ?_) h⟩⟩
  · simpa using lt_or_gt_of_ne hne
  · rw [decide_eq_false_iff_not] at h h'
    omega

theorem greaterReturns_iff : a.GreaterReturns b ↔ Comparable a b := by
  refine ⟨fun ⟨_, h⟩ => comparable_of_returns (fun x => by simp) (fun m => by simp) h,
    fun h => ⟨256, compareWithin_ne_none (fun x y hne => ?_) (fun m n h h' => ?_) h⟩⟩
  · simpa using (lt_or_gt_of_ne hne).symm
  · rw [decide_eq_false_iff_not] at h h'
    omega

end Returns

/-- A component and the slash after it. -/
theorem splitPath_append {item rest : List Char} (h : '/' ∉ item) :
    splitPath (item ++ '/' :: rest) = item :: splitPath rest := by
  have hgo : ∀ text front : List Char, '/' ∉ text →
      getlines front (text ++ '/' :: rest) = (front ++ text) :: getlines [] rest := by
    intro text
    induction text with
    | nil =>
        intro front _
        rw [List.nil_append, getlines, if_pos rfl, List.append_nil]
    | cons c text ih =>
        intro front hc
        rw [List.mem_cons, not_or] at hc
        rw [List.cons_append, getlines, if_neg (Ne.symm hc.1), ih _ hc.2, List.append_assoc]
        rfl
  exact hgo item [] h

/-- A path that goes down `n` times through `a`. -/
def deep (n : Nat) (last : List Char) : List Char := (List.replicate n ['a', '/']).flatten ++ last

theorem deep_inj {n : Nat} {x y : List Char} (h : deep n x = deep n y) : x = y :=
  List.append_cancel_left h

theorem splitPath_deep (n : Nat) (last : List Char) :
    splitPath (deep n last) = List.replicate n ['a'] ++ splitPath last := by
  induction n with
  | zero => rfl
  | succ n ih =>
      show splitPath (['a'] ++ '/' :: deep n last) = _
      rw [splitPath_append (by decide), ih]
      rfl

theorem length_deep (n : Nat) (last : List Char) :
    (splitPath (deep n last)).length = n + (splitPath last).length := by
  rw [splitPath_deep, List.length_append, List.length_replicate]

/-- Deep paths do not differ, and do not end, on their way down. -/
theorem not_decided_deep {n i : Nat} (hi : i < n) (x y : List Char) :
    ¬ Decided (splitPath (deep n x)) (splitPath (deep n y)) i := by
  have hin : i < (List.replicate n ['a']).length := by rwa [List.length_replicate]
  rintro (h | h)
  · rw [length_deep] at h
    omega
  · rw [splitPath_deep, splitPath_deep] at h
    rw [List.getD_eq_getElem?_getD, List.getD_eq_getElem?_getD, List.getElem?_append_left hin,
      List.getElem?_append_left hin] at h
    exact h rfl

end FKey

/--
**The comparisons return** for keys that are equal, have at most 255 components or not
as many as each other, or differ in one of their first 256 components, and for no others.
-/
theorem comparison_returns (a b : List Char) :
    (LessReturns (ofString a) (ofString b) ∧ GreaterReturns (ofString a) (ofString b))
      ↔ a = b ∨ (splitPath a).length ≠ (splitPath b).length ∨ (splitPath a).length ≤ 255
        ∨ (splitPath a).take 256 ≠ (splitPath b).take 256 := by
  rw [lessReturns_iff, greaterReturns_iff, and_self, Comparable]
  refine or_congr_right ?_
  by_cases hlen : (splitPath a).length = (splitPath b).length
  swap
  · exact ⟨fun _ => Or.inl hlen, fun _ => Or.inl hlen⟩
  refine or_congr_right ⟨fun h => ?_, fun h => ?_⟩
  · obtain ⟨i, hi, hend | hne⟩ := h
    · exact Or.inl (Nat.le_trans hend (Nat.le_of_lt_succ hi))
    · refine Or.inr (fun htake => hne ?_)
      have hget := congrArg (fun l => l[i]?) htake
      simp only [List.getElem?_take, if_pos hi] at hget
      show (splitPath a).getD i [] = (splitPath b).getD i []
      rw [List.getD_eq_getElem?_getD, List.getD_eq_getElem?_getD, hget]
  · rcases h with h | h
    · exact ⟨255, by decide, Or.inl h⟩
    · by_contra hc
      refine h (List.ext_getElem? (fun i => ?_))
      rw [List.getElem?_take, List.getElem?_take]
      split
      · rename_i hi
        have hdec : ¬ Decided (splitPath a) (splitPath b) i := fun hd => hc ⟨i, hi, hd⟩
        unfold Decided at hdec
        rw [not_or, not_not, Nat.not_le] at hdec
        obtain ⟨hlt, heq⟩ := hdec
        rw [List.getD_eq_getElem?_getD, List.getD_eq_getElem?_getD, List.getElem?_eq_getElem hlt,
          List.getElem?_eq_getElem (hlen ▸ hlt)] at heq
        rw [List.getElem?_eq_getElem hlt, List.getElem?_eq_getElem (hlen ▸ hlt)]
        exact congrArg some heq
      · rfl

/-- Two paths that first differ in component 257 are compared for ever. -/
theorem comparison_diverges :
    ¬ LessReturns (ofString (deep 256 ['x'])) (ofString (deep 256 ['y']))
      ∧ ¬ GreaterReturns (ofString (deep 256 ['x'])) (ofString (deep 256 ['y'])) := by
  have hnone : ¬ Comparable (ofString (deep 256 ['x'])) (ofString (deep 256 ['y'])) := by
    rintro (h | h | ⟨i, hi, h⟩)
    · exact absurd (deep_inj h) (by decide)
    · exact h ((length_deep 256 ['x']).trans (length_deep 256 ['y']).symm)
    · exact not_decided_deep hi _ _ h
  exact ⟨fun h => hnone (lessReturns_iff.mp h), fun h => hnone (greaterReturns_iff.mp h)⟩

end BeTree
