import BeTree.Codec.Field
import Mathlib.Data.Prod.Lex

/-!
# Keys of the file system

`FKey` keeps a path together with its components. Keys are equal when their paths are;
they are ordered by their components, the number of them first. A path with a slash at
its end has the same components as the path without it, so these two are different
keys of which each comes before the other. For all other paths the order is a strict
total one.

`_serialize` writes the path twice, and `_deserialize` does not restore the components.
-/

namespace BeTree

open Formatted

/-- A path and its components. -/
structure FKey where
  key : List Char
  tokens : List (List Char)
deriving DecidableEq, Repr

namespace FKey

/-- The `getline` loop of `split_path`, where `item` has been extracted of the current line. -/
def getlines : List Char → List Char → List (List Char)
  | item, [] => if item = [] then [] else [item]
  | item, c :: rest => if c = '/' then item :: getlines [] rest else getlines (item ++ [c]) rest

/-- `split_path`. -/
def splitPath (key : List Char) : List (List Char) := getlines [] key

/-- `FKey(const std::string &k)`. -/
def ofString (k : List Char) : FKey := ⟨k, splitPath k⟩

/--
The loop of the comparisons, over a `uint8_t` index. It runs at most 256 times, or
for ever.
-/
def compareLoop (before : List Char → List Char → Bool) (a b : List (List Char)) :
    Nat → Nat → Option Bool
  | 0, _ => none
  | fuel + 1, i =>
    if i < a.length then
      if before (b.getD i []) (a.getD i []) then some false
      else if before (a.getD i []) (b.getD i []) then some true
      else compareLoop before a b fuel ((i + 1) % 256)
    else some true

/-- The comparisons, where the loop is given up after a number of rounds. -/
def compareWithin (rounds : Nat) (before : List Char → List Char → Bool)
    (fewer : Nat → Nat → Bool) (a b : FKey) : Option Bool :=
  if a.key = b.key then some false
  else if fewer a.tokens.length b.tokens.length then some true
  else if fewer b.tokens.length a.tokens.length then some false
  else compareLoop before a.tokens b.tokens rounds 0

/-- The comparisons; `none` when one does not return. -/
def compareBy (before : List Char → List Char → Bool) (fewer : Nat → Nat → Bool) (a b : FKey) :
    Option Bool := compareWithin 256 before fewer a b

/-- `operator<`. -/
def less (a b : FKey) : Option Bool :=
  compareBy (fun x y => decide (x < y)) (fun m n => decide (m < n)) a b

/-- `operator>`. -/
def greater (a b : FKey) : Option Bool :=
  compareBy (fun x y => decide (y < x)) (fun m n => decide (n < m)) a b

/-- `operator==`. -/
def equal (a b : FKey) : Bool := decide (a.key = b.key)

instance : LT FKey where
  lt a b := a.less b = some true

instance : DecidableLT FKey := fun a b => inferInstanceAs (Decidable (a.less b = some true))

instance : BEq FKey where
  beq := equal

/-! ## The components -/

/-- The components with a slash after each. -/
def joined (l : List (List Char)) : List Char := l.flatMap (fun item => item ++ ['/'])

/-- The text ends inside a component. -/
def Open (item text : List Char) : Prop := item ++ text ≠ [] ∧ text.getLast? ≠ some '/'

theorem joined_getlines (item text : List Char) :
    joined (getlines item text) = item ++ text
      ∨ (joined (getlines item text) = item ++ text ++ ['/'] ∧ Open item text) := by
  induction text generalizing item with
  | nil =>
      unfold getlines
      split
      · rename_i h
        exact Or.inl (by simp [joined, h])
      · rename_i h
        exact Or.inr ⟨by simp [joined], by simp [Open, h]⟩
  | cons c rest ih =>
      unfold getlines
      split
      · rename_i hc
        -- a component has ended
        subst hc
        have hstep : joined (item :: getlines [] rest) = item ++ '/' :: joined (getlines [] rest) := by
          simp [joined]
        rw [hstep]
        rcases ih [] with h | ⟨h, hne, hlast⟩
        · exact Or.inl (by rw [h]; rfl)
        · refine Or.inr ⟨by rw [h]; simp, by simp, ?_⟩
          rw [List.nil_append] at hne
          rwa [List.getLast?_cons_of_ne_nil hne]
      · rename_i hc
        rcases ih (item ++ [c]) with h | ⟨h, _, hlast⟩
        · exact Or.inl (by rw [h]; simp)
        · refine Or.inr ⟨by rw [h]; simp, by simp, ?_⟩
          cases rest with
          | nil => simpa using hc
          | cons d rest => rwa [List.getLast?_cons_of_ne_nil (by simp)]

/-- One more slash at the end of an open component closes it, and that is all. -/
theorem getlines_slash {item text : List Char} (h : Open item text) :
    getlines item (text ++ ['/']) = getlines item text := by
  induction text generalizing item with
  | nil =>
      have hne : item ≠ [] := by simpa [Open] using h.1
      show getlines item ['/'] = getlines item []
      unfold getlines
      rw [if_pos rfl, if_neg hne]
      rfl
  | cons c rest ih =>
      rw [List.cons_append]
      unfold getlines
      have hlast : rest ≠ [] → rest.getLast? ≠ some '/' := by
        intro hne
        have := h.2
        rwa [List.getLast?_cons_of_ne_nil hne] at this
      split
      · rename_i hc
        cases rest with
        | nil => exact absurd h.2 (by simp [hc])
        | cons d rest => rw [ih ⟨by simp, hlast (by simp)⟩]
      · cases rest with
        | nil => exact ih ⟨by simp, by simp⟩
        | cons d rest => exact ih ⟨by simp, hlast (by simp)⟩

/-- `b` is the path `a` with a slash at its end. -/
def TrailingSlash (a b : List Char) : Prop := a ≠ [] ∧ a.getLast? ≠ some '/' ∧ b = a ++ ['/']

/-- **Two different paths have the same components** when they differ in a slash at the end. -/
theorem splitPath_eq_iff {a b : List Char} :
    splitPath a = splitPath b ↔ a = b ∨ TrailingSlash a b ∨ TrailingSlash b a := by
  constructor
  · intro h
    have hj : joined (getlines [] a) = joined (getlines [] b) := congrArg joined h
    rcases joined_getlines [] a with ha | ⟨ha, hoa⟩ <;>
      rcases joined_getlines [] b with hb | ⟨hb, hob⟩ <;> rw [ha, hb] at hj <;>
      simp only [List.nil_append] at hj
    · exact Or.inl hj
    · exact Or.inr (Or.inr ⟨hob.1, hob.2, hj⟩)
    · exact Or.inr (Or.inl ⟨hoa.1, hoa.2, hj.symm⟩)
    · exact Or.inl (List.append_cancel_right hj)
  · rintro (rfl | ⟨hne, hlast, rfl⟩ | ⟨hne, hlast, rfl⟩)
    · rfl
    · exact (getlines_slash (show Open [] a from ⟨hne, hlast⟩)).symm
    · exact getlines_slash (show Open [] b from ⟨hne, hlast⟩)

theorem splitPath_eq_nil {k : List Char} (h : splitPath k = []) : k = [] := by
  rcases joined_getlines [] k with hj | ⟨hj, _⟩
  · rw [show getlines [] k = [] from h] at hj
    exact hj.symm
  · rw [show getlines [] k = [] from h] at hj
    exact absurd hj (by simp [joined])

/-! ## The order -/

/-- What keys are ordered by: the number of components, then the components. -/
def rank (a : FKey) : ℕ ×ₗ List (List Char) := toLex (a.tokens.length, a.tokens)

theorem drop_eq_getD_cons {l : List (List Char)} {i : Nat} (h : i < l.length) :
    l.drop i = l.getD i [] :: l.drop (i + 1) := by
  rw [List.drop_eq_getElem_cons h, List.getD_eq_getElem?_getD, List.getElem?_eq_getElem h]
  rfl

/-- The loop compares what is left of the components. -/
theorem compareLoop_eq {a b : List (List Char)} (hlen : a.length = b.length)
    (hmax : a.length ≤ 255) (fuel i : Nat) (hi : i ≤ a.length) (hfuel : a.length < fuel + i) :
    compareLoop (fun x y => decide (x < y)) a b fuel i
      = some (decide (a.drop i ≤ b.drop i)) := by
  induction fuel generalizing i with
  | zero => omega
  | succ fuel ih =>
      unfold compareLoop
      by_cases hlt : i < a.length
      · have ha := drop_eq_getD_cons hlt
        have hb := drop_eq_getD_cons (show i < b.length by omega)
        rw [if_pos hlt, ha, hb]
        generalize a.getD i [] = x
        generalize b.getD i [] = y
        rcases lt_trichotomy x y with hxy | rfl | hxy
        · rw [if_neg (by simpa using le_of_lt hxy), if_pos (by simpa using hxy)]
          have : x :: a.drop (i + 1) ≤ y :: b.drop (i + 1) :=
            le_of_lt (List.cons_lt_cons_iff.mpr (Or.inl hxy))
          rw [decide_eq_true this]
        · rw [if_neg (by simp), if_neg (by simp), Nat.mod_eq_of_lt (by omega),
            ih (i + 1) (by omega) (by omega)]
          have hcons : x :: a.drop (i + 1) ≤ x :: b.drop (i + 1) ↔ a.drop (i + 1) ≤ b.drop (i + 1) := by
            rw [← not_lt, ← not_lt, List.cons_lt_cons_iff]
            simp
          rw [decide_eq_decide.mpr hcons]
        · rw [if_pos (by simpa using hxy)]
          have : ¬ x :: a.drop (i + 1) ≤ y :: b.drop (i + 1) :=
            not_le_of_gt (List.cons_lt_cons_iff.mpr (Or.inl hxy))
          rw [decide_eq_false this]
      · rw [if_neg hlt, List.drop_eq_nil_of_le (by omega), List.drop_eq_nil_of_le (by omega)]
        simp

/-- **`operator<`** returns, and compares the ranks of different keys. -/
theorem less_eq {a b : FKey} (ha : a.tokens.length ≤ 255) :
    a.less b = some (decide (a.key ≠ b.key ∧ a.rank ≤ b.rank)) := by
  unfold less compareBy compareWithin
  by_cases hkey : a.key = b.key
  · rw [if_pos hkey]
    simp [hkey]
  rw [if_neg hkey]
  have hle : a.rank ≤ b.rank ↔ a.tokens.length < b.tokens.length
      ∨ a.tokens.length = b.tokens.length ∧ a.tokens ≤ b.tokens := Prod.Lex.toLex_le_toLex
  rcases lt_trichotomy a.tokens.length b.tokens.length with h | h | h
  · rw [if_pos (by simpa using h)]
    simp [hkey, hle, h]
  · rw [if_neg (by simp [h]), if_neg (by simp [h]), compareLoop_eq h ha 256 0 (by omega) (by omega)]
    simp [hkey, hle, h]
  · rw [if_neg (by simpa using le_of_lt h), if_pos (by simpa using h)]
    simp [hkey, hle, not_lt_of_gt h, (ne_of_lt h).symm]

/-- `operator>` is `operator<` the other way round. -/
theorem greater_eq (a b : FKey) : a.greater b = b.less a := by
  unfold greater less compareBy compareWithin
  by_cases hkey : a.key = b.key
  · rw [if_pos hkey, if_pos hkey.symm]
  rw [if_neg hkey, if_neg (Ne.symm hkey)]
  by_cases h : b.tokens.length < a.tokens.length
  · simp [h]
  by_cases h' : a.tokens.length < b.tokens.length
  · simp [h, h']
  have hlen : a.tokens.length = b.tokens.length := by omega
  have hloop : ∀ fuel i, compareLoop (fun x y => decide (y < x)) a.tokens b.tokens fuel i
      = compareLoop (fun x y => decide (x < y)) b.tokens a.tokens fuel i := by
    intro fuel
    induction fuel with
    | zero => exact fun _ => rfl
    | succ fuel ih =>
        intro i
        unfold compareLoop
        rw [hlen, ih]
  simp only [h, h', decide_false, Bool.false_eq_true, if_false, hloop]

/-- The comparisons of three keys are those of a strict total order. -/
structure StrictTotal (a b c : FKey) : Prop where
  irrefl : a.less a = some false
  asymm : a.less b = some true → b.less a = some false
  trans : a.less b = some true → b.less c = some true → a.less c = some true
  /-- Exactly one of `a < b`, `a == b` and `b < a`. -/
  total : (a.less b, a.equal b, b.less a) ∈
    [(some true, false, some false), (some false, true, some false), (some false, false, some true)]
  greater : a.greater b = b.less a

/-- Different keys with the same components come before each other. -/
theorem not_strictTotal_of_tokens {a b c : FKey} (ha : a.tokens.length ≤ 255)
    (hkey : a.key ≠ b.key) (htok : a.tokens = b.tokens) : ¬ StrictTotal a b c := by
  intro h
  have hrank : a.rank = b.rank := by rw [rank, rank, htok]
  have hab : a.less b = some true := by
    rw [less_eq ha, decide_eq_true ⟨hkey, le_of_eq hrank⟩]
  have hba : b.less a = some true := by
    rw [less_eq (htok ▸ ha), decide_eq_true ⟨Ne.symm hkey, le_of_eq hrank.symm⟩]
  have := h.asymm hab
  rw [hba] at this
  cases this

/-- Keys that are equal when their components are: the order of the ranks is strict on them. -/
theorem strictTotal_of_tokens {a b c : FKey} (ha : a.tokens.length ≤ 255)
    (hb : b.tokens.length ≤ 255) (hkey : a.key = b.key ↔ a.tokens = b.tokens)
    (hc : a.key = c.key → a.tokens = c.tokens) : StrictTotal a b c := by
  have hrank : a.key = b.key ↔ a.rank = b.rank := by
    rw [hkey]
    refine ⟨fun h => by rw [rank, rank, h], fun h => ?_⟩
    exact congrArg (fun r => (ofLex r).2) h
  refine ⟨?_, fun h => ?_, fun h h' => ?_, ?_, greater_eq a b⟩
  · rw [less_eq ha]
    simp
  · rw [less_eq ha, Option.some.injEq, decide_eq_true_eq] at h
    rw [less_eq hb, Option.some.injEq, decide_eq_false_iff_not]
    rintro ⟨_, hle⟩
    exact h.1 (hrank.mpr (le_antisymm h.2 hle))
  · rw [less_eq ha, Option.some.injEq, decide_eq_true_eq] at h
    rw [less_eq hb, Option.some.injEq, decide_eq_true_eq] at h'
    rw [less_eq ha, Option.some.injEq, decide_eq_true_eq]
    refine ⟨fun hac => ?_, le_trans h.2 h'.2⟩
    have hca : c.rank = a.rank := by rw [rank, rank, hc hac]
    exact h.1 (hrank.mpr (le_antisymm h.2 (hca ▸ h'.2)))
  · rw [less_eq ha, less_eq hb]
    by_cases hab : a.key = b.key
    · simp [equal, hab]
    · have hba : ¬ b.key = a.key := fun h => hab h.symm
      rcases lt_or_gt_of_ne (fun h => hab (hrank.mpr h)) with hlt | hlt
      · simp [equal, hab, le_of_lt hlt, not_le_of_gt hlt]
      · simp [equal, hab, hba, le_of_lt hlt, not_le_of_gt hlt]

end FKey

open FKey

/--
**The order of keys** is a strict total one on all paths but those that differ in a
slash at the end.
-/
theorem strictTotal_iff (a b c : List Char) (ha : (splitPath a).length ≤ 255)
    (hb : (splitPath b).length ≤ 255) :
    StrictTotal (ofString a) (ofString b) (ofString c)
      ↔ ¬ TrailingSlash a b ∧ ¬ TrailingSlash b a := by
  constructor
  · intro h
    refine ⟨fun hs => ?_, fun hs => ?_⟩
    · have hne : a ≠ b := by
        rintro rfl
        simpa using congrArg List.length hs.2.2
      exact not_strictTotal_of_tokens ha hne (splitPath_eq_iff.mpr (Or.inr (Or.inl hs))) h
    · have hne : a ≠ b := by
        rintro rfl
        simpa using congrArg List.length hs.2.2
      exact not_strictTotal_of_tokens ha hne (splitPath_eq_iff.mpr (Or.inr (Or.inr hs))) h
  · rintro ⟨hab, hba⟩
    refine strictTotal_of_tokens ha hb ⟨congrArg splitPath, fun h => ?_⟩ (congrArg splitPath)
    rcases splitPath_eq_iff.mp h with h | h | h
    · exact h
    · exact absurd h hab
    · exact absurd h hba

theorem strictTotal_numerals :
    StrictTotal (ofString ['7']) (ofString ['1', '0']) (ofString ['9', '/', '3']) :=
  (strictTotal_iff _ _ _ (by decide) (by decide)).mpr
    ⟨by simp [TrailingSlash], by simp [TrailingSlash]⟩

/-- `a` and `a/` come before each other. -/
theorem strictTotal_fails :
    (splitPath ['a']).length ≤ 255 ∧ (splitPath ['a', '/']).length ≤ 255
      ∧ (ofString ['a']).less (ofString ['a', '/']) = some true
      ∧ (ofString ['a', '/']).less (ofString ['a']) = some true
      ∧ ¬ StrictTotal (ofString ['a']) (ofString ['a', '/']) (ofString ['a']) := by
  have h : (ofString ['a']).less (ofString ['a', '/']) = some true := by decide
  have h' : (ofString ['a', '/']).less (ofString ['a']) = some true := by decide
  refine ⟨by decide, by decide, h, h', fun hst => ?_⟩
  have := hst.asymm h
  rw [h'] at this
  exact absurd this (by decide)

/-! ## The text of a key -/

namespace FKey

/-- `FKey(void)`. -/
def init : FKey := ⟨[], []⟩

instance : Inhabited FKey where
  default := init

/-- `_serialize`. -/
def serialize (k : FKey) : List Char := k.key ++ ' ' :: serializeString k.key

/-- `_deserialize`, into a key that is there already. -/
def deserialize (k : FKey) : Reader FKey := do
  let _ ← word
  let key ← deserializeString
  return { k with key := key }

/-- A key as a field of a node. It is read into a new key. -/
def format : Format FKey := ⟨serialize, init.deserialize⟩

/-- The components are those that were there before. -/
theorem deserialize_tokens {k k' : FKey} {text rest : List Char}
    (h : k.deserialize text = some (k', rest)) : k'.tokens = k.tokens := by
  obtain ⟨⟨_, text₁⟩, _, h⟩ := Option.bind_eq_some_iff.mp h
  obtain ⟨⟨key, text₂⟩, _, h⟩ := Option.bind_eq_some_iff.mp h
  injection h with h
  injection h with h
  rw [← h]

/-- Reading a string takes something off the text. -/
theorem deserializeString_length {text x rest : List Char}
    (h : deserializeString text = some (x, rest)) : rest.length < text.length := by
  obtain ⟨⟨n, text₁⟩, hn, h⟩ := Option.bind_eq_some_iff.mp h
  obtain ⟨⟨c, text₂⟩, hc, h⟩ := Option.bind_eq_some_iff.mp h
  have h₁ := unsigned_length hn
  have h₂ := character_length hc
  have h₃ := take_length h
  omega

/-- The first reading of an empty path swallows the length written for the second. -/
theorem word_empty (rest : List Char) {w text : List Char}
    (h : word (serialize (ofString []) ++ rest) = some (w, text)) : text.length ≤ rest.length := by
  have hser : serialize (ofString []) ++ rest = [' '] ++ '0' :: ',' :: rest := by
    simp [serialize, serializeString, ofString, decimal]
  have hdrop : (serialize (ofString []) ++ rest).dropWhile isSpace = '0' :: ',' :: rest := by
    rw [hser]
    exact (blank_singleton (by decide)).dropWhile (by decide)
  have hspan : ('0' :: ',' :: rest).dropWhile (fun c => !isSpace c)
      = rest.dropWhile (fun c => !isSpace c) := by
    rw [List.dropWhile_cons_of_pos (by decide), List.dropWhile_cons_of_pos (by decide)]
  unfold word at h
  dsimp only at h
  rw [hdrop, hspan] at h
  split at h
  · rename_i hrest
    injection h with h
    injection h with _ h
    rw [← h, ← hrest]
    exact (List.dropWhile_sublist _).length_le
  · cases h

end FKey

/-- **No key** is read back from what was written for it. -/
theorem fkey_never_roundTrips (key rest : List Char) :
    init.deserialize (serialize (ofString key) ++ rest) ≠ some (ofString key, rest) := by
  intro h
  have hnil : key = [] := splitPath_eq_nil (deserialize_tokens h)
  subst hnil
  obtain ⟨⟨w, text⟩, hw, h⟩ := Option.bind_eq_some_iff.mp h
  obtain ⟨⟨key, text'⟩, hs, h⟩ := Option.bind_eq_some_iff.mp h
  injection h with h
  injection h with _ h
  have hle := word_empty rest hw
  have hlt := deserializeString_length hs
  rw [h] at hlt
  omega

/-- The key `5` comes back without its components, and before `3`. -/
theorem fkey_roundTrip_five :
    init.deserialize (serialize (ofString ['5']) ++ ['\n']) = some (⟨['5'], []⟩, ['\n'])
      ∧ (ofString ['5']).less (ofString ['3']) = some false
      ∧ (⟨['5'], []⟩ : FKey).less (ofString ['3']) = some true := by
  refine ⟨rfl, by decide, by decide⟩

end BeTree
