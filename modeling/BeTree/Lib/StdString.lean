import Mathlib.Algebra.Order.Ring.Int
import Mathlib.Tactic.Common

/-!
# Searching and cutting strings

The members of `std::string` that work with positions. A search gives the first position
from `pos` on, or `npos`, which is the largest value of a 64-bit position. `substr` clamps
the length to what is there, but a position behind the end is an error.

A search that succeeds gives a position of the string, the first one that matches.
-/

namespace StdString

variable {α : Type}

/-- `std::string::npos`. -/
def npos : Nat := 2 ^ 64 - 1

/-- The first position from `pos` on of a character that satisfies `p`. -/
def find (p : α → Bool) (s : List α) (pos : Nat) : Nat :=
  match (s.drop pos).findIdx? p with
  | some i => pos + i
  | none => npos

/-- `substr(pos, n)`; `none` is `std::out_of_range`. -/
def substr (s : List α) (pos n : Nat) : Option (List α) :=
  if pos ≤ s.length then some ((s.drop pos).take n) else none

variable {p : α → Bool} {front rest s : List α} {c : α} {pos : Nat}

/-- A search stops at the first match. -/
theorem find_eq (hpos : pos ≤ front.length) (hfront : ∀ a ∈ front.drop pos, p a = false)
    (hc : p c = true) : find p (front ++ c :: rest) pos = front.length := by
  have hidx : (front.drop pos ++ c :: rest).findIdx? p = some (front.length - pos) := by
    rw [List.findIdx?_append, List.findIdx?_eq_none_iff.mpr hfront, List.findIdx?_cons, if_pos hc]
    simp
  unfold find
  rw [List.drop_append_of_le_length hpos, hidx]
  show pos + (front.length - pos) = front.length
  omega

/-- A search that finds nothing. -/
theorem find_eq_npos (hs : ∀ a ∈ s.drop pos, p a = false) : find p s pos = npos := by
  unfold find
  rw [List.findIdx?_eq_none_iff.mpr hs]

/-- What is found is a position of the string. -/
theorem find_lt (hs : ∃ a ∈ s.drop pos, p a = true) : find p s pos < s.length := by
  unfold find
  cases hidx : (s.drop pos).findIdx? p with
  | none =>
      obtain ⟨a, ha, hp⟩ := hs
      rw [List.findIdx?_eq_none_iff.mp hidx a ha] at hp
      exact absurd hp Bool.false_ne_true
  | some i =>
      have hi := (List.findIdx?_eq_some_iff_findIdx_eq.mp hidx).1
      rw [List.length_drop] at hi
      show pos + i < s.length
      omega

theorem find_lt_or_eq_npos (p : α → Bool) (s : List α) (pos : Nat) :
    find p s pos < s.length ∨ find p s pos = npos := by
  by_cases hs : ∃ a ∈ s.drop pos, p a = true
  · exact .inl (find_lt hs)
  · refine .inr (find_eq_npos (fun a ha => ?_))
    rw [← Bool.not_eq_true]
    exact fun hp => hs ⟨a, ha, hp⟩

theorem substr_of_le {n : Nat} (h : pos ≤ s.length) : substr s pos n = some ((s.drop pos).take n) :=
  if_pos h

theorem substr_of_lt {n : Nat} (h : s.length < pos) : substr s pos n = none :=
  if_neg (Nat.not_le.mpr h)

end StdString
