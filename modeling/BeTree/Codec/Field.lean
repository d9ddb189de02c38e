import BeTree.Lib.Formatted
import Mathlib.Data.Char
import Mathlib.Data.List.Lex
import Mathlib.Data.Fin.Basic
import Mathlib.Order.Fin.Basic

/-!
# The text of single values

`serialize` and `deserialize` for the types that keys and values can have. A number
is written with a blank after it, which reading it back leaves in the stream. A string
is written as its length, a comma and its characters, whatever they are.
-/

namespace BeTree

open Formatted

/-- `serialize` and `deserialize` for one type. -/
structure Format (α : Type) where
  serialize : α → List Char
  deserialize : Reader α

/-- What is written is read back, up to a blank at its end. -/
def Format.RoundTrips {α : Type} (f : Format α) (a : α) : Prop :=
  ∃ t, Reads f.deserialize (f.serialize a) a t

/-- `serialize` of a `std::string`. -/
def serializeString (x : List Char) : List Char := decimal x.length ++ ',' :: x

/-- `deserialize` of a `std::string`. -/
def deserializeString : Reader (List Char) := do
  let length ← unsigned (2 ^ 64)
  let _ ← character
  take length

theorem reads_string {x : List Char} (hx : x.length < 2 ^ 64) :
    Reads deserializeString (serializeString x) x [] := by
  refine ⟨blank_nil, fun lead rest hlead => ?_⟩
  have hnum := numeral_decimal x.length (s := ',') (x ++ rest) hlead (by decide)
  have htake : take x.length (x ++ rest) = some (x, rest) := by
    unfold take
    rw [if_pos (by simp), List.take_left, List.drop_left]
  unfold deserializeString serializeString unsigned
  show ((numeral _).bind _).bind _ = _
  rw [List.append_assoc, List.cons_append, hnum]
  show ((if x.length < 2 ^ 64 then _ else _ : Reader Nat) (',' :: (x ++ rest))).bind _ = _
  rw [if_pos hx]
  exact htake

/-! ## The types of keys and values -/

/-- The types that have an overload of their own. -/
inductive FieldType where
  | uint64
  | int64
  | string
deriving DecidableEq, Repr

/-- Their values. -/
def FieldType.Val : FieldType → Type
  | .uint64 => Fin (2 ^ 64)
  | .int64 => { z : Int // -2 ^ 63 ≤ z ∧ z < 2 ^ 63 }
  | .string => { x : List Char // x.length < 2 ^ 64 }

instance (t : FieldType) : LinearOrder t.Val :=
  match t with
  | .uint64 => inferInstanceAs (LinearOrder (Fin (2 ^ 64)))
  | .int64 => inferInstanceAs (LinearOrder { z : Int // -2 ^ 63 ≤ z ∧ z < 2 ^ 63 })
  | .string => inferInstanceAs (LinearOrder { x : List Char // x.length < 2 ^ 64 })

/-- `serialize` and `deserialize` of a `uint64_t`. -/
def uint64Format : Format (FieldType.Val .uint64) where
  serialize x := decimal x.val ++ [' ']
  deserialize := do
    let v ← unsigned (2 ^ 64)
    if h : v < 2 ^ 64 then return ⟨v, h⟩ else failure

/-- `serialize` and `deserialize` of an `int64_t`. -/
def int64Format : Format (FieldType.Val .int64) where
  serialize x := decimalInt x.val ++ [' ']
  deserialize := do
    let z ← signed (2 ^ 63)
    if h : -2 ^ 63 ≤ z ∧ z < 2 ^ 63 then return ⟨z, h⟩ else failure

/-- `serialize` and `deserialize` of a `std::string`. -/
def stringFormat : Format (FieldType.Val .string) where
  serialize x := serializeString x.val
  deserialize := do
    let x ← deserializeString
    if h : x.length < 2 ^ 64 then return ⟨x, h⟩ else failure

/-- The overload for a type. -/
def FieldType.format : (t : FieldType) → Format t.Val
  | .uint64 => uint64Format
  | .int64 => int64Format
  | .string => stringFormat

/-- A value that was read and lies in the type. -/
theorem reads_dite {α β : Type} {r : Reader α} {w t : List Char} {a : α} {p : α → Prop}
    [DecidablePred p] {g : (x : α) → p x → β} (h : Reads r w a t) (ha : p a) :
    Reads (r >>= fun x => if hx : p x then pure (g x hx) else failure) w (g a ha) t := by
  refine ⟨h.1, fun lead rest hlead => ?_⟩
  show (r (lead ++ (w ++ rest))).bind _ = _
  rw [h.2 lead rest hlead]
  show (if hx : p a then _ else _ : Reader β) (t ++ rest) = _
  rw [dif_pos ha]
  rfl

/-- **Every value** of the three types is read back. -/
theorem FieldType.roundTrips (t : FieldType) (x : t.Val) : t.format.RoundTrips x := by
  cases t with
  | uint64 => exact ⟨_, reads_dite (reads_unsigned x.isLt (by decide)) x.isLt⟩
  | int64 => exact ⟨_, reads_dite (reads_signed x.property (by decide)) x.property⟩
  | string => exact ⟨_, reads_dite (reads_string x.property) x.property⟩

end BeTree
