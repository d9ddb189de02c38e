import BeTree.Lib.OrdMap

/-!
# Upsert messages

Data is indexed by the user's key together with a timestamp, so that upserts are
applied in the order they were made. The comparison is the one of `MessageKey`:
by key, and among equal keys by timestamp. It is written over `<` and `==` of the
key type alone; over a linear order of keys it is a linear order of message keys.
-/

namespace BeTree

/-- `UINT64_MAX`. -/
def uint64Max : Nat := 2 ^ 64 - 1

/-- A key with the time of the upsert it belongs to. -/
@[ext]
structure MessageKey (K : Type) where
  key : K
  timestamp : Nat
deriving DecidableEq, Repr

namespace MessageKey

variable {K : Type}

/-- Below every message of the key: nothing has a timestamp of 0. -/
def rangeStart (k : K) : MessageKey K := ⟨k, 0⟩

/-- At or above every message of the key. -/
def rangeEnd (k : K) : MessageKey K := ⟨k, uint64Max⟩

instance [LT K] [BEq K] : LT (MessageKey K) where
  lt a b := a.key < b.key ∨ ((a.key == b.key) = true ∧ a.timestamp < b.timestamp)

instance [LT K] [BEq K] [DecidableLT K] : DecidableLT (MessageKey K) := fun _ _ =>
  inferInstanceAs (Decidable (_ ∨ _ ∧ _))

instance [BEq K] : BEq (MessageKey K) where
  beq a b := a.key == b.key && a.timestamp == b.timestamp

section Linear

variable [LinearOrder K]

theorem lt_iff {a b : MessageKey K} :
    a < b ↔ a.key < b.key ∨ (a.key = b.key ∧ a.timestamp < b.timestamp) := by
  show (_ ∨ (a.key == b.key) = true ∧ _) ↔ _
  rw [beq_iff_eq]

theorem not_lt_iff {a b : MessageKey K} :
    ¬ b < a ↔ a.key < b.key ∨ (a.key = b.key ∧ a.timestamp ≤ b.timestamp) := by
  rw [lt_iff]
  rcases lt_trichotomy a.key b.key with h | h | h
  · simp [h, not_lt_of_gt h, ne_of_gt h]
  · simp [h]
  · simp [h, not_lt_of_gt h, ne_of_gt h]

instance : LinearOrder (MessageKey K) where
  le a b := ¬ b < a
  lt a b := a < b
  le_refl a := by rw [not_lt_iff]; exact Or.inr ⟨rfl, Nat.le_refl _⟩
  le_trans a b c hab hbc := by
    rw [not_lt_iff] at *
    rcases hab with h | ⟨h, ht⟩ <;> rcases hbc with h' | ⟨h', ht'⟩
    · exact Or.inl (lt_trans h h')
    · exact Or.inl (h' ▸ h)
    · exact Or.inl (h ▸ h')
    · exact Or.inr ⟨h.trans h', Nat.le_trans ht ht'⟩
  lt_iff_le_not_ge a b := by
    rw [not_lt_iff, not_not, lt_iff]
    constructor
    · rintro (h | ⟨h, ht⟩)
      · exact ⟨Or.inl h, Or.inl h⟩
      · exact ⟨Or.inr ⟨h, Nat.le_of_lt ht⟩, Or.inr ⟨h, ht⟩⟩
    · exact And.right
  le_antisymm a b hab hba := by
    rw [not_lt_iff] at hab hba
    rw [MessageKey.ext_iff]
    rcases hab with h | ⟨h, ht⟩ <;> rcases hba with h' | ⟨h', ht'⟩
    · exact absurd (lt_trans h h') (lt_irrefl _)
    · exact absurd h (by rw [h']; exact lt_irrefl _)
    · exact absurd h' (by rw [h]; exact lt_irrefl _)
    · exact ⟨h, Nat.le_antisymm ht ht'⟩
  le_total a b := by
    rw [not_lt_iff, not_lt_iff]
    rcases lt_trichotomy a.key b.key with h | h | h
    · exact Or.inl (Or.inl h)
    · rcases Nat.le_total a.timestamp b.timestamp with ht | ht
      · exact Or.inl (Or.inr ⟨h, ht⟩)
      · exact Or.inr (Or.inr ⟨h.symm, ht⟩)
    · exact Or.inr (Or.inl h)
  toDecidableLE a b := inferInstanceAs (Decidable (¬ _))
  toDecidableEq := inferInstance
  toDecidableLT := inferInstance

theorem le_iff {a b : MessageKey K} :
    a ≤ b ↔ a.key < b.key ∨ (a.key = b.key ∧ a.timestamp ≤ b.timestamp) := not_lt_iff

/-- Message keys at or above the start of `k` are those of keys at or above `k`. -/
theorem rangeStart_le {k : K} {a : MessageKey K} : rangeStart k ≤ a ↔ k ≤ a.key := by
  rw [le_iff, rangeStart]
  constructor
  · rintro (h | ⟨h, _⟩)
    · exact le_of_lt h
    · exact le_of_eq h
  · intro h
    rcases lt_or_eq_of_le h with h | h
    · exact Or.inl h
    · exact Or.inr ⟨h, Nat.zero_le _⟩

theorem lt_rangeStart {k : K} {a : MessageKey K} : a < rangeStart k ↔ a.key < k := by
  rw [← not_le, rangeStart_le, not_le]

/-- Message keys past the end of `k` are those of larger keys, timestamps being 64 bits wide. -/
theorem rangeEnd_lt {k : K} {a : MessageKey K} (ha : a.timestamp ≤ uint64Max) :
    rangeEnd k < a ↔ k < a.key := by
  rw [lt_iff, rangeEnd]
  constructor
  · rintro (h | ⟨_, h⟩)
    · exact h
    · exact absurd ha (Nat.not_le.mpr h)
  · exact Or.inl

theorem rangeStart_le_rangeEnd (k : K) : rangeStart k ≤ rangeEnd k :=
  le_iff.mpr (Or.inr ⟨rfl, Nat.zero_le _⟩)

end Linear

end MessageKey

/-- The three types of upsert. -/
inductive Opcode where
  | insert
  | delete
  | update
deriving DecidableEq, Repr

/-- An upsert message. -/
structure Message (V : Type) where
  opcode : Opcode
  val : V
deriving DecidableEq, Repr

instance {V : Type} [BEq V] : BEq (Message V) where
  beq a b := a.opcode == b.opcode && a.val == b.val

/-- `message_map`. -/
abbrev MessageMap (K V : Type) : Type := List (MessageKey K × Message V)

end BeTree
