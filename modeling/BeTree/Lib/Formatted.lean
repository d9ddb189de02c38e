import Mathlib.Algebra.Order.Ring.Int
import Mathlib.Data.Nat.Basic
import Mathlib.Tactic.Common

/-!
# Formatted input

Readers that take characters off the front of a text, as the extraction operators of
`std::iostream` do in the C locale. A reader fails when the stream would not be
`good()` after it: nothing to read, a number out of range, or the end of the text
reached while looking for the end of an item.

`Reads r w a t` is the rule for round trips: whatever blanks come before `w` and
whatever comes after it, `r` reads `w` as `a` and stops before the blanks `t` at its
end. The blanks one reader leaves are skipped by the next, so the rule composes.
-/

namespace Formatted

/-- A computation that takes characters off the front of a text, or fails. -/
abbrev Reader (α : Type) : Type := StateT (List Char) Option α

/-- `isspace`. -/
def isSpace (c : Char) : Bool := c == ' ' || (9 ≤ c.toNat && c.toNat ≤ 13)

/-- `fs >> word`. -/
def word : Reader (List Char) := fun text =>
  let text := text.dropWhile isSpace
  match text.takeWhile (fun c => !isSpace c), text.dropWhile (fun c => !isSpace c) with
  | c :: w, d :: rest => some (c :: w, d :: rest)
  | _, _ => none

/-- `fs >> c`, for a `char`. -/
def character : Reader Char := fun text =>
  match text.dropWhile isSpace with
  | c :: rest => some (c, rest)
  | [] => none

/-- `fs.read(buf, n)`. -/
def take (n : Nat) : Reader (List Char) := fun text =>
  if n ≤ text.length then some (text.take n, text.drop n) else none

/-- The sign of a number. -/
def sign : List Char → Bool × List Char
  | '-' :: rest => (true, rest)
  | '+' :: rest => (false, rest)
  | text => (false, text)

/-- An optional sign and the digits after it. -/
def numeral : Reader (Bool × Nat) := fun text =>
  let (negative, text) := sign (text.dropWhile isSpace)
  match text.takeWhile Char.isDigit, text.dropWhile Char.isDigit with
  | c :: ds, d :: rest => some ((negative, Nat.ofDigitChars 10 (c :: ds) 0), d :: rest)
  | _, _ => none

/-- `fs >> x`, for an unsigned type of `bound` values. A negative number wraps around. -/
def unsigned (bound : Nat) : Reader Nat := do
  let (negative, v) ← numeral
  if v < bound then return if negative then (bound - v) % bound else v else failure

/-- `fs >> x`, for a signed type of the values from `-bound` to `bound - 1`. -/
def signed (bound : Nat) : Reader Int := do
  let (negative, v) ← numeral
  let z : Int := if negative then -v else v
  if -bound ≤ z ∧ z < bound then return z else failure

/-- `fs << n`. -/
def decimal (n : Nat) : List Char := Nat.toDigits 10 n

/-- `fs << z`. -/
def decimalInt (z : Int) : List Char := if z < 0 then '-' :: decimal z.natAbs else decimal z.natAbs

/-! ## What is left of the text -/

theorem numeral_length {text rest : List Char} {v : Bool × Nat}
    (h : numeral text = some (v, rest)) : rest.length < text.length := by
  have hsign : ∀ text, (sign text).2.length ≤ text.length := by
    intro text
    unfold sign
    split
    · exact Nat.le_succ _
    · exact Nat.le_succ _
    · exact le_rfl
  unfold numeral at h
  dsimp only at h
  split at h
  · rename_i ds d rest' htake hdrop
    injection h with h
    injection h with _ h
    have hle := le_trans (hsign (text.dropWhile isSpace)) ((List.dropWhile_sublist _).length_le)
    have hsplit := congrArg List.length
      (List.takeWhile_append_dropWhile (p := Char.isDigit) (l := (sign (text.dropWhile isSpace)).2))
    rw [htake, hdrop, h, List.length_append, List.length_cons] at hsplit
    omega
  · cases h

theorem unsigned_length {bound n : Nat} {text rest : List Char}
    (h : unsigned bound text = some (n, rest)) : rest.length < text.length := by
  obtain ⟨⟨⟨negative, v⟩, text₁⟩, hv, h⟩ := Option.bind_eq_some_iff.mp h
  dsimp only at h
  split at h
  · injection h with h
    injection h with _ h
    rw [← h]
    exact numeral_length hv
  · cases h

theorem character_length {c : Char} {text rest : List Char}
    (h : character text = some (c, rest)) : rest.length < text.length := by
  have hle : (text.dropWhile isSpace).length ≤ text.length := (List.dropWhile_sublist _).length_le
  unfold character at h
  split at h
  · rename_i hdrop
    injection h with h
    injection h with _ h
    rw [hdrop, h, List.length_cons] at hle
    omega
  · cases h

theorem take_length {n : Nat} {text w rest : List Char}
    (h : take n text = some (w, rest)) : rest.length ≤ text.length := by
  unfold take at h
  split at h
  · injection h with h
    injection h with _ h
    rw [← h, List.length_drop]
    omega
  · cases h

/-! ## Blanks -/

/-- Nothing but blanks. -/
def Blank (text : List Char) : Prop := ∀ c ∈ text, isSpace c = true

theorem blank_nil : Blank [] := by
  intro c hc
  exact absurd hc (by simp)

theorem blank_singleton {c : Char} (h : isSpace c = true) : Blank [c] := by
  intro d hd
  exact List.mem_singleton.mp hd ▸ h

theorem Blank.append {s t : List Char} (hs : Blank s) (ht : Blank t) : Blank (s ++ t) := by
  intro c hc
  rcases List.mem_append.mp hc with hc | hc
  · exact hs c hc
  · exact ht c hc

/-- Skipping stops at the first character that is not a blank. -/
theorem Blank.dropWhile {lead text : List Char} {c : Char} (h : Blank lead)
    (hc : isSpace c = false) :
    (lead ++ c :: text).dropWhile isSpace = c :: text := by
  induction lead with
  | nil => exact List.dropWhile_cons_of_neg (by simp [hc])
  | cons d lead ih =>
      rw [List.cons_append, List.dropWhile_cons_of_pos (h d List.mem_cons_self)]
      exact ih (fun e he => h e (List.mem_cons_of_mem _ he))

/-- A run of characters up to one that does not belong to it. -/
theorem span_append (p : Char → Bool) (rest : List Char) {w : List Char} {c : Char}
    (hw : ∀ d ∈ w, p d = true) (hc : p c = false) :
    (w ++ c :: rest).takeWhile p = w ∧ (w ++ c :: rest).dropWhile p = c :: rest := by
  induction w with
  | nil => exact ⟨List.takeWhile_cons_of_neg (by simp [hc]), List.dropWhile_cons_of_neg (by simp [hc])⟩
  | cons d w ih =>
      have hd := hw d List.mem_cons_self
      obtain ⟨ht, hdrop⟩ := ih (fun e he => hw e (List.mem_cons_of_mem _ he))
      rw [List.cons_append, List.takeWhile_cons_of_pos hd, List.dropWhile_cons_of_pos hd, ht, hdrop]
      exact ⟨rfl, rfl⟩

/-! ## Reading back what was written -/

/-- After any blanks, `r` reads `w` as `a`, and stops before the blanks `t` at its end. -/
def Reads {α : Type} (r : Reader α) (w : List Char) (a : α) (t : List Char) : Prop :=
  Blank t ∧ ∀ lead rest, Blank lead → r (lead ++ (w ++ rest)) = some (a, t ++ rest)

variable {α β : Type} {r : Reader α} {w w' t t' : List Char} {a : α} {b : β}

/-- **Sequencing.** The blanks left by the first are skipped by the second. -/
theorem Reads.bind {f : α → Reader β} (h : Reads r w a t) (h' : Reads (f a) w' b t') :
    Reads (r >>= f) (w ++ w') b t' := by
  refine ⟨h'.1, fun lead rest hlead => ?_⟩
  show (r (lead ++ (w ++ w' ++ rest))).bind (fun x => f x.1 x.2) = _
  rw [List.append_assoc, h.2 lead (w' ++ rest) hlead]
  exact h'.2 t rest h.1

/-- A value computed from what was read. -/
theorem Reads.bind_pure {g : α → β} (h : Reads r w a t) :
    Reads (r >>= fun x => pure (g x)) w (g a) t := by
  refine ⟨h.1, fun lead rest hlead => ?_⟩
  show (r (lead ++ (w ++ rest))).bind (fun x => some (g x.1, x.2)) = _
  rw [h.2 lead rest hlead]
  rfl

/-- Blanks written before an item are skipped with those that were there. -/
theorem Reads.lead {l : List Char} (hl : Blank l) (h : Reads r w a t) : Reads r (l ++ w) a t := by
  refine ⟨h.1, fun lead rest hlead => ?_⟩
  rw [List.append_assoc, ← List.append_assoc]
  exact h.2 (lead ++ l) rest (hlead.append hl)

/-- Blanks written after an item are left. -/
theorem Reads.trail {l : List Char} (hl : Blank l) (h : Reads r w a t) :
    Reads r (w ++ l) a (t ++ l) := by
  refine ⟨h.1.append hl, fun lead rest hlead => ?_⟩
  rw [List.append_assoc, List.append_assoc]
  exact h.2 lead (l ++ rest) hlead

/-- At the front of a text, without blanks before it. -/
theorem Reads.run (h : Reads r w a t) (rest : List Char) : r (w ++ rest) = some (a, t ++ rest) :=
  h.2 [] rest blank_nil

/-- Whatever blanks come before `text`, `r` cannot read it. -/
def Fails (r : Reader α) (text : List Char) : Prop := ∀ lead, Blank lead → r (lead ++ text) = none

theorem Fails.bind {f : α → Reader β} {text : List Char} (h : Fails r text) :
    Fails (r >>= f) text := by
  intro lead hlead
  show (r (lead ++ text)).bind _ = none
  rw [h lead hlead]
  rfl

/-- What fails after an item that is read. -/
theorem Reads.bind_fails {f : α → Reader β} {text : List Char} (h : Reads r w a t)
    (hf : Fails (f a) text) : Fails (r >>= f) (w ++ text) := by
  intro lead hlead
  show (r (lead ++ (w ++ text))).bind _ = none
  rw [h.2 lead text hlead]
  exact hf t h.1

theorem reads_word {c : Char} {s : Char} (hc : isSpace c = false)
    (hw : w.all (fun d => !isSpace d) = true) (hs : isSpace s = true) : Reads word (c :: w ++ [s]) (c :: w) [s] := by
  refine ⟨blank_singleton hs, fun lead rest hlead => ?_⟩
  have hdrop : (lead ++ (c :: w ++ [s] ++ rest)).dropWhile isSpace = (c :: w) ++ s :: rest := by
    rw [List.append_assoc]
    exact hlead.dropWhile hc
  have hword : ∀ d ∈ c :: w, (!isSpace d) = true := by
    intro d hd
    rcases List.mem_cons.mp hd with rfl | hd
    · rw [hc]
      rfl
    · exact List.all_eq_true.mp hw d hd
  obtain ⟨htake, hrest⟩ := span_append (fun d => !isSpace d) rest hword (c := s) (by rw [hs]; rfl)
  unfold word
  dsimp only
  rw [hdrop, htake, hrest]
  rfl

/-! ## Numbers -/

theorem isSpace_of_isDigit {c : Char} (h : c.isDigit = true) : isSpace c = false := by
  have hc : 48 ≤ c.toNat ∧ c.toNat ≤ 57 := by
    simpa [Char.isDigit, UInt32.le_iff_toNat_le] using h
  have hne : c ≠ ' ' := by
    rintro rfl
    exact absurd hc.1 (by decide)
  unfold isSpace
  rw [beq_eq_false_iff_ne.mpr hne, Bool.false_or, Bool.and_eq_false_iff]
  right
  rw [decide_eq_false_iff_not]
  omega

theorem decimal_digits {n : Nat} : ∀ c ∈ decimal n, c.isDigit = true :=
  fun _ hc => Nat.isDigit_of_mem_toDigits (by decide) (by decide) hc

/-- The digits of a number have a first one. -/
theorem exists_decimal (n : Nat) : ∃ c ds, decimal n = c :: ds := by
  cases h : decimal n with
  | nil => exact absurd h Nat.toDigits_ne_nil
  | cons c ds => exact ⟨c, ds, rfl⟩

theorem sign_digit {c : Char} {rest : List Char} (h : c.isDigit = true) :
    sign (c :: rest) = (false, c :: rest) := by
  unfold sign
  split
  · rename_i heq
    injection heq with hc
    rw [hc] at h
    exact absurd h (by decide)
  · rename_i heq
    injection heq with hc
    rw [hc] at h
    exact absurd h (by decide)
  · rfl

/-- The digits of a number, up to a character that is no digit. -/
theorem numeral_decimal {lead : List Char} (n : Nat) {s : Char} (rest : List Char)
    (hlead : Blank lead) (hs : s.isDigit = false) :
    numeral (lead ++ (decimal n ++ s :: rest)) = some ((false, n), s :: rest) := by
  obtain ⟨c, ds, hn⟩ := exists_decimal n
  have hc : c.isDigit = true := decimal_digits c (by rw [hn]; exact List.mem_cons_self)
  have hdrop : (lead ++ (decimal n ++ s :: rest)).dropWhile isSpace = decimal n ++ s :: rest := by
    rw [hn]
    exact hlead.dropWhile (isSpace_of_isDigit hc)
  have hsign : sign (decimal n ++ s :: rest) = (false, decimal n ++ s :: rest) := by
    rw [hn]
    exact sign_digit hc
  obtain ⟨htake, hrest⟩ := span_append Char.isDigit rest (w := decimal n) decimal_digits hs
  have hvalue : Nat.ofDigitChars 10 (c :: ds) 0 = n := by
    rw [← hn]
    exact Nat.ofDigitChars_ten_toDigits
  unfold numeral
  rw [hdrop, hsign]
  dsimp only
  rw [htake, hrest, hn]
  dsimp only
  rw [hvalue]

/-- The same, with a minus sign before it. -/
theorem numeral_negative {lead : List Char} (n : Nat) {s : Char} (rest : List Char)
    (hlead : Blank lead) (hs : s.isDigit = false) :
    numeral (lead ++ ('-' :: decimal n ++ s :: rest)) = some ((true, n), s :: rest) := by
  obtain ⟨c, ds, hn⟩ := exists_decimal n
  have hdrop : (lead ++ ('-' :: decimal n ++ s :: rest)).dropWhile isSpace
      = '-' :: (decimal n ++ s :: rest) := hlead.dropWhile (by decide)
  obtain ⟨htake, hrest⟩ := span_append Char.isDigit rest (w := decimal n) decimal_digits hs
  have hvalue : Nat.ofDigitChars 10 (c :: ds) 0 = n := by
    rw [← hn]
    exact Nat.ofDigitChars_ten_toDigits
  have hsign : sign ('-' :: (decimal n ++ s :: rest)) = (true, decimal n ++ s :: rest) := rfl
  unfold numeral
  rw [hdrop, hsign]
  dsimp only
  rw [htake, hrest, hn]
  dsimp only
  rw [hvalue]

theorem not_isDigit_of_isSpace {s : Char} (hs : isSpace s = true) : s.isDigit = false := by
  cases hd : s.isDigit with
  | false => rfl
  | true =>
      rw [isSpace_of_isDigit hd] at hs
      cases hs

theorem reads_unsigned {n bound : Nat} {s : Char} (hn : n < bound) (hs : isSpace s = true) :
    Reads (unsigned bound) (decimal n ++ [s]) n [s] := by
  refine ⟨blank_singleton hs, fun lead rest hlead => ?_⟩
  have hnum := numeral_decimal n rest hlead (not_isDigit_of_isSpace hs)
  unfold unsigned
  show (numeral _).bind _ = _
  rw [List.append_assoc, List.singleton_append, hnum]
  show (if n < bound then _ else _ : Reader Nat) (s :: rest) = _
  rw [if_pos hn]
  rfl

/-- A number beyond the range of a signed type. -/
theorem fails_signed {n bound : Nat} {s : Char} (rest : List Char) (hn : bound ≤ n)
    (hs : isSpace s = true) : Fails (signed bound) (decimal n ++ s :: rest) := by
  intro lead hlead
  have hnum := numeral_decimal n rest hlead (not_isDigit_of_isSpace hs)
  unfold signed
  show (numeral _).bind _ = none
  rw [hnum]
  show (if -(bound : Int) ≤ (n : Int) ∧ (n : Int) < bound then _ else failure : Reader Int) _ = none
  rw [if_neg (by omega)]
  rfl

theorem reads_signed {z : Int} {bound : Nat} {s : Char} (hz : -bound ≤ z ∧ z < bound)
    (hs : isSpace s = true) : Reads (signed bound) (decimalInt z ++ [s]) z [s] := by
  refine ⟨blank_singleton hs, fun lead rest hlead => ?_⟩
  have hd := not_isDigit_of_isSpace hs
  unfold signed decimalInt
  show (numeral _).bind _ = _
  rw [List.append_assoc, List.singleton_append]
  split
  · rename_i hneg
    have hval : -(z.natAbs : Int) = z := by omega
    rw [numeral_negative _ _ hlead hd]
    show (if -(bound : Int) ≤ -(z.natAbs : Int) ∧ -(z.natAbs : Int) < bound then
      pure (-(z.natAbs : Int)) else failure : Reader Int) (s :: rest) = _
    rw [hval, if_pos hz]
    rfl
  · rename_i hneg
    have hval : (z.natAbs : Int) = z := by omega
    rw [numeral_decimal _ _ hlead hd]
    show (if -(bound : Int) ≤ (z.natAbs : Int) ∧ (z.natAbs : Int) < bound then
      pure (z.natAbs : Int) else failure : Reader Int) (s :: rest) = _
    rw [hval, if_pos hz]
    rfl

end Formatted
