import BeTree.Swap.SwapSpace
import Mathlib.Logic.Function.Basic

/-!
# Clients that share a directory

Every client fiber has a `one_file_per_object_backing_store` of its own, and all of them
work on the same directory. A store names its files by its own counter, so the files of
two clients can have the same name.

Beside the files, a directory keeps for each client the store it would have if it were
alone: the files it has allocated and not deallocated, with what it last wrote. As long
as nobody allocates a file whose name is in use by another client, every client finds
the files of its own store.
-/

namespace BeTree

open Checked

/-- What `write_back`, `load` and `depoint` do to the backing store. -/
inductive FileOp where
  | allocate
  | write (id : Nat) (buffer : List Char)
  | read (id : Nat)
  | deallocate (id : Nat)
deriving DecidableEq, Repr

/-- The files of a directory, and the store each client believes to have. -/
structure Directory where
  files : Dict Nat (List Char)
  stores : Nat → BackingStore (List Char)

namespace Directory

/-- An empty directory. -/
def create : Directory := ⟨Dict.empty, fun _ => BackingStore.create⟩

/-- The store that client `c` has when its files are `files`. -/
def setFiles (d : Directory) (c : Nat) (files : Dict Nat (List Char)) :
    Nat → BackingStore (List Char) :=
  Function.update d.stores c { d.stores c with files := files }

/--
An operation of client `c`, with what it reads. `allocate` truncates a file that exists;
`write` starts at the beginning of the file and does not truncate it.
-/
def perform (d : Directory) (c : Nat) : FileOp → Except SwapFault (List Char × Directory)
  | .allocate =>
    let id := uint64 (d.stores c).nextid
    return ([], ⟨d.files.set id [], Function.update d.stores c ((d.stores c).allocate []).2⟩)
  | .write id buffer => do
    let old ← need .missingFile (d.files.get? id)
    return ([], ⟨d.files.set id (buffer ++ old.drop buffer.length),
      d.setFiles c ((d.stores c).files.set id buffer)⟩)
  | .read id => do
    let content ← need .missingFile (d.files.get? id)
    return (content, d)
  | .deallocate id => do
    check (d.files.get? id).isSome .missingFile
    return ([], ⟨d.files.erase id, d.setFiles c ((d.stores c).files.erase id)⟩)

/-- Operations of clients one after the other, with the last answer. -/
def performAll (d : Directory) : List (Nat × FileOp) → Except SwapFault (List Char × Directory)
  | [] => return ([], d)
  | [(c, op)] => d.perform c op
  | (c, op) :: ops => do
    let (_, d) ← d.perform c op
    d.performAll ops

/--
A client works on files that it has allocated and not deallocated, and writes a file
once, after having allocated it.
-/
def Own (d : Directory) (c : Nat) : FileOp → Prop
  | .allocate => True
  | .write id _ => (d.stores c).files.get? id = some []
  | .read id => ((d.stores c).files.get? id).isSome = true
  | .deallocate id => ((d.stores c).files.get? id).isSome = true

/-- No other client has a file of the name that is allocated. -/
def Uncontended (d : Directory) (c : Nat) : FileOp → Prop
  | .allocate => ∀ c', c' ≠ c → (d.stores c').files.get? (uint64 (d.stores c).nextid) = none
  | _ => True

/-- The states of runs in which no allocation is contended. -/
inductive Reachable : Directory → Prop where
  | create : Reachable create
  | step {d d' : Directory} {c : Nat} {op : FileOp} {r : List Char} : Reachable d → d.Own c op →
      d.Uncontended c op → d.perform c op = .ok (r, d') → Reachable d'

/-- Every client finds its files in the directory, and no file belongs to two clients. -/
structure Isolated (d : Directory) : Prop where
  found : ∀ c id b, (d.stores c).files.get? id = some b → d.files.get? id = some b
  exclusive : ∀ c c' id, ((d.stores c).files.get? id).isSome = true →
    ((d.stores c').files.get? id).isSome = true → c = c'

variable {d d' : Directory} {c : Nat}

theorem isolated_create : Isolated create := by
  refine ⟨fun c id b hb => ?_, fun c c' id hc => ?_⟩
  · exact absurd hb (by simp [create, BackingStore.create])
  · exact absurd hc (by simp [create, BackingStore.create])

/-- What client `c'` has after client `c` has changed its files. -/
theorem get?_update {files : Dict Nat (List Char)} {nextid c' id : Nat} :
    (Function.update d.stores c ⟨nextid, files⟩ c').files.get? id
      = if c' = c then files.get? id else (d.stores c').files.get? id := by
  by_cases h : c' = c
  · subst h
    rw [Function.update_self, if_pos rfl]
  · rw [Function.update_of_ne h, if_neg h]

/-- A client writes a file that no other client has. -/
theorem Isolated.set {id nextid : Nat} {b : List Char} (h : Isolated d)
    (hother : ∀ c', c' ≠ c → (d.stores c').files.get? id = none) :
    Isolated ⟨d.files.set id b,
      Function.update d.stores c ⟨nextid, (d.stores c).files.set id b⟩⟩ := by
  -- who has a file afterwards: its owner before, or `c` the file it writes
  have howner : ∀ c' i, ((Function.update d.stores c
      ⟨nextid, (d.stores c).files.set id b⟩ c').files.get? i).isSome = true →
      (c' = c ∧ i = id) ∨ (i ≠ id ∧ ((d.stores c').files.get? i).isSome = true) := by
    intro c' i hi
    rw [get?_update] at hi
    by_cases hc : c' = c
    · rw [if_pos hc, Dict.get?_set] at hi
      by_cases hid : i = id
      · exact Or.inl ⟨hc, hid⟩
      · rw [if_neg hid] at hi
        exact Or.inr ⟨hid, hc ▸ hi⟩
    · rw [if_neg hc] at hi
      refine Or.inr ⟨fun hid => ?_, hi⟩
      rw [hid, hother c' hc] at hi
      cases hi
  refine ⟨fun c' i x hx => ?_, fun c₁ c₂ i h₁ h₂ => ?_⟩
  · show (d.files.set id b).get? i = some x
    rw [get?_update] at hx
    rw [Dict.get?_set]
    by_cases hc : c' = c
    · rw [if_pos hc, Dict.get?_set] at hx
      by_cases hid : i = id
      · rw [if_pos hid] at hx ⊢
        exact hx
      · rw [if_neg hid] at hx ⊢
        exact h.found c i x hx
    · rw [if_neg hc] at hx
      have hid : i ≠ id := by
        rintro rfl
        rw [hother c' hc] at hx
        cases hx
      rw [if_neg hid]
      exact h.found c' i x hx
  · rcases howner c₁ i h₁ with ⟨rfl, rfl⟩ | ⟨hne, h₁⟩
    · rcases howner c₂ i h₂ with ⟨rfl, _⟩ | ⟨hne, _⟩
      · rfl
      · exact absurd rfl hne
    · rcases howner c₂ i h₂ with ⟨_, hid⟩ | ⟨_, h₂⟩
      · exact absurd hid hne
      · exact h.exclusive c₁ c₂ i h₁ h₂

/-- A client removes a file of its own. -/
theorem Isolated.erase {id : Nat} (h : Isolated d)
    (hown : ((d.stores c).files.get? id).isSome = true) :
    Isolated ⟨d.files.erase id, d.setFiles c ((d.stores c).files.erase id)⟩ := by
  have hkept : ∀ c' i x, (d.setFiles c ((d.stores c).files.erase id) c').files.get? i = some x →
      i ≠ id ∧ (d.stores c').files.get? i = some x := by
    intro c' i x hx
    rw [setFiles, get?_update] at hx
    by_cases hc : c' = c
    · rw [if_pos hc] at hx
      obtain ⟨hne, hx⟩ := Dict.get?_erase_eq_some.mp hx
      exact ⟨hne, hc ▸ hx⟩
    · rw [if_neg hc] at hx
      refine ⟨fun hid => hc (h.exclusive c' c id ?_ hown), hx⟩
      rw [← hid, hx]
      rfl
  refine ⟨fun c' i x hx => ?_, fun c₁ c₂ i h₁ h₂ => ?_⟩
  · obtain ⟨hne, hx⟩ := hkept c' i x hx
    exact Dict.get?_erase_eq_some.mpr ⟨hne, h.found c' i x hx⟩
  · obtain ⟨x, hx⟩ := Option.isSome_iff_exists.mp h₁
    obtain ⟨y, hy⟩ := Option.isSome_iff_exists.mp h₂
    refine h.exclusive c₁ c₂ i ?_ ?_
    · rw [(hkept c₁ i x hx).2]
      rfl
    · rw [(hkept c₂ i y hy).2]
      rfl

theorem perform_write {id : Nat} {old : List Char} (buffer : List Char)
    (h : d.files.get? id = some old) :
    d.perform c (.write id buffer) = .ok ([], ⟨d.files.set id (buffer ++ old.drop buffer.length),
      d.setFiles c ((d.stores c).files.set id buffer)⟩) := by
  show (need _ (d.files.get? id) >>= _) = _
  rw [h]
  rfl

theorem perform_read {id : Nat} {x : List Char} (h : d.files.get? id = some x) :
    d.perform c (.read id) = .ok (x, d) := by
  show (need _ (d.files.get? id) >>= _) = _
  rw [h]
  rfl

theorem perform_deallocate {id : Nat} {x : List Char} (h : d.files.get? id = some x) :
    d.perform c (.deallocate id)
      = .ok ([], ⟨d.files.erase id, d.setFiles c ((d.stores c).files.erase id)⟩) := by
  show (check (d.files.get? id).isSome _ >>= _) = _
  rw [h]
  rfl

/-- **One operation** keeps the clients apart. -/
theorem Isolated.perform {op : FileOp} {r : List Char} (h : Isolated d) (hown : d.Own c op)
    (hfree : d.Uncontended c op) (hstep : d.perform c op = .ok (r, d')) : Isolated d' := by
  cases op with
  | allocate =>
      injection hstep with hstep
      injection hstep with _ hstep
      subst hstep
      exact h.set hfree
  | write id buffer =>
      have hown : (d.stores c).files.get? id = some [] := hown
      -- the file is this client's, so the write is in no other client's view
      have hother : ∀ c', c' ≠ c → (d.stores c').files.get? id = none := by
        intro c' hc
        cases hx : (d.stores c').files.get? id with
        | none => rfl
        | some x => exact absurd (h.exclusive c' c id (by rw [hx]; rfl) (by rw [hown]; rfl)) hc
      rw [perform_write buffer (h.found c id [] hown)] at hstep
      injection hstep with hstep
      injection hstep with _ hstep
      subst hstep
      rw [List.drop_nil, List.append_nil]
      exact h.set hother
  | read id =>
      obtain ⟨x, hx⟩ := Option.isSome_iff_exists.mp hown
      rw [perform_read (h.found c id x hx)] at hstep
      injection hstep with hstep
      injection hstep with _ hstep
      exact hstep ▸ h
  | deallocate id =>
      obtain ⟨x, hx⟩ := Option.isSome_iff_exists.mp hown
      rw [perform_deallocate (h.found c id x hx)] at hstep
      injection hstep with hstep
      injection hstep with _ hstep
      subst hstep
      exact h.erase hown

theorem isolated_reachable (h : Reachable d) : Isolated d := by
  induction h with
  | create => exact isolated_create
  | step _ hown hfree hstep ih => exact ih.perform hown hfree hstep

end Directory

/--
**Isolation.** In every state of every run in which clients allocate only names that no
other client has in use, a client that has allocated a file and not deallocated it reads
back what it last wrote, and can deallocate it.
-/
theorem stores_isolated (d : Directory) (h : Directory.Reachable d) (c id : Nat) (b : List Char)
    (hb : (d.stores c).files.get? id = some b) :
    d.perform c (.read id) = .ok (b, d) ∧ ∃ d', d.perform c (.deallocate id) = .ok ([], d') := by
  have hfile := (Directory.isolated_reachable h).found c id b hb
  exact ⟨Directory.perform_read hfile, _, Directory.perform_deallocate hfile⟩

/-- The second client reuses the name of a file that the first one has given up. -/
theorem stores_isolated_two :
    ∃ d, Directory.Reachable d ∧ d.perform 0 (.read 2) = .ok (['b'], d)
      ∧ d.perform 1 (.read 1) = .ok (['c', 'd'], d) := by
  let first (n : Nat) (files : Dict Nat (List Char)) := Function.update Directory.create.stores 0 ⟨n, files⟩
  let second (n : Nat) (files files' : Dict Nat (List Char)) :=
    Function.update (first n files) 1 ⟨2, files'⟩
  -- while only the first client has done anything, the others have no files
  have hothers : ∀ n files c' i, c' ≠ 0 → (first n files c').files.get? i = none := by
    intro n files c' i hc
    rw [show first n files c' = BackingStore.create from Function.update_of_ne hc _ _]
    rfl
  have hidem : ∀ n n' files files', Function.update (first n files) 0 ⟨n', files'⟩ = first n' files' :=
    fun n n' files files' => Function.update_idem _ _ _
  have hidem' : ∀ n files f f', Function.update (second n files f) 1 ⟨2, f'⟩ = second n files f' :=
    fun n files f f' => Function.update_idem _ _ _
  have h₁ : Directory.Reachable ⟨Dict.empty.set 1 [], first 2 (Dict.empty.set 1 [])⟩ :=
    .step .create (show Directory.create.Own 0 .allocate from trivial) (fun _ _ => rfl) rfl
  have h₂ : Directory.Reachable ⟨(Dict.empty.set 1 []).set 2 [],
      first 3 ((Dict.empty.set 1 []).set 2 [])⟩ := by
    rw [← hidem 2]
    exact .step h₁ (show Directory.Own _ 0 .allocate from trivial) (fun _ hc => hothers _ _ _ _ hc) rfl
  have h₃ : Directory.Reachable ⟨(Dict.empty.set 1 []).set 2 ['b'],
      first 3 ((Dict.empty.set 1 []).set 2 ['b'])⟩ := by
    rw [← hidem 3]
    exact .step h₂ (show Directory.Own _ 0 (.write 2 ['b']) from rfl) trivial rfl
  have h₄ : Directory.Reachable ⟨Dict.empty.set 2 ['b'], first 3 (Dict.empty.set 2 ['b'])⟩ := by
    rw [← hidem 3]
    exact .step h₃ (show Directory.Own _ 0 (.deallocate 1) from rfl) trivial rfl
  have h₅ : Directory.Reachable ⟨(Dict.empty.set 2 ['b']).set 1 [],
      second 3 (Dict.empty.set 2 ['b']) (Dict.empty.set 1 [])⟩ := by
    refine .step h₄ (show Directory.Own _ 1 .allocate from trivial) (fun c' _ => ?_) rfl
    by_cases hc : c' = 0
    · rw [hc]
      rfl
    · exact hothers _ _ _ _ hc
  have h₆ : Directory.Reachable ⟨(Dict.empty.set 2 ['b']).set 1 ['c', 'd'],
      second 3 (Dict.empty.set 2 ['b']) (Dict.empty.set 1 ['c', 'd'])⟩ := by
    rw [← hidem']
    exact .step h₅ (show Directory.Own _ 1 (.write 1 ['c', 'd']) from rfl) trivial rfl
  exact ⟨_, h₆, (stores_isolated _ h₆ 0 2 ['b'] rfl).1, (stores_isolated _ h₆ 1 1 ['c', 'd'] rfl).1⟩

/--
The first files of two clients have the same name: the second client overwrites the file of
the first one, and only one of them can deallocate it.
-/
theorem stores_collide :
    let ops := [(0, FileOp.allocate), (0, .write 1 ['a']), (1, .allocate), (1, .write 1 ['b'])]
    (∃ d, Directory.create.performAll ops = .ok ([], d) ∧ (d.stores 0).files.get? 1 = some ['a']
        ∧ (d.stores 1).files.get? 1 = some ['b'] ∧ d.perform 0 (.read 1) = .ok (['b'], d))
      ∧ Directory.create.performAll (ops ++ [(0, .deallocate 1), (1, .deallocate 1)])
        = .error .missingFile :=
  ⟨⟨_, rfl, rfl, rfl, rfl⟩, rfl⟩

end BeTree
