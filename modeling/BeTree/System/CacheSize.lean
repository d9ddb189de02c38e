import BeTree.Codec.FKey
import BeTree.Codec.NodeText
import BeTree.Proof.Mirror
import BeTree.Proof.Session
import BeTree.System.Environment

/-!
# The size of the cache

A session over totally ordered keys that are read back as they were written is answered as
the reference map answers it, whatever the swap space says. So how many objects it keeps in
memory cannot be seen.

The keys of the file system are not read back as they were written. As long as no node that
has entries is read back, a session does what the same session over path names does, and
that is all that can be said: a key that was read back comes before all that were not, and
what is looked up next to it may not be found.
-/

namespace BeTree

open Node Environment Formatted

/-- **Every session** is answered as by the reference map, whatever the swap space says. -/
theorem session_answers {K V : Type} [LinearOrder K] [Add V] [BEq V] [Inhabited K] [Inhabited V]
    (bet : Params K V) (hr : ∀ n, bet.reload n = some n) {cs : List (Cmd K V)}
    (hcs : cs.length < uint64Max) :
    Prog.All (fun r => r.2 = Reference.execAll bet.defaultValue [] cs) (Fault.Stops bet.maxNodeSize)
      (session bet cs) :=
  (serves_create bet).bind (fun t ht => ht.execAll hr (by rw [Nat.zero_add]; exact hcs))

/-! ## Path names -/

namespace FKey

/-- A path without a slash has at most one component. -/
theorem getlines_of_noSlash {text : List Char} (h : '/' ∉ text) (item : List Char) :
    getlines item text = if item ++ text = [] then [] else [item ++ text] := by
  induction text generalizing item with
  | nil =>
      rw [List.append_nil]
      rfl
  | cons c rest ih =>
      rw [List.mem_cons, not_or] at h
      obtain ⟨hc, hrest⟩ := h
      unfold getlines
      rw [if_neg (Ne.symm hc), ih hrest, List.append_assoc, List.singleton_append]

end FKey

/-- A path of one component, or of none. -/
def Name : Type := { text : List Char // '/' ∉ text }

namespace Name

instance : LinearOrder Name := inferInstanceAs (LinearOrder { text : List Char // '/' ∉ text })

instance : Inhabited Name where
  default := ⟨[], List.not_mem_nil⟩

/-- The key of a name. -/
def key (a : Name) : FKey := FKey.ofString a.1

/-- A numeral. -/
def ofNat (t : Nat) : Name := ⟨decimal t, fun h => absurd (decimal_digits _ h) (by decide)⟩

theorem key_tokens (a : Name) : a.key.tokens = if a.1 = [] then [] else [a.1] :=
  FKey.getlines_of_noSlash a.2 []

theorem key_lt (a b : Name) : a.key < b.key ↔ a < b := by
  have ha := a.key_tokens
  have hb := b.key_tokens
  have hlen : a.key.tokens.length ≤ 255 := by
    rw [ha]
    split <;> simp
  show a.key.less b.key = some true ↔ a.1 < b.1
  rw [FKey.less_eq hlen, Option.some.injEq, decide_eq_true_eq]
  show a.1 ≠ b.1 ∧ a.key.rank ≤ b.key.rank ↔ a.1 < b.1
  unfold FKey.rank
  rw [ha, hb, Prod.Lex.toLex_le_toLex]
  by_cases hna : a.1 = [] <;> by_cases hnb : b.1 = []
  · simp [hna, hnb]
  · obtain ⟨c, rest, hcons⟩ := List.exists_cons_of_ne_nil hnb
    have hlt : ([] : List Char) < b.1 := hcons ▸ List.nil_lt_cons c rest
    simp [hna, hnb, hlt]
  · simp [hna, hnb]
  · have hle : [a.1] ≤ [b.1] ↔ a.1 ≤ b.1 := by
      rw [← not_lt, ← not_lt, List.cons_lt_cons_iff]
      simp
    rw [if_neg hna, if_neg hnb, hle]
    simp only [List.length_singleton, lt_irrefl, false_or, true_and]
    rw [lt_iff_le_and_ne, and_comm]

theorem key_embeds : Embeds key := by
  refine ⟨key_lt, fun a b => ?_⟩
  show decide (a.1 = b.1) = decide (a = b)
  rw [decide_eq_decide]
  exact Subtype.ext_iff.symm

end Name

/-! ## The tree of the file system -/

/-- A `std::string` as a value. -/
structure Text where
  chars : List Char
deriving DecidableEq, Repr, Inhabited

instance : Add Text where
  add a b := ⟨a.chars ++ b.chars⟩

/-- `serialize` and `deserialize` of a value. -/
def textFormat : Format Text where
  serialize v := serializeString v.chars
  deserialize := do
    let chars ← deserializeString
    return ⟨chars⟩

/-- `betree<FKey, std::string>`, whose nodes are read back from what was written of them. -/
def fileTree (maxNodeSize minFlushSize : Nat) (defaultValue : Text) : Params FKey Text :=
  ⟨maxNodeSize, minFlushSize, defaultValue, readBack FKey.format textFormat⟩

/-- `FKey(std::to_string(t))`. -/
def numeralKey (t : Nat) : FKey := FKey.ofString (decimal t)

/-- What a session answered, if it was carried through. -/
def answers {K V : Type} (r : Except Fault (Betree K V × List (Reply K V)) × Environment) :
    Option (List (Reply K V)) :=
  match r.1 with
  | .ok (_, rs) => some rs
  | .error _ => none

section FileTree

variable (maxNodeSize minFlushSize : Nat) (defaultValue : Text)

/-- The tree over names whose nodes are read back as they were. -/
theorem agree_fileTree : Agree Name.key ⟨maxNodeSize, minFlushSize, defaultValue, some⟩
    (fileTree maxNodeSize minFlushSize defaultValue) := by
  refine ⟨rfl, rfl, rfl, fun n hn => ?_⟩
  exact readBack_empty FKey.format textFormat (by rw [rename_size, hn])

theorem same_session (cs : List (Cmd Name Text)) :
    Same (Prod.map (Betree.rename Name.key) (List.map (Reply.rename Name.key)))
      (session ⟨maxNodeSize, minFlushSize, defaultValue, some⟩ cs)
      (session (fileTree maxNodeSize minFlushSize defaultValue) (cs.map (Cmd.rename Name.key))) :=
  (same_create Name.key).bind
    (fun t => same_execAll Name.key_embeds (agree_fileTree _ _ _) rfl t cs)

end FileTree

/-! ## No node with entries is read back -/

namespace Environment

variable {e e' : Environment}

theorem reloaded_update {r : Except SwapFault (SwapSpace Unit (Payload Unit))} :
    (e.update r).2.reloaded = e.reloaded := by
  unfold update
  split <;> rfl

theorem reloaded_answer {α : Type} {r : Except SwapFault α} :
    (e.answer r (fun _ => e)).2 = e := by
  unfold answer
  split <;> rfl

/-- What has been read back stays so. -/
theorem reloaded_mono (o : Op) (h : e.reloaded = true) :
    (handler o e).2.reloaded = true := by
  cases o with
  | allocate =>
      unfold handler
      dsimp only
      split <;> exact h
  | pin id => exact reloaded_update.trans h
  | access id dirty size children =>
      show (e.access id dirty size children).2.reloaded = true
      unfold access
      split
      · show (e.reloaded || _) = true
        rw [h, Bool.true_or]
      · exact h
  | unpin id children => exact reloaded_update.trans h
  | depoint id => exact reloaded_update.trans h
  | isDirty id => exact (congrArg reloaded reloaded_answer).trans h
  | isInMemory id => exact (congrArg reloaded reloaded_answer).trans h
  | evictAll => exact reloaded_update.trans h

theorem plain_of_not_reloaded {o : Op} {r : o.Ans} (h : handler o e = (.ok r, e'))
    (he : ¬ e'.reloaded = true) : o.Plain r := by
  cases o with
  | access id dirty size children =>
      obtain ⟨ss, _, _, he'⟩ := access_eq h
      subst he'
      intro hloaded
      subst hloaded
      by_contra hsize
      have hpos : 0 < size := Nat.pos_of_ne_zero hsize
      exact he (by simp [hpos])
  | _ => trivial

end Environment

/-- A session over names is answered as by the reference map. -/
theorem answers_names {maxNodeSize minFlushSize : Nat} {defaultValue : Text}
    {c : Nat} {cs : List (Cmd Name Text)}
    {rs : List (Reply FKey Text)} (hcs : cs.length < uint64Max)
    (hrun : answers (runSession (fileTree maxNodeSize minFlushSize defaultValue) c
      (cs.map (Cmd.rename Name.key))) = some rs)
    (hreload : (runSession (fileTree maxNodeSize minFlushSize defaultValue) c
      (cs.map (Cmd.rename Name.key))).2.reloaded = false) :
    rs = (Reference.execAll defaultValue [] cs).map (Reply.rename Name.key) := by
  unfold runSession at hrun hreload
  have hsame := (same_session maxNodeSize minFlushSize defaultValue cs).run
    (fun e => e.reloaded = true) (fun o e h => reloaded_mono o h)
    (fun o e r e' h he => plain_of_not_reloaded h he) (ne_true_of_eq_false hreload)
  have hans := session_answers
    (⟨maxNodeSize, minFlushSize, defaultValue, some⟩ : Params Name Text) (fun _ => rfl) hcs
  have hall := Prog.run_of_all (h := handler) hans (Environment.create c)
  rw [hsame] at hrun
  rcases hres : (session (⟨maxNodeSize, minFlushSize, defaultValue, some⟩ : Params Name Text) cs).run
    handler (Environment.create c) with ⟨f | ⟨t, rs'⟩, e⟩
  · rw [hres] at hrun
    exact absurd hrun nofun
  · rw [hres] at hrun hall
    injection hrun with hrun
    rw [← hrun, ← hall]

/--
**The size of the cache cannot be seen** in sessions that read no node with entries back from
disk.
-/
theorem cacheSize_unobservable (maxNodeSize minFlushSize : Nat) (defaultValue : Text)
    (c₁ c₂ : Nat) (cs : List (Cmd Nat Text))
    (hcs : cs.length < uint64Max) (rs₁ rs₂ : List (Reply FKey Text))
    (h₁ : answers (runSession (fileTree maxNodeSize minFlushSize defaultValue) c₁
      (cs.map (Cmd.rename numeralKey))) = some rs₁)
    (h₂ : answers (runSession (fileTree maxNodeSize minFlushSize defaultValue) c₂
      (cs.map (Cmd.rename numeralKey))) = some rs₂)
    (hreload₁ : (runSession (fileTree maxNodeSize minFlushSize defaultValue) c₁
      (cs.map (Cmd.rename numeralKey))).2.reloaded = false)
    (hreload₂ : (runSession (fileTree maxNodeSize minFlushSize defaultValue) c₂
      (cs.map (Cmd.rename numeralKey))).2.reloaded = false) :
    rs₁ = rs₂ := by
  have hmap : cs.map (Cmd.rename numeralKey) = (cs.map (Cmd.rename Name.ofNat)).map
      (Cmd.rename Name.key) := by
    rw [List.map_map]
    refine List.map_congr_left (fun c _ => ?_)
    exact (Cmd.rename_rename Name.ofNat Name.key c).symm
  have hlen : (cs.map (Cmd.rename Name.ofNat)).length < uint64Max := by
    rw [List.length_map]
    exact hcs
  rw [hmap] at h₁ h₂ hreload₁ hreload₂
  rw [answers_names hlen h₁ hreload₁, answers_names hlen h₂ hreload₂]

/-- Six keys are inserted, and one of them is looked up. -/
def sixInserts : List (Cmd Nat Text) :=
  [1, 2, 5, 6, 9, 8].map (fun t => Cmd.upsert (.insert t ⟨['a']⟩)) ++ [.query 6]

/-- With four objects in memory two leaves are written to disk, and stay there. -/
theorem cacheSize_unobservable_four :
    ∃ rs₁ rs₂, answers (runSession (fileTree 3 1 ⟨[]⟩) 4
          (sixInserts.map (Cmd.rename numeralKey))) = some rs₁
      ∧ answers (runSession (fileTree 3 1 ⟨[]⟩) 1000
          (sixInserts.map (Cmd.rename numeralKey))) = some rs₂
      ∧ rs₁ = rs₂ := by
  obtain ⟨rs₁, h₁⟩ := Option.isSome_iff_exists.mp
    (show (answers (runSession (fileTree 3 1 ⟨[]⟩) 4
      (sixInserts.map (Cmd.rename numeralKey)))).isSome = true by decide +kernel)
  obtain ⟨rs₂, h₂⟩ := Option.isSome_iff_exists.mp
    (show (answers (runSession (fileTree 3 1 ⟨[]⟩) 1000
      (sixInserts.map (Cmd.rename numeralKey)))).isSome = true by decide +kernel)
  exact ⟨rs₁, rs₂, h₁, h₂, cacheSize_unobservable 3 1 ⟨[]⟩ 4 1000 sixInserts (by decide) rs₁ rs₂
    h₁ h₂ (by decide +kernel) (by decide +kernel)⟩

/--
With one object in memory, the node for the keys from `5` on is read back from disk and split
when `8` is inserted. Its first part, where `6` is waiting, goes into the root under the `5`
that was read back, which comes before `1`. The look-up of `6` then goes to the node for `2`.
-/
theorem cacheSize_observed :
    answers (runSession (fileTree 3 1 ⟨[]⟩) 1
          (sixInserts.map (Cmd.rename numeralKey)))
        = some [.done, .done, .done, .done, .done, .done, .value none]
      ∧ answers (runSession (fileTree 3 1 ⟨[]⟩) 1000
          (sixInserts.map (Cmd.rename numeralKey)))
        = some [.done, .done, .done, .done, .done, .done, .value (some ⟨['a']⟩)] := by
  constructor <;> decide +kernel

end BeTree
