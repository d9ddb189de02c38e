import BeTree.Proof.Listing

/-!
# Scans

An iterator stands in front of a suffix of the tree's messages, with an entry made
of the ones before it. `setup_next_element` goes on until it has the next entry, so
a scan yields what `collect` reads off the messages from the starting point on.
-/

namespace BeTree

open Node

variable {K V : Type} [LinearOrder K] {bet : Params K V} {E : Fault → Prop}

/-! ## The list from a message on -/

/-- After the first message of a suffix comes the rest of it. -/
theorem elementsAfter_suffix {L before rest : MessageMap K V} {m : MessageKey K × Message V}
    (hs : OrdMap.Sorted L) (hL : L = before ++ m :: rest) : elementsAfter L (some m.1) = rest := by
  rw [hL] at hs
  obtain ⟨_, hcons, hlt⟩ := OrdMap.sorted_append.mp hs
  obtain ⟨hm, hrest⟩ := OrdMap.sorted_cons.mp hcons
  refine OrdMap.Sorted.ext (sorted_elementsAfter _ (hL ▸ hs)) hrest (fun x => ?_)
  rw [mem_elementsAfter _ (hL ▸ hs), above_some, hL, List.mem_append, List.mem_cons]
  refine ⟨fun hx => ?_, fun hx => ⟨Or.inr (Or.inr hx), hm x hx⟩⟩
  rcases hx with ⟨hx | rfl | hx, hlt'⟩
  · exact absurd (hlt x hx m List.mem_cons_self) (not_lt_of_gt hlt')
  · exact absurd hlt' (lt_irrefl _)
  · exact hx

theorem elementsAfter_split (L : MessageMap K V) (mkey : Option (MessageKey K)) :
    ∃ before, L = before ++ elementsAfter L mkey := by
  cases mkey with
  | none => exact ⟨[], rfl⟩
  | some k =>
      obtain ⟨before, hb⟩ := List.dropWhile_suffix (l := L) (fun e => !decide (k < e.1))
      exact ⟨before, hb.symm⟩

/-! ## The iterator's state -/

/-- The iterator's position is the first message of `S`. -/
def Iterator.At (it : Iterator K V) (S : MessageMap K V) : Prop :=
  match S with
  | [] => it.posIsValid = false
  | m :: _ => it.posIsValid = true ∧ it.position = m

/-- The entry the iterator is on. -/
def Iterator.entry (it : Iterator K V) : Option (K × V) :=
  if it.isValid then some (it.first, it.second) else none

omit [LinearOrder K] in
theorem Iterator.entry_none {it : Iterator K V} (h : it.entry = none) : it.isValid = false := by
  unfold entry at h
  split at h
  · exact absurd h (by simp)
  · rename_i hv
    simpa using hv

/-- `operator==` with `end()`. -/
theorem Iterator.equal_finish [BEq V] [Inhabited K] [Inhabited V] (it : Iterator K V) :
    it.equal finish = (!it.isValid && !it.posIsValid) := by
  unfold equal finish
  cases it.isValid <;> cases it.posIsValid <;> simp

section

variable [Add V]

omit [LinearOrder K] in
/-- Taking a message of the same key, or the first one of a key. -/
theorem Iterator.entry_apply {it : Iterator K V} {m : MessageKey K × Message V} :
    (it.apply bet m.1 m.2).entry
      = entryAfter bet.defaultValue m (it.entry.map Prod.snd) := by
  unfold apply entryAfter Message.act entry
  cases m.2.opcode with
  | insert => rfl
  | delete => cases it.isValid <;> rfl
  | update => cases it.isValid <;> rfl

omit [LinearOrder K] in
theorem Iterator.at_apply {it : Iterator K V} {m : MessageKey K × Message V} {S : MessageMap K V}
    (h : it.At S) : (it.apply bet m.1 m.2).At S := by
  have hpos : (it.apply bet m.1 m.2).posIsValid = it.posIsValid
      ∧ (it.apply bet m.1 m.2).position = it.position := by
    unfold apply
    split <;> exact ⟨rfl, rfl⟩
  cases S with
  | nil => exact hpos.1.trans h
  | cons x S => exact ⟨hpos.1.trans h.1, hpos.2.trans h.2⟩

/-! ## `setup_next_element` -/

/-- The tree answers with the next message of the list `L`. -/
def Answers (bet : Params K V) (t : Betree K V) (L : MessageMap K V) (E : Fault → Prop) : Prop :=
  ∀ mkey, Prog.All (fun r => r = (t, (elementsAfter L mkey).head?)) E (t.getNextMessage bet mkey)

/-- What `setup_next_element` makes of an iterator in front of `S`. -/
structure Advanced (d : V) (L S : MessageMap K V) (it it' : Iterator K V) (S' : MessageMap K V) :
    Prop where
  suffix : ∃ before, L = before ++ S'
  place : it'.At S'
  shorter : S'.length ≤ S.length
  progress : it.entry = none → S ≠ [] → S'.length < S.length
  finished : it'.entry = none → S' = []
  entries : collect d S it.entry = it'.entry.toList ++ collect d S' none

theorem all_setupLoop {t : Betree K V} {L S before : MessageMap K V} {it : Iterator K V}
    {fuel : Nat} (hans : Answers bet t L E) (hs : OrdMap.Sorted L) (hL : L = before ++ S)
    (hat : it.At S) (hfuel : S.length < fuel) :
    Prog.All (fun r => r.1 = t ∧ ∃ S', Advanced bet.defaultValue L S it r.2 S') E
      (it.setupLoop bet fuel t) := by
  induction fuel generalizing S before it with
  | zero => exact absurd hfuel (Nat.not_lt_zero _)
  | succ fuel ih =>
      rw [Iterator.setupLoop]
      cases S with
      | nil =>
          -- no message is left: the iterator stays on its entry
          have hpos : it.posIsValid = false := hat
          rw [hpos]
          refine ⟨rfl, [], ⟨before, hL⟩, hpos, Nat.le_refl _, fun _ hne => absurd rfl hne,
            fun _ => rfl, ?_⟩
          rw [collect, collect, Option.toList_none, List.append_nil]
      | cons m S =>
          obtain ⟨hpos, hm⟩ := hat
          by_cases hgo : it.isValid = true ∧ m.1.key ≠ it.first
          · -- the entry is complete: the next message is of another key
            obtain ⟨hv, hk⟩ := hgo
            rw [if_neg (by simp [hpos, hv, hm, hk])]
            have hentry : it.entry = some (it.first, it.second) := if_pos hv
            refine ⟨rfl, m :: S, ⟨before, hL⟩, ⟨hpos, hm⟩, Nat.le_refl _, ?_, ?_, ?_⟩
            · exact fun hnone => absurd hnone (by rw [hentry]; simp)
            · exact fun hnone => absurd hnone (by rw [hentry]; simp)
            · rw [hentry]
              show (if m.1.key = it.first then _ else _) = _
              rw [if_neg hk]
              rfl
          · have hcond : (it.posIsValid && (!it.isValid || it.position.1.key == it.first))
                = true := by
              rw [hpos, hm]
              cases hv : it.isValid with
              | false => rfl
              | true =>
                  have hk : m.1.key = it.first := by
                    by_contra hne
                    exact hgo ⟨hv, hne⟩
                  simp [hk]
            rw [if_pos hcond, hm]
            -- what the message makes of the entry is what `collect` makes of it
            have hcollect : collect bet.defaultValue (m :: S) it.entry
                = collect bet.defaultValue S (it.apply bet m.1 m.2).entry := by
              rw [Iterator.entry_apply]
              unfold Iterator.entry
              cases hv : it.isValid with
              | false => rfl
              | true =>
                  have hk : m.1.key = it.first := by
                    by_contra hne
                    exact hgo ⟨hv, hne⟩
                  show collect _ (m :: S) (some (it.first, it.second)) = _
                  rw [collect, if_pos hk]
                  rfl
            have hplace : (it.apply bet m.1 m.2).posIsValid = true
                ∧ (it.apply bet m.1 m.2).position = m :=
              Iterator.at_apply (S := m :: S) ⟨hpos, hm⟩
            have hL' : L = (before ++ [m]) ++ S := by rw [hL]; simp
            dsimp only
            rw [hplace.2]
            refine (hans (some m.1)).bind (fun r hr => ?_)
            subst hr
            rw [elementsAfter_suffix hs hL]
            have hstep : ∀ it' : Iterator K V, it'.At S →
                it'.entry = (it.apply bet m.1 m.2).entry →
                Prog.All (fun r => r.1 = t ∧ ∃ S', Advanced bet.defaultValue L (m :: S) it r.2 S')
                  E (it'.setupLoop bet fuel t) := by
              intro it' hat' hentry
              refine (ih hL' hat' (Nat.lt_of_succ_lt_succ hfuel)).mono (fun r hr => ?_)
              obtain ⟨ht, S', hadv⟩ := hr
              refine ⟨ht, S', hadv.suffix, hadv.place, Nat.le_succ_of_le hadv.shorter,
                fun _ _ => Nat.lt_succ_of_le hadv.shorter, hadv.finished, ?_⟩
              rw [hcollect, ← hentry]
              exact hadv.entries
            cases S with
            | nil => exact hstep _ rfl rfl
            | cons x S => exact hstep _ ⟨hplace.1, rfl⟩ rfl

/-! ## Scans -/

theorem all_setupNextElement {t : Betree K V} {L S before : MessageMap K V} {it : Iterator K V}
    (hans : Answers bet t L E) (hs : OrdMap.Sorted L) (hL : L = before ++ S)
    (hlen : L.length ≤ t.root.messages.length) (hat : it.At S) :
    Prog.All (fun r => r.1 = t ∧ ∃ S',
        Advanced bet.defaultValue L S { it with isValid := false } r.2 S') E
      (it.setupNextElement bet t) := by
  have hS : S.length ≤ L.length := by rw [hL, List.length_append]; omega
  refine all_setupLoop hans hs hL ?_ (by omega)
  cases S with
  | nil => exact hat
  | cons m S => exact hat

theorem all_scanLoop [BEq V] [Inhabited K] [Inhabited V] {t : Betree K V}
    {L S before : MessageMap K V} {it : Iterator K V} {fuel : Nat} (hans : Answers bet t L E)
    (hs : OrdMap.Sorted L) (hL : L = before ++ S) (hlen : L.length ≤ t.root.messages.length)
    (hat : it.At S) (hdone : it.entry = none → S = []) (hpos : 0 < fuel)
    (hfuel : it.entry ≠ none → S.length + 1 < fuel) :
    Prog.All (fun r => r = (t, it.entry.toList ++ collect bet.defaultValue S none)) E
      (it.scanLoop bet fuel t) := by
  induction fuel generalizing S before it with
  | zero => exact absurd hpos (Nat.lt_irrefl 0)
  | succ fuel ih =>
      rw [Iterator.scanLoop, Iterator.equal_finish]
      cases hentry : it.entry with
      | none =>
          have hnil := hdone hentry
          subst hnil
          have hv := Iterator.entry_none hentry
          have hp : it.posIsValid = false := hat
          rw [if_pos (by rw [hv, hp]; rfl)]
          exact rfl
      | some e =>
          have hlt := hfuel (by rw [hentry]; simp)
          have hv : it.isValid = true := by
            by_contra hv
            unfold Iterator.entry at hentry
            rw [if_neg hv] at hentry
            exact absurd hentry (by simp)
          have he : e = (it.first, it.second) := by
            unfold Iterator.entry at hentry
            rw [if_pos hv] at hentry
            injection hentry with hentry
            exact hentry.symm
          rw [if_neg (by rw [hv]; simp)]
          refine (all_setupNextElement hans hs hL hlen hat).bind (fun r hres => ?_)
          obtain ⟨t', it'⟩ := r
          obtain ⟨ht, S', hadv⟩ := hres
          dsimp only at ht hadv
          subst ht
          obtain ⟨before', hL'⟩ := hadv.suffix
          have hentries : collect bet.defaultValue S none
              = it'.entry.toList ++ collect bet.defaultValue S' none := hadv.entries
          have hnext := ih hL' hadv.place hadv.finished (by omega) (fun hne => by
            -- an entry takes at least one message
            have hne' : S ≠ [] := by
              intro hnil
              rw [hnil] at hentries
              cases hit : it'.entry with
              | none => exact hne hit
              | some x => rw [hit] at hentries; simp [collect] at hentries
            have := hadv.progress rfl hne'
            omega)
          refine hnext.bind (fun r hres => ?_)
          subst hres
          show (_, _) = (_, _)
          rw [hentries, he]
          rfl

/-- **A scan** yields the entries of the messages from its starting point on. -/
theorem all_scan [BEq V] [Inhabited K] [Inhabited V] {t : Betree K V} {L : MessageMap K V}
    (hans : Answers bet t L E) (hs : OrdMap.Sorted L)
    (hlen : L.length ≤ t.root.messages.length) (mkey : Option (MessageKey K)) :
    Prog.All (fun r => r = (t, collect bet.defaultValue (elementsAfter L mkey) none)) E (do
      let (t, it) ← Iterator.start bet t mkey
      Iterator.scanLoop bet (t.root.messages.length + 2) t it) := by
  obtain ⟨before, hL⟩ := elementsAfter_split L mkey
  have hstart : Prog.All (fun r => r.1 = t ∧ ∃ S' before', L = before' ++ S' ∧ r.2.At S'
      ∧ (r.2.entry = none → S' = [])
      ∧ collect bet.defaultValue (elementsAfter L mkey) none
        = r.2.entry.toList ++ collect bet.defaultValue S' none) E (Iterator.start bet t mkey) := by
    unfold Iterator.start
    refine (hans mkey).bind (fun r hr => ?_)
    subst hr
    cases hS : elementsAfter L mkey with
    | nil => exact ⟨rfl, [], L, by simp, rfl, fun _ => rfl, rfl⟩
    | cons m S =>
        rw [hS] at hL
        have hat : ({ Iterator.finish with position := m, posIsValid := true } :
            Iterator K V).At (m :: S) := ⟨rfl, rfl⟩
        refine (all_setupNextElement hans hs hL hlen hat).mono (fun r hr => ?_)
        obtain ⟨ht, S', hadv⟩ := hr
        obtain ⟨before', hL'⟩ := hadv.suffix
        exact ⟨ht, S', before', hL', hadv.place, hadv.finished, hadv.entries⟩
  refine hstart.bind (fun ⟨t', it⟩ hres => ?_)
  obtain ⟨ht, S', before', hL', hat, hdone, hentries⟩ := hres
  dsimp only at ht hat hdone hentries
  subst ht
  have hS' : S'.length ≤ L.length := by rw [hL', List.length_append]; omega
  refine (all_scanLoop hans hs hL' hlen hat hdone (by omega) (fun _ => by omega)).mono
    (fun r hr => ?_)
  rw [hr, hentries]

/-! ## Scans of reached trees -/

omit [Add V] in
/-- The timestamps of a subtree's messages. -/
theorem Inv.messages_stamp {fresh : Prop} {h : Nat} {R : K → Prop} {n : Node K V} (hfresh : fresh)
    (hn : Inv fresh h R n) :
    ∀ m ∈ n.messages, 0 < m.1.timestamp ∧ m.1.timestamp ≤ uint64Max := by
  induction h generalizing R n with
  | zero =>
      intro m hm
      rcases mem_messages.mp hm with hm | ⟨p, hp, _⟩
      · exact ⟨hn.2.positive hfresh m hm, hn.2.stamp m hm⟩
      · rw [hn.1] at hp; exact absurd hp (by simp)
  | succ h ih =>
      intro m hm
      rcases mem_messages.mp hm with hm | ⟨p, hp, hm⟩
      · exact ⟨hn.buffer.positive hfresh m hm, hn.buffer.stamp m hm⟩
      · exact ih (hn.forest.child p hp) m hm

/-- The message keys a scan starts behind. -/
def Start.mkey : Start K → Option (MessageKey K)
  | .first => none
  | .lowerBound k => some (.rangeStart k)
  | .upperBound k => some (.rangeEnd k)

/-- The keys a scan is about. -/
def Start.covers (start : Start K) (k : K) : Bool :=
  match start with
  | .first => true
  | .lowerBound k' => !decide (k < k')
  | .upperBound k' => decide (k' < k)

omit [Add V] in
/-- A scan starts at the first message of its keys. -/
theorem elementsAfter_start {L : MessageMap K V} (hs : OrdMap.Sorted L)
    (hts : ∀ m ∈ L, 0 < m.1.timestamp ∧ m.1.timestamp ≤ uint64Max) (start : Start K) :
    elementsAfter L start.mkey = L.filter (fun m => start.covers m.1.key) := by
  cases start with
  | first => exact (List.filter_eq_self.mpr (fun _ _ => rfl)).symm
  | lowerBound k =>
      show OrdMap.upperBound L (.rangeStart k) = _
      rw [OrdMap.upperBound_eq hs]
      refine List.filter_congr (fun m hm => ?_)
      rw [Start.covers, ← decide_not]
      refine decide_eq_decide.mpr ?_
      rw [MessageKey.lt_iff, MessageKey.rangeStart, not_lt, le_iff_lt_or_eq]
      exact or_congr_right ⟨And.left, fun heq => ⟨heq, (hts m hm).1⟩⟩
  | upperBound k =>
      show OrdMap.upperBound L (.rangeEnd k) = _
      rw [OrdMap.upperBound_eq hs]
      refine List.filter_congr (fun m hm => ?_)
      rw [Start.covers]
      exact decide_eq_decide.mpr (MessageKey.rangeEnd_lt (hts m hm).2)

omit [Add V] in
theorem Reference.scan_eq (m : List (K × V)) (start : Start K) :
    Reference.scan m start = m.filter (fun e => start.covers e.1) := by
  cases start with
  | first => exact (List.filter_eq_self.mpr (fun _ _ => rfl)).symm
  | lowerBound k => rfl
  | upperBound k => rfl

omit [Add V] in
theorem lookup_filter {m : List (K × V)} (hs : OrdMap.Sorted m) (p : K → Bool) (k : K) :
    OrdMap.lookup (m.filter (fun e => p e.1)) k = if p k then OrdMap.lookup m k else none := by
  refine Option.ext (fun v => ?_)
  rw [OrdMap.lookup_eq_some (hs.filter _), List.mem_filter]
  by_cases hp : p k = true
  · rw [if_pos hp, OrdMap.lookup_eq_some hs]
    exact and_iff_left hp
  · rw [if_neg hp]
    exact ⟨fun h => absurd h.2 hp, fun h => absurd h (by simp)⟩

/-- A scan of a reached tree yields the reference map's entries and stops with no fault. -/
theorem Reached.scan [BEq V] [Inhabited K] [Inhabited V] {fresh : Prop} {count : Nat}
    {m : List (K × V)} {t : Betree K V} (hfresh : fresh) (hr : ∀ n, bet.reload n = some n)
    (ht : Reached fresh bet.defaultValue count m t) (start : Start K) :
    Prog.All (fun r => r = (t, Reference.scan m start)) E (Iterator.scan bet t start) := by
  obtain ⟨h, hinv, hval⟩ := ht.tree
  obtain ⟨L, hL⟩ := hinv.listing (d := bet.defaultValue) hfresh
  have hans : Answers bet t L E := by
    intro mkey
    have hnext := all_getNextMessage (E := E) hr
      (show h < t.root.height + 1 by rw [hinv.height]; exact Nat.lt_succ_self h) hinv mkey
    refine (all_deref hr hnext).bind (fun ⟨root, r⟩ hres => ?_)
    obtain ⟨hroot, hr'⟩ := hres
    dsimp only at hroot hr'
    subst hroot
    exact congrArg (Prod.mk t) (hr'.eq_head hL.sorted hL.mem)
  have hlen : L.length ≤ t.root.messages.length := by
    exact (List.subperm_of_subset hL.sorted.nodup (fun m hm => (hL.mem m).mp hm)).length_le
  have hcollect : collect bet.defaultValue (elementsAfter L start.mkey) none
      = Reference.scan m start := by
    rw [elementsAfter_start hL.sorted (fun x hx => hinv.messages_stamp hfresh x ((hL.mem x).mp hx)),
      Reference.scan_eq]
    refine collect_eq (hL.sorted.filter _) (ht.sorted.filter _) (fun k => ?_)
    rw [effect, ofKey_filter, lookup_filter ht.sorted]
    split
    · rw [← hval hfresh k, ← hL.value k]
      rfl
    · rfl
  have hscan := all_scan hans hL.sorted hlen start.mkey
  rw [hcollect] at hscan
  cases start with
  | first => exact hscan
  | lowerBound k => exact hscan
  | upperBound k => exact hscan

/--
**Scans agree with the reference map.** In every tree that fewer than `2^64 - 1`
upserts reach, a scan from `begin()`, `lower_bound(k)` or `upper_bound(k)` ends and
yields the reference map's entries with any key, with keys from `k` on, or with
keys above `k`, in strictly increasing order.
-/
theorem scan_refines_map [BEq V] [Inhabited K] [Inhabited V] (bet : Params K V)
    (hr : ∀ n, bet.reload n = some n) (hM : 3 ≤ bet.maxNodeSize) (us : List (Upsert K V))
    (hlen : us.length < 2 ^ 64 - 1) (start : Start K) :
    Prog.All (fun r => r.2 = Reference.scan (Reference.applyAll bet.defaultValue [] us) start
        ∧ OrdMap.Sorted r.2)
      Fault.Excluded (do
        let t ← Betree.create
        let t ← t.applyAll bet us
        Iterator.scan bet t start) := by
  have hscan : ∀ t, Reached True bet.defaultValue us.length
      (Reference.applyAll bet.defaultValue [] us) t →
      Prog.All (fun r => r.2 = Reference.scan (Reference.applyAll bet.defaultValue [] us) start
        ∧ OrdMap.Sorted r.2) Fault.Excluded (Iterator.scan bet t start) := by
    intro t ht
    refine (ht.scan trivial hr start).mono (fun r hres => ?_)
    rw [hres]
    refine ⟨rfl, ?_⟩
    rw [Reference.scan_eq]
    exact ht.sorted.filter _
  have hall := (all_upserts True us hr hM (fun _ => hlen)).bind hscan
  rw [Prog.bind_assoc] at hall
  exact hall

theorem scan_refines_map_small :
    3 ≤ 4 ∧ Prog.All (fun r => r.2 = [(2, 17), (5, 1)] ∧ OrdMap.Sorted r.2) Fault.Excluded (do
      let t ← Betree.create
      let t ← t.applyAll (⟨4, 1, 10, some⟩ : Params Nat Nat)
        [.insert 3 1, .insert 1 8, .update 2 7, .erase 3, .insert 5 1, .insert 0 4]
      Iterator.scan (⟨4, 1, 10, some⟩ : Params Nat Nat) t (.lowerBound 2)) :=
  ⟨by decide, (scan_refines_map (⟨4, 1, 10, some⟩ : Params Nat Nat) (fun _ => rfl) (by decide)
    [.insert 3 1, .insert 1 8, .update 2 7, .erase 3, .insert 5 1, .insert 0 4] (by decide)
    (.lowerBound 2)).mono (fun _ hres => ⟨hres.1.trans (by decide), hres.2⟩)⟩

end

/-- The scan is never started: the last insert writes through an erased entry. -/
theorem scan_past_erased_entry :
    stoppedWith (Prog.run neverDirty (do
        let t ← Betree.create
        let t ← t.applyAll (⟨5, 0, 0, some⟩ : Params Nat Nat) erasingInserts
        Iterator.scan ⟨5, 0, 0, some⟩ t (.lowerBound 42)) 1) = some .erasedEntry
      ∧ Reference.scan (Reference.applyAll 0 [] erasingInserts) (.lowerBound 42)
        = [(42, 7), (50, 7), (60, 7), (70, 7), (71, 7), (80, 7)] := by
  decide +kernel

end BeTree
