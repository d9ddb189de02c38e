import BeTree.Lib.StdString
import Mathlib.Algebra.Order.Group.Unbundled.Int
import Mathlib.Data.List.TakeWhile

/-!
# The configuration file

The constructor of `Configuration` that reads a file. A line is a comment, empty, or
`server host:port`; anything else is to end in a `Panic`.

The positions of the line are kept in `unsigned int`s. A failed search gives `npos`, which
is cut to 32 bits, so that neither of the two tests for `npos` can succeed: a `server` line
without a `:` is read as one whose port is the whole line, and one without an argument
throws `std::out_of_range`.
-/

namespace BeTree

open StdString

/-- `ServerAddress`. -/
structure ServerAddress where
  host : List Char
  port : List Char
deriving DecidableEq, Repr

/-- The fields of `Configuration` that a file without multicast sets. `n` is an `int`. -/
structure Configuration where
  n : Int
  servers : List ServerAddress
deriving DecidableEq, Repr

/-- The ways the constructor can end without returning. -/
inductive ConfigFault where
  | panic (message : String)
  /-- `std::out_of_range` of `substr`. -/
  | outOfRange
deriving DecidableEq, Repr

namespace Configuration

/-- A value stored in an `unsigned int`. -/
def uint32 (n : Nat) : Nat := n % 2 ^ 32

/-- A size stored in an `int`. -/
def int32 (n : Nat) : Int := Int.bmod n (2 ^ 32)

/-- The characters of `" \t"`. -/
def isBlank (c : Char) : Bool := c == ' ' || c == '\t'

/-- The lines that `getline` gives until it has reached the end of the file. -/
def linesOf : List Char → List (List Char)
  | [] => [[]]
  | c :: text =>
    if c = '\n' then [] :: linesOf text
    else match linesOf text with
      | [] => [[c]]
      | line :: lines => (c :: line) :: lines

/-- `strcasecmp(s.c_str(), t) == 0`: a C string ends at its first null character. -/
def caseEqual (s t : List Char) : Bool :=
  (s.takeWhile (· != '\x00')).map Char.toLower == t.map Char.toLower

/-- A `substr` that may throw. -/
def cut (line : List Char) (pos n : Nat) : Except ConfigFault (List Char) :=
  match substr line pos n with
  | some s => .ok s
  | none => .error .outOfRange

/-- The argument of a `server` line, from the first position `t1` behind the command. -/
def readServer (line : List Char) (t1 : Nat) : Except ConfigFault ServerAddress := do
  let t2 := uint32 (find (fun c => !isBlank c) line t1)
  if t2 = npos then .error (.panic "'server' configuration line requires an argument")
  let t3 := uint32 (find (· == ':') line t2)
  if t3 = npos then .error (.panic "Configuration line format: 'server host:port'")
  let host ← cut line t2 (uint32 (t3 + 2 ^ 32 - t2))
  let port ← cut line (uint32 (t3 + 1)) npos
  return ⟨host, port⟩

/-- One round of the loop over the lines. -/
def readLine (servers : List ServerAddress) (line : List Char) :
    Except ConfigFault (List ServerAddress) :=
  if line.isEmpty || line.head? == some '#' then return servers
  else do
    let t1 := uint32 (find isBlank line 0)
    let cmd ← cut line 0 t1
    if caseEqual cmd "server".toList then do
      let address ← readServer line t1
      return servers ++ [address]
    else
      .error (.panic ("Unknown configuration directive: "
        ++ String.ofList (cmd.takeWhile (· != '\x00'))))

/-- `Configuration(std::ifstream &)`. -/
def ofFile (text : List Char) : Except ConfigFault Configuration := do
  let servers ← (linesOf text).foldlM readLine []
  let n := int32 servers.length
  if n = 0 then .error (.panic "Configuration did not specify any servers")
  return ⟨n, servers⟩

/-! ## The grammar -/

/-- The word `server`, in any letter case. -/
def IsServer (word : List Char) : Prop := word.map Char.toLower = "server".toList

/-- `server host:port`, where the blanks reach up to the host. -/
def ServerLine (line : List Char) (address : ServerAddress) : Prop :=
  ∃ word blanks, line = word ++ (blanks ++ (address.host ++ ':' :: address.port))
    ∧ IsServer word ∧ blanks ≠ [] ∧ (∀ c ∈ blanks, isBlank c = true)
    ∧ ':' ∉ address.host ∧ ∀ c, address.host.head? = some c → isBlank c = false

/-- A line without meaning: empty, or a comment. -/
def Ignored (line : List Char) : Prop := line = [] ∨ line.head? = some '#'

instance : DecidablePred Ignored := fun line => inferInstanceAs (Decidable (line = [] ∨ _))

/-- The lines are ignored ones and server lines, with these addresses in order. -/
inductive Grammar : List (List Char) → List ServerAddress → Prop
  | done : Grammar [] []
  | ignored {line lines servers} : Ignored line → Grammar lines servers →
      Grammar (line :: lines) servers
  | server {line lines address servers} : ServerLine line address → Grammar lines servers →
      Grammar (line :: lines) (address :: servers)

/-- The constructor accepts exactly the grammar, with at least one server, and panics
otherwise. -/
def Accepts (text : List Char) : Prop :=
  (∀ servers, Grammar (linesOf text) servers → servers ≠ [] →
    ofFile text = .ok ⟨servers.length, servers⟩)
  ∧ ((¬ ∃ servers, Grammar (linesOf text) servers ∧ servers ≠ []) →
    ∃ message, ofFile text = .error (.panic message))

/-! ## What goes wrong -/

/-- The command of a line, which ends at the first blank. -/
def command (line : List Char) : List Char := line.take (uint32 (find isBlank line 0))

/-- A directive other than `server`. -/
def Unknown (line : List Char) : Prop :=
  ¬ Ignored line ∧ caseEqual (command line) "server".toList = false

/-- Something follows the command and its blanks, or the line is so long that the position
the failed search leaves is one of its own. -/
def HasArgument (line : List Char) : Prop :=
  2 ^ 32 - 1 ≤ line.length ∨ ∃ c ∈ line.drop (uint32 (find isBlank line 0)), isBlank c = false

/-- Every server line before the first unknown directive has an argument. -/
def ArgumentsGiven : List (List Char) → Prop
  | [] => True
  | line :: lines => Unknown line ∨ (Ignored line ∨ HasArgument line) ∧ ArgumentsGiven lines

/-- The lines that are to be directives. -/
def directives (lines : List (List Char)) : Nat := lines.countP (fun line => ¬ Ignored line)

/-- The texts for which the constructor does as it should. The last case is that of `n`
wrapping around to zero. -/
def Readable (lines : List (List Char)) : Prop :=
  ArgumentsGiven lines ∧
    ((∃ line ∈ lines, Unknown line)
    ∨ ((∀ line ∈ lines, Ignored line ∨ (∃ address, ServerLine line address)
        ∧ line.idxOf ':' + 1 < 2 ^ 32) ∧ directives lines < 2 ^ 31)
    ∨ (2 ^ 32 ∣ directives lines
        ∧ ∃ line ∈ lines, ¬ Ignored line ∧ ¬ ∃ address, ServerLine line address))

/-! ## One line -/

theorem isServer_letters {word : List Char} (h : IsServer word) :
    ∀ c ∈ word, isBlank c = false ∧ c ≠ '#' ∧ c ≠ ':' ∧ c ≠ '\x00' := by
  intro c hc
  have hlow : c.toLower ∈ "server".toList := h ▸ List.mem_map_of_mem hc
  refine ⟨?_, ?_, ?_, ?_⟩
  · cases hb : isBlank c with
    | false => rfl
    | true =>
        unfold isBlank at hb
        rw [Bool.or_eq_true_iff, beq_iff_eq, beq_iff_eq] at hb
        rcases hb with rfl | rfl
        · exact absurd hlow (by decide)
        · exact absurd hlow (by decide)
  · rintro rfl
    exact absurd hlow (by decide)
  · rintro rfl
    exact absurd hlow (by decide)
  · rintro rfl
    exact absurd hlow (by decide)

theorem isServer_length {word : List Char} (h : IsServer word) : word.length = 6 := by
  rw [← List.length_map Char.toLower, h]
  rfl

theorem caseEqual_of_isServer {word : List Char} (h : IsServer word) :
    caseEqual word "server".toList = true := by
  have hword : word.takeWhile (· != '\x00') = word := by
    refine List.takeWhile_eq_self_iff.mpr (fun c hc => ?_)
    rw [bne_iff_ne]
    exact (isServer_letters h c hc).2.2.2
  unfold caseEqual
  rw [hword, h]
  rfl

theorem uint32_lt (n : Nat) : uint32 n < 2 ^ 32 := Nat.mod_lt n (by decide)

theorem uint32_le (n : Nat) : uint32 n ≤ n := Nat.mod_le n _

theorem uint32_of_lt {n : Nat} (h : n < 2 ^ 32) : uint32 n = n := Nat.mod_eq_of_lt h

/-- No 32-bit position is `npos`. -/
theorem uint32_ne_npos (n : Nat) : uint32 n ≠ npos := by
  have hlt := uint32_lt n
  unfold npos
  omega

theorem cut_of_le {line : List Char} {pos n : Nat} (h : pos ≤ line.length) :
    cut line pos n = .ok ((line.drop pos).take n) := by
  unfold cut
  rw [substr_of_le h]

theorem cut_of_lt {line : List Char} {pos n : Nat} (h : line.length < pos) :
    cut line pos n = .error .outOfRange := by
  unfold cut
  rw [substr_of_lt h]

/-- The two tests for `npos` fail. -/
theorem readServer_eq {line : List Char} {t1 t2 t3 : Nat}
    (ht2 : uint32 (find (fun c => !isBlank c) line t1) = t2)
    (ht3 : uint32 (find (· == ':') line t2) = t3) :
    readServer line t1 = (do
      let host ← cut line t2 (uint32 (t3 + 2 ^ 32 - t2))
      let port ← cut line (uint32 (t3 + 1)) npos
      return ⟨host, port⟩) := by
  unfold readServer
  dsimp only
  rw [ht2, ht3, if_neg (by rw [← ht2]; exact uint32_ne_npos _),
    if_neg (by rw [← ht3]; exact uint32_ne_npos _)]

/-- The address that is read when the argument is taken to begin at `t2`. -/
def addressAt (line : List Char) (t2 : Nat) : ServerAddress :=
  let t3 := uint32 (find (· == ':') line t2)
  ⟨(line.drop t2).take (uint32 (t3 + 2 ^ 32 - t2)), line.drop (uint32 (t3 + 1))⟩

theorem readServer_missing {line : List Char} {t1 : Nat} (hlen : line.length < 2 ^ 32 - 1)
    (hblank : ∀ c ∈ line.drop t1, isBlank c = true) :
    readServer line t1 = .error .outOfRange := by
  have hfind : find (fun c => !isBlank c) line t1 = npos := by
    refine find_eq_npos (fun c hc => ?_)
    rw [hblank c hc]
    rfl
  have ht2 : uint32 (find (fun c => !isBlank c) line t1) = 2 ^ 32 - 1 := by
    rw [hfind]
    decide
  rw [readServer_eq ht2 rfl, cut_of_lt hlen]
  rfl

theorem readServer_given {line : List Char} {t1 : Nat} (hlen : line.length ≤ npos)
    (harg : 2 ^ 32 - 1 ≤ line.length ∨ ∃ c ∈ line.drop t1, isBlank c = false) :
    readServer line t1
      = .ok (addressAt line (uint32 (find (fun c => !isBlank c) line t1))) := by
  have ht2 : uint32 (find (fun c => !isBlank c) line t1) ≤ line.length := by
    rcases harg with hlong | ⟨c, hc, hb⟩
    · have hlt := uint32_lt (find (fun c => !isBlank c) line t1)
      omega
    · have hlt := find_lt (p := fun c => !isBlank c) ⟨c, hc, by rw [hb]; rfl⟩
      have hle := uint32_le (find (fun c => !isBlank c) line t1)
      omega
  have ht3 : ∀ t2, uint32 (uint32 (find (· == ':') line t2) + 1) ≤ line.length := by
    intro t2
    rcases find_lt_or_eq_npos (· == ':') line t2 with hlt | hnpos
    · have hle := uint32_le (find (· == ':') line t2)
      have hle' := uint32_le (uint32 (find (· == ':') line t2) + 1)
      omega
    · -- the position behind a colon that is not there is the start of the line
      rw [hnpos]
      exact Nat.zero_le _
  have hport : ∀ pos, (line.drop pos).take npos = line.drop pos := by
    intro pos
    refine List.take_of_length_le ?_
    rw [List.length_drop]
    omega
  rw [readServer_eq rfl rfl, cut_of_le ht2, cut_of_le (ht3 _), hport]
  rfl

theorem cut_command (line : List Char) :
    cut line 0 (uint32 (find isBlank line 0)) = .ok (command line) :=
  cut_of_le (Nat.zero_le _)

/-! ## Kinds of lines -/

variable {servers : List ServerAddress} {line : List Char} {lines : List (List Char)}
  {address : ServerAddress}

theorem readLine_ignored (h : Ignored line) : readLine servers line = .ok servers := by
  unfold readLine
  rw [if_pos]
  · rfl
  · unfold Ignored at h
    simpa using h

/-- A line that is not ignored is read from its command on. -/
theorem readLine_directive (h : ¬ Ignored line) :
    readLine servers line = if caseEqual (command line) "server".toList then do
        let address ← readServer line (uint32 (find isBlank line 0))
        return servers ++ [address]
      else .error (.panic ("Unknown configuration directive: "
        ++ String.ofList ((command line).takeWhile (· != '\x00')))) := by
  unfold readLine
  rw [if_neg]
  · dsimp only
    rw [cut_command]
    rfl
  · unfold Ignored at h
    simpa using h

theorem readLine_unknown (h : Unknown line) :
    ∃ message, readLine servers line = .error (.panic message) := by
  rw [readLine_directive h.1, if_neg (by rw [h.2]; exact Bool.false_ne_true)]
  exact ⟨_, rfl⟩

theorem readLine_known (hign : ¬ Ignored line) (hknown : ¬ Unknown line) :
    readLine servers line = do
      let address ← readServer line (uint32 (find isBlank line 0))
      return servers ++ [address] := by
  rw [readLine_directive hign, if_pos]
  by_contra hcmd
  exact hknown ⟨hign, by simpa using hcmd⟩

theorem readLine_missing (hign : ¬ Ignored line) (hknown : ¬ Unknown line)
    (harg : ¬ HasArgument line) : readLine servers line = .error .outOfRange := by
  unfold HasArgument at harg
  rw [not_or, not_exists] at harg
  rw [readLine_known hign hknown, readServer_missing (Nat.lt_of_not_le harg.1)]
  · rfl
  · intro c hc
    have hc' := harg.2 c
    rw [not_and, Bool.not_eq_false] at hc'
    exact hc' hc

/-- Where the argument of a line is taken to begin. -/
def argumentAt (line : List Char) : Nat :=
  uint32 (find (fun c => !isBlank c) line (uint32 (find isBlank line 0)))

theorem readLine_given (hlen : line.length ≤ npos) (hign : ¬ Ignored line)
    (hknown : ¬ Unknown line) (harg : HasArgument line) :
    readLine servers line = .ok (servers ++ [addressAt line (argumentAt line)]) := by
  rw [readLine_known hign hknown, readServer_given hlen harg]
  rfl

/-! ## Server lines -/

/-- The searches in a server line: for the end of the command, and for the argument. -/
theorem ServerLine.positions (h : ServerLine line address) : ∃ front,
    line = front ++ (address.host ++ ':' :: address.port) ∧ ':' ∉ front ++ address.host
    ∧ caseEqual (command line) "server".toList = true
    ∧ uint32 (find isBlank line 0) ≤ front.length
    ∧ find (fun c => !isBlank c) line (uint32 (find isBlank line 0)) = front.length := by
  obtain ⟨word, blanks, rfl, hword, hne, hblanks, hcolon, hhost⟩ := h
  have hletters := isServer_letters hword
  -- the command is six letters long, so its end is not cut by the 32-bit index
  have ht1 : uint32 (find isBlank (word ++ (blanks ++ (address.host ++ ':' :: address.port))) 0)
      = word.length := by
    obtain ⟨b, blanks, rfl⟩ := List.exists_cons_of_ne_nil hne
    rw [List.cons_append, find_eq (Nat.zero_le _)
      (fun c hc => (hletters c (List.mem_of_mem_drop hc)).1) (hblanks b List.mem_cons_self)]
    refine uint32_of_lt ?_
    rw [isServer_length hword]
    decide
  have hskip : ∀ c ∈ (word ++ blanks).drop word.length, (!isBlank c) = false := by
    intro c hc
    rw [List.drop_left] at hc
    rw [hblanks c hc]
    rfl
  have hlen : word.length ≤ (word ++ blanks).length := by
    rw [List.length_append]
    omega
  refine ⟨word ++ blanks, (List.append_assoc _ _ _).symm, ?_, ?_, ?_, ?_⟩
  · intro hmem
    rcases List.mem_append.mp hmem with hmem | hmem
    · rcases List.mem_append.mp hmem with hmem | hmem
      · exact (hletters _ hmem).2.2.1 rfl
      · exact absurd (hblanks _ hmem) (by decide)
    · exact hcolon hmem
  · unfold command
    rw [ht1, List.take_left]
    exact caseEqual_of_isServer hword
  · rw [ht1]
    exact hlen
  · rw [ht1, ← List.append_assoc]
    cases hh : address.host with
    | nil => exact find_eq hlen hskip rfl
    | cons c cs =>
        rw [hh] at hhost
        exact find_eq hlen hskip (by rw [hhost c rfl]; rfl)

theorem ServerLine.not_ignored (h : ServerLine line address) : ¬ Ignored line := by
  obtain ⟨word, blanks, rfl, hword, -⟩ := h
  cases word with
  | nil => exact absurd (isServer_length hword) (by decide)
  | cons c word =>
      have hc : c ≠ '#' := (isServer_letters hword c List.mem_cons_self).2.1
      rintro (hnil | hhead)
      · exact List.cons_ne_nil _ _ hnil
      · exact hc (Option.some.inj hhead)

theorem ServerLine.not_unknown (h : ServerLine line address) : ¬ Unknown line := by
  obtain ⟨-, -, -, hcmd, -⟩ := h.positions
  intro hun
  rw [hun.2] at hcmd
  exact absurd hcmd Bool.false_ne_true

theorem ServerLine.hasArgument (h : ServerLine line address) : HasArgument line := by
  obtain ⟨front, hline, -, -, ht1, -⟩ := h.positions
  refine .inr ⟨':', ?_, rfl⟩
  rw [hline] at ht1 ⊢
  rw [List.drop_append_of_le_length ht1]
  simp

/-- **A server line** is read right when the positions up to its port are of 32 bits. -/
theorem ServerLine.addressAt_eq_iff (h : ServerLine line address) :
    addressAt line (argumentAt line) = address ↔ line.idxOf ':' + 1 < 2 ^ 32 := by
  obtain ⟨front, hline, hcolon, -, -, ht2⟩ := h.positions
  obtain ⟨host, port⟩ := address
  dsimp only at hline hcolon
  have hidx : line.idxOf ':' = (front ++ host).length := by
    rw [hline, ← List.append_assoc, List.idxOf_append, if_neg hcolon, List.idxOf_cons_self]
    exact Nat.zero_add _
  have harg : argumentAt line = uint32 front.length := by
    unfold argumentAt
    rw [ht2]
  have ht3 : find (· == ':') line (uint32 front.length) = (front ++ host).length := by
    rw [hline, ← List.append_assoc]
    refine find_eq ?_ (fun c hc => ?_) rfl
    · have hle := uint32_le front.length
      rw [List.length_append]
      omega
    · rw [beq_eq_false_iff_ne]
      exact fun heq => hcolon (heq ▸ List.mem_of_mem_drop hc)
  have hpos : uint32 (uint32 (front ++ host).length + 1) = uint32 ((front ++ host).length + 1) := by
    unfold uint32
    omega
  have hlength : line.length = (front ++ host).length + 1 + port.length := by
    rw [hline, ← List.append_assoc, List.length_append, List.length_cons]
    omega
  unfold addressAt
  dsimp only
  rw [harg, ht3, hpos, hidx]
  constructor
  · intro heq
    -- from a smaller position on there is more than the port
    have hport := congrArg (fun a => a.port.length) heq
    dsimp only at hport
    rw [List.length_drop] at hport
    have hlt := uint32_lt ((front ++ host).length + 1)
    have hle := uint32_le ((front ++ host).length + 1)
    omega
  · intro hlt
    have hsum : (front ++ host).length = front.length + host.length := List.length_append
    have hspan : uint32 (uint32 (front ++ host).length + 2 ^ 32 - uint32 front.length)
        = host.length := by
      unfold uint32
      omega
    rw [hspan, uint32_of_lt hlt, uint32_of_lt (by omega), hline, List.drop_left, List.take_left,
      ← List.append_assoc, ← List.singleton_append, ← List.append_assoc, List.drop_left']
    rw [List.length_append, List.length_singleton]

/-! ## The lines of a file -/

theorem grammar_length (h : Grammar lines servers) : servers.length = directives lines := by
  induction h with
  | done => rfl
  | ignored hline _ ih =>
      unfold directives at ih ⊢
      rw [List.countP_cons_of_neg (by simpa using hline)]
      exact ih
  | server hline _ ih =>
      unfold directives at ih ⊢
      rw [List.countP_cons_of_pos (by simpa using hline.not_ignored), List.length_cons, ih]

theorem exists_grammar_iff : (∃ servers, Grammar lines servers)
    ↔ ∀ line ∈ lines, Ignored line ∨ ∃ address, ServerLine line address := by
  constructor
  · rintro ⟨servers, h⟩
    induction h with
    | done => exact fun _ hmem => absurd hmem List.not_mem_nil
    | ignored hline _ ih => exact List.forall_mem_cons.mpr ⟨.inl hline, ih⟩
    | server hline _ ih => exact List.forall_mem_cons.mpr ⟨.inr ⟨_, hline⟩, ih⟩
  · intro h
    induction lines with
    | nil => exact ⟨[], .done⟩
    | cons line lines ih =>
        rw [List.forall_mem_cons] at h
        obtain ⟨servers, hservers⟩ := ih h.2
        rcases h.1 with hline | ⟨address, hline⟩
        · exact ⟨servers, .ignored hline hservers⟩
        · exact ⟨address :: servers, .server hline hservers⟩

theorem argumentsGiven_of_grammar (h : Grammar lines servers) : ArgumentsGiven lines := by
  induction h with
  | done => trivial
  | ignored hline _ ih => exact .inr ⟨.inl hline, ih⟩
  | server hline _ ih => exact .inr ⟨.inr hline.hasArgument, ih⟩

theorem not_unknown_of_grammar (h : Grammar lines servers) : ∀ line ∈ lines, ¬ Unknown line := by
  intro line hmem hun
  rcases exists_grammar_iff.mp ⟨servers, h⟩ line hmem with hline | ⟨address, hline⟩
  · exact hun.1 hline
  · exact hline.not_unknown hun

theorem fold_missing (hlen : ∀ line ∈ lines, line.length ≤ npos) (h : ¬ ArgumentsGiven lines) :
    lines.foldlM readLine servers = .error .outOfRange := by
  induction lines generalizing servers with
  | nil => exact absurd trivial h
  | cons line lines ih =>
      rw [List.forall_mem_cons] at hlen
      rw [ArgumentsGiven, not_or, not_and] at h
      obtain ⟨hknown, hrest⟩ := h
      rw [List.foldlM_cons]
      by_cases hign : Ignored line
      · rw [readLine_ignored hign]
        exact ih hlen.2 (hrest (.inl hign))
      · by_cases harg : HasArgument line
        · rw [readLine_given hlen.1 hign hknown harg]
          exact ih hlen.2 (hrest (.inr harg))
        · rw [readLine_missing hign hknown harg]
          rfl

theorem fold_unknown (hlen : ∀ line ∈ lines, line.length ≤ npos) (h : ArgumentsGiven lines)
    (hun : ∃ line ∈ lines, Unknown line) :
    ∃ message, lines.foldlM readLine servers = .error (.panic message) := by
  induction lines generalizing servers with
  | nil =>
      obtain ⟨_, hmem, _⟩ := hun
      exact absurd hmem List.not_mem_nil
  | cons line lines ih =>
      rw [List.forall_mem_cons] at hlen
      rw [List.foldlM_cons]
      by_cases hline : Unknown line
      · obtain ⟨message, hread⟩ : ∃ message, readLine servers line = .error (.panic message) :=
          readLine_unknown hline
        rw [hread]
        exact ⟨message, rfl⟩
      · rcases h with hline' | ⟨hkind, hgiven⟩
        · exact absurd hline' hline
        · have hrest : ∃ line ∈ lines, Unknown line := by
            obtain ⟨line', hmem, hun'⟩ := hun
            rcases List.mem_cons.mp hmem with rfl | hmem
            · exact absurd hun' hline
            · exact ⟨line', hmem, hun'⟩
          by_cases hign : Ignored line
          · rw [readLine_ignored hign]
            exact ih hlen.2 hgiven hrest
          · rw [readLine_given hlen.1 hign hline (hkind.resolve_left hign)]
            exact ih hlen.2 hgiven hrest

/-- The addresses that are read from lines which all have a meaning. -/
def addresses (lines : List (List Char)) : List ServerAddress :=
  (lines.filter (fun line => ¬ Ignored line)).map (fun line => addressAt line (argumentAt line))

theorem addresses_length : (addresses lines).length = directives lines := by
  unfold addresses directives
  rw [List.length_map, List.countP_eq_length_filter]

theorem fold_servers (hlen : ∀ line ∈ lines, line.length ≤ npos) (h : ArgumentsGiven lines)
    (hknown : ∀ line ∈ lines, ¬ Unknown line) :
    lines.foldlM readLine servers = .ok (servers ++ addresses lines) := by
  induction lines generalizing servers with
  | nil => exact congrArg _ (List.append_nil servers).symm
  | cons line lines ih =>
      rw [List.forall_mem_cons] at hlen hknown
      rcases h with hline | ⟨hkind, hgiven⟩
      · exact absurd hline hknown.1
      · unfold addresses at ih ⊢
        rw [List.foldlM_cons]
        by_cases hign : Ignored line
        · rw [readLine_ignored hign, List.filter_cons_of_neg (by simpa using hign)]
          exact ih hlen.2 hgiven hknown.2
        · rw [readLine_given hlen.1 hign hknown.1 (hkind.resolve_left hign),
            List.filter_cons_of_pos (by simpa using hign), List.map_cons]
          exact (ih hlen.2 hgiven hknown.2).trans (congrArg _ (List.append_assoc _ _ _))

/-- The addresses are those of the grammar when the positions of the ports are of 32 bits. -/
theorem addresses_eq_iff (h : Grammar lines servers) : addresses lines = servers
    ↔ ∀ line ∈ lines, Ignored line ∨ line.idxOf ':' + 1 < 2 ^ 32 := by
  induction h with
  | done => exact ⟨fun _ _ hmem => absurd hmem List.not_mem_nil, fun _ => rfl⟩
  | ignored hline _ ih =>
      unfold addresses at ih ⊢
      rw [List.filter_cons_of_neg (by simpa using hline), List.forall_mem_cons, ih]
      exact ⟨fun hall => ⟨.inl hline, hall⟩, fun hall => hall.2⟩
  | server hline _ ih =>
      unfold addresses at ih ⊢
      rw [List.filter_cons_of_pos (by simpa using hline.not_ignored), List.map_cons,
        List.forall_mem_cons, List.cons_eq_cons, ih, hline.addressAt_eq_iff]
      exact ⟨fun hall => ⟨.inr hall.1, hall.2⟩,
        fun hall => ⟨hall.1.resolve_left hline.not_ignored, hall.2⟩⟩

/-! ## The constructor -/

variable {text : List Char}

/-- What the constructor does with a file that is read to its end. -/
theorem ofFile_of_fold (h : (linesOf text).foldlM readLine [] = .ok servers) :
    ofFile text = if int32 servers.length = 0
      then .error (.panic "Configuration did not specify any servers")
      else .ok ⟨int32 servers.length, servers⟩ := by
  have hpure : (linesOf text).foldlM readLine [] = pure servers := h
  unfold ofFile
  rw [hpure, pure_bind]
  dsimp only
  split
  · rfl
  · rfl

theorem ofFile_of_error {f : ConfigFault} (h : (linesOf text).foldlM readLine [] = .error f) :
    ofFile text = .error f := by
  unfold ofFile
  rw [h]
  rfl

theorem int32_eq_zero_iff (n : Nat) : int32 n = 0 ↔ 2 ^ 32 ∣ n := by
  unfold int32 Int.bmod
  dsimp only
  split
  · omega
  · omega

theorem int32_eq_self_iff (n : Nat) : int32 n = n ↔ n < 2 ^ 31 := by
  unfold int32 Int.bmod
  dsimp only
  split
  · omega
  · omega

/-- What the constructor does with lines that it knows, and that have their arguments. -/
theorem ofFile_of_known (hlen : ∀ line ∈ linesOf text, line.length ≤ npos)
    (hgiven : ArgumentsGiven (linesOf text)) (hknown : ∀ line ∈ linesOf text, ¬ Unknown line) :
    ofFile text = if int32 (directives (linesOf text)) = 0
      then .error (.panic "Configuration did not specify any servers")
      else .ok ⟨int32 (directives (linesOf text)), addresses (linesOf text)⟩ := by
  have hfile := ofFile_of_fold (fold_servers hlen hgiven hknown)
  rw [List.nil_append, addresses_length] at hfile
  exact hfile

section Known

variable (hfile : ofFile text = if int32 (directives (linesOf text)) = 0
  then .error (.panic "Configuration did not specify any servers")
  else .ok ⟨int32 (directives (linesOf text)), addresses (linesOf text)⟩)

include hfile

/-- Servers that the text names have to be read as they are. -/
theorem accepts_iff_of_grammar (hg : Grammar (linesOf text) servers) (hne : servers ≠ []) :
    Accepts text ↔ directives (linesOf text) < 2 ^ 31
      ∧ ∀ line ∈ linesOf text, Ignored line ∨ line.idxOf ':' + 1 < 2 ^ 32 := by
  constructor
  · intro h
    have hok := h.1 servers hg hne
    rw [hfile] at hok
    split at hok
    · exact absurd hok nofun
    · have heq := Except.ok.inj hok
      rw [Configuration.mk.injEq, grammar_length hg, int32_eq_self_iff, addresses_eq_iff hg] at heq
      exact heq
  · intro h
    refine ⟨fun servers' hg' hne' => ?_, fun hno => absurd ⟨servers, hg, hne⟩ hno⟩
    have haddr : addresses (linesOf text) = servers' := (addresses_eq_iff hg').mpr h.2
    have hint := (int32_eq_self_iff _).mpr h.1
    rw [← grammar_length hg'] at hint hfile
    rw [hfile, haddr, hint, if_neg]
    intro hzero
    exact hne' (List.length_eq_zero_iff.mp (Int.ofNat_eq_zero.mp hzero))

/-- Where the text names no servers, none may be counted. -/
theorem accepts_iff_of_no_grammar
    (hgrammar : ¬ ∃ servers, Grammar (linesOf text) servers ∧ servers ≠ []) :
    Accepts text ↔ 2 ^ 32 ∣ directives (linesOf text) := by
  rw [← int32_eq_zero_iff]
  constructor
  · intro h
    obtain ⟨message, hpanic⟩ := h.2 hgrammar
    rw [hfile] at hpanic
    split at hpanic
    · rename_i hint
      exact hint
    · exact absurd hpanic nofun
  · intro h
    rw [if_pos h] at hfile
    exact ⟨fun servers hg hne => absurd ⟨servers, hg, hne⟩ hgrammar, fun _ => ⟨_, hfile⟩⟩

end Known

/-- The lines of a file with no unknown directive whose arguments are all there. -/
theorem accepts_iff_of_known (hlen : ∀ line ∈ linesOf text, line.length ≤ npos)
    (hgiven : ArgumentsGiven (linesOf text)) (hknown : ∀ line ∈ linesOf text, ¬ Unknown line) :
    Accepts text ↔
      ((∀ line ∈ linesOf text, Ignored line ∨ (∃ address, ServerLine line address)
        ∧ line.idxOf ':' + 1 < 2 ^ 32) ∧ directives (linesOf text) < 2 ^ 31)
      ∨ (2 ^ 32 ∣ directives (linesOf text)
        ∧ ∃ line ∈ linesOf text, ¬ Ignored line ∧ ¬ ∃ address, ServerLine line address) := by
  have hfile := ofFile_of_known hlen hgiven hknown
  by_cases hgrammar : ∃ servers, Grammar (linesOf text) servers ∧ servers ≠ []
  · obtain ⟨servers, hg, hne⟩ := hgrammar
    have hlines := exists_grammar_iff.mp ⟨servers, hg⟩
    rw [accepts_iff_of_grammar hfile hg hne]
    constructor
    · intro h
      refine .inl ⟨fun line hmem => ?_, h.1⟩
      rcases hlines line hmem with hign | hserver
      · exact .inl hign
      · exact (h.2 line hmem).imp_right (fun hearly => ⟨hserver, hearly⟩)
    · rintro (⟨hall, hlt⟩ | ⟨-, line, hmem, hign, hno⟩)
      · exact ⟨hlt, fun line hmem => (hall line hmem).imp_right And.right⟩
      · exact absurd (hlines line hmem) (not_or.mpr ⟨hign, hno⟩)
  · -- without a server to be found, `n` has to be zero
    have hnone : ∀ servers, Grammar (linesOf text) servers → directives (linesOf text) = 0 := by
      intro servers hg
      rw [← grammar_length hg, List.length_eq_zero_iff]
      by_contra hne
      exact hgrammar ⟨servers, hg, hne⟩
    rw [accepts_iff_of_no_grammar hfile hgrammar]
    constructor
    · intro hdvd
      by_cases hbad : ∃ line ∈ linesOf text, ¬ Ignored line ∧ ¬ ∃ address, ServerLine line address
      · exact .inr ⟨hdvd, hbad⟩
      · have hall : ∀ line ∈ linesOf text, Ignored line ∨ ∃ address, ServerLine line address := by
          intro line hmem
          by_contra hline
          exact hbad ⟨line, hmem, not_or.mp hline⟩
        obtain ⟨servers, hg⟩ := exists_grammar_iff.mpr hall
        have hcount := hnone servers hg
        refine .inl ⟨fun line hmem => .inl ?_, by rw [hcount]; decide⟩
        simpa using List.countP_eq_zero.mp hcount line hmem
    · rintro (⟨hall, -⟩ | ⟨hdvd, -⟩)
      · obtain ⟨servers, hg⟩ :=
          exists_grammar_iff.mpr (fun line hmem => (hall line hmem).imp_right And.left)
        rw [hnone servers hg]
        exact Nat.dvd_zero _
      · exact hdvd

/--
**The parser accepts exactly its grammar** on a readable file, and on no other one. Every
line fits into a `std::string`.
-/
theorem accepts_iff_readable (text : List Char)
    (hlen : ∀ line ∈ linesOf text, line.length ≤ npos) :
    Accepts text ↔ Readable (linesOf text) := by
  unfold Readable
  by_cases hgiven : ArgumentsGiven (linesOf text)
  · by_cases hun : ∃ line ∈ linesOf text, Unknown line
    · refine ⟨fun _ => ⟨hgiven, .inl hun⟩, fun _ => ⟨fun servers hg _ => ?_, fun _ => ?_⟩⟩
      · obtain ⟨line, hmem, hline⟩ := hun
        exact absurd hline (not_unknown_of_grammar hg line hmem)
      · obtain ⟨message, hfold⟩ := fold_unknown hlen hgiven hun
        exact ⟨message, ofFile_of_error hfold⟩
    · have hknown : ∀ line ∈ linesOf text, ¬ Unknown line :=
        fun line hmem hline => hun ⟨line, hmem, hline⟩
      rw [accepts_iff_of_known hlen hgiven hknown, or_iff_right hun]
      exact (and_iff_right hgiven).symm
  · refine ⟨fun h => ?_, fun h => absurd h.1 hgiven⟩
    -- an argument that is missing is neither read nor reported
    have hnone : ¬ ∃ servers, Grammar (linesOf text) servers ∧ servers ≠ [] := by
      rintro ⟨servers, hg, -⟩
      exact hgiven (argumentsGiven_of_grammar hg)
    obtain ⟨message, hpanic⟩ := h.2 hnone
    rw [ofFile_of_error (fold_missing hlen hgiven)] at hpanic
    exact absurd hpanic nofun

theorem accepts_commented : Accepts "# one server\nserver a:1".toList := by
  have hlines : linesOf "# one server\nserver a:1".toList
      = ["# one server".toList, "server a:1".toList] := rfl
  have hserver : ServerLine "server a:1".toList ⟨"a".toList, "1".toList⟩ := by
    refine ⟨"server".toList, " ".toList, rfl, rfl, by decide, ?_, by decide, ?_⟩
    · intro c hc
      rw [List.mem_singleton.mp hc]
      rfl
    · intro c hc
      rw [← Option.some.inj hc]
      rfl
  refine (accepts_iff_readable _ ?_).mpr ?_
  · rw [hlines]
    decide
  · rw [hlines]
    refine ⟨.inr ⟨.inl (.inr rfl), .inr ⟨.inr hserver.hasArgument, trivial⟩⟩, .inr (.inl ⟨?_, by decide⟩)⟩
    refine List.forall_mem_cons.mpr ⟨.inl (.inr rfl), List.forall_mem_singleton.mpr (.inr ?_)⟩
    exact ⟨⟨_, hserver⟩, by decide⟩

/-- A line without a colon is accepted, with the whole line for a port. -/
theorem ofFile_no_colon :
    ofFile "server host".toList = .ok ⟨1, [⟨"host".toList, "server host".toList⟩]⟩
    ∧ ¬ Accepts "server host".toList := by
  have hread : ofFile "server host".toList
      = .ok ⟨1, [⟨"host".toList, "server host".toList⟩]⟩ := by decide +kernel
  refine ⟨hread, fun h => ?_⟩
  have hnone : ¬ ∃ servers, Grammar (linesOf "server host".toList) servers ∧ servers ≠ [] := by
    rintro ⟨servers, hg, -⟩
    rcases exists_grammar_iff.mp ⟨servers, hg⟩ "server host".toList (by decide) with
      hign | ⟨address, word, blanks, hline, -⟩
    · exact absurd hign (by decide)
    · have hcolon : ':' ∈ "server host".toList := by
        rw [hline]
        simp
      exact absurd hcolon (by decide)
  obtain ⟨message, hpanic⟩ := h.2 hnone
  rw [hread] at hpanic
  exact absurd hpanic nofun

end Configuration

end BeTree
