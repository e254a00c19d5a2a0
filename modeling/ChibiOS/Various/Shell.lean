import ChibiOS.Shell.Parse

/-!
# The command lines of the shell

`shell.c`: the line that `shellGetLine` reads, cut into a command and its arguments by `_strtok`, and what
`shell_thread` executes. The line is memory from its first byte on, and a store outside the buffer has no outcome. The
argument array is filled from its first entry on, so it is the list of the entries written, and `n` is their number;
what `_strtok` has returned is kept beside it.
-/

namespace ChibiOS.Shell

open Function
open Ngshell (skip)
open Rdline (Mem)
open List (length_cons forall_mem_cons length_append append_nil)

/-- The characters of `" \t"`. -/
def isDelim (c : UInt8) : Bool := c == 32 || c == 9

/-- `token + strspn(token, delim)`. -/
def strspn (buf : Mem) (token fuel : Nat) : Option Nat := skip isDelim buf token fuel

/-- `strpbrk(token, delim)`: the inner option is the pointer. -/
def strpbrk (buf : Mem) (token fuel : Nat) : Option (Option Nat) :=
  (skip (fun c => !isDelim c) buf token fuel).map fun p => if buf p ≠ 0 then some p else none

/-- The token, the saved pointer and the memory. -/
def strtok (fuel : Nat) (buf : Mem) (str saveptr : Option Nat) : Option (Option Nat × Option Nat × Mem) :=
  match str.or saveptr with
  | none => some (none, none, buf)
  | some token => do
    let token ← strspn buf token fuel
    let saveptr ← strpbrk buf token fuel
    let (saveptr, buf) := match saveptr with
      | some p => (some (p + 1), update buf p 0)
      | none => (none, buf)
    some (if buf token ≠ 0 then some token else none, saveptr, buf)

structure Parsed where
  buf : Mem
  cmd : Option Nat
  args : List (Option Nat) := []
  tokens : List Nat

/-- The loop over the arguments. -/
def argLoop (maxArguments fuel : Nat) (s : Parsed) (tokp : Option Nat) (rounds : Nat) : Option Parsed :=
  match rounds with
  | 0 => none
  | rounds + 1 => do
    let (lp, tokp, buf) ← strtok fuel s.buf none tokp
    match lp with
    | none => some { s with buf := buf }
    | some lp =>
      let s := { s with buf := buf, tokens := s.tokens ++ [lp] }
      if maxArguments ≤ s.args.length then some { s with cmd := none }
      else argLoop maxArguments fuel { s with args := s.args ++ [some lp] } tokp rounds

/-- The line is cut, in as many rounds as the test of the counter lets the loop make. -/
def splitLine (maxArguments fuel : Nat) (line : Mem) : Option Parsed := do
  let (lp, tokp, buf) ← strtok fuel line (some 0) none
  let s ← argLoop maxArguments fuel { buf := buf, cmd := lp, tokens := lp.toList } tokp (maxArguments + 1)
  some { s with args := s.args ++ [none] }

/-! ## Execution -/

/-- What is executed for a line. -/
inductive Action
  | nothing
  | usage (name : List UInt8)
  | exit
  | help
  | command (table i : Nat)
  | unknown
  deriving DecidableEq

def tolower (c : UInt8) : UInt8 := if 65 ≤ c.toNat ∧ c.toNat ≤ 90 then c + 32 else c

/-- `strcasecmp(name, p) == 0` -/
def strcaseeq (buf : Mem) : Nat → List UInt8 → Bool
  | p, [] => buf p == 0
  | p, c :: name => tolower (buf p) == tolower c && strcaseeq buf (p + 1) name

def exitName : List UInt8 := [101, 120, 105, 116]

def helpName : List UInt8 := [104, 101, 108, 112]

/-- The names of `local_commands`. -/
def localCommands : List (List UInt8) := [[105, 110, 102, 111], [115, 121, 115, 116, 105, 109, 101]]

/-- The body of the shell's loop from the test of `cmd` on, with the terminator among the entries; `commands` are the
names in the configuration. -/
def execute (commands : List (List UInt8)) (s : Parsed) : Action :=
  match s.cmd with
  | none => .nothing
  | some cmd =>
    if strcaseeq s.buf cmd exitName then if 1 < s.args.length then .usage exitName else .exit
    else if strcaseeq s.buf cmd helpName then if 1 < s.args.length then .usage helpName else .help
    else match localCommands.findIdx? (strcaseeq s.buf cmd), commands.findIdx? (strcaseeq s.buf cmd) with
      | some i, _ => .command 0 i
      | none, some i => .command 1 i
      | none, none => .unknown

/-! ## Strings -/

/-- The string `t` is at `p`. -/
def StrAt (buf : Mem) : Nat → List UInt8 → Prop
  | p, [] => buf p = 0
  | p, c :: t => buf p = c ∧ c ≠ 0 ∧ StrAt buf (p + 1) t

variable {buf buf' : Mem} {p fuel : Nat} {t w : List UInt8} {test : UInt8 → Bool}

theorem StrAt.congr (string : StrAt buf p t) (same : ∀ m, p ≤ m → m ≤ p + t.length → buf' m = buf m) : StrAt buf' p t := by
  induction t generalizing p with
  | nil => exact (same p (le_refl p) (le_refl p)).trans string
  | cons c t ih =>
    rw [length_cons] at same
    refine ⟨(same p (le_refl p) (by omega)).trans string.1, string.2.1, ih string.2.2 ?_⟩
    intro m low high
    exact same m (by omega) (by omega)

/-- A scan stops behind the characters that it is to skip. -/
theorem StrAt.skip (string : StrAt buf p (w ++ t)) (run : ∀ c ∈ w, test c = true) (stops : ∀ c ∈ t.head?, test c = false)
    (enough : w.length < fuel) : skip test buf p fuel = some (p + w.length) ∧ StrAt buf (p + w.length) t := by
  induction w generalizing p fuel with
  | nil =>
    obtain ⟨k, rfl⟩ : ∃ k, fuel = k + 1 := ⟨fuel - 1, by omega⟩
    refine ⟨?_, string⟩
    cases t with
    | nil => exact if_neg fun goes => goes.1 string
    | cons c t =>
      refine if_neg fun goes => ?_
      rw [string.1, stops c rfl] at goes
      cases goes.2
  | cons c w ih =>
    obtain ⟨k, rfl⟩ : ∃ k, fuel = k + 1 := ⟨fuel - 1, by omega⟩
    obtain ⟨first, nonzero, rest⟩ := string
    obtain ⟨skips, run⟩ := forall_mem_cons.1 run
    rw [Ngshell.skip, first, if_pos ⟨nonzero, skips⟩, length_cons,
      show p + (w.length + 1) = p + 1 + w.length by omega]
    exact ih rest run (Nat.lt_of_succ_lt_succ enough)

/-- A string is cut at a character. -/
theorem StrAt.cut {c : UInt8} {behind : List UInt8} (string : StrAt buf p (t ++ c :: behind)) :
    StrAt (update buf (p + t.length) 0) p t ∧ StrAt (update buf (p + t.length) 0) (p + t.length + 1) behind := by
  induction t generalizing p with
  | nil =>
    refine ⟨update_self .., StrAt.congr string.2.2 fun m low high => update_of_ne (by simp; omega) ..⟩
  | cons d t ih =>
    obtain ⟨first, nonzero, rest⟩ := string
    obtain ⟨left, right⟩ := ih rest
    rw [length_cons, show p + (t.length + 1) = p + 1 + t.length by omega]
    exact ⟨⟨(update_of_ne (by omega) ..).trans first, nonzero, left⟩, right⟩

/-- A string gets another character. -/
theorem StrAt.concat {c : UInt8} (string : StrAt buf p t) (nonzero : c ≠ 0) (same : ∀ m < p + t.length, buf' m = buf m)
    (last : buf' (p + t.length) = c) (ended : buf' (p + t.length + 1) = 0) : StrAt buf' p (t ++ [c]) := by
  induction t generalizing p with
  | nil => exact ⟨last, nonzero, ended⟩
  | cons d t ih =>
    rw [length_cons, show p + (t.length + 1) = p + 1 + t.length by omega] at same last ended
    exact ⟨(same p (by omega)).trans string.1, string.2.1, ih string.2.2 same last ended⟩

/-! ## Reading a line -/

/-- The status, the buffer, what has been put on the channel, and the input that has not been read. -/
structure GetLine where
  status : Bool
  line : Mem
  echo : List UInt8
  input : List UInt8

def GetLine.put (cs : List UInt8) (r : GetLine) : GetLine := { r with echo := cs ++ r.echo }

/-- No store leaves the buffer. -/
def store (size : UInt32) (line : Mem) (idx : Nat) (c : UInt8) : Option Mem :=
  if idx < size.toNat then some (update line idx c) else none

/-- The loop of `shellGetLine`, over the bytes that come before the channel is reset. -/
def getLineLoop (size : UInt32) (line : Mem) (idx : Nat) : List UInt8 → Option GetLine
  | [] => some ⟨true, line, [], []⟩
  | c :: input =>
    if c = 4 then some ⟨false, line, [94, 68], input⟩
    else if c = 8 ∨ c = 127 then
      if 0 < idx then (getLineLoop size line (idx - 1) input).map (·.put [c, 32, c])
      else (getLineLoop size line idx input).map (·.put [7])
    else if c = 13 ∨ c = 10 then (store size line idx 0).map fun line => ⟨false, line, [13, 10], input⟩
    else if 32 ≤ c then
      if idx < (size - 1).toNat then
        (store size line idx c).bind fun line => (getLineLoop size line (idx + 1) input).map (·.put [c])
      else (getLineLoop size line idx input).map (·.put [7])
    else getLineLoop size line idx input

def shellGetLine (line : Mem) (size : UInt32) (input : List UInt8) : Option GetLine :=
  (store size line 0 0).bind fun line => getLineLoop size line 0 input

def isEol (c : UInt8) : Bool := c == 13 || c == 10

/-- The bytes in front of the end of the line. -/
def typed (input : List UInt8) : List UInt8 := input.takeWhile fun c => !isEol c

/-- The text held in a buffer of `size` bytes, after another byte. -/
def edit (size : Nat) (held : List UInt8) (c : UInt8) : List UInt8 :=
  if c = 8 ∨ c = 127 then held.dropLast else if 32 ≤ c ∧ held.length < size - 1 then held ++ [c] else held

/-- What the documentation says of the result. -/
structure ReadsLine (size : UInt32) (input : List UInt8) (r : GetLine) : Prop where
  line : r.status = false → (∃ c ∈ input, isEol c = true) ∧ StrAt r.line 0 ((typed input).foldl (edit size.toNat) [])
  reset : (∀ c ∈ input, isEol c = false) ∨ 4 ∈ typed input → r.status = true

variable {size : UInt32} {line : Mem} {held input : List UInt8} {r : GetLine} {idx : Nat}

/-- CTRL-D leaves the loop with the status of a line. -/
theorem getLineLoop_ctrlD (ctrlD : 4 ∈ typed input) (ran : getLineLoop size line idx input = some r) : r.status = false := by
  induction input generalizing line idx r with
  | nil => cases ctrlD
  | cons c input ih =>
    have later : c ≠ 4 → 4 ∈ typed input := by
      intro other
      unfold typed at ctrlD
      rw [List.takeWhile_cons] at ctrlD
      split at ctrlD
      · exact (List.mem_cons.1 ctrlD).resolve_left other.symm
      · cases ctrlD
    unfold getLineLoop at ran
    split at ran
    · cases ran
      rfl
    next other =>
      have next {e line' idx'} (ran' : (getLineLoop size line' idx' input).map (GetLine.put e) = some r) : r.status = false := by
        obtain ⟨r', before, rfl⟩ := Option.map_eq_some_iff.1 ran'
        exact (show r'.status = false from ih (later other) before)
      split at ran
      · split at ran <;> exact next ran
      · split at ran
        · obtain ⟨_, -, rfl⟩ := Option.map_eq_some_iff.1 ran
          rfl
        · split at ran
          · split at ran
            · obtain ⟨_, -, ran⟩ := Option.bind_eq_some_iff.1 ran
              exact next ran
            · exact next ran
          · exact ih (later other) ran

/-- Ended where it is, the buffer holds the text. -/
def Holds (line : Mem) (held : List UInt8) : Prop := StrAt (update line held.length 0) 0 held

theorem Holds.concat {c : UInt8} (holds : Holds line held) (nonzero : c ≠ 0) : Holds (update line held.length c) (held ++ [c]) := by
  refine StrAt.concat holds nonzero ?_ ?_ ?_
  · intro m below
    rw [update_of_ne (by simp; omega), update_of_ne (by omega), update_of_ne (by omega)]
  · rw [update_of_ne (by simp), zero_add, update_self]
  · rw [zero_add, length_append]
    exact update_self ..

theorem Holds.dropLast {c : UInt8} (holds : Holds line (held ++ [c])) : Holds line held := by
  refine (StrAt.cut holds).1.congr fun m _ high => ?_
  rw [length_append, zero_add]
  by_cases last : m = held.length
  · rw [last, update_self, update_self]
  · rw [update_of_ne last, update_of_ne last, update_of_ne (by simp; omega)]

/-- A round with any other byte edits the text held. -/
theorem getLineLoop_edit {c : UInt8} (input : List UInt8) (holds : Holds line held) (room : held.length < size.toNat) (notEol : isEol c = false)
    (notCtrlD : c ≠ 4) : ∃ cs line', getLineLoop size line held.length (c :: input) =
      (getLineLoop size line' (edit size.toNat held c).length input).map (GetLine.put cs) ∧
      Holds line' (edit size.toNat held c) ∧ (edit size.toNat held c).length < size.toNat := by
  have last : (size - 1).toNat = size.toNat - 1 := UInt32.toNat_sub_of_le _ _ (UInt32.le_iff_toNat_le.2 (Nat.zero_lt_of_lt room))
  have other : ¬ (c = 13 ∨ c = 10) := by simpa [isEol] using notEol
  unfold edit
  rw [getLineLoop, if_neg notCtrlD, if_neg other, last]
  by_cases back : c = 8 ∨ c = 127
  · rw [if_pos back, if_pos back]
    rcases List.eq_nil_or_concat' held with rfl | ⟨h, d, rfl⟩
    · exact ⟨[7], line, rfl, holds, room⟩
    · rw [length_append, List.length_singleton] at room ⊢
      rw [List.dropLast_concat, if_pos (Nat.succ_pos _)]
      exact ⟨[c, 32, c], line, rfl, holds.dropLast, Nat.lt_of_succ_lt room⟩
  · rw [if_neg back, if_neg back]
    by_cases printable : 32 ≤ c
    · by_cases more : held.length < size.toNat - 1
      · have nonzero : c ≠ 0 := by
          rintro rfl
          exact absurd printable (by decide)
        rw [if_pos printable, if_pos more, if_pos ⟨printable, more⟩, store, if_pos room, length_append]
        exact ⟨[c], _, rfl, holds.concat nonzero, by rw [List.length_singleton]; omega⟩
      · rw [if_pos printable, if_neg more, if_neg (fun both => more both.2)]
        exact ⟨[7], line, rfl, holds, room⟩
    · rw [if_neg printable, if_neg (fun both => printable both.1)]
      exact ⟨[], line, Option.map_id'.symm, holds, room⟩

/-- Without CTRL-D the loop ends with the line or with the reset. -/
theorem getLineLoop_holds (holds : Holds line held) (room : held.length < size.toNat) (noCtrlD : 4 ∉ typed input) :
    ∃ r, getLineLoop size line held.length input = some r ∧ (r.status = true ∧ (∀ c ∈ input, isEol c = false) ∨
      r.status = false ∧ (∃ c ∈ input, isEol c = true) ∧ StrAt r.line 0 ((typed input).foldl (edit size.toNat) held)) := by
  induction input generalizing line held with
  | nil => exact ⟨_, rfl, .inl ⟨rfl, nofun⟩⟩
  | cons c input ih =>
    cases eol : isEol c with
    | true =>
      have is : c = 13 ∨ c = 10 := by simpa [isEol] using eol
      have others : c ≠ 4 ∧ ¬ (c = 8 ∨ c = 127) := by rcases is with rfl | rfl <;> decide
      have none_ : typed (c :: input) = [] := by simp [typed, eol]
      rw [getLineLoop, if_neg others.1, if_neg others.2, if_pos is, store, if_pos room, none_]
      exact ⟨_, rfl, .inr ⟨rfl, ⟨c, .head _, eol⟩, holds⟩⟩
    | false =>
      have split : typed (c :: input) = c :: typed input := by simp [typed, eol]
      rw [split] at noCtrlD ⊢
      obtain ⟨other, noCtrlD⟩ := List.ne_and_not_mem_of_not_mem_cons noCtrlD
      obtain ⟨cs, line', step, holds', room'⟩ := getLineLoop_edit input holds room eol other.symm
      obtain ⟨r, ran, result⟩ := ih holds' room' noCtrlD
      refine ⟨r.put cs, by rw [step, ran]; rfl, ?_⟩
      rcases result with ⟨status, none_⟩ | ⟨status, ⟨d, mem, is⟩, string⟩
      · exact .inl ⟨status, forall_mem_cons.2 ⟨eol, none_⟩⟩
      · exact .inr ⟨status, ⟨d, .tail _ mem, is⟩, string⟩

/-- A line is read as documented if and only if CTRL-D does not come in front of its end. -/
theorem line_reading (line : Mem) {size : UInt32} (nonempty : 1 ≤ size) (input : List UInt8) :
    (∃ r, shellGetLine line size input = some r ∧ ReadsLine size input r) ↔ 4 ∉ typed input := by
  have room : 0 < size.toNat := UInt32.le_iff_toNat_le.1 nonempty
  rw [shellGetLine, store, if_pos room, Option.bind_some]
  constructor
  · rintro ⟨r, ran, reads⟩ ctrlD
    have := reads.reset (.inr ctrlD)
    cases (getLineLoop_ctrlD ctrlD ran).symm.trans this
  · intro noCtrlD
    have holds : Holds (update line 0 0) [] := update_self ..
    obtain ⟨r, ran, ⟨status, none_⟩ | ⟨status, some_, string⟩⟩ := getLineLoop_holds holds room noCtrlD
    · refine ⟨r, ran, fun bad => ?_, fun _ => status⟩
      cases status.symm.trans bad
    · refine ⟨r, ran, fun _ => ⟨some_, string⟩, ?_⟩
      rintro (none_ | ctrlD)
      · obtain ⟨c, mem, eol⟩ := some_
        cases (none_ c mem).symm.trans eol
      · exact absurd ctrlD noCtrlD

theorem line_reading_two : ∃ r, shellGetLine (fun _ => 99) 8 [97, 8, 98, 13] = some r ∧ ReadsLine 8 [97, 8, 98, 13] r :=
  (line_reading (fun _ => 99) (by decide) [97, 8, 98, 13]).2 (by decide)

/-- CTRL-D behind a character: the status of a line, and no terminator behind the character. -/
theorem line_reading_ctrlD :
    (shellGetLine (fun _ => 99) 8 [97, 4]).map (fun r => (r.status, r.line 0, r.line 1)) = some (false, 97, 99) ∧
      ¬ ∃ r, shellGetLine (fun _ => 99) 8 [97, 4] = some r ∧ ReadsLine 8 [97, 4] r := by
  refine ⟨by decide, ?_⟩
  rintro ⟨r, ran, reads⟩
  cases ran
  exact absurd (reads.reset (.inr (by decide))) (by decide)

/-! ## Tokens -/

/-- The maximal runs of characters other than the delimiters. -/
def tokens (t : List UInt8) : List (List UInt8) := (t.splitOnP isDelim).filter (· ≠ [])

theorem tokens_blanks (blanks : ∀ c ∈ w, isDelim c = true) (t : List UInt8) : tokens (w ++ t) = tokens t := by
  induction w with
  | nil => rfl
  | cons c w ih =>
    obtain ⟨delim, blanks⟩ := forall_mem_cons.1 blanks
    rw [← ih blanks]
    simp [tokens, List.splitOnP_cons_eq_if_modifyHead, delim]

/-- The first run, up to the end or to the delimiter behind it. -/
theorem tokens_run (nonempty : w ≠ []) (run : ∀ c ∈ w, isDelim c = false) (behind : List UInt8)
    (stops : ∀ c ∈ behind.head?, isDelim c = true) : tokens (w ++ behind) = w :: tokens behind.tail := by
  cases behind with
  | nil => simp [tokens, List.splitOnP_eq_singleton run, nonempty]
  | cons c behind =>
    have delim : isDelim c = true := stops c rfl
    simp [tokens, List.splitOnP_append_cons_of_forall_mem run c delim, nonempty]

/-- The first characters that pass a test. -/
theorem exists_run (test : UInt8 → Bool) (t : List UInt8) :
    ∃ w u, t = w ++ u ∧ (∀ c ∈ w, test c = true) ∧ ∀ c ∈ u.head?, test c = false := by
  induction t with
  | nil => exact ⟨[], [], rfl, nofun, nofun⟩
  | cons c t ih =>
    cases passes : test c with
    | false => exact ⟨[], c :: t, rfl, nofun, by simpa using passes⟩
    | true =>
      obtain ⟨w, u, rfl, run, stops⟩ := ih
      exact ⟨c :: w, u, rfl, forall_mem_cons.2 ⟨passes, run⟩, stops⟩

/-- What the saved pointer leaves of the line. -/
def Left (buf : Mem) : Option Nat → List UInt8 → Prop
  | none, t => t = []
  | some p, t => StrAt buf p t

/-- What is in front of the saved pointer stays. -/
def Agrees (buf later : Mem) : Option Nat → Prop
  | none => later = buf
  | some lo => ∀ m < lo, later m = buf m

/-- One call returns the first token of what is left and ends it, or finds that there is none. -/
theorem strtok_left (str saveptr : Option Nat) (left : Left buf (str.or saveptr) t) (enough : t.length < fuel) :
    ∃ lp tokp buf' t', strtok fuel buf str saveptr = some (lp, tokp, buf') ∧ Left buf' tokp t' ∧ t'.length ≤ t.length ∧
      (∀ later, Agrees buf' later tokp → Agrees buf later (str.or saveptr)) ∧
      (lp = none ∧ tokens t = [] ∧ t' = [] ∨
        ∃ p w, lp = some p ∧ tokens t = w :: tokens t' ∧ ∀ later, Agrees buf' later tokp → StrAt later p w) := by
  unfold strtok
  cases place : str.or saveptr with
  | none =>
    rw [place] at left
    cases left
    exact ⟨none, none, buf, [], rfl, rfl, le_rfl, fun _ same => same, .inl ⟨rfl, rfl, rfl⟩⟩
  | some lo =>
    rw [place] at left
    obtain ⟨blanks, u, rfl, areBlanks, starts⟩ := exists_run isDelim t
    obtain ⟨w, behind, rfl, run, stops⟩ := exists_run (fun c => !isDelim c) u
    rw [length_append, length_append] at enough
    obtain ⟨found, string⟩ := StrAt.skip left areBlanks starts (show _ < fuel by omega)
    obtain ⟨found', behindAt⟩ := StrAt.skip string run stops (show _ < fuel by omega)
    generalize at_ : lo + blanks.length = token at found string found' behindAt
    replace run : ∀ c ∈ w, isDelim c = false := fun c mem => by simpa using run c mem
    replace stops : ∀ c ∈ behind.head?, isDelim c = true := fun c mem => by simpa using stops c mem
    have split (nonempty : w ≠ []) : tokens (blanks ++ (w ++ behind)) = w :: tokens behind.tail := by
      rw [tokens_blanks areBlanks, tokens_run nonempty run behind stops]
    simp only [strspn, strpbrk, found, found', Option.bind_eq_bind, Option.bind_some, Option.map_some]
    cases behind with
    | nil =>
      have ended : ¬ buf (token + w.length) ≠ 0 := not_not.2 behindAt
      rw [if_neg ended]
      dsimp only
      refine ⟨_, none, buf, [], rfl, rfl, Nat.zero_le _, ?_, ?_⟩
      · rintro later rfl m -
        rfl
      · cases w with
        | nil => exact .inl ⟨if_neg (not_not.2 string), tokens_blanks areBlanks [], rfl⟩
        | cons c w =>
          rw [append_nil] at string
          refine .inr ⟨token, c :: w, if_pos ?_, split (List.cons_ne_nil c w), ?_⟩
          · rw [string.1]
            exact string.2.1
          · rintro later rfl
            exact string
    | cons c behind =>
      cases w with
      | nil => cases (starts c rfl).symm.trans (stops c rfl)
      | cons d w =>
        obtain ⟨cut, left'⟩ := string.cut
        have more : buf (token + (d :: w).length) ≠ 0 := by
          rw [behindAt.1]
          exact behindAt.2.1
        rw [if_pos more]
        dsimp only
        refine ⟨_, _, _, behind, rfl, left', ?_, ?_, .inr ⟨token, d :: w, if_pos ?_, split (List.cons_ne_nil d w), ?_⟩⟩
        · simp only [length_append, length_cons]
          omega
        · intro later agrees m below
          rw [agrees m (by omega), update_of_ne (by omega)]
        · rw [cut.1]
          exact cut.2.1
        · intro later agrees
          exact cut.congr fun m _ high => agrees m (by omega)

/-! ## The line -/

/-- The loop takes the places `ps` of the tokens `ts`: it keeps those that the array has room for, and one more makes it
give the command up. -/
structure Collected (room : Nat) (ts : List (List UInt8)) (s r : Parsed) (ps : List Nat) : Prop where
  tokens : r.tokens = s.tokens ++ ps
  strings : List.Forall₂ (StrAt r.buf) ps (ts.take (room + 1))
  args : r.args = s.args ++ (ps.take room).map some
  cmd : r.cmd = if ts.length ≤ room then s.cmd else none

theorem Agrees.refl (buf : Mem) (tokp : Option Nat) : Agrees buf buf tokp := by
  cases tokp with
  | none => rfl
  | some lo => exact fun _ _ => rfl

theorem argLoop_left {maxArguments fuel : Nat} {t : List UInt8} {s : Parsed} {tokp : Option Nat} (rounds : Nat) (left : Left s.buf tokp t)
    (enough : t.length < fuel) (room : s.args.length + rounds = maxArguments) :
    ∃ r ps, argLoop maxArguments fuel s tokp (rounds + 1) = some r ∧ Agrees s.buf r.buf tokp ∧
      Collected rounds (tokens t) s r ps := by
  obtain ⟨lp, tokp', buf', t', ran, left', shorter, kept, result⟩ := strtok_left none tokp left enough
  rw [argLoop]
  simp only [ran, Option.bind_eq_bind, Option.bind_some]
  rcases result with ⟨rfl, empty, -⟩ | ⟨p, w, rfl, split, string⟩
  · refine ⟨_, [], rfl, kept buf' (.refl ..), ?_⟩
    rw [empty]
    exact ⟨(append_nil _).symm, .nil, by simp, rfl⟩
  · rw [split]
    cases rounds with
    | zero =>
      refine ⟨_, [p], if_pos (by omega), kept buf' (.refl ..), ?_⟩
      exact ⟨rfl, .cons (string buf' (.refl ..)) .nil, (append_nil _).symm, rfl⟩
    | succ rounds =>
      obtain ⟨r, ps, ran', agrees, collected⟩ := argLoop_left
        (s := { s with buf := buf', tokens := s.tokens ++ [p], args := s.args ++ [some p] }) rounds left' (show t'.length < fuel by omega)
        (show _ = maxArguments by rw [length_append, List.length_singleton]; omega)
      refine ⟨r, p :: ps, (if_neg (by omega)).trans ran', kept r.buf agrees, ?_⟩
      obtain ⟨tokens', strings, args, cmd⟩ := collected
      refine ⟨?_, .cons (string r.buf agrees) strings, ?_, ?_⟩
      · rw [tokens', List.append_assoc]
        rfl
      · rw [args, List.append_assoc]
        rfl
      · rw [cmd, length_cons]
        simp only [Nat.add_le_add_iff_right]

/-- For every line, `_strtok` returns its tokens in order, up to the one behind the last argument that there is room
for. The first is the command, the others are the arguments in front of the terminator of the array, and nothing is
executed if there is no token or one too many. -/
theorem argument_splitting {line : Mem} {text : List UInt8} {fuel : Nat} (string : StrAt line 0 text)
    (enough : text.length < fuel) (maxArguments : Nat) :
    ∃ r, splitLine maxArguments fuel line = some r ∧
      List.Forall₂ (StrAt r.buf) r.tokens ((tokens text).take (maxArguments + 2)) ∧
      r.args = (r.tokens.tail.take maxArguments).map some ++ [none] ∧ r.args.length ≤ maxArguments + 1 ∧
      r.cmd = (if (tokens text).length ≤ maxArguments + 1 then r.tokens.head? else none) ∧
      ∀ commands, execute commands r = .nothing ↔ tokens text = [] ∨ maxArguments + 1 < (tokens text).length := by
  obtain ⟨lp, tokp, buf, t, ran, left, shorter, -, result⟩ := strtok_left (some 0) none string enough
  obtain ⟨r, ps, ran', agrees, collected⟩ := argLoop_left
    (s := { buf := buf, cmd := lp, tokens := lp.toList }) maxArguments left (show t.length < fuel by omega) (zero_add _)
  obtain ⟨tokens', strings, args, cmd⟩ := collected
  have executes (commands : List (List UInt8)) (s : Parsed) : execute commands s = .nothing ↔ s.cmd = none := by
    unfold execute
    cases s.cmd with
    | none => simp
    | some c =>
      simp only [reduceCtorEq, iff_false]
      repeat' split
      all_goals nofun
  refine ⟨{ r with args := r.args ++ [none] }, by simp [splitLine, ran, ran'], ?_⟩
  simp only [executes, args, cmd, tokens']
  rcases result with ⟨rfl, empty, rfl⟩ | ⟨p, w, rfl, split, first⟩
  · rw [empty]
    have none_ : List.Forall₂ (StrAt r.buf) ps [] := strings
    cases none_
    simp
  · rw [split]
    exact ⟨.cons (first r.buf agrees) strings, rfl, by simp, by simp, by simp⟩

/-- A command with one argument is executed. -/
theorem argument_splitting_two : ∃ r, splitLine 4 4 (fun i => [101, 32, 97].getD i 0) = some r ∧
    ∀ commands, execute commands r ≠ .nothing := by
  have string : StrAt (fun i => [101, 32, 97].getD i 0) 0 [101, 32, 97] := by simp [StrAt]
  obtain ⟨r, ran, -, -, -, -, executes⟩ := argument_splitting string (show 3 < 4 by decide) 4
  exact ⟨r, ran, fun commands idle => absurd ((executes commands).1 idle) (by decide)⟩

end ChibiOS.Shell
