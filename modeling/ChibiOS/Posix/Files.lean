import Mathlib.Data.List.Basic
import ChibiOS.Lib.Lts

/-!
# The descriptor table of the POSIX layer

`posix.c` with the FAT provider, as far as opening and closing go. The callbacks of
the mounted providers are a parameter: each works on the state that the providers
share, `posix_open` hands the entry of the table to one of them. An entry is in use
if it has a method table; a search that finds none free answers 0, the entry of the
standard input, and not −1.
-/

namespace ChibiOS.Posix

open Lib Function

def posixMaxFd : Nat := 10

/-- The method tables of streams. -/
inductive StreamVmt
  | chstream
  | fatfd
  | other (id : Nat)
  deriving DecidableEq

/-- `posix_stream_t`. -/
structure Stream where
  ip : Nat := 0
  vmt : Option StreamVmt := none
  deriving DecidableEq

abbrev Path := List Char

/-- The method tables of mount points. -/
inductive MountVmt
  | rootfs
  | fatfs
  | other (id : Nat)
  deriving DecidableEq

/-- `posix_mountpoint_t`; the list holds the links. -/
structure Mountpoint where
  ip : Nat
  vmt : MountVmt
  mpPath : Path
  deriving DecidableEq

/-- The callbacks of the providers, over the state `σ` that they share: `open` of a mount point, which may
write the stream and may have no defined outcome, and `init` and `close` of a stream. -/
structure Providers (σ : Type) where
  openFile : Mountpoint → Stream → Path → Int → σ → Option (Int × Stream × σ)
  initStream : StreamVmt → Nat → σ → σ
  closeStream : StreamVmt → Nat → σ → σ

/-- `opened` are the descriptors of the standard streams and those that `posix_open` returned, until they are
closed; it is not in the source. -/
structure PosixState (σ : Type) where
  fdList : Nat → Stream
  mountpoints : List Mountpoint
  fs : σ
  opened : Nat → Bool

def rootFs : Mountpoint := ⟨0, .rootfs, ['/']⟩

def findMountpoint (mountpoints : List Mountpoint) (path : Path) : Option (Mountpoint × Nat) :=
  (mountpoints.find? fun p => p.mpPath.isPrefixOf path).map fun p => (p, p.mpPath.length)

def posixGetStreamfree (fdList : Nat → Stream) : Int :=
  match (List.range posixMaxFd).find? fun i => (fdList i).vmt.isNone with
  | some i => i
  | none => 0

/-- `ip` of the console streams. -/
def sdu1 : Nat := 1

namespace PosixState

variable {σ : Type}

/-- At startup, when the table is still zero. -/
def posixInit (fs : σ) : PosixState σ where
  fdList _ := {}
  mountpoints := [rootFs]
  fs := fs
  opened _ := false

def posixInitChstream (fd : Nat) (stream : Nat) (s : PosixState σ) : PosixState σ :=
  { s with fdList := update s.fdList fd ⟨stream, some .chstream⟩, opened := update s.opened fd true }

/-- The standard streams of `main`. -/
def start (fs : σ) : PosixState σ :=
  (((posixInit fs).posixInitChstream 0 sdu1).posixInitChstream 1 sdu1).posixInitChstream 2 sdu1

/-- `posix_open` from the mount point on. A provider that succeeds without a method table leaves a null pointer to
follow. -/
def openOn (ps : Providers σ) (p : Mountpoint) (realname : Path) (mode : Int) (s : PosixState σ) :
    Option (Int × PosixState σ) :=
  let newfd := posixGetStreamfree s.fdList
  if newfd = -1 then some (-1, s)
  else do
    let (r, stream, fs) ← ps.openFile p (s.fdList newfd.toNat) realname mode s.fs
    let s := { s with fdList := update s.fdList newfd.toNat stream }
    if r ≠ -1 then
      let vmt ← stream.vmt
      some (newfd, { s with fs := ps.initStream vmt stream.ip fs })
    else some (-1, { s with fs := fs })

def posixOpen (ps : Providers σ) (fname : Path) (mode : Int) (s : PosixState σ) : Option (Int × PosixState σ) :=
  match findMountpoint s.mountpoints fname with
  | none => some (-1, s)
  | some (p, mpathLen) => if mpathLen = 0 then some (-1, s) else s.openOn ps p (fname.drop mpathLen) mode

/-- For a descriptor without a method table this follows a null pointer. -/
def posixClose (ps : Providers σ) (fd : Nat) (s : PosixState σ) : Option (PosixState σ) :=
  if fd < posixMaxFd then do
    let stream := s.fdList fd
    let vmt ← stream.vmt
    some { s with
      fdList := update s.fdList fd { stream with vmt := none }
      fs := ps.closeStream vmt stream.ip s.fs }
  else none

end PosixState

open PosixState (start)

/-- Between two calls the mount list and the providers may change in any way. -/
inductive Call (σ : Type)
  | openFile (fname : Path) (mode : Int)
  | close (fd : Nat)
  | remount (mountpoints : List Mountpoint)
  | advance (fs : σ)

def PosixState.next {σ : Type} (ps : Providers σ) (c : Call σ) (s : PosixState σ) : Option (PosixState σ) :=
  match c with
  | .openFile fname mode => do
    let (r, s') ← s.posixOpen ps fname mode
    if r = -1 then some s' else some { s' with opened := update s'.opened r.toNat true }
  | .close fd => do
    let s' ← s.posixClose ps fd
    some { s' with opened := update s'.opened fd false }
  | .remount mountpoints => some { s with mountpoints := mountpoints }
  | .advance fs => some { s with fs := fs }

def descriptors {σ : Type} (ps : Providers σ) (fs : σ) : Lts (PosixState σ) (Call σ) where
  init := start fs
  next := PosixState.next ps

/-! ## The FAT provider -/

def filEntries : Nat := posixMaxFd - 3

/-- The `fs` fields of `posix_fil_fd`, and the files on the volume. -/
structure Fat where
  fil : Nat → Option Nat := fun _ => none
  files : Path → Bool

def Fat.newFil (f : Fat) : Option Nat := (List.range filEntries).find? fun i => (f.fil i).isNone

/-- Without a free file object a null pointer is written through. A `wf_open` that fails clears the `fs` field. -/
def fatfsOpen (mp : Mountpoint) (path : Path) (f : Fat) : Option (Int × Stream × Fat) := do
  let fd ← f.newFil
  let s : Stream := ⟨fd, some .fatfd⟩
  if f.files path then some (0, s, { f with fil := update f.fil fd (some mp.ip) })
  else some (-1, s, { f with fil := update f.fil fd none })

def fatfdClose (fd : Nat) (f : Fat) : Fat := { f with fil := update f.fil fd none }

/-- The root, which opens nothing, the FAT volumes, and any other providers. -/
def fatProviders (other : Providers Fat) : Providers Fat where
  openFile mp s path mode f :=
    match mp.vmt with
    | .rootfs => some (-1, s, f)
    | .fatfs => fatfsOpen mp path f
    | .other _ => other.openFile mp s path mode f
  initStream vmt ip f :=
    match vmt with
    | .other _ => other.initStream vmt ip f
    | _ => f
  closeStream vmt ip f :=
    match vmt with
    | .chstream => f
    | .fatfd => fatfdClose ip f
    | .other _ => other.closeStream vmt ip f

/-! ## Opening and closing -/

variable {σ : Type} {ps : Providers σ} {s s' : PosixState σ} {fname : Path} {mode r : Int}

/-- Every entry is in use. -/
def PosixState.Full (s : PosixState σ) : Prop := ∀ fd < posixMaxFd, (s.fdList fd).vmt ≠ none

instance (s : PosixState σ) : Decidable s.Full := inferInstanceAs (Decidable (∀ fd < posixMaxFd, _))

/-- What opening owes: a descriptor that is not open, the streams of the others as they were, and an error
without effect when no descriptor is free. -/
structure OpenOk (s : PosixState σ) (r : Int) (s' : PosixState σ) : Prop where
  fresh : r ≠ -1 → s.opened r.toNat = false
  others : ∀ fd, s.opened fd = true → s'.fdList fd = s.fdList fd
  full : s.Full → r = -1 ∧ s'.fdList = s.fdList

/-- The provider of the path has an outcome, with a method table if it succeeds; and if no descriptor is free it fails
without touching the stream it is given. -/
def Room (ps : Providers σ) (s : PosixState σ) (fname : Path) (mode : Int) : Prop :=
  ∀ p len, findMountpoint s.mountpoints fname = some (p, len) → len ≠ 0 → ∃ r stream fs,
    ps.openFile p (s.fdList (posixGetStreamfree s.fdList).toNat) (fname.drop len) mode s.fs = some (r, stream, fs) ∧
    (r ≠ -1 → stream.vmt ≠ none) ∧ (s.Full → r = -1 ∧ stream = s.fdList 0)

/-- An open descriptor has a method table. -/
def PosixState.Sound (s : PosixState σ) : Prop :=
  ∀ fd, s.opened fd = true → fd < posixMaxFd ∧ (s.fdList fd).vmt ≠ none

theorem getStreamfree_of_full (full : s.Full) : posixGetStreamfree s.fdList = 0 := by
  have none_free : (List.range posixMaxFd).find? (fun i => (s.fdList i).vmt.isNone) = none := by
    rw [List.find?_eq_none]
    intro i mem
    have used := full i (List.mem_range.1 mem)
    cases vmt : (s.fdList i).vmt with
    | none => exact absurd vmt used
    | some v => simp
  rw [posixGetStreamfree, none_free]

theorem getStreamfree_of_room (room : ¬ s.Full) :
    ∃ fd < posixMaxFd, (s.fdList fd).vmt = none ∧ posixGetStreamfree s.fdList = (fd : Int) := by
  cases found : (List.range posixMaxFd).find? fun i => (s.fdList i).vmt.isNone with
  | none =>
    refine absurd (fun fd below => ?_) room
    have used := List.find?_eq_none.1 found fd (List.mem_range.2 below)
    simpa using used
  | some fd =>
    refine ⟨fd, List.mem_range.1 (List.mem_of_find?_eq_some found), ?_, ?_⟩
    · simpa using List.find?_some found
    · rw [posixGetStreamfree, found]

/-- What a call of `posix_open` can do: fail before a provider is asked, or write the entry `fd` that the search
answered, and return it if there is a method table in it. -/
theorem posixOpen_cases (ran : s.posixOpen ps fname mode = some (r, s')) :
    (r = -1 ∧ s' = s ∧ ∀ p len, findMountpoint s.mountpoints fname = some (p, len) → len = 0) ∨
    ∃ (fd : Nat) (p : Mountpoint) (len : Nat) (r' : Int) (stream : Stream) (fs fs' : σ), posixGetStreamfree s.fdList = (fd : Int) ∧
      findMountpoint s.mountpoints fname = some (p, len) ∧ len ≠ 0 ∧
      ps.openFile p (s.fdList fd) (fname.drop len) mode s.fs = some (r', stream, fs) ∧
      s' = { s with fdList := update s.fdList fd stream, fs := fs' } ∧
      (r' = -1 ∧ r = -1 ∧ fs' = fs ∨ r' ≠ -1 ∧ r = fd ∧ stream.vmt ≠ none) := by
  unfold PosixState.posixOpen PosixState.openOn at ran
  split at ran
  next none =>
    cases ran
    exact .inl ⟨rfl, rfl, fun p len found => by simp [none] at found⟩
  next p len found =>
    split at ran
    next zero =>
      cases ran
      refine .inl ⟨rfl, rfl, fun p' len' found' => ?_⟩
      cases found.symm.trans found'
      exact zero
    next nonzero =>
      obtain ⟨fd, answer⟩ : ∃ fd : Nat, posixGetStreamfree s.fdList = (fd : Int) := by
        unfold posixGetStreamfree
        split
        · exact ⟨_, rfl⟩
        · exact ⟨0, rfl⟩
      simp only [answer, Int.toNat_natCast] at ran
      rw [if_neg (by omega)] at ran
      obtain ⟨⟨r', stream, fs⟩, opens, rest⟩ := Option.bind_eq_some_iff.1 ran
      refine .inr ⟨fd, p, len, r', stream, fs, ?_⟩
      split at rest
      next success =>
        obtain ⟨vmt, has, ⟨⟩⟩ := Option.bind_eq_some_iff.1 rest
        exact ⟨_, answer, found, nonzero, opens, rfl, .inr ⟨success, rfl, fun null => by cases has.symm.trans null⟩⟩
      next failure =>
        cases rest
        exact ⟨_, answer, found, nonzero, opens, rfl, .inl ⟨not_not.1 failure, rfl, rfl⟩⟩

theorem PosixState.Sound.free (sound : s.Sound) {fd : Nat} (free : (s.fdList fd).vmt = none) : s.opened fd = false := by
  cases is : s.opened fd with
  | false => rfl
  | true => exact absurd free (sound fd is).2

/-- With room there is an outcome. -/
theorem Room.opens (room : Room ps s fname mode) : ∃ r s', s.posixOpen ps fname mode = some (r, s') := by
  unfold PosixState.posixOpen PosixState.openOn
  split
  · exact ⟨_, _, rfl⟩
  next p len found =>
    split
    · exact ⟨_, _, rfl⟩
    next nonzero =>
      obtain ⟨r, stream, fs, opens, has, -⟩ := room p len found nonzero
      dsimp only
      rw [opens]
      split
      · exact ⟨_, _, rfl⟩
      · by_cases failed : r = -1
        · simp [failed]
        · obtain ⟨vmt, is⟩ := Option.ne_none_iff_exists'.1 (has failed)
          simp [failed, is]

theorem Room.openOk (room : Room ps s fname mode) (sound : s.Sound) (ran : s.posixOpen ps fname mode = some (r, s')) :
    OpenOk s r s' := by
  rcases posixOpen_cases ran with ⟨rfl, rfl, -⟩ | ⟨fd, p, len, r', stream, fs, fs', answer, found, nonzero, opens, rfl, out⟩
  · exact ⟨fun success => absurd rfl success, fun _ _ => rfl, fun _ => ⟨rfl, rfl⟩⟩
  obtain ⟨r₀, stream₀, fs₀, opens₀, -, fails⟩ := room p len found nonzero
  rw [answer, Int.toNat_natCast, opens] at opens₀
  cases opens₀
  by_cases full : s.Full
  · obtain rfl : fd = 0 := by
      rw [getStreamfree_of_full full] at answer
      omega
    obtain ⟨failed, same⟩ := fails full
    have table : update s.fdList 0 stream = s.fdList := by rw [same, update_eq_self]
    obtain ⟨-, rfl, -⟩ := out.resolve_right fun ⟨success, _⟩ => success failed
    exact ⟨fun success => absurd rfl success, fun fd _ => congrFun table fd, fun _ => ⟨rfl, table⟩⟩
  · obtain ⟨fd', -, free, answer'⟩ := getStreamfree_of_room full
    obtain rfl : fd = fd' := by omega
    have closed := sound.free free
    refine ⟨fun success => ?_, fun fd₁ isOpen => ?_, fun full' => absurd full' full⟩
    · obtain ⟨-, rfl, -⟩ := out.resolve_left fun ⟨_, failed, _⟩ => success failed
      exact closed
    · refine update_of_ne ?_ ..
      rintro rfl
      cases closed.symm.trans isOpen

theorem OpenOk.room (ok : OpenOk s r s') (ran : s.posixOpen ps fname mode = some (r, s')) : Room ps s fname mode := by
  intro p len found nonzero
  rcases posixOpen_cases ran with ⟨-, -, unresolved⟩ | ⟨fd, p', len', r', stream, fs, fs', answer, found', -, opens, rfl, out⟩
  · exact absurd (unresolved p len found) nonzero
  cases found.symm.trans found'
  rw [answer, Int.toNat_natCast]
  refine ⟨r', stream, fs, opens, fun success => (out.resolve_left fun failed => success failed.1).2.2, fun full => ?_⟩
  obtain ⟨failed, same⟩ := ok.full full
  obtain rfl : fd = 0 := by
    rw [getStreamfree_of_full full] at answer
    omega
  rcases out with ⟨failed', -⟩ | ⟨-, returned, -⟩
  · have entry := congrFun same 0
    exact ⟨failed', entry⟩
  · omega

/-- The callers' side of the condition. -/
def KeepsRoom (ps : Providers σ) (s : PosixState σ) (c : Call σ) : Prop :=
  ∀ fname mode, c = .openFile fname mode → Room ps s fname mode

theorem PosixState.Sound.open (sound : s.Sound) (room : Room ps s fname mode)
    (ran : s.posixOpen ps fname mode = some (r, s')) :
    Sound (if r = -1 then s' else { s' with opened := update s'.opened r.toNat true }) := by
  have ok := room.openOk sound ran
  -- What was open keeps its stream, and the new descriptor has a method table.
  have kept : s'.opened = s.opened ∧ s'.Sound := by
    have same : s'.opened = s.opened := by
      rcases posixOpen_cases ran with ⟨-, rfl, -⟩ | ⟨_, _, _, _, _, _, _, -, -, -, -, rfl, -⟩ <;> rfl
    refine ⟨same, fun fd isOpen => ?_⟩
    rw [same] at isOpen
    rw [ok.others fd isOpen]
    exact sound fd isOpen
  split
  · exact kept.2
  next success =>
    intro fd isOpen
    by_cases new : fd = r.toNat
    · subst new
      rcases posixOpen_cases ran with ⟨failed, -, -⟩ | ⟨fd, _, _, _, stream, _, _, answer, -, -, -, rfl, out⟩
      · exact absurd failed success
      obtain ⟨-, rfl, has⟩ := out.resolve_left fun ⟨_, failed, _⟩ => success failed
      have below : fd < posixMaxFd := by
        by_cases full : s.Full
        · rw [getStreamfree_of_full full] at answer
          have : 0 < posixMaxFd := by decide
          omega
        · obtain ⟨fd', below, -, answer'⟩ := getStreamfree_of_room full
          omega
      simp only [Int.toNat_natCast, update_self]
      exact ⟨below, has⟩
    · exact kept.2 fd (by simpa [update_of_ne new] using isOpen)

theorem PosixState.Sound.close (sound : s.Sound) {fd : Nat} (ran : s.posixClose ps fd = some s') :
    Sound { s' with opened := update s'.opened fd false } := by
  simp only [posixClose, Option.bind_eq_bind, Option.ite_none_right_eq_some, Option.bind_eq_some_iff] at ran
  obtain ⟨-, vmt, -, ⟨⟩⟩ := ran
  intro fd' isOpen
  by_cases same : fd' = fd
  · subst same
    simp at isOpen
  · simp only [update_of_ne same] at isOpen ⊢
    exact sound fd' isOpen

theorem PosixState.Sound.step {c : Call σ} (sound : s.Sound) (room : KeepsRoom ps s c) (taken : s.next ps c = some s') :
    s'.Sound := by
  cases c with
  | openFile fname mode =>
    obtain ⟨⟨r, m⟩, ran, eq⟩ := Option.bind_eq_some_iff.1 taken
    have opens := sound.open (room fname mode rfl) ran
    by_cases failed : r = -1
    · simp only [failed, if_true, Option.some.injEq] at eq opens
      exact eq ▸ opens
    · simp only [failed, if_false, Option.some.injEq] at eq opens
      exact eq ▸ opens
  | close fd =>
    obtain ⟨m, ran, ⟨⟩⟩ := Option.bind_eq_some_iff.1 taken
    exact sound.close ran
  | remount mountpoints =>
    cases taken
    exact sound
  | advance fs =>
    cases taken
    exact sound

/-- The standard streams are open. -/
theorem sound_start (fs : σ) : (start fs).Sound := by
  intro fd isOpen
  have std : fd = 2 ∨ fd = 1 ∨ fd = 0 := by
    simpa [start, PosixState.posixInitChstream, PosixState.posixInit, update_apply] using isOpen
  rcases std with rfl | rfl | rfl <;>
    exact ⟨by decide, by simp [start, PosixState.posixInitChstream]⟩

/-- In every run whose calls of `posix_open` find room, `posix_open` returns a descriptor that is not open, leaves
the streams of all open descriptors alone, and fails without effect on a full table; and from each state of such a
run it returns and does so exactly if it finds room. -/
theorem descriptor_table {fs : σ} (reached : (descriptors ps fs).Reach (KeepsRoom ps) s) :
    (∀ fd, s.opened fd = true → fd < posixMaxFd ∧ (s.fdList fd).vmt ≠ none) ∧
    ∀ fname mode, (∃ r s', s.posixOpen ps fname mode = some (r, s') ∧ OpenOk s r s') ↔ Room ps s fname mode := by
  have sound : s.Sound := reached.invariant (sound_start fs) fun _ _ _ sound room taken => sound.step room taken
  refine ⟨sound, fun fname mode => ⟨fun ⟨r, s', ran, ok⟩ => ok.room ran, fun room => ?_⟩⟩
  obtain ⟨r, s', ran⟩ := room.opens
  exact ⟨r, s', ran, room.openOk sound ran⟩

/-! ## A full table -/

/-- A volume at `/sd` on which the one-letter files but `x` exist. -/
def volume : Fat where
  files path := decide (path ≠ ['x'])

def sd : Mountpoint := ⟨5, .fatfs, ['/', 's', 'd', '/']⟩

def noOthers : Providers Fat := ⟨fun _ _ _ _ _ => none, fun _ _ f => f, fun _ _ f => f⟩

/-- The providers of the application. -/
def appProviders : Providers Fat := fatProviders noOthers

def volumes : Lts (PosixState Fat) (Call Fat) := descriptors appProviders volume

/-- A file is opened. -/
theorem descriptor_table_file : ∃ s r s', volumes.run [.remount [sd, rootFs]] volumes.init = some s ∧
    s.posixOpen appProviders ['/', 's', 'd', '/', 'a'] 0 = some (r, s') ∧ r = 3 ∧ OpenOk s r s' := by
  have reached := @Lts.Reach.of_run _ _ volumes
    (fun _ c => match c with | .openFile .. => false | _ => true) [.remount [sd, rootFs]] _ rfl rfl
  have table := (descriptor_table (reached.mono (by
    rintro s c permitted fname mode rfl
    cases permitted))).2 ['/', 's', 'd', '/', 'a'] 0
  obtain ⟨r, s', ran, ok⟩ := table.2 (by
    rintro p len ⟨⟩ -
    exact ⟨_, _, _, rfl, fun _ => by simp, fun full => absurd rfl (full 3 (by decide))⟩)
  cases ran
  exact ⟨_, _, _, rfl, rfl, rfl, ok⟩

def sdFile (c : Char) : Call Fat := .openFile ['/', 's', 'd', '/', c] 0

/-- A failed open and six that succeed fill the table; the next one returns the standard input and replaces its
stream. -/
theorem descriptor_table_overrun : ∃ s s', volumes.run
      [.remount [sd, rootFs], sdFile 'x', sdFile 'a', sdFile 'b', sdFile 'c', sdFile 'd', sdFile 'e', sdFile 'f']
      volumes.init = some s ∧
    s.posixOpen appProviders ['/', 's', 'd', '/', 'g'] 0 = some (0, s') ∧
    s.Full ∧ s.opened 0 = true ∧ s.fdList 0 = ⟨sdu1, some .chstream⟩ ∧ s'.fdList 0 = ⟨6, some .fatfd⟩ ∧
    ¬ OpenOk s 0 s' := by
  refine ⟨_, _, rfl, rfl, by decide, rfl, rfl, rfl, fun ok => ?_⟩
  exact absurd (ok.fresh (by decide)) (by decide)

end ChibiOS.Posix
