import ChibiOS.Posix.Files

/-!
# Opens that fail

`fatfs_open` takes a file object and writes the entry of the table before it asks
`wf_open`, and neither it nor `posix_open` takes the entry back when that fails. The
file object is free again, since a `wf_open` that fails clears its `fs` field. Which
files `wf_open` finds is part of the state, so any answer is covered.
-/

namespace ChibiOS.Posix

open Function

variable {other : Providers Fat} {s s' : PosixState Fat} {fname : Path} {mode : Int}

/-- The table is the same, and so are the free file objects. -/
structure Untouched (s s' : PosixState Fat) : Prop where
  table : s'.fdList = s.fdList
  free : ∀ i < filEntries, s'.fs.fil i = none ↔ s.fs.fil i = none

theorem Untouched.refl (s : PosixState Fat) : Untouched s s := ⟨rfl, fun _ _ => .rfl⟩

theorem Untouched.trans {s₁ s₂ s₃ : PosixState Fat} (first : Untouched s₁ s₂) (second : Untouched s₂ s₃) :
    Untouched s₁ s₃ :=
  ⟨second.table.trans first.table, fun i below => (second.free i below).trans (first.free i below)⟩

/-- The path does not lead to a FAT volume, or the table is full and its first entry is the stream of the first free
file object already. Another provider has to leave the stream and the file objects alone when it fails. -/
def Spared (other : Providers Fat) (s : PosixState Fat) (fname : Path) (mode : Int) : Prop :=
  ∀ p len, findMountpoint s.mountpoints fname = some (p, len) → len ≠ 0 →
    match p.vmt with
    | .rootfs => True
    | .fatfs => s.Full ∧ ∃ fd, s.fs.newFil = some fd ∧ s.fdList 0 = ⟨fd, some .fatfd⟩
    | .other _ =>
      let stream := s.fdList (posixGetStreamfree s.fdList).toNat
      ∀ stream' fs, other.openFile p stream (fname.drop len) mode s.fs = some (-1, stream', fs) →
        stream' = stream ∧ ∀ i < filEntries, fs.fil i = none ↔ s.fs.fil i = none

/-- A failed `fatfs_open` has written the stream, and the file object it took is as free as before. -/
theorem fatfsOpen_failed {mp : Mountpoint} {path : Path} {f f' : Fat} {stream : Stream}
    (ran : fatfsOpen mp path f = some (-1, stream, f')) :
    ∃ fd, f.newFil = some fd ∧ stream = ⟨fd, some .fatfd⟩ ∧ f'.fil = f.fil := by
  obtain ⟨fd, found, rest⟩ := Option.bind_eq_some_iff.1 ran
  by_cases exists_ : f.files path = true
  · simp [exists_] at rest
  · simp only [exists_] at rest
    cases rest
    refine ⟨fd, found, rfl, ?_⟩
    have free : f.fil fd = none := by simpa using List.find?_some found
    rw [← free, update_eq_self]

/-- The entry that is written is none in use, unless all are. -/
theorem entry_kept_iff {fd k : Nat} (answer : posixGetStreamfree s.fdList = (fd : Int)) :
    update s.fdList fd ⟨k, some .fatfd⟩ = s.fdList ↔ s.Full ∧ s.fdList 0 = ⟨k, some .fatfd⟩ := by
  constructor
  · intro same
    have entry : s.fdList fd = ⟨k, some .fatfd⟩ := by
      rw [← congrFun same fd, update_self]
    by_cases full : s.Full
    · rw [getStreamfree_of_full full] at answer
      obtain rfl : fd = 0 := by omega
      exact ⟨full, entry⟩
    · obtain ⟨fd', -, free, answer'⟩ := getStreamfree_of_room full
      obtain rfl : fd = fd' := by omega
      rw [entry] at free
      cases free
  · rintro ⟨full, entry⟩
    rw [getStreamfree_of_full full] at answer
    obtain rfl : fd = 0 := by omega
    rw [← entry, update_eq_self]

theorem untouched_iff (failed : s.posixOpen (fatProviders other) fname mode = some (-1, s')) :
    Untouched s s' ↔ Spared other s fname mode := by
  rcases posixOpen_cases failed with
    ⟨-, rfl, unresolved⟩ | ⟨fd, p, len, r, stream, fs, fs', answer, found, nonzero, opens, rfl, out⟩
  · exact iff_of_true (.refl _) fun p len found nonzero => absurd (unresolved p len found) nonzero
  obtain ⟨rfl, -, rfl⟩ := out.resolve_right (by omega)
  -- The search gives one answer.
  have spared_iff : Spared other s fname mode ↔ _ :=
    ⟨fun spared => spared p len found nonzero, fun is p' len' found' _ => by
      obtain ⟨rfl, rfl⟩ := Prod.mk.inj (Option.some.inj (found.symm.trans found'))
      exact is⟩
  rw [spared_iff, answer, Int.toNat_natCast]
  simp only [fatProviders] at opens
  cases vmt : p.vmt with
  | rootfs =>
    rw [vmt] at opens
    cases opens
    exact iff_of_true ⟨update_eq_self .., fun _ _ => Iff.rfl⟩ trivial
  | fatfs =>
    rw [vmt] at opens
    obtain ⟨k, free, rfl, fil⟩ := fatfsOpen_failed opens
    constructor
    · rintro ⟨table, -⟩
      obtain ⟨full, entry⟩ := (entry_kept_iff answer).1 table
      exact ⟨full, k, free, entry⟩
    · rintro ⟨full, k', free', entry⟩
      rw [free] at free'
      cases free'
      exact ⟨(entry_kept_iff answer).2 ⟨full, entry⟩, fun i _ => by rw [fil]⟩
  | other id =>
    rw [vmt] at opens
    constructor
    · rintro ⟨table, kept⟩ stream' fs' opens'
      cases opens.symm.trans opens'
      exact ⟨(update_self ..).symm.trans (congrFun table fd), kept⟩
    · intro leaves
      obtain ⟨rfl, kept⟩ := leaves stream _ opens
      exact ⟨update_eq_self .., kept⟩

/-- An open fails that is spared. -/
def FailsSpared (other : Providers Fat) (s s' : PosixState Fat) : Prop :=
  ∃ fname mode, Spared other s fname mode ∧ s.posixOpen (fatProviders other) fname mode = some (-1, s')

/-- An open that fails leaves the table and the free file objects as they were exactly if it is spared, and then so do
any number of them. -/
theorem failed_open {other : Providers Fat} {s s' : PosixState Fat} {fname : Path} {mode : Int}
    (failed : s.posixOpen (fatProviders other) fname mode = some (-1, s')) :
    ((s'.fdList = s.fdList ∧ ∀ i < filEntries, s'.fs.fil i = none ↔ s.fs.fil i = none) ↔ Spared other s fname mode) ∧
    ∀ s'', Relation.ReflTransGen (FailsSpared other) s s'' →
      s''.fdList = s.fdList ∧ ∀ i < filEntries, s''.fs.fil i = none ↔ s.fs.fil i = none := by
  constructor
  · rw [← untouched_iff failed]
    exact ⟨fun ⟨table, free⟩ => ⟨table, free⟩, fun same => ⟨same.table, same.free⟩⟩
  · intro s'' many
    have same : Untouched s s'' := by
      induction many with
      | refl => exact .refl s
      | tail _ last ih =>
        obtain ⟨_, _, spared, ran⟩ := last
        exact ih.trans ((untouched_iff ran).2 spared)
    exact ⟨same.table, same.free⟩

/-- A path that leads to the root. -/
theorem failed_open_root : ∃ s s', volumes.run [.remount [sd, rootFs]] volumes.init = some s ∧
    s.posixOpen appProviders ['/', 'x'] 0 = some (-1, s') ∧ s'.fdList = s.fdList := by
  refine ⟨_, _, rfl, rfl, ?_⟩
  refine ((@failed_open noOthers _ _ ['/', 'x'] 0 rfl).1.2 ?_).1
  rintro p len ⟨⟩ -
  trivial

/-- Each failed open of a file on a volume keeps an entry of the table, and seven of them leave none. -/
theorem failed_open_volume : ∃ s s' full, volumes.run [.remount [sd, rootFs]] volumes.init = some s ∧
    s.posixOpen appProviders ['/', 's', 'd', '/', 'x'] 0 = some (-1, s') ∧
    s.fdList 3 = {} ∧ s'.fdList 3 = ⟨0, some .fatfd⟩ ∧
    volumes.run (List.replicate 7 (sdFile 'x')) s = some full ∧ full.Full := by
  exact ⟨_, _, _, rfl, rfl, rfl, rfl, rfl, by decide⟩

end ChibiOS.Posix
