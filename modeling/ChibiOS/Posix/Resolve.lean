import Mathlib.Data.Finset.Max
import ChibiOS.Posix.Files

/-!
# Which mount point a path leads to

`posix_open` and `posix_opendir` go to the first mount point of the list, which is the one mounted last, whose path
is a prefix of the requested one, character by character. That it is the longest one and ends with a component of
the path depends on the order of the mounts.
-/

namespace ChibiOS.Posix

open Function

variable {σ : Type} {mps : List Mountpoint} {path : Path} {p q : Mountpoint}

/-- `posix_dir_t`; what the provider keeps in `raw` belongs to its state. -/
structure Dir where
  path : Path
  mpoint : Option Mountpoint := none

/-- `posix_opendir` from the mount point on; `opendir` is its callback. -/
def opendirOn (opendir : Mountpoint → Path → σ → Int × σ) (p : Mountpoint) (realname : Path) (dir : Dir) (fs : σ) :
    Int × Dir × σ :=
  let dir := { dir with path := realname }
  let (r, fs) := opendir p dir.path fs
  if r = 0 then (0, { dir with mpoint := some p }, fs) else (-1, dir, fs)

def posixOpendir (opendir : Mountpoint → Path → σ → Int × σ) (mountpoints : List Mountpoint) (dir : Dir) (fs : σ) :
    Int × Dir × σ :=
  match findMountpoint mountpoints dir.path with
  | none => (-1, dir, fs)
  | some (p, n) => if n = 0 then (-1, dir, fs) else opendirOn opendir p (dir.path.drop n) dir fs

/-- The mount point whose callback is called. -/
def mountpointFor (mps : List Mountpoint) (path : Path) : Option Mountpoint :=
  (findMountpoint mps path).bind fun (p, n) => if n = 0 then none else some p

theorem findMountpoint_length {n : Nat} (found : findMountpoint mps path = some (p, n)) : n = p.mpPath.length := by
  obtain ⟨_, -, ⟨⟩⟩ := Option.map_eq_some_iff.1 found
  rfl

theorem posixOpen_eq (ps : Providers σ) (s : PosixState σ) (path : Path) (mode : Int) :
    s.posixOpen ps path mode = match mountpointFor s.mountpoints path with
      | none => some (-1, s)
      | some p => s.openOn ps p (path.drop p.mpPath.length) mode := by
  unfold PosixState.posixOpen mountpointFor
  cases found : findMountpoint s.mountpoints path with
  | none => rfl
  | some r =>
    obtain ⟨p, n⟩ := r
    obtain rfl := findMountpoint_length found
    by_cases zero : p.mpPath.length = 0 <;> simp only [Option.bind_some, zero, if_true, if_false]

theorem posixOpendir_eq (opendir : Mountpoint → Path → σ → Int × σ) (mps : List Mountpoint) (dir : Dir) (fs : σ) :
    posixOpendir opendir mps dir fs = match mountpointFor mps dir.path with
      | none => (-1, dir, fs)
      | some p => opendirOn opendir p (dir.path.drop p.mpPath.length) dir fs := by
  unfold posixOpendir mountpointFor
  cases found : findMountpoint mps dir.path with
  | none => rfl
  | some r =>
    obtain ⟨p, n⟩ := r
    obtain rfl := findMountpoint_length found
    by_cases zero : p.mpPath.length = 0 <;> simp only [Option.bind_some, zero, if_true, if_false]

/-! ## Components -/

/-- The path of the mount point is a prefix of the requested one that ends with it, at a slash, or is the root. -/
def Matches (p : Mountpoint) (path : Path) : Prop :=
  p.mpPath <+: path ∧ (p.mpPath = path ∨ path[p.mpPath.length]? = some '/' ∨ p.mpPath = ['/'])

instance : Decidable (Matches p path) := inferInstanceAs (Decidable (_ ∧ _))

/-- The longest one of them. -/
structure Longest (mps : List Mountpoint) (path : Path) (p : Mountpoint) : Prop where
  mem : p ∈ mps
  matches_ : Matches p path
  longest : ∀ q ∈ mps, Matches q path → q.mpPath.length ≤ p.mpPath.length

/-- Prefixes of one path with the same length are the same. -/
theorem Longest.unique (distinct : (mps.map Mountpoint.mpPath).Nodup) (first : Longest mps path p)
    (second : Longest mps path q) : p = q := by
  have length : p.mpPath.length = q.mpPath.length :=
    le_antisymm (second.longest p first.mem first.matches_) (first.longest q second.mem second.matches_)
  have same : p.mpPath = q.mpPath := by
    rw [List.prefix_iff_eq_take.1 first.matches_.1, List.prefix_iff_eq_take.1 second.matches_.1, length]
  exact List.inj_on_of_nodup_map distinct first.mem second.mem same

theorem exists_longest (mem : q ∈ mps) (fits : Matches q path) : ∃ p, Longest mps path p := by
  have some_ : (mps.filter fun p => decide (Matches p path)).toFinset.Nonempty :=
    ⟨q, List.mem_toFinset.2 (List.mem_filter.2 ⟨mem, decide_eq_true fits⟩)⟩
  obtain ⟨p, inside, longest⟩ := Finset.exists_max_image _ (fun p => p.mpPath.length) some_
  obtain ⟨memP, fitsP⟩ := List.mem_filter.1 (List.mem_toFinset.1 inside)
  refine ⟨p, memP, of_decide_eq_true fitsP, fun q memQ fitsQ => longest q ?_⟩
  exact List.mem_toFinset.2 (List.mem_filter.2 ⟨memQ, decide_eq_true fitsQ⟩)

/-- The search answers a prefix that no other one was mounted after. -/
theorem findMountpoint_first {n : Nat} (found : findMountpoint mps path = some (p, n)) :
    p ∈ mps ∧ p.mpPath <+: path ∧ ∀ q ∈ mps, q.mpPath <+: path → mps.idxOf p ≤ mps.idxOf q := by
  obtain ⟨_, first, ⟨⟩⟩ := Option.map_eq_some_iff.1 found
  obtain ⟨passes, before, behind, rfl, none_⟩ := List.find?_eq_some_iff_append.1 first
  have skipped : ∀ q ∈ before, ¬ q.mpPath <+: path := by
    intro q mem fits
    have := none_ q mem
    simp [List.isPrefixOf_iff_prefix.2 fits] at this
  refine ⟨by simp, List.isPrefixOf_iff_prefix.1 passes, fun q _ fits => ?_⟩
  rw [List.idxOf_append_of_notMem fun mem => skipped p mem (List.isPrefixOf_iff_prefix.1 passes),
    List.idxOf_append_of_notMem fun mem => skipped q mem fits, List.idxOf_cons_self]
  omega

theorem findMountpoint_none (none_ : findMountpoint mps path = none) : ∀ q ∈ mps, ¬ q.mpPath <+: path := by
  intro q mem fits
  have := List.find?_eq_none.1 (Option.map_eq_none_iff.1 none_) q mem
  exact this (List.isPrefixOf_iff_prefix.2 fits)

/-- No mount point whose path is a prefix of the requested one, character by character, was mounted later than the
longest one that matches it by components, and that one is not mounted at the empty path. -/
def MountedInOrder (mps : List Mountpoint) (path : Path) : Prop :=
  ∀ q ∈ mps, q.mpPath <+: path → ∃ p, Longest mps path p ∧ p.mpPath ≠ [] ∧ mps.idxOf p ≤ mps.idxOf q

theorem longest_of_resolved (absolute : path.head? = some '/')
    (resolves : ∀ p, mountpointFor mps path = some p ↔ Longest mps path p) : MountedInOrder mps path := by
  intro q mem fits
  cases found : findMountpoint mps path with
  | none => exact absurd fits (findMountpoint_none found q mem)
  | some r =>
    obtain ⟨p, n⟩ := r
    obtain ⟨memP, fitsP, first⟩ := findMountpoint_first found
    obtain rfl := findMountpoint_length found
    have used : mountpointFor mps path = if p.mpPath.length = 0 then none else some p := by
      rw [mountpointFor, found]
      rfl
    by_cases empty : p.mpPath = []
    · -- the empty path matches at the slash the requested path begins with, but is never used
      have matches_ : Matches p path := by
        refine ⟨fitsP, .inr (.inl ?_)⟩
        rwa [empty, List.length_nil, ← List.head?_eq_getElem?]
      obtain ⟨longest, isLongest⟩ := exists_longest memP matches_
      have := (resolves longest).2 isLongest
      rw [used, empty] at this
      cases this
    · rw [if_neg (fun zero => empty (List.eq_nil_of_length_eq_zero zero))] at used
      exact ⟨p, (resolves p).1 used, empty, first q mem fits⟩

theorem resolved_of_longest (distinct : (mps.map Mountpoint.mpPath).Nodup) (inOrder : MountedInOrder mps path)
    (p : Mountpoint) : mountpointFor mps path = some p ↔ Longest mps path p := by
  cases found : findMountpoint mps path with
  | none =>
    rw [mountpointFor, found]
    refine iff_of_false nofun fun longest => ?_
    exact findMountpoint_none found p longest.mem longest.matches_.1
  | some r =>
    obtain ⟨f, n⟩ := r
    obtain ⟨memF, fitsF, first⟩ := findMountpoint_first found
    obtain rfl := findMountpoint_length found
    obtain ⟨l, longest, nonempty, before⟩ := inOrder f memF fitsF
    have same : f = l := (List.idxOf_inj memF).1
      (le_antisymm (first l longest.mem longest.matches_.1) before)
    have used : mountpointFor mps path = some f := by
      rw [mountpointFor, found]
      exact if_neg fun zero => nonempty (same ▸ List.eq_nil_of_length_eq_zero zero)
    rw [used, same]
    constructor
    · rintro ⟨⟩
      exact longest
    · intro other
      rw [longest.unique distinct other]

/-- For every set of mounted paths in every order and every absolute path, the mount point that `posix_open` and
`posix_opendir` go to is the longest one that matches by components exactly if no other prefix was mounted later. -/
theorem mount_resolution {mps : List Mountpoint} {path : Path} (distinct : (mps.map Mountpoint.mpPath).Nodup)
    (absolute : path.head? = some '/') :
    ((∀ p, mountpointFor mps path = some p ↔ Longest mps path p) ↔ MountedInOrder mps path) ∧
    (∀ (σ : Type) (ps : Providers σ) (s : PosixState σ) (mode : Int), s.mountpoints = mps →
      s.posixOpen ps path mode = match mountpointFor mps path with
        | none => some (-1, s)
        | some p => s.openOn ps p (path.drop p.mpPath.length) mode) ∧
    ∀ (σ : Type) (opendir : Mountpoint → Path → σ → Int × σ) (dir : Dir) (fs : σ), dir.path = path →
      posixOpendir opendir mps dir fs = match mountpointFor mps path with
        | none => (-1, dir, fs)
        | some p => opendirOn opendir p (path.drop p.mpPath.length) dir fs := by
  refine ⟨⟨longest_of_resolved absolute, fun inOrder p => resolved_of_longest distinct inOrder p⟩, ?_, ?_⟩
  · rintro σ ps s mode rfl
    exact posixOpen_eq ps s path mode
  · rintro σ opendir dir fs rfl
    exact posixOpendir_eq opendir mps dir fs

/-- The mount point of the application. -/
def sd1 : Mountpoint := ⟨5, .fatfs, ['/', 'S', 'D', '1']⟩

theorem longest_sd1 : Longest [sd1, rootFs] ['/', 'S', 'D', '1', '/', 'a'] sd1 :=
  ⟨by decide, by decide, by decide⟩

theorem mount_resolution_sd1 : mountpointFor [sd1, rootFs] ['/', 'S', 'D', '1', '/', 'a'] = some sd1 := by
  refine ((@mount_resolution [sd1, rootFs] ['/', 'S', 'D', '1', '/', 'a'] (by decide) (by decide)).1.2 ?_ sd1).2 longest_sd1
  intro q mem _
  refine ⟨sd1, longest_sd1, by decide, ?_⟩
  rw [show [sd1, rootFs].idxOf sd1 = 0 from rfl]
  exact Nat.zero_le _

/-- Two volumes, one of them at a directory of the other one. -/
def volumeA : Mountpoint := ⟨6, .fatfs, ['/', 'a']⟩

def volumeAB : Mountpoint := ⟨7, .fatfs, ['/', 'a', '/', 'b']⟩

/-- A path is taken to lie on a volume whose path ends within its first component; and a volume is hidden by one that
was mounted later with a shorter path. -/
theorem mount_resolution_hidden :
    mountpointFor [sd1, rootFs] ['/', 'S', 'D', '1', '0', '/', 'a'] = some sd1 ∧
    Longest [sd1, rootFs] ['/', 'S', 'D', '1', '0', '/', 'a'] rootFs ∧
    mountpointFor [volumeA, volumeAB, rootFs] ['/', 'a', '/', 'b', '/', 'c'] = some volumeA ∧
    Longest [volumeA, volumeAB, rootFs] ['/', 'a', '/', 'b', '/', 'c'] volumeAB :=
  ⟨by decide, ⟨by decide, by decide, by decide⟩, by decide, ⟨by decide, by decide, by decide⟩⟩

end ChibiOS.Posix
