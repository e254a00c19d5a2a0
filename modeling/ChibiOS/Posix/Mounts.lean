import ChibiOS.Lib.Seg
import ChibiOS.Posix.Files

/-!
# The mount list

`posix_mount` and `posix_unmount` of `posix.c`, on mount points that are linked by their `next` fields. A mount
point that is not mounted keeps whatever its link was. Runs carry the successful calls, the last one first, and
count the calls of `done` and the calls of `posix_unmount` that found the mount point at the head; the list is the
one that the calls determine (`lastMounts`), and the other modules work on it.
-/

namespace ChibiOS.Posix

open Lib Function
open Option (map_some)

/-- The mount points of a program, by address, and which of the callbacks `init` and `done` the providers have that
are not in the repository. -/
structure Points (ι : Type) where
  point : ι → Mountpoint
  root : ι
  root_eq : point root = rootFs
  callbacks : Nat → Bool × Bool

section
variable {ι : Type}

def Points.hasInit (t : Points ι) (m : ι) : Bool :=
  match (t.point m).vmt with
  | .rootfs => false
  | .fatfs => true
  | .other id => (t.callbacks id).1

def Points.hasDone (t : Points ι) (m : ι) : Bool :=
  match (t.point m).vmt with
  | .rootfs => false
  | .fatfs => false
  | .other id => (t.callbacks id).2

/-- The links and the head; `rounds` bounds the loops and is not in the source. -/
structure Mounts (ι : Type) where
  next : ι → Option ι
  mountpoints : Option ι
  rounds : Nat

variable [DecidableEq ι]

/-- `posix_init`, whatever the links of the other mount points are. -/
def Mounts.posixInit (t : Points ι) (links : ι → Option ι) : Mounts ι where
  next := update links t.root none
  mountpoints := some t.root
  rounds := 1

/-- `find_mountpoint`, with the length of the path. -/
def Mounts.findMountpoint (t : Points ι) (path : Path) (s : Mounts ι) : Option (Option (ι × Nat)) :=
  (search s.next (fun p => (t.point p).mpPath.isPrefixOf path) s.rounds s.mountpoints).map fun found =>
    found.map fun p => (p, (t.point p).mpPath.length)

def Mounts.isMounted (t : Points ι) (path : Path) (s : Mounts ι) : Option Bool :=
  (search s.next (fun p => decide ((t.point p).mpPath = path)) s.rounds s.mountpoints).map Option.isSome

/-- `answer` is what `init` returns, if there is one to call. -/
def Mounts.posixMount (t : Points ι) (m : ι) (answer : Int) (s : Mounts ι) : Option (Int × Mounts ι) :=
  (s.isMounted t (t.point m).mpPath).map fun mounted =>
    if mounted then (-1, s)
    else if t.hasInit m then
      if answer = 0 then
        (answer, { next := update s.next m s.mountpoints, mountpoints := some m, rounds := s.rounds + 1 })
      else (answer, s)
    else (-1, s)

/-- The last component says that `done` was called. -/
def Mounts.posixUnmount (t : Points ι) (m : ι) (s : Mounts ι) : Option (Int × Mounts ι × Bool) :=
  if s.mountpoints = some m then some (0, { s with mountpoints := s.next m }, false)
  else (search s.next (fun prev => decide (s.next prev = some m)) s.rounds s.mountpoints).map fun found =>
    match found with
    | some prev => (0, { s with next := update s.next prev (s.next m) }, t.hasDone m)
    | none => (-1, s, false)

/-! ## Runs -/

inductive MountCall (ι : Type)
  | mount (m : ι)
  | unmount (m : ι)
  deriving DecidableEq

def MountCall.target : MountCall ι → ι
  | .mount m | .unmount m => m

/-- The state, the successful calls, the calls of `done`, and the successful calls of `posix_unmount` that found the mount point
at the head. -/
structure MountRun (ι : Type) where
  mounts : Mounts ι
  calls : List (MountCall ι) := []
  dones : ι → Nat := fun _ => 0
  atHead : ι → Nat := fun _ => 0

inductive MountEvent (ι : Type)
  | mount (m : ι) (answer : Int)
  | unmount (m : ι)

/-- The calls are on other mount points than the root. -/
def MountRun.next (t : Points ι) (ev : MountEvent ι) (r : MountRun ι) : Option (MountRun ι) :=
  match ev with
  | .mount m answer =>
    if m = t.root then none
    else (r.mounts.posixMount t m answer).map fun (ret, s) =>
      { r with mounts := s, calls := if ret = 0 then .mount m :: r.calls else r.calls }
  | .unmount m =>
    if m = t.root then none
    else (r.mounts.posixUnmount t m).map fun (ret, s, done) =>
      { mounts := s
        calls := if ret = 0 then .unmount m :: r.calls else r.calls
        dones := if done then update r.dones m (r.dones m + 1) else r.dones
        atHead := if r.mounts.mountpoints = some m then update r.atHead m (r.atHead m + 1) else r.atHead }

def mountRuns (t : Points ι) (links : ι → Option ι) : Lts (MountRun ι) (MountEvent ι) where
  init := { mounts := .posixInit t links }
  next := MountRun.next t

/-- The last of the calls on the mount point. -/
def lastCall (calls : List (MountCall ι)) (m : ι) : Option (MountCall ι) := calls.find? fun c => decide (c.target = m)

/-- The mount points whose last call was a mount, by that call, apart from those of `seen`, which have a later call. -/
def lastMounts (seen : List ι) : List (MountCall ι) → List ι
  | [] => []
  | .mount m :: calls => if m ∈ seen then lastMounts seen calls else m :: lastMounts (m :: seen) calls
  | .unmount m :: calls => lastMounts (m :: seen) calls

variable {t : Points ι} {links : ι → Option ι} {r r' : MountRun ι} {s : Mounts ι} {calls : List (MountCall ι)} {m : ι}
  {l : List ι}

theorem filter_seen (l seen : List ι) (m : ι) : (l.filter fun x => decide (x ∉ [m])).filter (fun x => decide (x ∉ seen)) =
    l.filter fun x => decide (x ∉ m :: seen) := by
  rw [List.filter_filter]
  apply List.filter_congr
  intro x _
  simp [Bool.and_comm]

theorem lastMounts_eq_filter (seen : List ι) (calls : List (MountCall ι)) :
    lastMounts seen calls = (lastMounts [] calls).filter fun x => decide (x ∉ seen) := by
  induction calls generalizing seen with
  | nil => rfl
  | cons c calls ih =>
    cases c with
    | mount m =>
      simp only [lastMounts, List.not_mem_nil, if_false]
      by_cases later : m ∈ seen
      · rw [if_pos later, List.filter_cons_of_neg (by simpa using later), ih [m], ih seen, filter_seen]
        apply List.filter_congr
        intro x _
        by_cases same : x = m
        · simp [same, later]
        · simp [same]
      · rw [if_neg later, List.filter_cons_of_pos (by simpa using later), ih [m], ih (m :: seen), filter_seen]
    | unmount m =>
      simp only [lastMounts]
      rw [ih [m], ih (m :: seen), filter_seen]

theorem lastMounts_unmount (m : ι) (calls : List (MountCall ι)) :
    lastMounts [] (.unmount m :: calls) = (lastMounts [] calls).filter fun x => decide (x ≠ m) := by
  rw [lastMounts, lastMounts_eq_filter]
  simp

theorem lastMounts_mount (fresh : m ∉ lastMounts [] calls) :
    lastMounts [] (.mount m :: calls) = m :: lastMounts [] calls := by
  rw [lastMounts, if_neg List.not_mem_nil, lastMounts_eq_filter]
  congr 1
  apply List.filter_eq_self.2
  intro x mem
  have other : x ≠ m := fun same => fresh (same ▸ mem)
  simpa using other

/-- The list holds a mount point exactly if the last call on it was a mount. -/
theorem mem_lastMounts (calls : List (MountCall ι)) (m : ι) :
    m ∈ lastMounts [] calls ↔ lastCall calls m = some (.mount m) := by
  induction calls with
  | nil => simp [lastMounts, lastCall]
  | cons c calls ih =>
    unfold lastCall
    by_cases here : c.target = m
    · rw [List.find?_cons_of_pos (by simpa using here)]
      cases c with
      | mount m' =>
        cases here
        simp [lastMounts, MountCall.target]
      | unmount m' =>
        cases here
        rw [lastMounts_unmount]
        simp [MountCall.target]
    · rw [List.find?_cons_of_neg (by simpa using here)]
      rw [lastCall] at ih
      rw [← ih]
      cases c with
      | mount m' =>
        have other : m ≠ m' := fun same => here same.symm
        rw [lastMounts, if_neg List.not_mem_nil, lastMounts_eq_filter]
        simp [other]
      | unmount m' =>
        have other : m ≠ m' := fun same => here same.symm
        rw [lastMounts_unmount]
        simp [other]

/-! ## The list -/

/-- The links hold the mount points `l` and behind them the root, with different paths. -/
structure Listed (t : Points ι) (l : List ι) (s : Mounts ι) : Prop where
  seg : Seg s.next s.mountpoints (l ++ [t.root]) none
  paths : ((l ++ [t.root]).map fun p => (t.point p).mpPath).Nodup
  rounds : (l ++ [t.root]).length ≤ s.rounds

omit [DecidableEq ι] in
theorem Listed.nodup (listed : Listed t l s) : (l ++ [t.root]).Nodup := List.Nodup.of_map _ listed.paths

omit [DecidableEq ι] in
theorem Listed.head (listed : Listed t l s) (m : ι) : s.mountpoints = some m ↔ (l ++ [t.root]).head? = some m := by
  have seg := listed.seg
  cases l with
  | nil => rw [seg.1]; rfl
  | cons x l => rw [seg.1]; rfl

omit [DecidableEq ι] in
theorem Listed.search (listed : Listed t l s) (test : ι → Bool) :
    search s.next test s.rounds s.mountpoints = some ((l ++ [t.root]).find? test) :=
  listed.seg.search listed.rounds

omit [DecidableEq ι] in
/-- The search for a path is one over the list of the mount points. -/
theorem Listed.findMountpoint (listed : Listed t l s) (path : Path) : ∃ found, s.findMountpoint t path = some found ∧
    found.map (fun (p, n) => (t.point p, n)) = Posix.findMountpoint ((l ++ [t.root]).map t.point) path := by
  unfold Mounts.findMountpoint
  rw [listed.search, map_some]
  refine ⟨_, rfl, ?_⟩
  rw [Posix.findMountpoint, List.find?_map, Option.map_map, Option.map_map]
  rfl

/-- A mount that succeeds puts a new mount point before the others; any other one changes nothing. -/
theorem Listed.mount (listed : Listed t l s) (m : ι) (answer : Int) : ∃ ret s', s.posixMount t m answer = some (ret, s') ∧
    (ret ≠ 0 ∧ s' = s ∨ ret = 0 ∧ m ∉ l ∧ Listed t (m :: l) s') := by
  unfold Mounts.posixMount Mounts.isMounted
  rw [listed.search, map_some, map_some]
  by_cases mounted : ((l ++ [t.root]).find? fun p => decide ((t.point p).mpPath = (t.point m).mpPath)).isSome = true
  · rw [if_pos mounted]
    exact ⟨_, _, rfl, .inl ⟨by decide, rfl⟩⟩
  rw [if_neg mounted]
  by_cases callback : t.hasInit m = true
  · rw [if_pos callback]
    by_cases success : answer = 0
    · rw [if_pos success]
      have different : ∀ p ∈ l ++ [t.root], (t.point p).mpPath ≠ (t.point m).mpPath := by
        intro p mem same
        refine mounted (List.find?_isSome.2 ⟨p, mem, ?_⟩)
        simpa using same
      have fresh : m ∉ l ++ [t.root] := fun mem => different m mem rfl
      refine ⟨_, _, rfl, .inr ⟨success, fun mem => fresh (List.mem_append_left _ mem), ?_, ?_, ?_⟩⟩
      · refine ⟨rfl, ?_⟩
        show Seg (update s.next m s.mountpoints) (update s.next m s.mountpoints m) _ none
        rw [update_self]
        refine listed.seg.frame fun a mem => update_of_ne ?_ ..
        rintro rfl
        exact fresh mem
      · rw [List.cons_append, List.map_cons]
        refine List.nodup_cons.2 ⟨fun mem => ?_, listed.paths⟩
        obtain ⟨p, inList, same⟩ := List.mem_map.1 mem
        exact different p inList same
      · rw [List.cons_append, List.length_cons]
        exact Nat.succ_le_succ listed.rounds
    · rw [if_neg success]
      exact ⟨_, _, rfl, .inl ⟨success, rfl⟩⟩
  · rw [if_neg callback]
    exact ⟨_, _, rfl, .inl ⟨by decide, rfl⟩⟩

/-- What is left of the list. -/
theorem Listed.without {next : ι → Option ι} {mountpoints : Option ι} (listed : Listed t l s) (other : m ≠ t.root)
    (seg : Seg next mountpoints ((l ++ [t.root]).filter fun x => decide (x ≠ m)) none) :
    Listed t (l.filter fun x => decide (x ≠ m)) { s with next := next, mountpoints := mountpoints } := by
  have rest : (l ++ [t.root]).filter (fun x => decide (x ≠ m)) = (l.filter fun x => decide (x ≠ m)) ++ [t.root] := by
    rw [List.filter_append, List.filter_cons_of_pos (by simpa using Ne.symm other)]
    rfl
  have sublist := List.filter_sublist (p := fun x => decide (x ≠ m)) (l := l ++ [t.root])
  rw [rest] at seg sublist
  exact ⟨seg, listed.paths.sublist (sublist.map _), Nat.le_trans sublist.length_le listed.rounds⟩

theorem filter_ne_of_not_mem {a : List ι} (absent : m ∉ a) : (a.filter fun x => decide (x ≠ m)) = a := by
  apply List.filter_eq_self.2
  intro x mem
  have other : x ≠ m := fun same => absent (same ▸ mem)
  simpa using other

theorem filter_ne_split {a b : List ι} (nodup : (a ++ m :: b).Nodup) :
    ((a ++ m :: b).filter fun x => decide (x ≠ m)) = a ++ b := by
  have absent := (List.nodup_cons.1 (List.nodup_middle.1 nodup)).1
  rw [List.filter_append, List.filter_cons_of_neg (by simp),
    filter_ne_of_not_mem fun mem => absent (List.mem_append_left _ mem),
    filter_ne_of_not_mem fun mem => absent (List.mem_append_right _ mem)]

/-- A mount point goes from the list wherever it stands, and `done` is called if it does not stand first. -/
theorem Listed.unmount (listed : Listed t l s) (other : m ≠ t.root) :
    (m ∉ l ∧ s.mountpoints ≠ some m ∧ s.posixUnmount t m = some (-1, s, false)) ∨
    ∃ s' done, m ∈ l ∧ s.posixUnmount t m = some (0, s', done) ∧ Listed t (l.filter fun x => decide (x ≠ m)) s' ∧
      (s.mountpoints = some m ∧ done = false ∨ s.mountpoints ≠ some m ∧ done = t.hasDone m) := by
  have nodup := listed.nodup
  have seg := listed.seg
  unfold Mounts.posixUnmount
  by_cases first : s.mountpoints = some m
  · obtain ⟨l₁, rfl⟩ : ∃ l₁, l = m :: l₁ := by
      have head := (listed.head m).1 first
      cases l with
      | nil =>
        cases head
        exact absurd rfl other
      | cons x l =>
        cases head
        exact ⟨l, rfl⟩
    rw [if_pos first]
    refine .inr ⟨_, _, .head _, rfl, listed.without other ?_, .inl ⟨first, rfl⟩⟩
    have rest : ((m :: (l₁ ++ [t.root])).filter fun x => decide (x ≠ m)) = l₁ ++ [t.root] := filter_ne_split (a := []) nodup
    rw [List.cons_append, rest]
    exact seg.2
  · rw [if_neg first, listed.search, map_some]
    rcases seg.find_before with ⟨missed, absent⟩ | ⟨G, y, B, found, split⟩
    · refine .inl ⟨fun mem => ?_, first, by rw [missed]⟩
      cases l with
      | nil => cases mem
      | cons x l =>
        rcases List.mem_cons.1 mem with rfl | later
        · exact first seg.1
        · exact absent (List.mem_append_left _ later)
    · have split' : l ++ [t.root] = (G ++ [y]) ++ m :: B := by rw [split]; simp
      have inside : m ∈ l := by
        have mem : m ∈ l ++ [t.root] := by rw [split]; simp
        rcases List.mem_append.1 mem with inL | isRoot
        · exact inL
        · exact absurd (List.mem_singleton.1 isRoot) other
      rw [found]
      refine .inr ⟨_, _, inside, rfl, listed.without other ?_, .inr ⟨first, rfl⟩⟩
      rw [split', filter_ne_split (split' ▸ nodup), List.append_assoc]
      rw [split] at seg nodup
      have apart : y ∉ G ++ m :: B := (List.nodup_cons.1 (List.nodup_middle.1 nodup)).1
      refine @Seg.replace _ _ (update s.next y (s.next m)) _ _ y G [m] [] B seg ?_ ?_
      · intro a mem
        refine update_of_ne ?_ ..
        rintro rfl
        rcases List.mem_append.1 mem with inG | inB
        · exact apart (List.mem_append_left _ inG)
        · exact apart (List.mem_append_right _ (.tail _ inB))
      · rintro q ⟨-, rfl⟩
        exact update_self ..

/-- The list is the one of the calls, and each successful unmount has called `done` or found the mount point first. -/
structure MountOk (t : Points ι) (r : MountRun ι) : Prop where
  listed : Listed t (lastMounts [] r.calls) r.mounts
  counts : ∀ m, t.hasDone m = true → r.dones m + r.atHead m = r.calls.count (.unmount m)

theorem MountOk.mount {answer : Int} (ok : MountOk t r) (taken : r.next t (.mount m answer) = some r') : MountOk t r' := by
  obtain ⟨-, ran⟩ := Option.ite_none_left_eq_some.1 taken
  obtain ⟨ret, s, result, effect⟩ := ok.listed.mount m answer
  rw [result, map_some] at ran
  cases ran
  rcases effect with ⟨failed, rfl⟩ | ⟨rfl, fresh, listed⟩
  · simp only [if_neg failed]
    exact ⟨ok.listed, ok.counts⟩
  · refine ⟨?_, fun m' callback => ?_⟩
    · simp only [if_true]
      rwa [lastMounts_mount fresh]
    · simp only [if_true]
      rw [List.count_cons_of_ne (show (MountCall.mount m : MountCall ι) ≠ .unmount m' from nofun)]
      exact ok.counts m' callback

theorem MountOk.unmount (ok : MountOk t r) (taken : r.next t (.unmount m) = some r') : MountOk t r' := by
  obtain ⟨other, ran⟩ := Option.ite_none_left_eq_some.1 taken
  rcases ok.listed.unmount other with ⟨-, notFirst, result⟩ | ⟨s, done, -, result, listed, how⟩
  · rw [result, map_some] at ran
    cases ran
    simp only [if_neg notFirst]
    exact ⟨ok.listed, ok.counts⟩
  · rw [result, map_some] at ran
    cases ran
    refine ⟨?_, fun m' callback => ?_⟩
    · simp only [if_true]
      rwa [lastMounts_unmount]
    · have before := ok.counts m' callback
      simp only [if_true]
      by_cases here : m' = m
      · subst here
        rw [List.count_cons_self]
        rcases how with ⟨first, rfl⟩ | ⟨notFirst, rfl⟩
        · simp only [first, if_true, update_self, Bool.false_eq_true, if_false]
          omega
        · simp only [notFirst, callback, if_true, if_false, update_self]
          omega
      · have differs : (MountCall.unmount m : MountCall ι) ≠ .unmount m' := by
          rintro ⟨⟩
          exact here rfl
        rw [List.count_cons_of_ne differs, ← before]
        congr 1
        · split
          · exact update_of_ne here ..
          · rfl
        · split
          · exact update_of_ne here ..
          · rfl

theorem MountOk.of_reach {ok : MountRun ι → MountEvent ι → Prop} (reached : (mountRuns t links).Reach ok r) : MountOk t r := by
  refine reached.invariant ⟨⟨⟨rfl, update_self ..⟩, List.nodup_singleton _, Nat.le_refl 1⟩, fun _ _ => rfl⟩ ?_
  intro r ev r' ok _ taken
  cases ev with
  | mount m answer => exact ok.mount taken
  | unmount m => exact ok.unmount taken

/-- What the other calls see of the links is a list of mount points with different paths. -/
theorem links_refine_list {ok : MountRun ι → MountEvent ι → Prop} (reached : (mountRuns t links).Reach ok r) (path : Path) :
    (((lastMounts [] r.calls ++ [t.root]).map t.point).map Mountpoint.mpPath).Nodup ∧
    ∃ found, r.mounts.findMountpoint t path = some found ∧ found.map (fun (p, n) => (t.point p, n)) =
      Posix.findMountpoint ((lastMounts [] r.calls ++ [t.root]).map t.point) path := by
  have listed := (MountOk.of_reach reached).listed
  refine ⟨?_, listed.findMountpoint path⟩
  rw [List.map_map]
  exact listed.paths

/-- In every run of mounts and unmounts every call returns, the links hold the mount points whose last successful call
was a mount, the last one first, and then the root; an unmount of another mount point returns −1 and changes nothing;
and `done` was called as often as there were successful unmounts exactly if none of these found the mount point at the
head. -/
theorem mount_unmount {ι : Type} [DecidableEq ι] {t : Points ι} {links : ι → Option ι} {r : MountRun ι}
    (reached : (mountRuns t links).Reach (fun _ _ => True) r) :
    Seg r.mounts.next r.mounts.mountpoints (lastMounts [] r.calls ++ [t.root]) none ∧
    (∀ m, m ∈ lastMounts [] r.calls ↔ lastCall r.calls m = some (.mount m)) ∧
    (∀ m, m ≠ t.root → ∀ answer, ∃ ret s, r.mounts.posixMount t m answer = some (ret, s)) ∧
    (∀ m, m ≠ t.root → m ∈ lastMounts [] r.calls → ∃ s done, r.mounts.posixUnmount t m = some (0, s, done)) ∧
    (∀ m, m ≠ t.root → m ∉ lastMounts [] r.calls → r.mounts.posixUnmount t m = some (-1, r.mounts, false)) ∧
    ∀ m, t.hasInit m = true → t.hasDone m = true → (r.dones m = r.calls.count (.unmount m) ↔ r.atHead m = 0) := by
  have ok := MountOk.of_reach reached
  refine ⟨ok.listed.seg, mem_lastMounts r.calls, ?_, ?_, ?_, ?_⟩
  · intro m _ answer
    obtain ⟨ret, s, result, -⟩ := ok.listed.mount m answer
    exact ⟨ret, s, result⟩
  · intro m other mem
    rcases ok.listed.unmount other with ⟨absent, -⟩ | ⟨s, done, -, result, -⟩
    · exact absurd mem absent
    · exact ⟨s, done, result⟩
  · intro m other absent
    rcases ok.listed.unmount other with ⟨-, -, result⟩ | ⟨s, done, mem, -⟩
    · exact result
    · exact absurd mem absent
  · intro m _ callback
    have counts := ok.counts m callback
    omega

end

/-- The root, and two mount points of a provider with both callbacks. -/
def twoPoints : Points (Fin 3) where
  point i := if i = 0 then rootFs else ⟨i.val, .other 0, ['/', if i = 1 then 'a' else 'b']⟩
  root := 0
  root_eq := rfl
  callbacks _ := (true, true)

/-- The first one is unmounted from behind the second one. -/
theorem mount_unmount_behind : ∃ r, (mountRuns twoPoints fun _ => none).run [.mount 1 0, .mount 2 0, .unmount 1]
      (mountRuns twoPoints fun _ => none).init = some r ∧
    Seg r.mounts.next r.mounts.mountpoints [2, 0] none ∧ r.dones 1 = r.calls.count (.unmount 1) := by
  refine @Lts.exists_run _ _ _ (fun _ _ => True) _ _ _ _ rfl rfl fun reached => ?_
  obtain ⟨seg, -, -, -, -, counts⟩ := mount_unmount reached
  exact ⟨seg, (counts 1 rfl rfl).2 rfl⟩

/-- A mount point is unmounted as the last one mounted, and `done` is not called. -/
theorem mount_unmount_head : ∃ r, (mountRuns twoPoints fun _ => none).run [.mount 1 0, .unmount 1]
      (mountRuns twoPoints fun _ => none).init = some r ∧
    twoPoints.hasInit 1 = true ∧ twoPoints.hasDone 1 = true ∧ r.calls.count (.unmount 1) = 1 ∧ r.dones 1 = 0 :=
  ⟨_, rfl, rfl, rfl, rfl, rfl⟩

end ChibiOS.Posix
