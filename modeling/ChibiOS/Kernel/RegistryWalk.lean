import ChibiOS.Kernel.References
import ChibiOS.Lib.Links

/-!
# Walking the registry

A walk starts with `chRegFirstThread` and calls `chRegNextThread` on the last thread it
got, until that returns `NULL`; the kernel takes any steps in between. The reference that
the walk holds keeps a dynamic thread in the registry. It does not keep a static one, which
is removed when it ends and goes on pointing to what was next at that time. `chThdRelease`
removes a dynamic one outside of any lock zone, with two loads before each of its two stores,
so that a link that changes in between is lost. While no `chRegNextThread` is called on a
static thread that has ended, and no link changes under a removal in progress, a walk returns
the threads of the registry in the order of their creation.
-/

namespace ChibiOS.Kernel

open Function
open Lib
open List (mem_singleton mem_cons map_append mem_append)
open Registry (pOlder pNewer)

/-- The thread can be reached from `rlist`. -/
def Sys.registered (s : Sys) (tp : Tid) : Bool :=
  decide (RegNode.thread tp ∈ follow s.pNewer .rlist (s.nthd + 1) .rlist)

/-- The threads of the registry, older first. -/
def Sys.registry (s : Sys) : List Tid := (List.range s.nthd).filter s.registered

/-- A walk in the running kernel: the threads returned, the last first; whether `NULL` was returned; whether every thread was
in the registry when it was returned; and the threads in the registry from the first call on. -/
structure Walk where
  sys : Sys
  returned : List Tid
  ended : Bool
  present : Bool
  stayed : List Tid

inductive WalkLabel
  /-- A step of the kernel. -/
  | other (l : Label)
  /-- The first call, `chRegFirstThread`. -/
  | first
  /-- `chRegNextThread` on the thread returned last. -/
  | next
deriving DecidableEq

namespace Walk

/-- The kernel has moved on. -/
def moved (s : Sys) (w : Walk) : Walk :=
  { w with sys := s, stayed := if w.ended then w.stayed else w.stayed.filter s.registered }

/-- The thread that a call of the running thread returned. -/
def result (s s' : Sys) : Option Tid :=
  match s'.pRet (some s.currp) with
  | .thread r => r
  | _ => none

/-- A call has returned. -/
def told (r : Option Tid) (w : Walk) : Walk :=
  match r with
  | some tp => { w with returned := tp :: w.returned, present := w.present && w.sys.registered tp }
  | none => { w with ended := true }

/-- The kernel step behind a step of the walk. -/
def kernel (w : Walk) : WalkLabel → Option Label
  | .other l => some l
  | .first => if w.returned = [] ∧ w.ended = false then some (.call .regFirstThread) else none
  | .next =>
    match w.returned, w.ended with
    | tp :: _, false => some (.call (.regNextThread tp))
    | _, _ => none

/-- The kernel has taken its step. -/
def after (w : Walk) (l : WalkLabel) (s : Sys) : Walk :=
  match l with
  | .other _ => w.moved s
  | .first => { w with sys := s, stayed := s.registry }.told (result w.sys s)
  | .next => (w.moved s).told (result w.sys s)

def step (l : WalkLabel) (w : Walk) : Option Walk :=
  (w.kernel l).bind fun k => (Kernel.next k w.sys).map (w.after l)

end Walk

def walks (cfg : Config) : Lts Walk WalkLabel where
  init := { sys := chSysInit cfg, returned := [], ended := false, present := true, stayed := [] }
  next := Walk.step

/-- Threads are returned while they are in the registry, in the order of their creation and once, all that stay in it are
returned, and there are no more of them than threads. -/
structure WalkOk (w : Walk) : Prop where
  present : w.present = true
  ordered : w.returned.Pairwise (· > ·)
  complete : w.ended = true → ∀ t ∈ w.stayed, w.returned.count t = 1
  bounded : w.returned.length ≤ w.sys.nthd

/-- The removal has loaded a pointer and has a store to make. -/
def RegStage.inside : RegStage → Bool
  | .start | .done => false
  | _ => true

def Frame.inside : Frame → Bool
  | .regRemove _ st => st.inside
  | _ => false

/-- The step changes links of the registry. -/
def Label.relinks (s : Sys) : Label → Bool
  | .call (.thdCreate ..) | .icall (.thdCreateI _) => true
  | .call (.thdExit _) | .scall (.thdExitS _) => s.pMode s.currp = .static
  | .run =>
    match s.pCtx s.currp with
    | .regRemove _ (.forth ..) :: _ | .regRemove _ (.back ..) :: _ => true
    | _ => false
  | _ => false

/-- A step that changes links finds no thread inside `REG_REMOVE`, other than the one that makes its own store. -/
def Sys.undisturbed (s : Sys) (k : Label) : Prop :=
  k.relinks s = true → ∀ u < s.nthd, (s.pCtx u).any Frame.inside = true → k = .run ∧ u = s.currp

instance (s : Sys) (k : Label) : Decidable (s.undisturbed k) := by
  unfold Sys.undisturbed
  infer_instance

/-- No reference is taken to a thread that a release may be about to free, no link changes while a release is inside
`REG_REMOVE`, and `chRegNextThread` is not called on a static thread that has ended. -/
def Walk.Sound (w : Walk) (l : WalkLabel) : Prop :=
  (∀ k ∈ w.kernel l, (∀ t ∈ k.takes w.sys, w.sys.referable t) ∧ w.sys.undisturbed k) ∧
    (l = .next → ∀ tp ∈ w.returned.head?, w.sys.pMode tp = .static → w.sys.pState tp ≠ .final)

instance (w : Walk) (l : WalkLabel) : Decidable (w.Sound l) := by
  unfold Walk.Sound
  infer_instance

/-! ## The registry in a run -/

/-- The first store has been made and the second has not. -/
def RegStage.half : RegStage → Bool
  | .between | .newer _ | .back .. => true
  | _ => false

/-- What a removal of `t` has loaded and will store, if `older` are the `p_older` links when it is finished. -/
def RegStage.Fits (l : List Tid) (older : RegNode → RegNode) (r : Registry) (t : Tid) : RegStage → Prop
  | .start => t ∈ l
  | .older o => t ∈ l ∧ o = r.pOlder (.thread t)
  | .forth o n => t ∈ l ∧ o = r.pOlder (.thread t) ∧ n = r.pNewer (.thread t)
  | .between => older = update r.pOlder (r.pNewer (.thread t)) (r.pOlder (.thread t))
  | .newer n => n = r.pNewer (.thread t) ∧ older = update r.pOlder n (r.pOlder (.thread t))
  | .back n o => older = update r.pOlder n o
  | .done => True

/-- The registry holds the threads `l`, older first, and among them all static threads that have not ended and all dynamic ones
that have not been freed and are not being removed. A removal that has made one of its stores has still to change `p_older`. -/
structure Registered (l : List Tid) (older : RegNode → RegNode) (s : Sys) : Prop where
  links : Links s.pNewer older .rlist (l.map .thread)
  stage : ∀ u t st, .regRemove t st ∈ s.pCtx u → st.Fits l older s.toRegistry t
  whole : (∀ u t st, .regRemove t st ∈ s.pCtx u → st.half = false) → older = s.pOlder
  sorted : l.Pairwise (· < ·)
  lt : ∀ t ∈ l, t < s.nthd
  all : ∀ t < s.nthd, (s.pMode t = .static → s.pState t ≠ .final) → t ∉ s.freed → (∀ u st, .regRemove t st ∉ s.pCtx u) → t ∈ l

variable {s s' : Sys} {l : List Tid} {older : RegNode → RegNode} {tp t u : Tid} {st : RegStage} {w w' : Walk}
  {lb : WalkLabel}

theorem RegStage.half_of_outside (outside : st.inside = false) : st.half = false := by
  cases st <;> first | rfl | cases outside

theorem RegStage.Fits.congr {r r' : Registry} (fits : st.Fits l older r t) (newer : r'.pNewer = r.pNewer)
    (old : r'.pOlder = r.pOlder) : st.Fits l older r' t := by
  cases st with
  | done => trivial
  | _ => simpa only [Fits, newer, old] using fits

/-- Outside of `REG_REMOVE` nothing has been loaded. -/
theorem RegStage.Fits.outside {l' : List Tid} {older' : RegNode → RegNode} {r r' : Registry} (fits : st.Fits l older r t)
    (outside : st.inside = false) (mem : t ∈ l → t ∈ l') : st.Fits l' older' r' t := by
  cases st with
  | start => exact mem fits
  | done => trivial
  | _ => cases outside

/-- No link changes under a removal, other than by its own store. -/
theorem Sys.undisturbed.outside {k : Label} (ok : s.undisturbed k) (refs : RefsOk s) (relinks : k.relinks s = true)
    (mem : .regRemove t st ∈ s.pCtx u) : st.inside = false ∨ k = .run ∧ u = s.currp := by
  cases inside : st.inside with
  | false => exact .inl rfl
  | true => exact .inr (ok relinks u (refs.removing u t st mem).lt (List.any_eq_true.2 ⟨_, mem, inside⟩))

theorem length_le_of_lt {n : Nat} (nodup : l.Nodup) (lt : ∀ t ∈ l, t < n) : l.length ≤ n := by
  have sub : l ⊆ List.range n := fun t mem => List.mem_range.2 (lt t mem)
  have le := (nodup.subperm sub).length_le
  rwa [List.length_range] at le

theorem mem_regRemoveStep {st' : RegStage} (top : s.pCtx s.currp = [.regRemove tp st])
    (after : st.after tp s.toRegistry = some st') : .regRemove tp st' ∈ (s.pop.regRemoveStep tp st).pCtx s.currp := by
  rw [regRemoveStep_ctx top, update_self, after]
  exact .head _

section

variable (ok : Registered l older s)
include ok

theorem Registered.mem_iff : s.registered tp = true ↔ tp ∈ l := by
  have met := ok.links.follow (by
    rw [List.length_map]
    exact Nat.lt_succ_of_le (length_le_of_lt (ok.sorted.imp ne_of_lt) ok.lt))
  rw [Sys.registered, met, decide_eq_true_iff]
  constructor
  · intro mem
    obtain ⟨t, mem, ⟨⟩⟩ := List.mem_map.1 mem
    exact mem
  · exact List.mem_map_of_mem

theorem Registered.mem_registry : tp ∈ s.registry ↔ tp ∈ l := by
  rw [Sys.registry, List.mem_filter, List.mem_range, ok.mem_iff]
  exact ⟨And.right, fun mem => ⟨ok.lt tp mem, mem⟩⟩

section

variable (final : ∀ t, s.pState t = .final → s'.pState t = .final)
include final

/-- The links from older to newer are as they were. -/
theorem Registered.moved (nthd : s'.nthd = s.nthd) (newer : s'.pNewer = s.pNewer) (mode : s'.pMode = s.pMode)
    (freed : ∀ t ∈ s.freed, t ∈ s'.freed) (stage : ∀ u t st, .regRemove t st ∈ s'.pCtx u → st.Fits l older s'.toRegistry t)
    (whole : (∀ u t st, .regRemove t st ∈ s'.pCtx u → st.half = false) → older = s'.pOlder)
    (gone : ∀ u t st, .regRemove t st ∈ s.pCtx u → t ∈ s'.freed ∨ ∃ u st, .regRemove t st ∈ s'.pCtx u) :
    Registered l older s' where
  links := newer ▸ ok.links
  stage := stage
  whole := whole
  sorted := ok.sorted
  lt t mem := nthd ▸ ok.lt t mem
  all t lt alive notFreed free := by
    rw [mode] at alive
    refine ok.all t (nthd ▸ lt) (fun static was => alive static (final t was)) (fun was => notFreed (freed t was)) fun u st mem => ?_
    rcases gone u t st mem with isFreed | ⟨u, st, mem⟩
    · exact notFreed isFreed
    · exact free u st mem

section

variable (same : SameRemovals s s')
include same

/-- The links are as they were, and what is being removed. -/
theorem Registered.kept (nthd : s'.nthd = s.nthd) (newer : s'.pNewer = s.pNewer) (old : s'.pOlder = s.pOlder)
    (mode : s'.pMode = s.pMode) (freed : s'.freed = s.freed) : Registered l older s' :=
  ok.moved final nthd newer mode (fun _ mem => freed ▸ mem)
    (fun u t st mem => (ok.stage u t st ((same u t st).1 mem)).congr newer old)
    (fun calm => (ok.whole fun u t st mem => calm u t st ((same u t st).2 mem)).trans old.symm)
    fun u t st mem => .inr ⟨u, st, (same u t st).2 mem⟩

/-- `REG_INSERT` of the thread created. -/
theorem Registered.created {mode : MemMode} (calm : ∀ u t st, .regRemove t st ∈ s.pCtx u → st.inside = false)
    (nthd : s'.nthd = s.nthd + 1) (newer : s'.pNewer = (s.regInsert s.nthd).pNewer)
    (old : s'.pOlder = (s.regInsert s.nthd).pOlder) (mode : s'.pMode = update s.pMode s.nthd mode)
    (freed : s'.freed = s.freed) : Registered (l ++ [s.nthd]) s'.pOlder s' where
  stage u t st mem := by
    have was := (same u t st).1 mem
    exact (ok.stage u t st was).outside (calm u t st was) (List.mem_append_left _)
  whole _ := rfl
  links := by
    have new : RegNode.thread s.nthd ∉ .rlist :: l.map .thread := by
      intro mem
      rcases mem_cons.1 mem with is | mem
      · cases is
      · obtain ⟨t, mem, ⟨⟩⟩ := List.mem_map.1 mem
        exact (ok.lt _ mem).false
    have links := ok.links
    rw [ok.whole fun u t st mem => RegStage.half_of_outside (calm u t st mem)] at links
    rw [newer, old, map_append]
    exact links.insert new
  sorted := by
    refine List.pairwise_append.2 ⟨ok.sorted, List.pairwise_singleton .., fun t mem u is => ?_⟩
    cases mem_singleton.1 is
    exact ok.lt t mem
  lt t mem := by
    rw [nthd]
    rcases mem_append.1 mem with old | new
    · exact Nat.lt_succ_of_lt (ok.lt t old)
    · cases mem_singleton.1 new
      exact lt_add_one _
  all t lt alive notFreed free := by
    by_cases new : t = s.nthd
    · exact new ▸ List.mem_append_right _ (.head _)
    · rw [mode, update_of_ne new] at alive
      exact List.mem_append_left _ (ok.all t (by omega) (fun static was => alive static (final t was)) (freed ▸ notFreed)
        fun u st mem => free u st ((same u t st).2 mem))

end

/-- A thread that has ended is removed, or the first store of `REG_REMOVE` is made. -/
theorem Registered.removed (mem : tp ∈ l) (calm : ∀ u t st, .regRemove t st ∈ s.pCtx u → st.half = false)
    (nthd : s'.nthd = s.nthd) (newer : s'.pNewer = (s.regRemove tp).pNewer) (mode : s'.pMode = s.pMode)
    (freed : ∀ t ∈ s.freed, t ∈ s'.freed)
    (stage : ∀ u t st, .regRemove t st ∈ s'.pCtx u → t ≠ tp ∧ st.inside = false ∧ .regRemove t st ∈ s.pCtx u ∨
      ∀ l, st.Fits l (s.regRemove tp).pOlder s'.toRegistry t)
    (whole : (∀ u t st, .regRemove t st ∈ s'.pCtx u → st.half = false) → (s.regRemove tp).pOlder = s'.pOlder)
    (gone : s'.pMode tp = .static ∧ s'.pState tp = .final ∨ ∃ u st, .regRemove tp st ∈ s'.pCtx u)
    (kept : ∀ u t st, .regRemove t st ∈ s.pCtx u → t ≠ tp → .regRemove t st ∈ s'.pCtx u) :
    ∃ l', Registered l' (s.regRemove tp).pOlder s' := by
  obtain ⟨a, b, rfl⟩ := List.append_of_mem mem
  have sub : (a ++ b).Sublist (a ++ tp :: b) := (List.Sublist.refl a).append (List.sublist_cons_self tp b)
  have others {t : Tid} (other : t ≠ tp) (was : t ∈ a ++ tp :: b) : t ∈ a ++ b := by
    rcases mem_append.1 was with left | right
    · exact List.mem_append_left _ left
    · exact List.mem_append_right _ ((mem_cons.1 right).resolve_left other)
  refine ⟨a ++ b, ?_, fun u t st mem => ?_, whole, ok.sorted.sublist sub, fun t mem => nthd ▸ ok.lt t (sub.subset mem),
    fun t lt alive notFreed free => ?_⟩
  · have links := ok.links
    rw [ok.whole calm, map_append, List.map_cons] at links
    rw [newer, map_append]
    exact links.remove
  · rcases stage u t st mem with ⟨other, outside, was⟩ | new
    · exact (ok.stage u t st was).outside outside (others other)
    · exact new _
  · have other : t ≠ tp := by
      rintro rfl
      rcases gone with ⟨static, ended⟩ | ⟨u, st, mem⟩
      · exact alive static ended
      · exact free u st mem
    rw [mode] at alive
    exact others other (ok.all t (nthd ▸ lt) (fun static was => alive static (final t was)) (fun mem => notFreed (freed t mem))
      fun u st mem => free u st (kept u t st mem other))

end

theorem Registered.chThdCreate (prio : Nat) (mode : MemMode) (same : SameRemovals s (s.chThdCreate prio mode))
    (calm : ∀ u t st, .regRemove t st ∈ s.pCtx u → st.inside = false)
    (final : ∀ t, s.pState t = .final → (s.chThdCreate prio mode).pState t = .final) :
    ∃ l' older', Registered l' older' (s.chThdCreate prio mode) := by
  have nthd : (s.chThdCreate prio mode).nthd = s.nthd + 1 := by
    simp only [Sys.chThdCreate, Sys.zone, Sys.onCore_toCore, Core.chSchWakeupS]
    split <;> rfl
  exact ⟨_, _, ok.created final same calm nthd rfl rfl rfl rfl⟩

theorem Registered.chThdWait (same : SameRemovals s (s.chThdWait tp))
    (final : ∀ t, s.pState t = .final → (s.chThdWait tp).pState t = .final) : Registered l older (s.chThdWait tp) := by
  have nthd : (s.chThdWait tp).nthd = s.nthd := by
    simp only [Sys.chThdWait, Sys.zone]
    split
    · exact Core.runFirst_prio.2
    · rfl
  have reg : (s.chThdWait tp).toRegistry = (s.handOver tp).toRegistry := by
    simp only [Sys.chThdWait, Sys.zone]
    split <;> rfl
  exact ok.kept final same nthd ((congrArg pNewer reg).trans rfl) ((congrArg pOlder reg).trans rfl)
    ((congrArg Registry.pMode reg).trans rfl) ((congrArg Registry.freed reg).trans rfl)

theorem Registered.chThdExitS {φ : Foot} (core : CoreOk s.toCore) (zone : Zone φ s.toCore)
    (reg : RegOk s.nthd s.toRegistry) (msg : Msg) (same : SameRemovals s (s.chThdExitS msg))
    (calm : ∀ u t st, .regRemove t st ∈ s.pCtx u → s.pMode t ≠ .static ∧ (s.pMode s.currp = .static → st.inside = false))
    (final : ∀ t, s.pState t = .final → (s.chThdExitS msg).pState t = .final) :
    ∃ l' older', Registered l' older' (s.chThdExitS msg) := by
  have ended := chThdExitS_final core zone msg
  have flushed := (Core.flush_readyI (.pWaiting s.currp) (s.queue (.pWaiting s.currp)).length
    (s.toCore.setU s.currp (.exitcode msg))).1
  have nthd : (s.chThdExitS msg).nthd = s.nthd := by
    rw [Sys.chThdExitS]
    split
    · exact Core.runFirst_prio.2.trans flushed
    · exact Core.runFirst_prio.2.trans flushed
  by_cases static : s.pMode s.currp = .static
  · have leaves : (s.chThdExitS msg).toRegistry = (s.regRemove s.currp).toRegistry := by
      rw [Sys.chThdExitS]
      split
      · rfl
      next dynamic => exact absurd static dynamic
    have registered : s.currp ∈ l := by
      refine ok.all _ core.sched.currp_lt (fun _ => ?_) (fun mem => (reg.freed _ mem).2 static) fun u st mem =>
        (calm u _ st mem).1 static
      simp [core.sched.currp_state]
    have older' := congrArg pOlder leaves
    have mode := (congrArg Registry.pMode leaves).trans rfl
    refine Exists.imp (fun _ removed => ⟨_, removed⟩) (ok.removed final registered
      (fun u t st mem => RegStage.half_of_outside ((calm u t st mem).2 static)) nthd (congrArg pNewer leaves) mode
      (fun t mem => leaves ▸ mem) (fun u t st mem => ?_) (fun _ => older'.symm) (.inl ⟨(congrFun mode _).trans static, ended⟩)
      fun u t st mem _ => (same u t st).2 mem)
    have was := (same u t st).1 mem
    exact .inl ⟨fun is => (calm u t st was).1 (is ▸ static), (calm u t st was).2 static, was⟩
  · have stays : (s.chThdExitS msg).toRegistry = s.toRegistry := by
      rw [Sys.chThdExitS]
      split
      next is => exact absurd is static
      · rfl
    exact ⟨l, _, ok.kept final same nthd (congrArg pNewer stays) (congrArg pOlder stays)
      (congrArg Registry.pMode stays) (congrArg Registry.freed stays)⟩

/-- The running thread goes on with a removal, at most loading a pointer. -/
theorem Registered.loaded {f : Frame} {fs : List Frame} (top : s.pCtx s.currp = [f]) (ctx : s'.pCtx = update s.pCtx s.currp fs)
    (state : s'.pState = s.pState) (nthd : s'.nthd = s.nthd) (newer : s'.pNewer = s.pNewer) (old : s'.pOlder = s.pOlder)
    (mode : s'.pMode = s.pMode) (freed : ∀ t ∈ s.freed, t ∈ s'.freed)
    (new : ∀ t st, .regRemove t st ∈ fs → st.Fits l older s.toRegistry t)
    (half : ∀ t st, f = .regRemove t st → st.half = true → ∃ st', .regRemove t st' ∈ fs ∧ st'.half = true)
    (gone : ∀ t st, f = .regRemove t st → t ∈ s'.freed ∨ ∃ st', .regRemove t st' ∈ fs) : Registered l older s' := by
  have mine {g : Frame} (mem : g ∈ fs) : g ∈ s'.pCtx s.currp := by rwa [ctx, update_self]
  have others {u : Tid} (other : u ≠ s.currp) : s'.pCtx u = s.pCtx u := by rw [ctx, update_of_ne other]
  refine ok.moved (fun t was => state ▸ was) nthd newer mode freed (fun u t st mem => ?_) (fun calm => ?_) fun u t st mem => ?_
  · rcases mem_update (ctx ▸ mem) with ⟨-, is⟩ | ⟨-, was⟩
    · exact (new t st is).congr newer old
    · exact (ok.stage u t st was).congr newer old
  · refine (ok.whole fun u t st mem => ?_).trans old.symm
    rcases eq_or_ne u s.currp with rfl | other
    · rw [← Bool.not_eq_true]
      intro is
      obtain ⟨st', mem', is'⟩ := half t st (mem_singleton.1 (top ▸ mem)).symm is
      cases (calm _ t st' (mine mem')).symm.trans is'
    · exact calm u t st (others other ▸ mem)
  · rcases eq_or_ne u s.currp with rfl | other
    · exact (gone t st (mem_singleton.1 (top ▸ mem)).symm).imp id fun ⟨st', mem'⟩ => ⟨_, st', mine mem'⟩
    · exact .inr ⟨u, st, others other ▸ mem⟩

theorem Registered.thdReleaseCheck {n : Nat} (refs : RefsOk s) (top : s.pCtx s.currp = [.thdReleaseCheck tp n])
    (lt : s.currp < s.nthd) : Registered l older (s.pop.thdReleaseCheck tp n) := by
  rw [Sys.thdReleaseCheck]
  split
  next frees =>
    have mem : .thdReleaseCheck tp n ∈ s.pCtx s.currp := top ▸ .head _
    have checks : (Frame.thdReleaseCheck tp n).checks tp = true := by simp [Frame.checks, frees.1]
    obtain ⟨due, ltT⟩ := refs.due lt mem checks
    have registered : tp ∈ l := by
      refine ok.all tp ltT (fun static => absurd static frees.2.2) (refs.view.check tp due).2.2 fun u st other => ?_
      have is := refs.alone (refs.removing u tp st other).lt lt other mem (Frame.regRemove_checks tp st) checks
      rw [is, top] at other
      cases mem_singleton.1 other
    refine ok.loaded top (removes_ctx top tp .start) rfl rfl rfl rfl rfl (fun _ => id) (fun t st is => ?_) (by simp) (by simp)
    cases mem_singleton.1 is
    exact registered
  · exact ok.loaded top (pop_ctx top) rfl rfl rfl rfl rfl (fun _ => id) (by simp) (by simp) (by simp)

section

variable (refs : RefsOk s) (lt : s.currp < s.nthd) (calm : s.undisturbed .run)
include refs lt calm

omit ok in
/-- When a thread makes a store, another one is not inside, and removes another thread. -/
theorem undisturbed_others {st' : RegStage} (mine : .regRemove tp st ∈ s.pCtx s.currp)
    (relinks : Label.run.relinks s = true) (other : u ≠ s.currp) (mem : .regRemove t st' ∈ s.pCtx u) :
    t ≠ tp ∧ st'.inside = false := by
  refine ⟨?_, (calm.outside refs relinks mem).resolve_right fun is => other is.2⟩
  rintro rfl
  exact other (refs.alone (refs.removing u _ st' mem).lt lt mem mine (Frame.regRemove_checks _ _) (Frame.regRemove_checks _ _))

/-- `p_older->p_newer = p_newer` takes the thread out of the list. -/
theorem Registered.forthStep {o n : RegNode} (top : s.pCtx s.currp = [.regRemove tp (.forth o n)]) :
    ∃ l' older', Registered l' older' (s.pop.regRemoveStep tp (.forth o n)) := by
  have ctx := regRemoveStep_ctx top
  have mine : .regRemove tp (.forth o n) ∈ s.pCtx s.currp := top ▸ .head _
  have relinks : Label.run.relinks s = true := by simp [Label.relinks, top]
  obtain ⟨registered, rfl, rfl⟩ := ok.stage _ _ _ mine
  have whole : ∀ u t st, .regRemove t st ∈ s.pCtx u → st.half = false := fun u t st mem => by
    rcases eq_or_ne u s.currp with rfl | other
    · cases mem_singleton.1 (top ▸ mem)
      rfl
    · exact RegStage.half_of_outside (undisturbed_others refs lt calm mine relinks other mem).2
  have apart := ok.links.older_ne (List.mem_map_of_mem registered)
  rw [ok.whole whole] at apart
  refine Exists.imp (fun _ removed => ⟨_, removed⟩) (ok.removed (fun _ => id) registered whole rfl rfl rfl (fun _ => id)
    (fun u t st mem => ?_) (fun half => ?_) (.inr ⟨_, _, mem_regRemoveStep top rfl⟩) fun u t st mem other => ?_)
  · rcases mem_update (ctx ▸ mem) with ⟨-, is⟩ | ⟨other, was⟩
    · cases mem_singleton.1 is
      have newer : update s.pNewer (s.pOlder (.thread tp)) (s.pNewer (.thread tp)) (.thread tp) = s.pNewer (.thread tp) :=
        update_of_ne apart.symm ..
      exact .inr fun _ => congrArg (fun n => update s.pOlder n (s.pOlder (.thread tp))) newer.symm
    · obtain ⟨ne, outside⟩ := undisturbed_others refs lt calm mine relinks other was
      exact .inl ⟨ne, outside, was⟩
  · cases half _ _ _ (mem_regRemoveStep top rfl)
  · rcases eq_or_ne u s.currp with rfl | elsewhere
    · cases mem_singleton.1 (top ▸ mem)
      exact absurd rfl other
    · rwa [ctx, update_of_ne elsewhere]

/-- The next load or store of `REG_REMOVE`. -/
theorem Registered.regRemoveStep (top : s.pCtx s.currp = [.regRemove tp st]) :
    ∃ l' older', Registered l' older' (s.pop.regRemoveStep tp st) := by
  have mine : .regRemove tp st ∈ s.pCtx s.currp := top ▸ .head _
  have fits := ok.stage _ _ _ mine
  have ctx := regRemoveStep_ctx top
  cases st with
  | forth o n => exact ok.forthStep refs lt calm top
  | back n o =>
    have relinks : Label.run.relinks s = true := by simp [Label.relinks, top]
    refine ⟨l, older, ok.moved (fun _ => id) rfl rfl rfl (fun _ => id) (fun u t st mem => ?_) (fun _ => fits) fun u t st mem => .inr ?_⟩
    · rcases mem_update (ctx ▸ mem) with ⟨-, is⟩ | ⟨other, was⟩
      · cases mem_singleton.1 is
        trivial
      · exact (ok.stage u t st was).outside (undisturbed_others refs lt calm mine relinks other was).2 id
    · rcases eq_or_ne u s.currp with rfl | other
      · cases mem_singleton.1 (top ▸ mem)
        exact ⟨_, _, mem_regRemoveStep top rfl⟩
      · exact ⟨u, st, by rwa [ctx, update_of_ne other]⟩
  | done =>
    refine ⟨l, older, ok.loaded top ctx rfl rfl rfl rfl rfl (fun _ => .tail _) (fun t st is => ?_) (fun t st is half => ?_)
      fun t st is => ?_⟩
    · cases is
    · cases is
      cases half
    · cases is
      exact .inl (.head _)
  | _ =>
    refine ⟨l, older, ok.loaded top ctx rfl rfl rfl rfl rfl (fun _ => id) (fun t st is => ?_) (fun t st is half => ?_)
      fun t st is => ?_⟩
    · cases mem_singleton.1 is
      first | exact ⟨fits, rfl⟩ | exact ⟨fits.1, fits.2, rfl⟩ | exact ⟨rfl, fits⟩ | exact fits.2
    · cases is
      first | (cases half; done) | exact ⟨_, .head _, rfl⟩
    · cases is
      exact .inr ⟨_, .head _⟩

end

end

theorem next_registered {k : Label} (ok : KernelOk False s) (refs : RefsOk s) (reg : Registered l older s)
    (calm : s.undisturbed k) (taken : next k s = some s') : ∃ l' older', Registered l' older' s' := by
  rcases next_removals ok refs taken with ⟨same, notRel⟩ | ⟨f, rfl, top, rel, rfl⟩
  rotate_left
  · have lt := ok.core.sched.currp_lt
    cases f with
    | thdReleaseCheck tp n => exact ⟨l, older, reg.thdReleaseCheck refs top lt⟩
    | regRemove tp st => exact reg.regRemoveStep refs lt calm top
    | _ => cases rel
  have effect := (next_step ok nofun taken).1
  have sched := ok.core.sched
  have final : ∀ t, s.pState t = .final → s'.pState t = .final := fun t was => (effect.moves.ended sched was).1
  have off : (k.foot s).reg = false → ∃ l' older', Registered l' older' s' := fun off => by
    have kept := effect.objs.reg off
    exact ⟨l, older, reg.kept final same (effect.moves.nthd_eq off) (congrArg pNewer kept) (congrArg pOlder kept)
      (congrArg Registry.pMode kept) (congrArg Registry.freed kept)⟩
  -- No link changes unless nothing is inside `REG_REMOVE`.
  have calm (other : k ≠ .run) (relinks : k.relinks s = true) (u t : Tid) (st : RegStage)
      (mem : .regRemove t st ∈ s.pCtx u) : st.inside = false :=
    (calm.outside refs relinks mem).resolve_right fun is => other is.1
  have exits (other : k ≠ .run) (relinks : k.relinks s = decide (s.pMode s.currp = .static)) (u t : Tid) (st : RegStage)
      (mem : .regRemove t st ∈ s.pCtx u) : s.pMode t ≠ .static ∧ (s.pMode s.currp = .static → st.inside = false) :=
    ⟨(refs.removing u t st mem).dynamic, fun static => calm other (relinks.trans (decide_eq_true static)) u t st mem⟩
  cases k with
  | call f =>
    obtain ⟨outside, empty, allowed, rfl⟩ := next_call taken
    cases f with
    | thdCreate prio mode => exact reg.chThdCreate prio mode same (calm nofun rfl) final
    | thdExit msg =>
      have locked := outside.lock (φ := {}) ok.core empty
      have reg : Registered l older { s with locked := true } := reg.kept (fun _ => id) (fun _ _ _ => .rfl) rfl rfl rfl rfl rfl
      exact reg.chThdExitS locked.ok locked.zone refs.reg msg same (exits nofun rfl) final
    | thdWait tp => exact ⟨l, older, reg.chThdWait same final⟩
    | thdTerminate | thdAddRef | thdRelease => exact ⟨l, older, reg.kept final same rfl rfl rfl rfl rfl⟩
    | regFirstThread | regNextThread =>
      revert same final
      simp only [ApiCall.body, Sys.chRegFirstThread, Sys.chRegNextThread, Sys.zone]
      split <;> exact fun same final => ⟨l, older, reg.kept final same rfl rfl rfl rfl rfl⟩
    | _ => exact off rfl
  | scall f =>
    obtain ⟨zone, -, -, rfl⟩ := next_scall taken
    cases f with
    | thdExitS msg => exact reg.chThdExitS ok.core (zone {}) refs.reg msg same (exits (by simp) rfl) final
    | _ => exact off rfl
  | icall f =>
    obtain ⟨-, -, rfl⟩ := next_icall taken
    cases f with
    | thdCreateI prio => exact ⟨_, _, reg.created final same (calm (by simp) rfl) rfl rfl rfl rfl rfl⟩
    | _ => exact off rfl
  | run =>
    obtain ⟨f, fs, -, top, -, rfl⟩ := next_run taken
    rw [Label.foot_run top] at off notRel
    cases f with
    | thdRelease tp => exact ⟨l, older, reg.kept final same rfl rfl rfl rfl rfl⟩
    | thdReleaseCheck | regRemove => cases notRel
    | _ => exact off rfl
  | _ => exact off rfl

/-! ## Calls of a walk -/

theorem chRegFirstThread_result (thread : s.isr = []) (is : s.pNewer .rlist = .thread tp) :
    Walk.result s s.chRegFirstThread = some tp := by
  have told : s.chRegFirstThread.pRet (some s.currp) = .thread (some tp) := by
    simp only [Sys.chRegFirstThread, Sys.zone]
    split
    next none => cases none.symm.trans is
    next t is' =>
      cases is'.symm.trans is
      exact Sys.ret_told thread _
  rw [Walk.result, told]

theorem chRegNextThread_result (thread : s.isr = []) (tp : Tid) :
    Walk.result s (s.chRegNextThread tp) = (s.pNewer (.thread tp)).thread? := by
  have told : (s.chRegNextThread tp).pRet (some s.currp) = .thread (s.pNewer (.thread tp)).thread? := by
    simp only [Sys.chRegNextThread, Sys.zone]
    split
    next is =>
      rw [show s.pNewer (.thread tp) = .rlist from is]
      exact Sys.ret_told thread _
    next t is =>
      rw [show s.pNewer (.thread tp) = .thread t from is]
      exact Sys.ret_told thread _
  rw [Walk.result, told]

/-- The calls of a walk leave the links as they are. -/
theorem chRegFirstThread_links (s : Sys) : s.chRegFirstThread.pNewer = s.pNewer ∧ s.chRegFirstThread.nthd = s.nthd := by
  simp only [Sys.chRegFirstThread, Sys.zone]
  split <;> exact ⟨rfl, rfl⟩

theorem chRegNextThread_links (s : Sys) (tp : Tid) :
    (s.chRegNextThread tp).pNewer = s.pNewer ∧ (s.chRegNextThread tp).nthd = s.nthd := by
  simp only [Sys.chRegNextThread, Sys.zone]
  split <;> exact ⟨rfl, rfl⟩

theorem registered_congr (newer : s'.pNewer = s.pNewer) (nthd : s'.nthd = s.nthd) : s'.registered = s.registered := by
  funext t
  rw [Sys.registered, Sys.registered, newer, nthd]

/-! ## Walks -/

structure WalkInv (w : Walk) : Prop where
  present : w.present = true
  ordered : w.returned.Pairwise (· > ·)
  lt : ∀ t ∈ w.returned, t < w.sys.nthd
  complete : w.ended = true → ∀ t ∈ w.stayed, t ∈ w.returned
  passed : w.ended = false → ∀ t ∈ w.stayed, w.sys.registered t = true ∧ ∀ tp ∈ w.returned.head?, t ≤ tp → t ∈ w.returned

namespace WalkInv

variable {rest : List Tid}

theorem moved (inv : WalkInv w) (grows : w.sys.nthd ≤ s.nthd) : WalkInv (w.moved s) where
  present := inv.present
  ordered := inv.ordered
  lt t mem := lt_of_lt_of_le (inv.lt t mem) grows
  complete ended t mem := by
    rw [Walk.moved, show w.ended = true from ended] at mem
    exact inv.complete ended t mem
  passed going t mem := by
    rw [Walk.moved, show w.ended = false from going] at mem
    obtain ⟨mem, registered⟩ := List.mem_filter.1 mem
    exact ⟨registered, (inv.passed going t mem).2⟩

/-- `chRegFirstThread`. -/
theorem first (reg : Registered (tp :: l) older s) :
    WalkInv { sys := s, returned := [tp], ended := false, present := s.registered tp, stayed := s.registry } where
  present := reg.mem_iff.2 (.head _)
  ordered := List.pairwise_singleton ..
  lt t mem := by
    cases mem_singleton.1 mem
    exact reg.lt tp (.head _)
  complete ended := by cases ended
  passed _ t mem := by
    have mem := reg.mem_registry.1 mem
    refine ⟨reg.mem_iff.2 mem, fun tp' is le => ?_⟩
    cases is
    rcases mem_cons.1 mem with same | later
    · exact same ▸ .head _
    · exact absurd (List.rel_of_pairwise_cons reg.sorted later) (not_lt.2 le)

/-- `chRegNextThread` on a thread of the registry. -/
theorem next (inv : WalkInv w) (reg : Registered l older w.sys) (last : w.returned = tp :: rest) (going : w.ended = false)
    (mem : tp ∈ l) : WalkInv (w.told (w.sys.pNewer (.thread tp)).thread?) := by
  obtain ⟨a, b, rfl⟩ := List.append_of_mem mem
  obtain ⟨-, sorted, before⟩ := List.pairwise_append.1 reg.sorted
  have passed : ∀ t ∈ w.stayed, t ∈ a ++ tp :: b ∧ (t ≤ tp → t ∈ w.returned) := fun t mem => by
    obtain ⟨registered, seen⟩ := inv.passed going t mem
    exact ⟨reg.mem_iff.1 registered, seen tp (by rw [last]; rfl)⟩
  cases b with
  | nil =>
    have link : w.sys.pNewer (.thread tp) = .rlist :=
      (reg.links.pair (a := .rlist :: a.map .thread) (b := []) (by simp)).1
    rw [link]
    refine { inv with complete := fun _ t mem => ?_, passed := nofun }
    obtain ⟨mem, seen⟩ := passed t mem
    rcases mem_append.1 mem with earlier | same
    · exact seen (before t earlier tp (.head _)).le
    · exact seen (le_of_eq (mem_singleton.1 same))
  | cons y b =>
    have link : w.sys.pNewer (.thread tp) = .thread y :=
      (reg.links.pair (a := .rlist :: a.map .thread) (b := b.map .thread ++ [.rlist]) (by simp)).1
    have later : tp < y := List.rel_of_pairwise_cons sorted (.head _)
    have member : y ∈ a ++ tp :: y :: b := List.mem_append_right _ (.tail _ (.head _))
    have ordered := inv.ordered
    rw [last] at ordered
    rw [link]
    refine {
      present := Bool.and_eq_true_iff.2 ⟨inv.present, reg.mem_iff.2 member⟩
      ordered := List.pairwise_cons.2 ⟨fun t mem => ?_, inv.ordered⟩
      lt := fun t mem => ?_
      complete := fun ended => absurd (going.symm.trans ended) nofun
      passed := fun _ t mem => ⟨(inv.passed going t mem).1, fun y' is le => ?_⟩ }
    · rw [last] at mem
      rcases mem_cons.1 mem with same | older
      · exact same ▸ later
      · exact lt_trans (List.rel_of_pairwise_cons ordered older) later
    · rcases mem_cons.1 mem with same | old
      · exact same ▸ reg.lt y member
      · exact inv.lt t old
    · cases is
      obtain ⟨mem, seen⟩ := passed t mem
      rcases mem_append.1 mem with earlier | mem
      · exact .tail _ (seen (before t earlier tp (.head _)).le)
      rcases mem_cons.1 mem with same | mem
      · exact .tail _ (seen (le_of_eq same))
      rcases mem_cons.1 mem with same | beyond
      · exact same ▸ .head _
      · exact absurd (List.rel_of_pairwise_cons sorted.of_cons beyond) (not_lt.2 le)

end WalkInv

structure WalkSafe (w : Walk) : Prop where
  kernel : KernelOk False w.sys
  refs : RefsOk w.sys
  reg : ∃ l older, Registered l older w.sys
  walk : WalkInv w

theorem Walk.told_sys (w : Walk) (r : Option Tid) : (w.told r).sys = w.sys := by cases r <;> rfl

/-- A walk in progress holds a thread of the registry. -/
theorem WalkSafe.current (safe : WalkSafe w) (reg : Registered l older w.sys)
    (allowed : (ApiCall.regNextThread tp).allowed w.sys = true)
    (alive : w.sys.pMode tp = .static → w.sys.pState tp ≠ .final) : tp ∈ l := by
  obtain ⟨lt, held⟩ := of_decide_eq_true allowed
  refine reg.all tp lt alive (fun freed => ?_) fun u st mem => ?_
  · have none := (safe.refs.freedOk.unreferenced tp freed).1
    omega
  · have due := safe.refs.due (safe.refs.removing u tp st mem).lt mem (Frame.regRemove_checks tp st)
    have none : w.sys.pRefs tp = 0 := (safe.refs.view.check tp due.1).2.1
    have counted : w.sys.pRefs tp = w.sys.held tp + w.sys.refCount.handed tp := safe.refs.view.count tp
    omega

/-- The idle thread is always there. -/
theorem Registered.cons (reg : Registered l older s) (sched : SchedOk s.toCore) (refs : RefsOk s) : ∃ tp rest, l = tp :: rest := by
  have alive : s.pState idleThread ≠ .final := by
    rcases sched.idle.2 with is | is | is
    · cases is
    · rw [is]
      nofun
    · rw [← Option.some.inj is, sched.currp_state]
      nofun
  exact List.exists_cons_of_ne_nil (List.ne_nil_of_mem
    (reg.all idleThread sched.idle.1 (fun _ => alive) (fun freed => alive (refs.ended _ freed))
      fun u st mem => alive (refs.removing u _ st mem).ended))

theorem WalkSafe.step (safe : WalkSafe w) (sound : w.Sound lb) (taken : w.step lb = some w') : WalkSafe w' := by
  obtain ⟨k, is, mapped⟩ := Option.bind_eq_some_iff.1 taken
  obtain ⟨s, ran, rfl⟩ := Option.map_eq_some_iff.1 mapped
  obtain ⟨effect, kernel⟩ := next_step safe.kernel nofun ran
  have refs := next_refs safe.kernel safe.refs (sound.1 k is).1 ran
  obtain ⟨l, older, reg⟩ := safe.reg
  obtain ⟨l', older', reg'⟩ := next_registered safe.kernel safe.refs reg (sound.1 k is).2 ran
  have moved := safe.walk.moved effect.moves.nthd_le
  suffices walk : WalkInv (w.after lb s) by
    have sys : (w.after lb s).sys = s := by
      cases lb <;> simp only [Walk.after, Walk.told_sys, Walk.moved]
    refine ⟨?_, ?_, ?_, walk⟩ <;> rw [sys]
    · exact kernel
    · exact refs
    · exact ⟨l', older', reg'⟩
  cases lb with
  | other k => exact moved
  | first =>
    obtain ⟨⟨none, going⟩, ⟨⟩⟩ := Option.ite_none_right_eq_some.1 is
    obtain ⟨outside, -, -, rfl⟩ := next_call ran
    obtain ⟨tp, rest, rfl⟩ := reg'.cons kernel.core.sched refs
    have links := chRegFirstThread_links w.sys
    have link : w.sys.pNewer .rlist = .thread tp := by
      rw [← links.1]
      exact (reg'.links.pair (a := []) (b := rest.map .thread ++ [.rlist]) (by simp)).1
    have result := chRegFirstThread_result outside.thread link
    have first := WalkInv.first reg'
    simp only [Walk.after, ApiCall.body, result, Walk.told, none, going, safe.walk.present, Bool.true_and]
    exact first
  | next =>
    cases last : w.returned with
    | nil => simp [Walk.kernel, last] at is
    | cons tp rest =>
      cases going : w.ended with
      | true => simp [Walk.kernel, last, going] at is
      | false =>
        simp only [Walk.kernel, last, going, Option.some.injEq] at is
        subst is
        obtain ⟨outside, -, allowed, rfl⟩ := next_call ran
        have alive := sound.2 rfl tp (by rw [last]; rfl)
        have links := chRegNextThread_links w.sys tp
        have mem : tp ∈ l' := by
          have registered := reg.mem_iff.2 (safe.current reg allowed alive)
          rw [← registered_congr links.1 links.2] at registered
          exact reg'.mem_iff.1 registered
        have next := moved.next reg' last going mem
        simp only [Walk.after, ApiCall.body, chRegNextThread_result outside.thread tp]
        rwa [← links.1]

theorem Registered.chSysInit (cfg : Config) :
    Registered [mainThread, idleThread] (Kernel.chSysInit cfg).pOlder (Kernel.chSysInit cfg) where
  stage u t st mem := by cases chSysInit_ctx mem
  whole _ := rfl
  links := ⟨by decide, by simp [Kernel.chSysInit, mainThread, idleThread]⟩
  sorted := by decide
  lt := by
    show ∀ t ∈ [mainThread, idleThread], t < 2
    decide
  all t lt _ _ _ := by
    have lt : t < 2 := lt
    simp only [mainThread, idleThread, mem_cons, List.not_mem_nil, or_false]
    omega

theorem WalkSafe.init (cfg : Config) : WalkSafe (walks cfg).init where
  kernel := .init False cfg
  refs := .chSysInit cfg
  reg := ⟨_, _, .chSysInit cfg⟩
  walk := ⟨rfl, .nil, nofun, nofun, fun _ => nofun⟩

theorem WalkInv.walkOk (inv : WalkInv w) : WalkOk w := by
  have nodup : w.returned.Nodup := inv.ordered.imp fun gt => (Nat.ne_of_lt gt).symm
  exact ⟨inv.present, inv.ordered, fun ended t mem => List.count_eq_one_of_mem nodup (inv.complete ended t mem),
    length_le_of_lt nodup inv.lt⟩

/-- In every run in which `chRegNextThread` is not called on a static thread that has ended, no reference is taken to a thread
that a release may be about to free, and no link changes while a release is inside `REG_REMOVE`, a walk returns threads of the
registry in the order of their creation, and all those that stay in it. -/
theorem registry_walk {cfg : Config} (reached : (walks cfg).Reach Walk.Sound w) : WalkOk w := by
  have safe : WalkSafe w := reached.invariant (.init cfg) fun _ _ _ safe sound taken => safe.step sound taken
  exact safe.walk.walkOk

/-- The main thread walks past itself and the idle thread. -/
theorem registry_walk_two : ∃ w, (walks smallConfig).run [.first, .other .run, .next, .other .run, .other .run, .other .run,
      .other .run, .next] (walks smallConfig).init = some w ∧
    w.returned = [idleThread, mainThread] ∧ w.ended = true ∧ WalkOk w :=
  Lts.exists_run (by rfl) rfl fun reached => ⟨rfl, rfl, registry_walk reached⟩

/-! ## A static thread ends while a walk is at it -/

/-- What is seen of a walk. -/
structure WalkShown where
  returned : List Tid
  present : Bool
  registry : List Tid
deriving DecidableEq

def Walk.shows (w : Walk) : WalkShown := ⟨w.returned, w.present, w.sys.registry⟩

/-- The main thread has walked to the first of two static threads when both end, one after the other. -/
def endedWalk : List WalkLabel :=
  [.other (.call (.thdCreate 63 .static)), .other .run, .other (.call (.thdCreate 62 .static)), .other .run,
    .first, .other .run, .next, .other .run, .other .run, .other .run, .other .run,
    .next, .other .run, .other .run, .other .run, .other .run,
    .other (.call (.semWait 0)), .other .run, .other (.call (.thdExit 0)), .other .run, .other (.call (.thdExit 0)), .other .run,
    .other .isrEnter, .other (.icall (.semSignalI 0)), .other .isrExit, .other .run, .other .run, .next]

/-- The walk returns the second, which is not in the registry. -/
theorem registry_walk_stale : ((walks smallConfig).run endedWalk (walks smallConfig).init).map Walk.shows =
    some { returned := [3, 2, 1, 0], present := false, registry := [0, 1] } := by
  decide +kernel

end ChibiOS.Kernel
