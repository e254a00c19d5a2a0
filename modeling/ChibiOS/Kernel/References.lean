import Mathlib.Algebra.BigOperators.Group.Finset.Basic
import ChibiOS.Kernel.Scheduling
import ChibiOS.Lib.RefCount

/-!
# References to threads

`p_refs` counts the references held, those of a `chThdWait` or a `chRegNextThread` that
still has to release its own included. `chThdRelease` decrements it in a lock zone and
looks at the outcome behind it, so that a thread is freed safely as long as nobody
takes a reference in between.
-/

namespace ChibiOS.Kernel

open Function
open Lib Kernel.Core Sys RefCount
open Finset (range mem_range sum_congr)

section Moves

variable {φ : Foot} {c c' : Core} {t u v : Tid} {p : Frame → Bool}

/-- The calls in progress that will go on at such a frame. -/
def Core.frames (p : Frame → Bool) (c : Core) : Nat := ∑ u ∈ range c.nthd, (c.pCtx u).countP p

theorem Core.frames_update {fs : List Frame} (c' : Core) (p : Frame → Bool) (lt : u < c.nthd) (nthd : c'.nthd = c.nthd)
    (ctx : c'.pCtx = update c.pCtx u fs) : c'.frames p + (c.pCtx u).countP p = c.frames p + fs.countP p := by
  have mem : u ∈ range c.nthd := mem_range.2 lt
  have others : ∑ x ∈ (range c.nthd).erase u, (c'.pCtx x).countP p =
      ∑ x ∈ (range c.nthd).erase u, (c.pCtx x).countP p := by
    refine sum_congr rfl fun x other => ?_
    rw [ctx, update_of_ne (Finset.ne_of_mem_erase other)]
  have new : (c'.pCtx u).countP p = fs.countP p := by rw [ctx, update_self]
  have split := Finset.sum_erase_add _ (fun x : Nat => (c.pCtx x).countP p) mem
  have split' := Finset.sum_erase_add _ (fun x : Nat => (c'.pCtx x).countP p) mem
  rw [frames, frames, nthd]
  omega

theorem Core.frames_push (p : Frame → Bool) (g : Frame) (lt : c.currp < c.nthd) :
    (c.push g).frames p = c.frames p + if p g then 1 else 0 := by
  have pushed := frames_update (c.push g) p lt rfl rfl
  rw [List.countP_cons] at pushed
  omega

/-- A new thread has only the end of `chThdCreateI` before it. -/
theorem Core.frames_create (other : p .sysUnlock = false) (nthd : c'.nthd = c.nthd + 1)
    (ctx : c'.pCtx = update c.pCtx c.nthd [.sysUnlock]) : c'.frames p = c.frames p := by
  rw [frames, nthd, Finset.sum_range_succ, ctx, update_self]
  have old : ∀ x ∈ range c.nthd, (update c.pCtx c.nthd [.sysUnlock] x).countP p = (c.pCtx x).countP p :=
    fun x mem => by rw [update_of_ne (ne_of_lt (mem_range.1 mem))]
  rw [sum_congr rfl old]
  simp [frames, other]

/-- A step elsewhere neither enters nor leaves a release. -/
theorem Moves.frames_eq (moves : Moves φ c c') (sched : SchedOk c) (off : φ.reg = false)
    (keeps : ∀ f, p f = true → φ.keeps f = true) : c'.frames p = c.frames p := by
  have kept : ∀ l : List Frame, (l.filter φ.keeps).countP p = l.countP p := fun l => by
    rw [List.countP_filter]
    exact List.countP_congr fun f _ => by simpa using keeps f
  rw [frames, frames, moves.nthd_eq off]
  refine sum_congr rfl fun u _ => ?_
  rw [← kept, moves.kept sched u, kept]

theorem Core.frames_pos {f : Frame} (lt : u < c.nthd) (mem : f ∈ c.pCtx u) (is : p f = true) : 0 < c.frames p := by
  have le := Finset.single_le_sum (f := fun u => (c.pCtx u).countP p) (fun _ _ => Nat.zero_le _) (mem_range.2 lt)
  exact (List.countP_pos_iff.2 ⟨f, mem, is⟩).trans_le le

/-- If there is one it is in one context. -/
theorem Core.frames_one {f g : Frame} (one : c.frames p = 1) (ltU : u < c.nthd) (ltV : v < c.nthd) (memU : f ∈ c.pCtx u)
    (memV : g ∈ c.pCtx v) (isF : p f = true) (isG : p g = true) : u = v := by
  by_contra other
  have posU : 0 < (c.pCtx u).countP p := List.countP_pos_iff.2 ⟨f, memU, isF⟩
  have posV : 0 < (c.pCtx v).countP p := List.countP_pos_iff.2 ⟨g, memV, isG⟩
  have both : {u, v} ⊆ range c.nthd := by
    simpa [Finset.insert_subset_iff] using And.intro ltU ltV
  have le := Finset.sum_le_sum_of_subset (f := fun u => (c.pCtx u).countP p) both
  rw [Finset.sum_pair other, ← frames] at le
  omega

/-- A thread that has ended is not taken out of its state, and keeps its exit code. -/
theorem Move.ended (move : Move φ c c') (sched : SchedOk c) (ended : c.pState t = .final) :
    c'.pState t = .final ∧ c'.pU t = c.pU t := by
  cases move.fate sched t with
  | rests same unseen => exact ⟨same.trans ended, unseen.u⟩
  | wakes waits => rw [ended] at waits; cases waits
  | switches states => rcases states with ⟨was, -⟩ | ⟨was, -⟩ <;> cases ended.symm.trans was
  | returns _ _ _ _ _ _ same u => exact ⟨same.trans ended, u⟩
  | runs _ _ was | taken _ was | created _ _ was => cases ended.symm.trans was

theorem Moves.ended (moves : Moves φ c c') (sched : SchedOk c) (ended : c.pState t = .final) :
    c'.pState t = .final ∧ c'.pU t = c.pU t := by
  induction moves with
  | refl => exact ⟨ended, rfl⟩
  | tail before move ih =>
    obtain ⟨state, u⟩ := move.ended (schedOk sched before) ih.1
    exact ⟨state, u.trans ih.2⟩

end Moves

/-! ## The registry -/

/-- The registry of `n` threads: counts fit, threads not yet created have the reference
that their creator will hold, links lead to threads, and what has been freed was
allocated. -/
structure RegOk (n : Nat) (r : Registry) : Prop where
  small : ∀ t, r.pRefs t < 256
  fresh : ∀ t, n ≤ t → r.pRefs t = 1 ∧ r.held t = 1
  newer : ∀ x t, r.pNewer x = .thread t → t < n
  older : ∀ x t, r.pOlder x = .thread t → t < n
  freed : ∀ t ∈ r.freed, t < n ∧ r.pMode t ≠ .static

namespace RegOk

variable {s : Sys} {tp : Tid} {n : Nat}

/-- One thread's count and the references to it change. -/
theorem setRefs {r : Registry} {refs : Nat} (held : Nat) (ok : RegOk n r) (lt : tp < n) (small : refs < 256) :
    RegOk n { r with pRefs := update r.pRefs tp refs, held := update r.held tp held } where
  small t := by
    by_cases same : t = tp
    · subst same
      simpa using small
    · simpa [update_of_ne same] using ok.small t
  fresh t ge := by
    have other : t ≠ tp := by
      rintro rfl
      exact absurd lt (not_lt.2 ge)
    simpa only [update_of_ne other] using ok.fresh t ge
  newer := ok.newer
  older := ok.older
  freed := ok.freed

section

variable (ok : RegOk n s.toRegistry)
include ok

theorem addRef (lt : tp < n) : RegOk n (s.addRef tp).toRegistry :=
  ok.setRefs _ lt (Nat.mod_lt _ (by decide))

theorem dropRef (lt : tp < n) : RegOk n (s.dropRef tp).toRegistry := by
  have dropped := ok.setRefs (s.held tp) lt (Nat.mod_lt (s.pRefs tp + 255) (by decide))
  rwa [update_eq_self] at dropped

theorem handOver (lt : tp < n) : RegOk n (s.handOver tp).toRegistry := by
  have handed := ok.setRefs (s.held tp - 1) lt (ok.small tp)
  rwa [update_eq_self] at handed

theorem regRemove : RegOk n (s.regRemove tp).toRegistry where
  small := ok.small
  fresh := ok.fresh
  newer x t is := by
    simp only [Sys.regRemove, Function.update_apply] at is
    split at is <;> exact ok.newer _ t is
  older x t is := by
    simp only [Sys.regRemove, Function.update_apply] at is
    split at is <;> exact ok.older _ t is
  freed := ok.freed

end

/-- The thread created has one reference, its creator's. -/
theorem create (ok : RegOk s.nthd s.toRegistry) (prio : Nat) (mode : MemMode) :
    RegOk (s.nthd + 1) (s.chThdCreateI prio mode).toRegistry ∧
      (s.chThdCreateI prio mode).pRefs = s.pRefs ∧ (s.chThdCreateI prio mode).held = s.held := by
  obtain ⟨one, held⟩ := ok.fresh s.nthd le_rfl
  have refs : (s.chThdCreateI prio mode).pRefs = s.pRefs :=
    (congrArg (update s.pRefs s.nthd) one.symm).trans (update_eq_self ..)
  have held : (s.chThdCreateI prio mode).held = s.held :=
    (congrArg (update s.held s.nthd) held.symm).trans (update_eq_self ..)
  have grows : ∀ {t : Tid}, t < s.nthd → t < s.nthd + 1 := Nat.lt_succ_of_lt
  refine ⟨⟨fun t => refs ▸ ok.small t, fun t ge => ?_, fun x t is => ?_, fun x t is => ?_, fun t mem => ?_⟩, refs, held⟩
  · rw [refs, held]
    exact ok.fresh t (Nat.le_of_succ_le ge)
  · change update (update s.pNewer (.thread s.nthd) .rlist) (s.pOlder .rlist) (.thread s.nthd) x = .thread t at is
    by_cases last : x = s.pOlder .rlist
    · rw [last, update_self] at is
      cases is
      exact lt_add_one _
    · rw [update_of_ne last] at is
      by_cases new : x = .thread s.nthd
      · rw [new, update_self] at is
        cases is
      · rw [update_of_ne new] at is
        exact grows (ok.newer x t is)
  · change update (update s.pOlder (.thread s.nthd) (s.pOlder .rlist)) .rlist (.thread s.nthd) x = .thread t at is
    by_cases last : x = .rlist
    · rw [last, update_self] at is
      cases is
      exact lt_add_one _
    · rw [update_of_ne last] at is
      by_cases new : x = .thread s.nthd
      · rw [new, update_self] at is
        exact grows (ok.older _ t is)
      · rw [update_of_ne new] at is
        exact grows (ok.older x t is)
  · obtain ⟨lt, mode⟩ := ok.freed t mem
    exact ⟨grows lt, (update_of_ne lt.ne ..).trans_ne mode⟩

end RegOk

/-! ## Counting -/

/-- The frame will release a reference to `t`. -/
def Frame.releases (t : Tid) : Frame → Bool
  | .thdRelease tp => tp = t
  | _ => false

/-- The frame is of a release that has found the count of `t` at zero, and may give its
memory back. -/
def Frame.checks (t : Tid) : Frame → Bool
  | .thdReleaseCheck tp refs => tp = t ∧ refs = 0
  | .regRemove tp _ => tp = t
  | _ => false

theorem Frame.regRemove_checks (t : Tid) (st : RegStage) : (regRemove t st).checks t = true := decide_eq_true rfl

/-- The counts, with the calls that will release a reference, and those that have found
the count at zero and are not finished. -/
def Sys.refCount (s : Sys) : RefCount Tid where
  refs := s.pRefs
  held := s.held
  handed t := s.frames (Frame.releases t)
  checks t := s.frames (Frame.checks t)
  freed := s.freed

/-- The pointers loaded. -/
def RegStage.loaded : RegStage → List RegNode
  | .older x | .newer x => [x]
  | .forth x y | .back x y => [x, y]
  | _ => []

/-- The thread `u` is taking `t` out of the registry. -/
structure Removing (s : Sys) (u t : Tid) (st : RegStage) : Prop where
  lt : u < s.nthd
  ltT : t < s.nthd
  ended : s.pState t = .final
  dynamic : s.pMode t ≠ .static
  loaded : ∀ x ∈ st.loaded, ∀ t, x = .thread t → t < s.nthd

structure RefsOk (s : Sys) : Prop where
  reg : RegOk s.nthd s.toRegistry
  view : s.refCount.Ok
  ended : ∀ t ∈ s.freed, s.pState t = .final
  removing : ∀ u t st, .regRemove t st ∈ s.pCtx u → Removing s u t st

/-- What a step does to references. -/
structure RefsMove (s s' : Sys) : Prop where
  reg : RegOk s'.nthd s'.toRegistry
  steps : RefCount.Steps s.refCount s'.refCount
  freed : ∀ t ∈ s'.freed, t ∈ s.freed ∨ s.pState t = .final
  mode : ∀ t < s.nthd, s'.pMode t = s.pMode t

variable {φ : Foot} {s s' : Sys} {tp u v : Tid} {fs : List Frame}

theorem RefsMove.refsOk (move : RefsMove s s') (ok : RefsOk s) (sched : SchedOk s.toCore) (effect : Effect φ s s')
    (removing : ∀ u t st, .regRemove t st ∈ s'.pCtx u → Removing s u t st) : RefsOk s' where
  reg := move.reg
  view := move.steps.ok ok.view
  ended t mem := by
    refine (effect.moves.ended sched ?_).1
    rcases move.freed t mem with old | ended
    · exact ok.ended t old
    · exact ended
  removing u t st mem := by
    have grows := effect.moves.nthd_le
    obtain ⟨lt, ltT, ended, dynamic, loaded⟩ := removing u t st mem
    exact ⟨lt.trans_le grows, ltT.trans_le grows, (effect.moves.ended sched ended).1, move.mode t ltT ▸ dynamic,
      fun x mem t is => (loaded x mem t is).trans_le grows⟩

/-- A frame that has nothing to do with references. -/
theorem push_refCount {g : Frame} (lt : s.currp < s.nthd) (notRelease : ∀ t, g.releases t = false)
    (notCheck : ∀ t, g.checks t = false) : (s.onCore (.push g)).refCount = s.refCount := by
  have frames := fun p => frames_push p g lt
  ext t
  · rfl
  · rfl
  · exact (frames _).trans (by rw [notRelease t]; rfl)
  · exact (frames _).trans (by rw [notCheck t]; rfl)
  · rfl

theorem enter_refCount (lt : s.currp < s.nthd) : s.enter.refCount = s.refCount :=
  push_refCount lt (fun _ => rfl) fun _ => rfl

theorem addRef_refCount (small : s.pRefs tp < 255) : (s.addRef tp).refCount = s.refCount.take tp := by
  have count : (s.pRefs tp + 1) % 256 = s.pRefs tp + 1 := Nat.mod_eq_of_lt (by omega)
  simp [refCount, addRef, take, count]

theorem handOver_refCount (lt : s.currp < s.nthd) : (s.leaving tp).refCount = s.refCount.hand tp := by
  have frames := fun p => frames_push p (.thdRelease tp) lt
  ext t
  · rfl
  · rfl
  · refine (frames _).trans ?_
    by_cases same : t = tp
    · subst same
      simp [hand, refCount, Frame.releases]
    · simp [hand, refCount, Frame.releases, same, Ne.symm same]
  · exact (frames _).trans (by simp [hand, refCount, Frame.checks])
  · rfl

theorem pop_frames {g : Frame} (top : s.pCtx s.currp = g :: fs) (lt : s.currp < s.nthd) (p : Frame → Bool) :
    s.pop.frames p + (if p g then 1 else 0) = s.frames p := by
  have popped := frames_update s.pop.toCore p lt rfl rfl
  simp only [top, List.countP_cons, List.tail_cons] at popped
  omega

/-- A frame takes the place of another one of the same release. -/
theorem swap_refCount {f g : Frame} (top : s.pCtx s.currp = f :: fs) (lt : s.currp < s.nthd)
    (releases : ∀ t, g.releases t = f.releases t) (checks : ∀ t, g.checks t = f.checks t) :
    (s.pop.onCore (.push g)).refCount = s.refCount := by
  have frames (p : Frame → Bool) (same : p g = p f) : (s.pop.toCore.push g).frames p = s.frames p := by
    rw [frames_push (c := s.pop.toCore) p g lt, same]
    exact pop_frames top lt p
  ext t
  · rfl
  · rfl
  · exact frames _ (releases t)
  · exact frames _ (checks t)
  · rfl

/-- The release that the running thread is at. -/
theorem chThdRelease_refCount (top : s.pCtx s.currp = .thdRelease tp :: fs) (lt : s.currp < s.nthd)
    (pos : 0 < s.pRefs tp) (small : s.pRefs tp < 256) : (s.pop.chThdRelease tp).refCount = s.refCount.drop tp := by
  have count : (s.pRefs tp + 255) % 256 = s.pRefs tp - 1 := by omega
  have refs : (s.pop.dropRef tp).pRefs = update s.pRefs tp (s.pRefs tp - 1) := congrArg (update s.pRefs tp) count
  have left : ∀ p : Frame → Bool, ((s.pop.dropRef tp).onCore (.push (.thdReleaseCheck tp (s.pRefs tp - 1)))).frames p +
      (if p (.thdRelease tp) then 1 else 0) = s.frames p + if p (.thdReleaseCheck tp (s.pRefs tp - 1)) then 1 else 0 := fun p => by
    have pushed := frames_push (c := s.pop.toCore) p (.thdReleaseCheck tp (s.pRefs tp - 1)) lt
    have popped := pop_frames top lt p
    change (s.pop.toCore.push _).frames p + _ = _
    omega
  have body : s.pop.chThdRelease tp = ((s.pop.dropRef tp).onCore (.push (.thdReleaseCheck tp (s.pRefs tp - 1)))).enter := by
    rw [chThdRelease, refs, update_self]
    rfl
  rw [body, enter_refCount (s := (s.pop.dropRef tp).onCore (.push (.thdReleaseCheck tp (s.pRefs tp - 1)))) lt]
  ext t
  · exact congrFun refs t
  · rfl
  · have frames := left (Frame.releases t)
    by_cases same : t = tp
    · subst same
      simp only [Frame.releases, decide_true, if_true, Bool.false_eq_true, if_false, Nat.add_zero] at frames
      simp only [drop, refCount, update_self]
      omega
    · simp only [Frame.releases, Ne.symm same, decide_false, Bool.false_eq_true, if_false, add_zero] at frames
      simpa only [drop, refCount, update_of_ne same] using frames
  · have frames := left (Frame.checks t)
    simp only [Frame.checks, Bool.false_eq_true, if_false, Nat.add_zero, decide_eq_true_eq] at frames
    refine frames.trans ?_
    by_cases same : t = tp
    · subst same
      by_cases last : s.pRefs t = 1
      · simp [drop, refCount, last]
      · have : s.pRefs t - 1 ≠ 0 := by omega
        simp [drop, refCount, last, this]
    · simp only [Ne.symm same, false_and, if_false, Nat.add_zero, drop, refCount]
      by_cases last : s.pRefs tp = 1 <;> simp [last, update_of_ne same]
  · rfl

/-- A release that found the count at zero is finished. -/
theorem pop_refCount {f : Frame} (top : s.pCtx s.currp = f :: fs) (lt : s.currp < s.nthd)
    (releases : ∀ t, f.releases t = false) (checks : ∀ t, f.checks t = decide (tp = t)) (free : Bool) :
    { s.pop.refCount with freed := if free then tp :: s.freed else s.freed } = s.refCount.check tp free := by
  ext t
  · rfl
  · rfl
  · have frames := pop_frames top lt (Frame.releases t)
    rwa [releases t] at frames
  · have frames := pop_frames top lt (Frame.checks t)
    rw [checks t] at frames
    by_cases same : t = tp
    · subst same
      simp only [decide_true, if_true] at frames
      simp only [check, refCount, update_self]
      omega
    · simp only [Ne.symm same, decide_false, Bool.false_eq_true, if_false, add_zero] at frames
      simpa only [check, refCount, update_of_ne same] using frames
  · rfl

/-! ## Functions -/

/-- A call that creates no thread and frees none. -/
theorem RefsMove.counted (reg : RegOk s'.nthd s'.toRegistry) (steps : RefCount.Steps s.refCount s'.refCount)
    (kept : s'.freed = s.freed ∧ s'.pMode = s.pMode) : RefsMove s s' :=
  ⟨reg, steps, fun _ mem => .inl (kept.1 ▸ mem), fun t _ => congrFun kept.2 t⟩

theorem RefsMove.unchanged (reg : RegOk s'.nthd s'.toRegistry) (same : s'.refCount = s.refCount)
    (kept : s'.freed = s.freed ∧ s'.pMode = s.pMode) : RefsMove s s' :=
  .counted reg (same ▸ .refl) kept

/-- Scheduling has nothing to do with references. -/
theorem RefsMove.onCore {f : Core → Core} (move : RefsMove s s') (nthd : (f s'.toCore).nthd = s'.nthd)
    (ctx : (f s'.toCore).pCtx = s'.pCtx) : RefsMove s (s'.onCore f) where
  reg := by
    rw [show (s'.onCore f).nthd = s'.nthd from nthd]
    exact move.reg
  steps := by
    have view : (s'.onCore f).refCount = s'.refCount := by
      simp only [refCount, frames, Sys.onCore, nthd, ctx]
    rw [view]
    exact move.steps
  freed := move.freed
  mode := move.mode

theorem RefsMove.sleep (move : RefsMove s s') (st : TState) : RefsMove s (s'.onCore (.chSchGoSleepS st)) :=
  move.onCore (runFirst_prio).2 (runFirst_frame).1

section

variable (reg : RegOk s.nthd s.toRegistry)
include reg

theorem RefsMove.enter (lt : s.currp < s.nthd) : RefsMove s s.enter :=
  .unchanged reg (enter_refCount lt) ⟨rfl, rfl⟩

/-- A step away from the registry. -/
theorem Effect.refsMove (effect : Effect φ s s') (sched : SchedOk s.toCore) (off : φ.reg = false) : RefsMove s s' := by
  have same := effect.objs.reg off
  have nthd := effect.moves.nthd_eq off
  refine .unchanged (by rwa [nthd, same]) ?_ ⟨congrArg Registry.freed same, congrArg Registry.pMode same⟩
  ext t
  · exact congrFun (congrArg Registry.pRefs same) t
  · exact congrFun (congrArg Registry.held same) t
  · refine effect.moves.frames_eq sched off fun f is => ?_
    cases f <;> first | cases is | simp [Foot.keeps, off]
  · refine effect.moves.frames_eq sched off fun f is => ?_
    cases f <;> first | cases is | simp [Foot.keeps, off]
  · rw [show s'.refCount.freed = s.refCount.freed from congrArg Registry.freed same]

theorem chThdCreateI_refs (prio : Nat) (mode : MemMode) : RefsMove s (s.chThdCreateI prio mode) := by
  obtain ⟨reg, refs, held⟩ := reg.create prio mode
  have same : (s.chThdCreateI prio mode).refCount = s.refCount := by
    ext t
    · exact congrFun refs t
    · exact congrFun held t
    · exact frames_create rfl rfl rfl
    · exact frames_create rfl rfl rfl
    · rfl
  exact ⟨reg, same ▸ .refl, fun _ => .inl, fun t lt => update_of_ne lt.ne ..⟩

omit reg in
theorem Core.chSchWakeupS_ctx (c : Core) (t : Tid) (msg : Msg) :
    (c.chSchWakeupS t msg).nthd = c.nthd ∧ (c.chSchWakeupS t msg).pCtx = c.pCtx := by
  rw [chSchWakeupS]
  split <;> exact ⟨rfl, rfl⟩

theorem chThdCreate_refs (lt : s.currp < s.nthd) (prio : Nat) (mode : MemMode) :
    RefsMove s (s.chThdCreate prio mode) := by
  have created := chThdCreateI_refs (s := s.enter) reg prio mode
  have woken := fun c : Core => c.chSchWakeupS_ctx s.nthd rdyOk
  have all : RefsMove s (s.enter.chThdCreateI prio mode) :=
    ⟨created.reg, by rw [← enter_refCount lt]; exact created.steps, created.freed, created.mode⟩
  exact all.onCore (woken _).1 (woken _).2

end

theorem Core.flush_readyI (q : QueueId) : ∀ (n : Nat) (c : Core),
    (c.flush q .chSchReadyI n).nthd = c.nthd ∧ (c.flush q .chSchReadyI n).pCtx = c.pCtx
  | 0, _ => ⟨rfl, rfl⟩
  | n + 1, c => by
    rw [flush, fifoRemove]
    cases c.queue q with
    | nil => exact ⟨rfl, rfl⟩
    | cons t l => exact flush_readyI q n ((c.setQueue q l).chSchReadyI t)

theorem chThdExitS_refs (reg : RegOk s.nthd s.toRegistry) (msg : Msg) : RefsMove s (s.chThdExitS msg) := by
  have flushed := flush_readyI (.pWaiting s.currp) (s.queue (.pWaiting s.currp)).length
    (s.toCore.setU s.currp (.exitcode msg))
  have woken : RefsMove s (s.onCore fun c => (c.setU s.currp (.exitcode msg)).flush (.pWaiting s.currp) .chSchReadyI
      (c.queue (.pWaiting s.currp)).length) := (RefsMove.unchanged reg rfl ⟨rfl, rfl⟩).onCore flushed.1 flushed.2
  rw [chThdExitS]
  refine RefsMove.sleep ?_ .final
  split
  · exact ⟨woken.reg.regRemove, woken.steps, woken.freed, woken.mode⟩
  · exact woken

/-- A reference may be taken to a thread: its count has room, it has not been freed, and
no release has found its count at zero and has still to look whether to free it, or is
about to. -/
def Sys.referable (s : Sys) (tp : Tid) : Prop :=
  s.pRefs tp < 255 ∧ tp ∉ s.freed ∧ ∀ u < s.nthd, ∀ f ∈ s.pCtx u, f.checks tp = false

instance (s : Sys) (tp : Tid) : Decidable (s.referable tp) := by
  unfold Sys.referable
  infer_instance

theorem Sys.referable.noCheck (may : s.referable tp) : s.refCount.checks tp = 0 :=
  Finset.sum_eq_zero (s := range s.nthd) (f := fun u => (s.pCtx u).countP (Frame.checks tp)) fun u mem =>
    List.countP_eq_zero.2 fun f is => by simp [may.2.2 u (mem_range.1 mem) f is]

section

variable (reg : RegOk s.nthd s.toRegistry) (lt : s.currp < s.nthd)
include reg lt

/-- The caller of a function gets a reference in its lock zone. -/
theorem addRef_refs (ltT : tp < s.nthd) (small : s.pRefs tp < 255) (notFreed : tp ∉ s.refCount.freed)
    (noCheck : s.refCount.checks tp = 0) (r : Ret) :
    RefsMove s ((s.enter.addRef tp).ret r) := by
  refine .counted (reg.addRef ltT) ?_ ⟨rfl, rfl⟩
  have told : ((s.enter.addRef tp).ret r).refCount = (s.enter.addRef tp).refCount := rfl
  rw [told, addRef_refCount (s := s.enter) small, enter_refCount lt]
  exact .single (.take tp notFreed noCheck)

theorem chRegFirstThread_refs (may : ∀ t, s.pNewer .rlist = .thread t → s.referable t) : RefsMove s s.chRegFirstThread := by
  unfold chRegFirstThread zone
  dsimp only
  split
  · exact .unchanged reg (enter_refCount lt) ⟨rfl, rfl⟩
  next t first =>
    have ok := may t first
    exact addRef_refs reg lt (reg.newer _ t first) ok.1 ok.2.1 ok.noCheck _

section

variable (ltT : tp < s.nthd) (held : 0 < s.held tp)
include ltT held

/-- The caller's reference is left to a release. -/
theorem handOver_refs : RefsMove s (s.leaving tp) :=
  .counted (reg.handOver ltT) (by rw [handOver_refCount lt]; exact .single (.hand tp held)) ⟨rfl, rfl⟩

theorem chRegNextThread_refs (may : ∀ t, s.pNewer (.thread tp) = .thread t → s.referable t) :
    RefsMove s (s.chRegNextThread tp) := by
  have handed := handOver_refs reg lt ltT held
  have view : (s.leaving tp).refCount = s.refCount.hand tp := handOver_refCount lt
  have entered := RefsMove.enter handed.reg lt
  unfold chRegNextThread zone
  dsimp only
  split
  · exact .counted entered.reg (handed.steps.trans entered.steps) ⟨rfl, rfl⟩
  next t newer =>
    have ok := may t newer
    have given := addRef_refs handed.reg lt (reg.newer _ t newer) ok.1
      ok.2.1 (by rw [view]; exact ok.noCheck) (.thread (some t))
    exact .counted given.reg (handed.steps.trans given.steps) ⟨rfl, rfl⟩

theorem chThdWait_refs : RefsMove s (s.chThdWait tp) := by
  have handed := handOver_refs reg lt ltT held
  have view : ((s.leaving tp).enter.onCore (.push (.thdWait tp))).refCount =
      (s.leaving tp).refCount :=
    (push_refCount (s := (s.leaving tp).enter) (g := .thdWait tp) lt (fun _ => rfl) fun _ => rfl).trans
      (enter_refCount (s := s.leaving tp) lt)
  have waits : RefsMove s ((s.leaving tp).enter.onCore (.push (.thdWait tp))) :=
    ⟨handed.reg, by rw [view]; exact handed.steps, handed.freed, handed.mode⟩
  unfold chThdWait zone
  dsimp only
  split
  · exact (waits.onCore rfl rfl).sleep .wtexit
  · exact waits

end

end

/-- The release that the running thread is at. -/
theorem chThdRelease_refs (top : s.pCtx s.currp = .thdRelease tp :: fs) (ok : s.refCount.Ok)
    (reg : RegOk s.nthd s.toRegistry) (lt : s.currp < s.nthd) : RefsMove s (s.pop.chThdRelease tp) := by
  have handed : 0 < s.refCount.handed tp := frames_pos lt (top ▸ List.mem_cons_self) (by simp [Frame.releases])
  have pos : 0 < s.pRefs tp := by
    have counted : s.pRefs tp = s.held tp + s.refCount.handed tp := ok.count tp
    omega
  have ltT : tp < s.nthd := by
    by_contra ge
    have fresh := reg.fresh tp (not_lt.1 ge)
    have counted : s.pRefs tp = s.held tp + s.refCount.handed tp := ok.count tp
    omega
  refine .counted (reg.dropRef ltT) ?_ ⟨rfl, rfl⟩
  rw [chThdRelease_refCount top lt pos (reg.small tp)]
  exact .single (.drop tp handed)

theorem Sys.pop_push (s : Sys) (f : Frame) : (s.onCore (.push f)).pop = s := by
  have ctx : update (update s.pCtx s.currp (f :: s.pCtx s.currp)) s.currp
      (update s.pCtx s.currp (f :: s.pCtx s.currp) s.currp).tail = s.pCtx := by simp
  exact congrArg (fun ctx => { s with pCtx := ctx }) ctx

/-- The caller releases a reference of its own. -/
theorem thdRelease_refs (ok : RefsOk s) (lt : s.currp < s.nthd) (ltT : tp < s.nthd) (held : 0 < s.held tp) :
    RefsMove s (((s.handOver tp).ret .void).chThdRelease tp) := by
  have handed := handOver_refs ok.reg lt ltT held
  have top : (s.leaving tp).pCtx s.currp = .thdRelease tp :: s.pCtx s.currp :=
    update_self ..
  have release := chThdRelease_refs (s := (s.leaving tp).ret .void) top
    (handed.steps.ok ok.view) handed.reg lt
  have same : ((s.leaving tp).ret .void).pop = (s.handOver tp).ret .void :=
    ((s.handOver tp).ret .void).pop_push (.thdRelease tp)
  rw [same] at release
  exact .counted release.reg (handed.steps.trans release.steps) ⟨rfl, rfl⟩

/-- A release that found the count at zero has a thread to look at. -/
theorem RefsOk.due {f : Frame} (ok : RefsOk s) (lt : u < s.nthd) (mem : f ∈ s.pCtx u) (checks : f.checks tp = true) :
    0 < s.refCount.checks tp ∧ tp < s.nthd := by
  have due : 0 < s.refCount.checks tp := frames_pos lt mem checks
  refine ⟨due, ?_⟩
  by_contra ge
  have fresh : s.pRefs tp = 1 := (ok.reg.fresh tp (not_lt.1 ge)).1
  have zero : s.pRefs tp = 0 := (ok.view.check tp due).2.1
  omega

theorem thdReleaseCheck_refs {refs : Nat} (top : s.pCtx s.currp = .thdReleaseCheck tp refs :: fs)
    (ok : RefsOk s) (lt : s.currp < s.nthd) : RefsMove s (s.pop.thdReleaseCheck tp refs) := by
  rw [thdReleaseCheck]
  split
  next free =>
    exact .unchanged ok.reg (swap_refCount top lt (fun _ => rfl) fun t => by simp [Frame.checks, free.1]) ⟨rfl, rfl⟩
  · refine .counted ok.reg ?_ ⟨rfl, rfl⟩
    cases refs with
    | zero =>
      have checks : ∀ t, (Frame.thdReleaseCheck tp 0).checks t = decide (tp = t) := fun t => by simp [Frame.checks]
      have due : _ ∧ tp < _ := ok.due lt (top ▸ List.mem_cons_self) (by simp [Frame.checks])
      rw [show s.pop.refCount = _ from pop_refCount top lt (fun _ => rfl) checks false]
      exact .single (.check tp _ due.1)
    | succ n =>
      have same : s.pop.refCount = s.refCount := by
        ext t
        · rfl
        · rfl
        · exact pop_frames top lt (Frame.releases t)
        · have frames := pop_frames top lt (Frame.checks t)
          rwa [if_neg (by simp [Frame.checks])] at frames
        · rfl
      exact same ▸ .refl

/-- A load or a store of `REG_REMOVE`, or the free after it. -/
theorem regRemoveStep_refs {st : RegStage} (top : s.pCtx s.currp = .regRemove tp st :: fs) (ok : RefsOk s)
    (lt : s.currp < s.nthd) : RefsMove s (s.pop.regRemoveStep tp st) := by
  have mem : .regRemove tp st ∈ s.pCtx s.currp := top ▸ .head _
  have removing := ok.removing _ _ _ mem
  have reg := ok.reg
  have swap (st' : RegStage) : (s.pop.removes tp st').refCount = s.refCount := swap_refCount top lt (fun _ => rfl) fun _ => rfl
  have stored {x y : RegNode} {links : RegNode → RegNode} (old : ∀ x t, links x = .thread t → t < s.nthd)
      (new : ∀ t, y = .thread t → t < s.nthd) (z : RegNode) (t : Tid) (is : update links x y z = .thread t) : t < s.nthd := by
    rcases eq_or_ne z x with rfl | other
    · exact new t (by rwa [update_self] at is)
    · exact old z t (by rwa [update_of_ne other] at is)
  cases st with
  | forth older newer =>
    exact .unchanged ⟨reg.small, reg.fresh, stored reg.newer (removing.loaded newer (by simp [RegStage.loaded])), reg.older, reg.freed⟩
      (swap _) ⟨rfl, rfl⟩
  | back newer older =>
    exact .unchanged ⟨reg.small, reg.fresh, reg.newer, stored reg.older (removing.loaded older (by simp [RegStage.loaded])), reg.freed⟩
      (swap _) ⟨rfl, rfl⟩
  | done =>
    have due := ok.due lt mem (Frame.regRemove_checks tp _)
    refine ⟨⟨reg.small, reg.fresh, reg.newer, reg.older, fun t mem => ?_⟩, ?_, fun t mem => ?_, fun _ _ => rfl⟩
    · rcases List.mem_cons.1 mem with rfl | mem
      · exact ⟨due.2, removing.dynamic⟩
      · exact reg.freed t mem
    · have freed := pop_refCount top lt (fun _ => rfl) (fun _ => rfl) true
      rw [show (s.pop.regRemoveStep tp .done).refCount = _ from freed]
      exact .single (.check tp _ due.1)
    · rcases List.mem_cons.1 mem with rfl | mem
      · exact .inr removing.ended
      · exact .inl mem
  | _ => exact .unchanged reg (swap _) ⟨rfl, rfl⟩

/-- A thread has one release that has found its count at zero. -/
theorem RefsOk.alone {f g : Frame} (ok : RefsOk s) (ltU : u < s.nthd) (ltV : v < s.nthd) (memU : f ∈ s.pCtx u)
    (memV : g ∈ s.pCtx v) (isF : f.checks tp = true) (isG : g.checks tp = true) : u = v :=
  frames_one (ok.view.check tp (ok.due ltU memU isF).1).1 ltU ltV memU memV isF isG

/-! ## Removals -/

/-- Where the removal goes on. -/
def RegStage.after (tp : Tid) (r : Registry) : RegStage → Option RegStage
  | .start => some (.older (r.pOlder (.thread tp)))
  | .older o => some (.forth o (r.pNewer (.thread tp)))
  | .forth .. => some .between
  | .between => some (.newer (r.pNewer (.thread tp)))
  | .newer n => some (.back n (r.pOlder (.thread tp)))
  | .back .. => some .done
  | .done => none

theorem RegStage.after_loaded {r : Registry} {st st' : RegStage} {x : RegNode} (after : st.after tp r = some st')
    (mem : x ∈ st'.loaded) : x ∈ st.loaded ∨ x = r.pOlder (.thread tp) ∨ x = r.pNewer (.thread tp) := by
  cases st <;> cases after <;> grind [loaded]

theorem pop_ctx {f : Frame} (top : s.pCtx s.currp = [f]) : s.pop.pCtx = update s.pCtx s.currp [] := by
  rw [show s.pop.pCtx = update s.pCtx s.currp (s.pCtx s.currp).tail from rfl, top, List.tail_cons]

theorem removes_ctx {f : Frame} (top : s.pCtx s.currp = [f]) (tp : Tid) (st : RegStage) :
    (s.pop.removes tp st).pCtx = update s.pCtx s.currp [.regRemove tp st] := by
  rw [show (s.pop.removes tp st).pCtx = update s.pop.pCtx s.currp (_ :: s.pop.pCtx s.currp) from rfl, pop_ctx top]
  simp

theorem regRemoveStep_ctx {st : RegStage} (top : s.pCtx s.currp = [.regRemove tp st]) :
    (s.pop.regRemoveStep tp st).pCtx =
      update s.pCtx s.currp ((st.after tp s.toRegistry).map (Frame.regRemove tp)).toList := by
  cases st with
  | done => exact pop_ctx top
  | _ => exact removes_ctx top tp _

theorem mem_update {ctx : Tid → List Frame} {f : Frame} {v : Tid} (mem : f ∈ update ctx v fs u) :
    u = v ∧ f ∈ fs ∨ u ≠ v ∧ f ∈ ctx u := by
  rcases eq_or_ne u v with rfl | other
  · exact .inl ⟨rfl, by rwa [update_self] at mem⟩
  · exact .inr ⟨other, by rwa [update_of_ne other] at mem⟩

/-- The same removals are in progress. -/
def SameRemovals (s s' : Sys) : Prop := ∀ u t st, .regRemove t st ∈ s'.pCtx u ↔ .regRemove t st ∈ s.pCtx u

theorem enter_removals : SameRemovals s s.enter := fun u t st => by
  rw [show s.enter.pCtx = update s.pCtx s.currp (.sysUnlock :: s.pCtx s.currp) from rfl]
  rcases eq_or_ne u s.currp with rfl | other
  · simp
  · rw [update_of_ne other]

/-- A new thread takes none out of the registry. -/
theorem chThdCreateI_removals (refs : ∀ u t st, .regRemove t st ∈ s.pCtx u → u < s.nthd) (prio : Nat) (mode : MemMode) :
    SameRemovals s (s.chThdCreateI prio mode) := fun u t st => by
  rw [show (s.chThdCreateI prio mode).pCtx = update s.pCtx s.nthd [.sysUnlock] from rfl]
  rcases eq_or_ne u s.nthd with rfl | other
  · simpa using fun mem => lt_irrefl _ (refs _ t st mem)
  · rw [update_of_ne other]

/-- A step changes the removals only if it is one of them. -/
theorem next_removals {l : Label} (ok : KernelOk False s) (refs : RefsOk s) (taken : next l s = some s') :
    SameRemovals s s' ∧ (l.foot s).rel = false ∨
      ∃ f : Frame, l = .run ∧ s.pCtx s.currp = [f] ∧ f.foot.rel = true ∧ s' = f.run s.pop := by
  have effect := (next_step ok nofun taken).1
  have kept (keeps : ∀ t st, (l.foot s).keeps (.regRemove t st) = true) : SameRemovals s s' := fun u t st => by
    have mem : ∀ fs : List Frame, .regRemove t st ∈ fs.filter (l.foot s).keeps ↔ .regRemove t st ∈ fs := by simp [keeps]
    rw [← mem, effect.moves.kept ok.core.sched u, mem]
  have lt := fun u t st mem => (refs.removing u t st mem).lt
  cases l with
  | call f =>
    obtain ⟨-, -, -, rfl⟩ := next_call taken
    cases f with
    | thdCreate prio mode =>
      have woken := ((s.enter.chThdCreateI prio mode).toCore.chSchWakeupS_ctx s.nthd rdyOk).2
      have created := chThdCreateI_removals (s := s.enter) (fun u t st mem => lt u t st ((enter_removals u t st).1 mem)) prio mode
      refine .inl ⟨fun u t st => ?_, rfl⟩
      exact (iff_of_eq (congrArg (_ ∈ · u) woken)).trans ((created u t st).trans (enter_removals u t st))
    | _ => exact .inl ⟨kept fun _ _ => rfl, rfl⟩
  | icall f =>
    obtain ⟨-, -, rfl⟩ := next_icall taken
    cases f with
    | thdCreateI prio => exact .inl ⟨chThdCreateI_removals lt prio .static, rfl⟩
    | _ => exact .inl ⟨kept fun _ _ => rfl, rfl⟩
  | scall f => cases f <;> exact .inl ⟨kept fun _ _ => rfl, rfl⟩
  | run =>
    obtain ⟨f, fs, -, top, -, rfl⟩ := next_run taken
    rw [Label.foot_run top] at kept ⊢
    have ctx := top ▸ ok.core.ctl.current
    cases f with
    | thdReleaseCheck tp n => exact .inr ⟨_, rfl, ctx.last rfl ▸ top, rfl, rfl⟩
    | regRemove tp st => exact .inr ⟨_, rfl, ctx.last rfl ▸ top, rfl, rfl⟩
    | _ => exact .inl ⟨kept fun _ _ => rfl, rfl⟩
  | _ => exact .inl ⟨kept fun _ _ => rfl, rfl⟩

/-- A thread is taken out of the registry that has ended and whose memory can be given back. -/
theorem next_removing {l : Label} (ok : KernelOk False s) (refs : RefsOk s) (taken : next l s = some s') (t : Tid)
    (st : RegStage) (mem : .regRemove t st ∈ s'.pCtx u) : Removing s u t st := by
  rcases next_removals ok refs taken with ⟨same, -⟩ | ⟨f, rfl, top, rel, rfl⟩
  · exact refs.removing u t st ((same u t st).1 mem)
  have lt := ok.core.sched.currp_lt
  cases f with
  | thdReleaseCheck tp n =>
    change _ ∈ (s.pop.thdReleaseCheck tp n).pCtx u at mem
    rw [thdReleaseCheck] at mem
    split at mem
    next free =>
      rcases mem_update (removes_ctx top tp .start ▸ mem) with ⟨rfl, new⟩ | ⟨-, old⟩
      · have due : _ ∧ tp < _ := refs.due lt (top ▸ List.mem_cons_self) (by simp [Frame.checks, free.1])
        cases List.mem_singleton.1 new
        exact ⟨lt, due.2, free.2.1, free.2.2, by simp [RegStage.loaded]⟩
      · exact refs.removing u t st old
    · rcases mem_update (pop_ctx top ▸ mem) with ⟨-, new⟩ | ⟨-, old⟩
      · cases new
      · exact refs.removing u t st old
  | regRemove tp st' =>
    rcases mem_update (regRemoveStep_ctx top ▸ mem) with ⟨rfl, new⟩ | ⟨-, old⟩
    · obtain ⟨lt, ltT, ended, dynamic, loaded⟩ := refs.removing s.currp tp st' (top ▸ .head _)
      obtain ⟨st, after, ⟨⟩⟩ : ∃ st₁, st'.after tp s.toRegistry = some st₁ ∧ Frame.regRemove tp st₁ = .regRemove t st := by
        simpa using new
      refine ⟨lt, ltT, ended, dynamic, fun x mem t is => ?_⟩
      rcases RegStage.after_loaded after mem with old | rfl | rfl
      · exact loaded x old t is
      · exact refs.reg.older _ t is
      · exact refs.reg.newer _ t is
    · exact refs.removing u t st old
  | _ => cases rel

/-! ## Steps -/

/-- The node of a thread. -/
def RegNode.thread? : RegNode → Option Tid
  | .rlist => none
  | .thread tp => some tp

/-- The thread to which a step gives its caller a reference. -/
def Label.takes (s : Sys) : Label → Option Tid
  | .call (.thdAddRef tp) => some tp
  | .call .regFirstThread => (s.pNewer .rlist).thread?
  | .call (.regNextThread tp) => (s.pNewer (.thread tp)).thread?
  | _ => none

theorem RegNode.thread?_mem {x : RegNode} (is : x = .thread tp) : tp ∈ x.thread? := is ▸ rfl

theorem next_refs {l : Label} (ok : KernelOk False s) (refs : RefsOk s) (may : ∀ t ∈ l.takes s, s.referable t)
    (taken : next l s = some s') : RefsOk s' := by
  have effect := (next_step ok nofun taken).1
  have lt := ok.core.sched.currp_lt
  suffices move : RefsMove s s' from move.refsOk refs ok.core.sched effect fun u => next_removing ok refs taken
  have reg := refs.reg
  cases l with
  | call f =>
    obtain ⟨-, empty, allowed, rfl⟩ := next_call taken
    cases f with
    | thdCreate prio mode => exact chThdCreate_refs reg lt prio mode
    | thdTerminate tp =>
      exact .unchanged ⟨reg.small, reg.fresh, reg.newer, reg.older, reg.freed⟩ (enter_refCount lt) ⟨rfl, rfl⟩
    | thdExit msg =>
      have exits := chThdExitS_refs (s := { s with locked := true }) reg msg
      exact ⟨exits.reg, exits.steps, exits.freed, exits.mode⟩
    | thdWait tp =>
      obtain ⟨ltT, -, held⟩ := of_decide_eq_true allowed
      exact chThdWait_refs reg lt ltT held
    | thdAddRef tp =>
      have may := may tp rfl
      exact addRef_refs reg lt (of_decide_eq_true allowed) may.1 may.2.1 may.noCheck _
    | thdRelease tp =>
      obtain ⟨ltT, held⟩ := of_decide_eq_true allowed
      exact thdRelease_refs refs lt ltT held
    | regFirstThread => exact chRegFirstThread_refs reg lt fun t is => may t (RegNode.thread?_mem is)
    | regNextThread tp =>
      obtain ⟨ltT, held⟩ := of_decide_eq_true allowed
      exact chRegNextThread_refs reg lt ltT held fun t is => may t (RegNode.thread?_mem is)
    | _ => exact effect.refsMove reg ok.core.sched rfl
  | scall f =>
    obtain ⟨-, -, -, rfl⟩ := next_scall taken
    cases f with
    | thdExitS msg => exact chThdExitS_refs reg msg
    | _ => exact effect.refsMove reg ok.core.sched rfl
  | icall f =>
    obtain ⟨-, -, rfl⟩ := next_icall taken
    cases f with
    | thdCreateI prio => exact chThdCreateI_refs reg prio .static
    | _ => exact effect.refsMove reg ok.core.sched rfl
  | run =>
    obtain ⟨f, fs, -, top, -, rfl⟩ := next_run taken
    rw [Label.foot_run top] at effect
    cases f with
    | thdRelease tp => exact chThdRelease_refs top refs.view reg lt
    | thdReleaseCheck tp n => exact thdReleaseCheck_refs top refs lt
    | regRemove tp st => exact regRemoveStep_refs top refs lt
    | _ => exact effect.refsMove reg ok.core.sched rfl
  | _ => exact effect.refsMove reg ok.core.sched rfl

theorem chSysInit_ctx {cfg : Config} {f : Frame} (mem : f ∈ (Kernel.chSysInit cfg).pCtx u) : f = .sysUnlock := by
  unfold Kernel.chSysInit init at mem
  dsimp only at mem
  split at mem
  · cases mem
  · exact List.mem_singleton.1 mem

theorem RefsOk.chSysInit (cfg : Config) : RefsOk (Kernel.chSysInit cfg) where
  reg := by
    have nthd : (Kernel.chSysInit cfg).nthd = 2 := rfl
    rw [nthd]
    refine ⟨fun _ => (by decide : 1 < 256), fun _ _ => ⟨rfl, rfl⟩, fun x t is => ?_, fun x t is => ?_, nofun⟩ <;> cases x with
    | rlist => cases is; decide
    | thread u =>
      unfold Kernel.chSysInit at is
      dsimp only at is
      split at is <;> cases is
      decide
  view := by
    have frames : ∀ p : Frame → Bool, p .sysUnlock = false → (Kernel.chSysInit cfg).frames p = 0 := fun p other =>
      Finset.sum_eq_zero fun u _ => List.countP_eq_zero.2 fun f mem => by
        rw [chSysInit_ctx mem, other]
        simp
    refine ⟨fun t => ?_, fun t due => ?_, nofun, .nil⟩
    · exact congrArg (1 + ·) (frames (Frame.releases t) rfl).symm
    · exact absurd (frames (Frame.checks t) rfl) (Nat.ne_of_gt due)
  ended := nofun
  removing u t st mem := nomatch chSysInit_ctx mem

/-- Working areas are given back once, those of threads that have ended, and to which
nobody has a reference: the application holds none, and no call is about to release one. -/
structure FreedOk (s : Sys) : Prop where
  once : s.freed.Nodup
  ended : ∀ t ∈ s.freed, s.pState t = .final ∧ s.pMode t ≠ .static
  unreferenced : ∀ t ∈ s.freed, s.held t = 0 ∧ ∀ u < s.nthd, .thdRelease t ∉ s.pCtx u

theorem RefsOk.freedOk (refs : RefsOk s) : FreedOk s where
  once := refs.view.nodup
  ended t mem := ⟨refs.ended t mem, (refs.reg.freed t mem).2⟩
  unreferenced t mem := by
    have counted : s.pRefs t = s.held t + s.frames (Frame.releases t) := refs.view.count t
    have zero : s.pRefs t = 0 := refs.view.freed t mem
    refine ⟨by omega, fun u lt is => ?_⟩
    have pos : 0 < s.frames (Frame.releases t) := frames_pos lt is (by simp [Frame.releases])
    omega

/-- Runs in which no reference is taken to a thread after a release has found its count
at zero, until that release has found that it is not to free the thread, and never if it
frees it. -/
theorem threads_freed_safely {cfg : Config} (reached : (kernelLts cfg).Reach (fun s l => ∀ t ∈ l.takes s, s.referable t) s) :
    FreedOk s := by
  have all := reached.invariant (I := fun s => KernelOk False s ∧ RefsOk s) ⟨.init False cfg, .chSysInit cfg⟩
    fun s l s' inv may taken => ⟨(next_step inv.1 nofun taken).2, next_refs inv.1 inv.2 may taken⟩
  exact all.2.freedOk

/-- The main thread waits for a thread to end and gives its memory back. -/
theorem threads_freed_safely_waited : ∃ s,
    (kernelLts smallConfig).run [.call (.thdCreate 63 .heap), .run, .call .regFirstThread, .run, .call (.thdWait 2), .run,
      .call (.thdExit 5), .run, .run, .run, .run, .run, .run, .run, .run, .run, .run, .run, .run] (chSysInit smallConfig) = some s ∧
    s.freed = [2] ∧ s.pRet (some 0) = .msg 5 ∧ FreedOk s :=
  Lts.exists_run (by rfl) rfl fun reached => ⟨rfl, rfl, threads_freed_safely reached⟩

/-- The main thread releases the last reference to a thread that has ended and is
preempted before it looks at the outcome. Another thread walks the registry, and holds a
reference to the ended thread when the main thread gives its memory back. -/
def staleReleaseRun : List Label :=
  [.call (.thdCreate 70 .heap), .run, .call (.thdExit 0), .run,
    .call (.thdCreate 80 .static), .run, .call (.semWait 0), .run,
    .call (.thdRelease 2), .run, .isrEnter, .icall (.semSignalI 0), .isrExit, .run, .run,
    .call .regFirstThread, .run, .call (.regNextThread 0), .run, .run, .run, .run,
    .call (.regNextThread 1), .run, .run, .run, .run, .call (.semWait 0), .run, .run,
    .run, .run, .run, .run, .run, .run, .run]

theorem threads_freed_safely_stale : ∃ s,
    (kernelLts smallConfig).run staleReleaseRun (chSysInit smallConfig) = some s ∧
    s.freed = [2] ∧ s.held 2 = 1 ∧ s.pRefs 2 = 1 ∧ s.pRet (some 3) = .thread (some 2) ∧ ¬ FreedOk s := by
  refine ⟨_, rfl, rfl, rfl, rfl, rfl, fun freed => ?_⟩
  have none := (freed.unreferenced 2 (.head _)).1
  cases none

end ChibiOS.Kernel
