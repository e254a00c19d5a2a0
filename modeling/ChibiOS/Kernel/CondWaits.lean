import ChibiOS.Kernel.Answers
import ChibiOS.Kernel.Scheduling
import ChibiOS.Kernel.Wakes

/-!
# Waits for condition variables

A wait gives up the last mutex of the caller's chain, and gets it back unless it
times out. Meanwhile the rest of the chain stays as it is: only its owner unlocks a
mutex, and a thread that does not run gets one only if it is waiting for it.

`CondStep` says what a step that concerns condition variables can be.
-/

namespace ChibiOS.Kernel

open Function (update update_self update_of_ne)
open Lib Kernel.Core Sys SameWaits

/-! ## Steps that concern condition variables -/

/-- Queues, priorities, waits and mutexes are as before. -/
structure SameSystem (s s' : Sys) : Prop where
  mutexes : s'.toMutexes = s.toMutexes
  queue : s'.queue = s.queue
  prio : s'.pPrio = s.pPrio
  state : s'.pState = s.pState
  u : s'.pU = s.pU
  hist : s'.hist = s.hist

/-- The body of a function starts in `s₀`. -/
structure Begun (s s₀ : Sys) : Prop extends SameSystem s s₀ where
  ok : CoreOk s₀.toCore
  mtx : MtxOk False s₀
  currp : s₀.currp = s.currp

/-- A wait, with the frame that it leaves and the way it sleeps. -/
def Sys.condWaitWith (f : MtxId → Frame) (sleep : Core → Core) (cp : CondId) (s : Sys) : Sys :=
  match s.pMtxlist s.currp with
  | none => s
  | some mp => s.chMtxUnlockS.onCore fun c => sleep ((condInsert cp c).push (f mp))

/-- Sleeping for a condition variable, with a timer or without. -/
structure CondSleep (timed : Bool) (sleep : Core → Core) : Prop where
  lists : ∀ c q, q ≠ .rQueue → (sleep c).queue q = c.queue q
  prio : ∀ c, (sleep c).pPrio = c.pPrio
  undisturbed : ∀ {c t}, (∀ h ∈ c.queue .rQueue, c.pState h = .ready) → c.pState c.currp = .current → t ≠ c.currp →
    Undisturbed t c (sleep c)
  top : ∀ {c : Core}, c.vt.Ok → ∃ fs : List Frame, (∀ f ∈ fs, f.sleeps = true) ∧ (timed = false → fs = []) ∧
    (sleep c).pCtx c.currp = fs ++ c.pCtx c.currp

/-- A step waits for `cp`. -/
structure WaitStep (cp : CondId) (s s₀ s' : Sys) (f : MtxId → Frame) (sleep : Core → Core) (timed : Bool) : Prop where
  begun : Begun s s₀
  zone : Zone { mtx := true } s₀.toCore
  rest : s₀.pCtx s₀.currp = [] ∨ s₀.pCtx s₀.currp = [.sysUnlock]
  owns : (s.pMtxlist s.currp).isSome = true
  sleeps : CondSleep timed sleep
  frame : f = if timed then .condWaitTimeout else .condWait
  is : s' = s₀.condWaitWith f sleep cp

/-- The first `n` threads that wait for `cp` get a message. -/
structure Tells (cp : CondId) (n : Nat) (m : Msg) (s s' : Sys) : Prop where
  wakes : WakesAll ((s.queue (.cQueue cp)).take n) m s.toCore s'.toCore
  lists : ∀ q, q ≠ .rQueue → s'.queue q = update s.queue (.cQueue cp) ((s.queue (.cQueue cp)).drop n) q
  prio : s'.pPrio = s.pPrio
  mutexes : s'.toMutexes = s.toMutexes

/-- The condition variable that a call waits for. -/
def Label.waitsFor : Label → Option CondId
  | call (.condWait cp) | call (.condWaitTimeout cp _) | scall (.condWaitS cp) | scall (.condWaitTimeoutS cp _) => some cp
  | _ => none

/-- A call that wakes the first waiter of a condition variable. -/
def Label.signals (cp : CondId) : Label → Prop
  | call (.condSignal cp') | icall (.condSignalI cp') => cp' = cp
  | _ => False

/-- A call that wakes all of them. -/
def Label.broadcasts (cp : CondId) : Label → Prop
  | call (.condBroadcast cp') | icall (.condBroadcastI cp') => cp' = cp
  | _ => False

inductive CondStep (l : Label) (s s' : Sys) : Prop
  | lock (s₀ : Sys) (mp : MtxId) : Begun s s₀ → s' = s₀.chMtxLockS mp → CondStep l s s'
  | wait (cp : CondId) : (∃ s₀ f sleep timed, WaitStep cp s s₀ s' f sleep timed) → CondStep l s s'
  | tells (cp : CondId) (n : Nat) (m : Msg) : l.signals cp ∨ l.broadcasts cp → m ≠ rdyTimeout → Tells cp n m s s' →
      CondStep l s s'
  | wakeup (tp : Tid) (isr : List Isr) : l = .callback → s.isr.head? = some (.tick (some (.wakeup tp))) →
      s' = { s.wakeup tp with isr := isr } → CondStep l s s'
  | idle : SameSystem s s' → CondStep l s s'

variable {φ : Foot} {c c' : Core} {s s' : Sys} {t : Tid} {m : Msg} {mp : MtxId} {k : List MtxId} {fs rest : List Frame} {l : Label}

section

variable {cp : CondId}

/-- A timed sleep leaves its frame. -/
theorem chSchGoSleepTimeoutS_top {c : Core} (vt : c.vt.Ok) (st : TState) (time : Systime) :
    ∃ f : Frame, f.sleeps = true ∧ (c.chSchGoSleepTimeoutS st time).pCtx c.currp = f :: c.pCtx c.currp := by
  rw [chSchGoSleepTimeoutS]
  split
  · obtain ⟨vt', set⟩ := vt.set_isSome (.stack c.currp) time (.wakeup c.currp)
    rw [set]
    refine ⟨.goSleepTimeout, rfl, ?_⟩
    rw [chSchGoSleepS_ctx]
    exact update_self ..
  · refine ⟨.rdymsg, rfl, ?_⟩
    rw [chSchGoSleepS_ctx]
    exact update_self ..

theorem condSleep : CondSleep false (·.chSchGoSleepS .wtcond) :=
  ⟨fun c q => SameLists.goSleepS c .wtcond q, fun c => (goSleepS c .wtcond).prio, .goSleepS .wtcond, fun _ =>
    ⟨[], nofun, fun _ => rfl, by rw [chSchGoSleepS_ctx]; rfl⟩⟩

theorem condSleep_timeout (time : Systime) : CondSleep true (·.chSchGoSleepTimeoutS .wtcond time) := by
  refine ⟨fun c q => SameLists.goSleepTimeoutS c .wtcond time q, fun c => (goSleepTimeoutS c .wtcond time).prio,
    .goSleepTimeoutS .wtcond time, fun vt => ?_⟩
  obtain ⟨f, sleeps, top⟩ := chSchGoSleepTimeoutS_top vt .wtcond time
  exact ⟨[f], by simpa using sleeps, nofun, top⟩

theorem next_waits (ok : KernelOk False s) (taken : next l s = some s') (waits : l.waitsFor = some cp) :
    ∃ s₀ f sleep timed, WaitStep cp s s₀ s' f sleep timed := by
  cases l with
  | call f =>
    obtain ⟨outside, empty, allowed, rfl⟩ := next_call taken
    obtain ⟨-, ok', zone, -⟩ : AtWork { mtx := true } s s.enter := outside.enter ok.core
    have begun : Begun s s.enter := ⟨⟨rfl, rfl, rfl, rfl, rfl, rfl⟩, ok', ok.mtx.enter, rfl⟩
    have rest : s.enter.pCtx s.enter.currp = [.sysUnlock] := by
      rw [← empty]
      exact update_self ..
    cases f with
    | condWait cp' =>
      cases waits
      exact ⟨s.enter, _, _, false, begun, zone, .inr rest, allowed, condSleep, rfl, rfl⟩
    | condWaitTimeout cp' time =>
      cases waits
      exact ⟨s.enter, _, _, true, begun, zone, .inr rest, (of_decide_eq_true allowed).1, condSleep_timeout time, rfl, rfl⟩
    | _ => cases waits
  | scall f =>
    obtain ⟨zone, empty, allowed, rfl⟩ := next_scall taken
    have begun : Begun s s := ⟨⟨rfl, rfl, rfl, rfl, rfl, rfl⟩, ok.core, ok.mtx, rfl⟩
    cases f with
    | condWaitS cp' =>
      cases waits
      exact ⟨s, _, _, false, begun, zone _, .inl empty, allowed, condSleep, rfl, rfl⟩
    | condWaitTimeoutS cp' time =>
      cases waits
      exact ⟨s, _, _, true, begun, zone _, .inl empty, (of_decide_eq_true allowed).1, condSleep_timeout time, rfl, rfl⟩
    | _ => cases waits
  | _ => cases waits

theorem SameSystem.undisturbed (same : SameSystem s s') : Undisturbed t s.toCore s'.toCore :=
  .congr (by rw [same.state]) (by rw [same.u]) same.hist

theorem Tells.before {n : Nat} {s₀ : Sys} (tells : Tells cp n m s₀ s') (same : SameSystem s s₀) : Tells cp n m s s' := by
  obtain ⟨wakes, lists, prio, mutexes⟩ := tells
  rw [same.queue] at wakes lists
  exact ⟨wakes.before fun t => same.undisturbed, lists, prio.trans same.prio, mutexes.trans same.mutexes⟩

/-- The first waiter, if there is one. -/
theorem Tells.first {w : Core → Tid → Core} (sched : SchedOk s.toCore) (cp : CondId)
    (wakes : ∀ {c t}, c.pState c.currp = .current → (c.pState t).waits = true → WakesAll [t] rdyOk c (w c t))
    (lists : ∀ c t, SameLists c (w c t)) (prio : ∀ c t, (w c t).pPrio = c.pPrio) :
    Tells cp 1 rdyOk s (match s.fifoRemove (.cQueue cp) with
      | none => s
      | some (tp, c) => { s with toCore := w c tp }) := by
  cases first : s.queue (.cQueue cp) with
  | nil =>
    simp only [fifoRemove, first]
    refine ⟨?_, fun q _ => ?_, rfl, rfl⟩
    · rw [first]
      exact ⟨by simp, fun t _ => .refl t s.toCore⟩
    · rw [first, List.drop_nil, ← first, Function.update_eq_self]
  | cons t l =>
    have mem : t ∈ s.queue (.cQueue cp) := by rw [first]; exact .head _
    have waits : (s.pState t).waits = true := by rw [(sched.member _ t mem).2.1]; rfl
    simp only [fifoRemove, first]
    refine ⟨?_, fun q other => ?_, prio _ t, rfl⟩
    · rw [first]
      exact (wakes (c := s.toCore.setQueue (.cQueue cp) l) sched.currp_state waits).before fun x => .congr rfl rfl rfl
    · rw [first]
      exact lists _ t q other

theorem next_signals (ok : KernelOk False s) (taken : next l s = some s') (signals : l.signals cp) : Tells cp 1 rdyOk s s' := by
  cases l with
  | call f =>
    obtain ⟨outside, -, -, rfl⟩ := next_call taken
    have entered := outside.enter (φ := { mtx := true }) ok.core
    cases f <;> cases signals
    exact (Tells.first entered.ok.sched cp (.wakeupS rdyOk)
      (SameLists.wakeupS · · rdyOk) fun c t => (wakeupS c t rdyOk).prio).before ⟨rfl, rfl, rfl, rfl, rfl, rfl⟩
  | icall f =>
    obtain ⟨-, -, rfl⟩ := next_icall taken
    cases f <;> cases signals
    exact .first ok.core.sched cp (fun _ => .readyMsg rdyOk)
      (fun c t q other => update_of_ne other ..) fun c t => rfl
  | _ => cases signals

theorem flush_others {q q' : QueueId} (notReady : q' ≠ .rQueue) (other : q' ≠ q) (m : Msg) : ∀ (n : Nat) (c : Core),
    (c.flush q (.readyMsg · m) n).queue q' = c.queue q' ∧ (c.flush q (.readyMsg · m) n).pPrio = c.pPrio
  | 0, c => ⟨rfl, rfl⟩
  | n + 1, c => by
    rw [flush, fifoRemove]
    cases first : c.queue q with
    | nil => exact ⟨rfl, rfl⟩
    | cons t l =>
      obtain ⟨queue, prio⟩ := flush_others notReady other m n ((c.setQueue q l).readyMsg t m)
      refine ⟨queue.trans ?_, prio⟩
      rw [show ((c.setQueue q l).readyMsg t m).queue q' = (c.setQueue q l).queue q' from update_of_ne notReady ..]
      exact update_of_ne other ..

/-- All waiters. -/
theorem Tells.all (cp : CondId) {c : Core} (wakes : WakesAll (s.queue (.cQueue cp)) rdyReset s.toCore s'.toCore)
    (queue : c.queue = s.queue) (prio : c.pPrio = s.pPrio) (mutexes : s'.toMutexes = s.toMutexes)
    (empty : s'.queue (.cQueue cp) = [])
    (lists : SameLists (c.flush (.cQueue cp) (.readyMsg · rdyReset) (s.queue (.cQueue cp)).length) s'.toCore)
    (prios : s'.pPrio = (c.flush (.cQueue cp) (.readyMsg · rdyReset) (s.queue (.cQueue cp)).length).pPrio) :
    Tells cp (s.queue (.cQueue cp)).length rdyReset s s' := by
  have others {q} (notReady) (other : q ≠ .cQueue cp) := flush_others notReady other rdyReset (s.queue (.cQueue cp)).length c
  refine ⟨by rwa [List.take_length], fun q notReady => ?_, ?_, mutexes⟩
  · rw [List.drop_length]
    by_cases here : q = .cQueue cp
    · rw [here, empty, update_self]
    · rw [update_of_ne here, lists q notReady, (others notReady here).1, queue]
  · rw [prios, (others (q := .mQueue 0) nofun nofun).2, prio]

theorem next_broadcasts (ok : KernelOk False s) (taken : next l s = some s') (broadcasts : l.broadcasts cp) :
    Tells cp (s.queue (.cQueue cp)).length rdyReset s s' := by
  have sched := ok.core.sched
  cases l with
  | call f =>
    obtain ⟨outside, -, -, rfl⟩ := next_call taken
    cases f <;> cases broadcasts
    obtain ⟨wakes, empty⟩ := outside.flush_wakes { cnd := true } ok.core (q := .cQueue cp) (m := rdyReset) nofun rfl (by decide)
    exact .all cp (c := s.enter.toCore) wakes rfl rfl rfl empty (SameLists.rescheduleS _) (rescheduleS _).prio
  | icall f =>
    obtain ⟨-, -, rfl⟩ := next_icall taken
    cases f <;> cases broadcasts
    obtain ⟨wakes, empty⟩ := WakesAll.flush (q := .cQueue cp) rdyReset _ rfl nofun (sched.nodup _) fun t mem => by
      rw [(sched.member _ t mem).2.1]; rfl
    exact .all cp (c := s.toCore) wakes rfl rfl rfl empty (fun _ _ => rfl) rfl
  | _ => cases broadcasts

/-- The frame of a wait is taken off, and the return of its message is left. -/
theorem relocks {f : Frame} {fs : List Frame} (ok : KernelOk False s) (thread : s.isr = []) (top : s.pCtx s.currp = f :: fs)
    (msg : Msg) (is : f = .condWait mp ∨ f = .condWaitTimeout mp) : Begun s (s.pop.onCore (.push (.retMsg msg))) := by
  have ctx : CtxOk s.locked (f :: fs) := top ▸ ok.core.ctl.current
  have locked : s.locked = true := by
    have head := Bool.not_eq_eq_eq_not.1 (ctx.head f rfl).symm
    rcases is with rfl | rfl <;> exact head
  have work : AtWork { mtx := true, cnd := true } s s.pop := by
    rcases is with rfl | rfl <;> exact (popped ok.core thread top rfl nofun rfl rfl).work ok.core thread locked
  exact ⟨⟨rfl, rfl, rfl, rfl, rfl, rfl⟩, (work.push (.retMsg msg) rfl ⟨rfl, rfl, .inr ⟨rfl, nofun⟩, rfl, rfl⟩).ok,
    MtxAt.push ok.mtx.pop nofun, rfl⟩

/-- Every step that concerns condition variables. -/
theorem next_condStep (ok : KernelOk False s) (taken : next l s = some s') (on : (l.foot s).cnd = true) : CondStep l s s' := by
  cases l with
  | call f =>
    cases f with
    | mtxLock mp =>
      obtain ⟨outside, -, -, rfl⟩ := next_call taken
      have work := (outside.enter (φ := { mtx := true }) ok.core).tell .void
      exact .lock (s.enter.ret .void) mp ⟨⟨rfl, rfl, rfl, rfl, rfl, rfl⟩, work.ok, ok.mtx.enter.ret .void, rfl⟩ rfl
    | condSignal cp => exact .tells cp _ _ (.inl rfl) (by decide) (next_signals ok taken rfl)
    | condBroadcast cp => exact .tells cp _ _ (.inr rfl) (by decide) (next_broadcasts ok taken rfl)
    | condWait cp | condWaitTimeout cp time => exact .wait cp (next_waits ok taken rfl)
    | _ => cases on
  | scall f =>
    cases f with
    | mtxLockS mp =>
      obtain ⟨-, -, -, rfl⟩ := next_scall taken
      exact .lock s mp ⟨⟨rfl, rfl, rfl, rfl, rfl, rfl⟩, ok.core, ok.mtx, rfl⟩ rfl
    | condWaitS cp | condWaitTimeoutS cp time => exact .wait cp (next_waits ok taken rfl)
    | _ => cases on
  | icall f =>
    cases f with
    | condSignalI cp => exact .tells cp _ _ (.inl rfl) (by decide) (next_signals ok taken rfl)
    | condBroadcastI cp => exact .tells cp _ _ (.inr rfl) (by decide) (next_broadcasts ok taken rfl)
    | _ => cases on
  | run =>
    obtain ⟨f, fs, thread, top, -, rfl⟩ := next_run taken
    rw [Label.foot_run top] at on
    cases f with
    | condWait mp => exact .lock _ mp (relocks ok thread top _ (.inl rfl)) rfl
    | condWaitTimeout mp =>
      simp only [Frame.run]
      split
      · exact .lock _ mp (relocks ok thread top _ (.inr rfl)) rfl
      · exact .idle ⟨rfl, rfl, rfl, rfl, rfl, rfl⟩
    | _ => cases on
  | callback =>
    obtain ⟨isr, ⟨tp, is, rfl⟩ | ⟨n, is, rfl⟩⟩ := next_callback taken
    · exact .wakeup tp _ rfl (by rw [is]; rfl) rfl
    · exact .idle ⟨rfl, rfl, rfl, rfl, rfl, rfl⟩
  | _ => cases on

end

/-! ## Mutexes of threads that do not run -/

/-- A step away from the mutexes. -/
theorem Effect.handed (effect : Effect φ s s') (sched : SchedOk s.toCore) (off : φ.mtx = false) (t : Tid) : Handed t s s' :=
  .same (fun k is => by rwa [effect.objs.mtx off]) fun m => by
    rw [effect.moves.queue_eq (q := .mQueue m) sched off]

/-- What leaves chains and waiters alone. -/
theorem Handed.congr (mutexes : s'.toMutexes = s.toMutexes)
    (queue : ∀ m, s'.queue (.mQueue m) = s.queue (.mQueue m)) : Handed t s s' :=
  .same (fun k is => by rwa [mutexes]) fun m => by rw [queue]

theorem SameSystem.handed (same : SameSystem s s') : Handed t s s' := .congr same.mutexes fun m => by rw [same.queue]

theorem chMtxLockS_handed (ok : CoreOk s.toCore) (mtx : MtxOk False s) (other : t ≠ s.currp) : Handed t s (s.chMtxLockS mp) := by
  rw [chMtxLockS]
  split
  next tp isOwner =>
    obtain ⟨s', is, boosted, raised, mutexes, -⟩ := lockBoost_effect (φ := { mtx := true, cnd := true }) rfl rfl ok mtx isOwner
    rw [← is]
    refine .same (fun k is => ?_) fun m => ?_
    · have same : (s'.onCore fun c => ((c.prioInsert c.currp (.mQueue mp)).setU c.currp
        (.wtobjp (.mQueue mp))).chSchGoSleepS .wtmtx).toMutexes = s.toMutexes := mutexes
      rwa [same]
    · rw [onCore_toCore, (goSleepS _ .wtmtx).queue m]
      by_cases here : m = mp
      · subst here
        simp [setU, prioInsert, setQueue, raised.mem, boosted.still.currp, other]
      · simp [setU, prioInsert, setQueue, raised.mem, here]
  next free =>
    exact .same (fun k is => is.own_of_ne free other) fun _ => .rfl

theorem chMtxTryLockS_handed (other : t ≠ s.currp) : Handed t s (s.chMtxTryLockS mp) := by
  rw [chMtxTryLockS]
  split
  · exact .congr rfl fun _ => rfl
  next free =>
    exact .same (fun k is => is.own_of_ne free other) fun _ => .rfl

theorem Handed.enter (t : Tid) (s : Sys) : Handed t s s.enter := .congr rfl fun _ => rfl

/-- A function with its own lock zone. -/
theorem Handed.zone {body : Sys → Sys} (inside : Handed t s.enter (body s.enter)) : Handed t s (s.zone body) :=
  (enter t s).trans inside

theorem chMtxUnlockS_handed (sched : SchedOk s.toCore) (mtx : MtxOk False s) (other : t ≠ s.currp) :
    Handed t s s.chMtxUnlockS :=
  unlockWith_given sched mtx.chains (fun t c => .readyI c t) other

theorem chMtxUnlockAll_handed (ok : CoreOk s.toCore) (outside : Outside s) (mtx : MtxOk False s) (other : t ≠ s.currp) :
    Handed t s s.chMtxUnlockAll := by
  refine .zone ?_
  have work := (outside.enter (φ := { mtx := true }) ok).tell .void
  have mtx' : MtxOk False (s.enter.ret .void) := mtx.enter.ret .void
  obtain ⟨k, chain⟩ := mtx'.chains.chain s.currp
  obtain ⟨-, -, -, handed⟩ := unlockAllLoop_effect (φ := { mtx := true }) rfl k _ (s := s.enter.ret .void)
    work.ok mtx'.open chain (mtx'.chains.length_le chain)
  have told : Handed t s.enter (s.enter.ret .void) := .congr rfl fun _ => rfl
  dsimp only
  split
  · exact told.trans ((handed t other).trans (.congr rfl (rescheduleS _).queue))
  · exact told

theorem CondSleep.handed {timed : Bool} {sleep : Core → Core} {f : MtxId → Frame} (sleeps : CondSleep timed sleep)
    (sched : SchedOk s.toCore) (mtx : MtxOk False s) (other : t ≠ s.currp) (cp : CondId) :
    Handed t s (s.condWaitWith f sleep cp) := by
  rw [condWaitWith]
  split
  · exact .refl t s
  · exact (chMtxUnlockS_handed sched mtx other).trans (.congr rfl fun m =>
      (sleeps.lists _ (.mQueue m) nofun).trans ((SameWaits.condInsert cp _).queue m))

theorem chThdCreateI_handed (lt : t < s.nthd) (prio : Nat) (mode : MemMode) : Handed t s (s.chThdCreateI prio mode) :=
  .same (fun _ is => is.frame (update_of_ne lt.ne ..) (fun _ _ => rfl) (fun _ => .rfl) fun _ _ => rfl)
    fun m => by simp [Sys.chThdCreateI, Sys.regInsert, Sys.ret, Sys.onCore, Core.ret]

theorem chThdSetPriority_handed (t : Tid) (newprio : Nat) : Handed t s (s.chThdSetPriority newprio) := by
  refine .zone (.same (fun k is => ?_) fun m => ?_)
  · dsimp only
    split <;> exact is.frame rfl (fun _ _ => rfl) (fun _ => .rfl) fun _ _ => rfl
  · dsimp only
    rw [onCore_toCore, (rescheduleS _).queue m]
    split <;> rfl

/-- A thread that does not run keeps its mutexes, and gets at most the one that it
waits for. -/
theorem next_handed (ok : KernelOk False s) (taken : next l s = some s') (other : t ≠ s.currp) (lt : t < s.nthd) :
    Handed t s s' := by
  obtain ⟨effect, -⟩ := next_step ok nofun taken
  have sched := ok.core.sched
  cases on : (l.foot s).cnd with
  | true =>
    cases next_condStep ok taken on with
    | lock s₀ mp begun is =>
      subst is
      exact begun.handed.trans (chMtxLockS_handed begun.ok begun.mtx (begun.currp ▸ other))
    | wait cp waits =>
      obtain ⟨s₀, f, sleep, timed, begun, -, -, -, sleeps, -, rfl⟩ := waits
      exact begun.handed.trans (sleeps.handed begun.ok.sched begun.mtx (begun.currp ▸ other) cp)
    | tells cp n m _ _ tells =>
      have apart (m : MtxId) : QueueId.mQueue m ≠ .cQueue cp := nofun
      exact .congr tells.mutexes fun m => (tells.lists (.mQueue m) nofun).trans (update_of_ne (apart m) ..)
    | wakeup tp isr is =>
      subst is
      exact effect.handed sched rfl t
    | idle same => exact same.handed
  | false =>
    cases l with
    | call f =>
      obtain ⟨outside, -, -, rfl⟩ := next_call taken
      have ok' := (outside.enter (φ := { mtx := true }) ok.core).ok
      cases f with
      | mtxLock | condWait | condWaitTimeout => cases on
      | mtxTryLock mp => exact .zone (chMtxTryLockS_handed other)
      | mtxUnlock => exact .zone (unlockWith_given ok'.sched ok.mtx.enter.chains (fun t c => .wakeupS c t rdyOk) other)
      | mtxUnlockAll => exact chMtxUnlockAll_handed ok.core outside ok.mtx other
      | thdCreate prio mode =>
        have created : Handed t s.enter (s.enter.chThdCreateI prio mode) := chThdCreateI_handed (s := s.enter) lt prio mode
        refine (Handed.enter t s).trans (created.trans (.congr rfl fun m => ?_))
        exact (wakeupS ..).queue m
      | thdSetPriority newprio => exact chThdSetPriority_handed t newprio
      | _ => exact effect.handed sched rfl t
    | scall f =>
      obtain ⟨-, -, -, rfl⟩ := next_scall taken
      cases f with
      | mtxLockS | condWaitS | condWaitTimeoutS => cases on
      | mtxTryLockS mp => exact chMtxTryLockS_handed other
      | mtxUnlockS => exact chMtxUnlockS_handed sched ok.mtx other
      | _ => exact effect.handed sched rfl t
    | icall f =>
      obtain ⟨-, -, rfl⟩ := next_icall taken
      cases f with
      | thdCreateI prio => exact chThdCreateI_handed lt prio .static
      | _ => exact effect.handed sched rfl t
    | run =>
      obtain ⟨f, fs, -, top, -, -⟩ := next_run taken
      rw [Label.foot_run top] at effect on
      cases f with
      | condWait | condWaitTimeout => cases on
      | _ => exact effect.handed sched rfl t
    | _ => exact effect.handed sched rfl t

/-! ## Waits without a timer -/

/-- The thread sleeps for a condition variable, or has been woken with a message that
is not `RDY_TIMEOUT`. -/
def Untimed (t : Tid) (c : Core) : Prop :=
  c.pState t = .wtcond ∨ c.awake t ∧ c.rdymsg t ≠ rdyTimeout

def Frame.isCondWait : Frame → Bool
  | condWait _ => true
  | _ => false

theorem Undisturbed.untimed (same : Undisturbed t c c') (untimed : Untimed t c) : Untimed t c' := by
  have msg : c'.rdymsg t = c.rdymsg t := by rw [rdymsg, same.u]; rfl
  rcases untimed with is | ⟨awake, other⟩
  · rcases same.state with state | ⟨ready | running, -⟩
    · exact .inl (state.trans is)
    · cases is.symm.trans ready
    · cases is.symm.trans running
  · exact .inr ⟨same.awake awake, msg ▸ other⟩

theorem Woken.untimed (woken : Woken t m c c') (other : m ≠ rdyTimeout) : Untimed t c' :=
  .inr ⟨woken.awake, by rwa [rdymsg, woken.u]⟩

/-- What the frame of the wait will read. -/
theorem untimed_iff (ask : AskOk c) (top : c.pCtx t = .condWait mp :: fs) :
    Untimed t c ↔ ∀ m, c.waitOf Frame.isCondWait t = some (.condWait mp, some m) → m ≠ rdyTimeout := by
  have wait : c.waitOf Frame.isCondWait t =
      some (.condWait mp, if (c.pState t).waits then none else some (c.rdymsg t)) := by
    simp [waitOf, answer, top, Frame.isCondWait, Frame.asks, Frame.direct]
  rw [wait]
  obtain ready | running | ⟨asks, -⟩ := ask t
  · simp [Untimed, awake, ready, TState.waits]
  · simp [Untimed, awake, running, TState.waits]
  · have is : c.pState t = .wtcond := asks (.condWait mp) (by rw [top]; exact .head _) .wtcond rfl
    simp [Untimed, is, TState.waits]

/-- A step away from the condition variables. -/
theorem Effect.untimed (effect : Effect φ s s') (ok : CoreOk s.toCore) (off : φ.cnd = false) (ctx : s'.pCtx t = s.pCtx t)
    (top : s.pCtx t = .condWait mp :: fs) (untimed : Untimed t s.toCore) : Untimed t s'.toCore := by
  have kind : φ.Off Frame.isCondWait := by
    refine ⟨fun f is => ?_, fun f is st asks => ?_⟩
    · cases f <;> first | exact off | cases is
    · cases f <;> first | (cases asks; exact off) | cases is
  rw [untimed_iff (effect.coreOk ok).ask (ctx.trans top), effect.moves.waitOf_eq ok kind]
  exact (untimed_iff ok.ask top).1 untimed

/-! ### Functions that change who waits for what -/

theorem Undisturbed.boostLoop (prio : Nat) (t : Tid) : ∀ (n : Nat) (x : Tid) (s : Sys),
    Undisturbed t s.toCore (s.boostLoop prio n x).toCore
  | 0, _, s => .refl t s.toCore
  | n + 1, x, s => by
    obtain ⟨state, u, -, hist⟩ := s.boosted_wait x prio
    have boosted : Undisturbed t s.toCore (s.boosted x prio) := .congr (by rw [state]) (by rw [u]) hist
    rw [boostLoop_succ]
    split
    · split
      · exact boosted.trans (boostLoop prio t n _ (s.onCore (.boosted x prio)))
      · exact boosted
    · exact .refl t s.toCore

theorem chMtxLockS_undisturbed (mp : MtxId) (ok : CoreOk s.toCore) (mtx : MtxOk False s) (other : t ≠ s.currp) :
    Undisturbed t s.toCore (s.chMtxLockS mp).toCore := by
  rw [chMtxLockS]
  split
  next tp isOwner =>
    obtain ⟨s', is, boosted, -⟩ := lockBoost_effect (φ := { mtx := true, cnd := true }) rfl rfl ok mtx isOwner
    have loop : Undisturbed t s.toCore s'.toCore := is ▸ .boostLoop (s.pPrio s.currp) t s.nthd tp s
    rw [← is]
    have sched := (boosted.coreOk ok).sched
    have other' : t ≠ s'.currp := by rwa [boosted.still.currp]
    have joined : Undisturbed t s'.toCore ((s'.toCore.prioInsert s'.currp (.mQueue mp)).setU s'.currp
        (.wtobjp (.mQueue mp))) := .congr rfl (update_of_ne other' ..) rfl
    refine loop.trans (joined.trans (.goSleepS .wtmtx (fun h mem => sched.ready_of_mem h ?_) sched.currp_state other'))
    simpa [setU, prioInsert, setQueue] using mem
  · exact .refl t s.toCore

/-- Only a thread that waits for the mutex is woken. -/
theorem chMtxUnlockS_undisturbed (sched : SchedOk s.toCore) (notWaiter : s.pState t ≠ .wtmtx) :
    Undisturbed t s.toCore s.chMtxUnlockS.toCore := by
  rw [chMtxUnlockS]
  cases first : s.pMtxlist s.currp with
  | none => simpa [unlockWith, first] using .refl t s.toCore
  | some m =>
    cases waiters : s.queue (.mQueue m) with
    | nil =>
      rw [unlockWith_free _ first waiters]
      exact .congr rfl rfl rfl
    | cons x l =>
      have other : t ≠ x := by
        rintro rfl
        exact notWaiter (sched.member (.mQueue m) t (by rw [waiters]; exact .head _)).2.1
      rw [unlockWith_handed _ first waiters]
      obtain ⟨state, u, wakes⟩ := Undisturbed.readyI other
      exact ⟨state, u, wakes⟩

theorem Untimed.not_wtmtx (untimed : Untimed t c) : c.pState t ≠ .wtmtx := by
  intro is
  rcases untimed with state | ⟨ready | running, -⟩
  · cases is.symm.trans state
  · cases is.symm.trans ready
  · cases is.symm.trans running

section

variable (ok : CoreOk s.toCore) (zone : Zone { mtx := true } s.toCore) (mtx : MtxOk False s)
  (notWaiter : s.pState t ≠ .wtmtx) (other : t ≠ s.currp) (cp : CondId)
include ok zone mtx notWaiter other cp

/-- The caller of a wait, up to its sleep. -/
theorem condInsert_undisturbed {f : Frame} (is : c = (Sys.condInsert cp s.chMtxUnlockS.toCore).push f) :
    Undisturbed t s.toCore c ∧ (∀ h ∈ c.queue .rQueue, c.pState h = .ready) ∧ c.pState c.currp = .current ∧ t ≠ c.currp := by
  subst is
  obtain ⟨unlocked, -⟩ := chMtxUnlockS_effect rfl ok zone mtx
  have sched := (unlocked.coreOk ok).sched
  have other' : t ≠ s.chMtxUnlockS.currp := by rwa [unlocked.still.currp]
  refine ⟨(chMtxUnlockS_undisturbed ok.sched notWaiter).trans (.congr rfl (update_of_ne other' ..) rfl),
    fun h mem => sched.ready_of_mem h ?_, sched.currp_state, other'⟩
  simpa [Sys.condInsert, Core.push, Core.setU, Core.prioInsert, Core.setQueue] using mem

theorem CondSleep.waits {timed : Bool} {sleep : Core → Core} {f : MtxId → Frame} (sleeps : CondSleep timed sleep) :
    Undisturbed t s.toCore (s.condWaitWith f sleep cp).toCore := by
  rw [condWaitWith]
  split
  · exact .refl t s.toCore
  · obtain ⟨joined, ready, current, other'⟩ := condInsert_undisturbed ok zone mtx notWaiter other cp rfl
    exact joined.trans (sleeps.undisturbed ready current other')

end

/-! ### Every step -/

/-- Another thread's timer. -/
theorem wakeup_undisturbed {tp : Tid} (other : t ≠ tp) : Undisturbed t s.toCore (s.wakeup tp).toCore := by
  have late : ∀ c : Core, Undisturbed t c (c.readyTimeout tp) := fun c => by
    have logged : Undisturbed t c { c with hist := .timeout tp :: c.hist } :=
      ⟨.inl rfl, rfl, List.count_cons_of_ne (by simp)⟩
    obtain ⟨state, -, wakes⟩ := logged.trans (.readyI other)
    exact ⟨state, update_of_ne other .., wakes⟩
  have unlinked : Undisturbed t s.toCore ((s.toCore.dequeue tp).readyTimeout tp) := by
    obtain ⟨state, u, wakes⟩ := late (s.toCore.dequeue tp)
    exact ⟨state, u, wakes⟩
  unfold wakeup
  split
  · exact .refl t s.toCore
  · split
    · exact unlinked
    · exact .refl t s.toCore
  · exact unlinked
  · exact unlinked
  · exact late s.toCore

theorem PhaseOk.inSleep {p : Phase} (ok : PhaseOk t c p) (pending : c.Pending t) : InSleep (c.pCtx t) := by
  cases ok with
  | awake _ _ notPending => exact absurd pending notPending
  | asleep inSleep => exact inSleep
  | woken _ inSleep => exact inSleep

/-- What a step that touches condition variables does to a thread that neither runs
nor waits for a mutex. -/
inductive CondWakes (l : Label) (t : Tid) (s s' : Sys) : Prop
  | undisturbed : Undisturbed t s.toCore s'.toCore → CondWakes l t s s'
  | told (cp : CondId) (m : Msg) : l.signals cp ∨ l.broadcasts cp → t ∈ s.queue (.cQueue cp) → m ≠ rdyTimeout →
      Woken t m s.toCore s'.toCore → CondWakes l t s s'
  | timeout : l = .callback → s.isr.head? = some (.tick (some (.wakeup t))) → CondWakes l t s s'

theorem next_condWakes (ok : KernelOk False s) (taken : next l s = some s') (on : (l.foot s).cnd = true) (other : t ≠ s.currp)
    (notWaiter : s.pState t ≠ .wtmtx) : CondWakes l t s s' := by
  cases next_condStep ok taken on with
  | lock s₀ mp begun is =>
    subst is
    exact .undisturbed (begun.undisturbed.trans (chMtxLockS_undisturbed mp begun.ok begun.mtx (begun.currp ▸ other)))
  | wait cp waits =>
    obtain ⟨s₀, f, sleep, timed, begun, zone, -, -, sleeps, -, rfl⟩ := waits
    refine .undisturbed (begun.undisturbed.trans ?_)
    exact sleeps.waits begun.ok zone begun.mtx (by rwa [begun.state]) (begun.currp ▸ other) cp
  | tells cp n m calls notTimeout tells =>
    by_cases mem : t ∈ (s.queue (.cQueue cp)).take n
    · exact .told cp m calls (List.mem_of_mem_take mem) notTimeout (tells.wakes.woken t mem)
    · exact .undisturbed (tells.wakes.others t mem)
  | wakeup tp isr is pending done =>
    by_cases mine : t = tp
    · subst mine
      exact .timeout is pending
    · subst done
      obtain ⟨state, u, wakes⟩ := wakeup_undisturbed mine
      exact .undisturbed ⟨state, u, wakes⟩
  | idle same => exact .undisturbed same.undisturbed

/-- A wait without a timer does not time out. -/
theorem next_untimed (ok : KernelOk False s) (taken : next l s = some s') (other : t ≠ s.currp) (lt : t < s.nthd)
    (top : s.pCtx t = .condWait mp :: fs) (untimed : Untimed t s.toCore) : Untimed t s'.toCore := by
  cases on : (l.foot s).cnd with
  | false => exact (next_step ok nofun taken).1.untimed ok.core on (next_ctx ok taken t other lt) top untimed
  | true =>
    cases next_condWakes ok taken on other untimed.not_wtmtx with
    | undisturbed same => exact same.untimed untimed
    | told cp m _ _ notTimeout woken => exact woken.untimed notTimeout
    | timeout _ pending =>
      obtain ⟨p, -, phase⟩ := ok.core.timed.thread t
      have inSleep := phase.inSleep (List.mem_of_mem_head? pending)
      rw [InSleep, top] at inSleep
      cases inSleep

/-! ## From the call to the return -/

/-- The thread in a wait that has given up the mutex `mp`; the rest of its chain is `k`,
and `rest` is what comes after the wait in its context. -/
inductive InWait (t : Tid) (mp : MtxId) (k : List MtxId) (rest : List Frame) (s : Sys) : Prop
  | untimed : s.pCtx t = .condWait mp :: rest → Untimed t s.toCore → Chain s.toMutexes t k →
      (∀ m, t ∉ s.queue (.mQueue m)) → InWait t mp k rest s
  | timed (fs : List Frame) : s.pCtx t = fs ++ .condWaitTimeout mp :: rest → (∀ f ∈ fs, f.sleeps = true) →
      Chain s.toMutexes t k → (∀ m, t ∉ s.queue (.mQueue m)) → InWait t mp k rest s
  | locking (msg : Msg) : s.pCtx t = .retMsg msg :: rest → msg ≠ rdyTimeout → Chain s.toMutexes t k →
      t ∈ s.queue (.mQueue mp) → InWait t mp k rest s
  | locked (msg : Msg) : s.pCtx t = .retMsg msg :: rest → msg ≠ rdyTimeout → Chain s.toMutexes t (mp :: k) →
      (∀ m, t ∉ s.queue (.mQueue m)) → InWait t mp k rest s
  | done (msg : Msg) : s.pCtx t = [] ∨ s.pCtx t = [.sysUnlock] ∧ s.currp = t → s.pRet (some t) = .msg msg →
      Chain s.toMutexes t (if msg = rdyTimeout then k else mp :: k) → InWait t mp k rest s

/-- While other threads run. -/
theorem InWait.stays (wait : InWait t mp k rest s) (ok : KernelOk False s) (lt : t < s.nthd) (taken : next l s = some s')
    (other : t ≠ s.currp) (inside : s.pCtx t ≠ []) : InWait t mp k rest s' := by
  have ctx := next_ctx ok taken t other lt
  have handed := next_handed ok taken other lt
  cases wait with
  | untimed top untimed chain off =>
    cases handed with
    | same chain' mem =>
      exact .untimed (ctx.trans top) (next_untimed ok taken other lt top untimed) (chain' k chain) fun m => (mem m).not.2 (off m)
    | gets m waits => exact absurd waits (off m)
  | timed fs top sleeps chain off =>
    cases handed with
    | same chain' mem => exact .timed fs (ctx.trans top) sleeps (chain' k chain) fun m => (mem m).not.2 (off m)
    | gets m waits => exact absurd waits (off m)
  | locking msg top notTimeout chain waits =>
    cases handed with
    | same chain' mem => exact .locking msg (ctx.trans top) notTimeout (chain' k chain) ((mem mp).2 waits)
    | gets m waits' chain' off =>
      obtain rfl : m = mp := by simpa using ok.core.sched.unique _ _ t waits' waits
      exact .locked msg (ctx.trans top) notTimeout (chain' k chain) off
  | locked msg top notTimeout chain off =>
    cases handed with
    | same chain' mem => exact .locked msg (ctx.trans top) notTimeout (chain' _ chain) fun m => (mem m).not.2 (off m)
    | gets m waits => exact absurd waits (off m)
  | done msg ended =>
    rcases ended with empty | ⟨-, mine⟩
    · exact absurd empty inside
    · exact absurd mine.symm other

theorem lastMsg_timeout {c : Core} (is : c.lastMsg = rdyTimeout) : c.pRet (some c.currp) = .msg rdyTimeout := by
  unfold lastMsg at is
  split at is
  next told =>
    rw [told, is]
  · cases is

/-- The mutex is taken, or waited for. -/
theorem InWait.relock {msg : Msg} (ok : CoreOk s.toCore) (mtx : MtxOk False s) (ctx : s.pCtx s.currp = .retMsg msg :: rest)
    (chain : Chain s.toMutexes s.currp k) (notTimeout : msg ≠ rdyTimeout) :
    InWait s.currp mp k rest (s.chMtxLockS mp) := by
  have currp : ∀ m, s.currp ∉ s.queue (.mQueue m) := fun m => ok.sched.currp_not_mem _
  unfold chMtxLockS
  split
  next tp isOwner =>
    obtain ⟨s', is, boosted, raised, mutexes, -⟩ := lockBoost_effect (φ := { mtx := true, cnd := true }) rfl rfl ok mtx isOwner
    rw [← is]
    refine .locking msg ?_ notTimeout ?_ ?_
    · rw [onCore_toCore, chSchGoSleepS_ctx]
      exact (congrFun raised.ctx s.currp).trans ctx
    · have same : (s'.onCore fun c => ((c.prioInsert c.currp (.mQueue mp)).setU c.currp
        (.wtobjp (.mQueue mp))).chSchGoSleepS .wtmtx).toMutexes = s.toMutexes := mutexes
      rwa [same]
    · rw [onCore_toCore, SameLists.goSleepS _ _ (.mQueue mp) nofun]
      simp [setU, prioInsert, setQueue, boosted.still.currp]
  next free =>
    have acqs : ∀ m ∈ k, s.mAcq m < s.acqs := fun m mem => (mtx.chains.bound m _ ((chain.owned m).1 mem)).2.2
    exact .locked msg ctx notTimeout (chain.own free acqs) currp

/-- The thread itself goes on. -/
theorem InWait.runs (wait : InWait s.currp mp k rest s) (ok : KernelOk False s) (taken : next l s = some s')
    (ends : rest = [] ∨ rest = [.sysUnlock]) (inside : s.pCtx s.currp ≠ []) : InWait s.currp mp k rest s' := by
  have notWaiting : ∀ m, s.currp ∉ s.queue (.mQueue m) := fun m => ok.core.sched.currp_not_mem _
  have current := ok.core.sched.currp_state
  have relock : ∀ {f msg}, s.pCtx s.currp = f :: rest → s.isr = [] → s.pop.pCtx s.currp = rest →
      (f = .condWait mp ∨ f = .condWaitTimeout mp) → Chain s.toMutexes s.currp k → msg ≠ rdyTimeout →
      InWait s.currp mp k rest (s.pop.condWaitResume mp msg) := by
    intro f msg top thread gone is chain notTimeout
    have begun := relocks ok thread top msg is
    refine relock begun.ok begun.mtx ?_ chain notTimeout
    rw [← gone]
    exact update_self ..
  cases wait with
  | untimed top untimed chain off =>
    obtain ⟨rfl, thread, rfl, gone⟩ := next_own ok.core taken top rfl nofun
    refine relock top thread gone (.inl rfl) chain ?_
    rcases untimed with bad | ⟨-, msg⟩
    · cases current.symm.trans bad
    · exact msg
  | timed fs top sleeps chain off =>
    cases fs with
    | nil =>
      obtain ⟨rfl, thread, rfl, gone⟩ := next_own ok.core taken top rfl nofun
      simp only [Frame.run]
      split
      next notTimeout =>
        exact relock top thread gone (.inr rfl) chain notTimeout
      next timeout =>
        refine .done rdyTimeout ?_ ?_ (by rw [if_pos rfl]; exact chain)
        · rcases ends with rfl | rfl
          · exact .inl gone
          · exact .inr ⟨gone, rfl⟩
        · exact lastMsg_timeout (not_not.1 timeout)
    | cons g fs =>
      have awake : ∀ f ∈ fs, f.sleeps = true := fun f mem => sleeps f (List.mem_cons_of_mem g mem)
      have sleeps := sleeps g (.head _)
      have locks : g.unlocked = false := by cases g <;> first | rfl | cases sleeps
      obtain ⟨rfl, -, rfl, gone⟩ := next_own ok.core taken top locks fun qp is => by
        subst is
        cases sleeps
      cases g with
      | rdymsg => exact .timed fs gone awake chain off
      | goSleepTimeout =>
        have same : (s.pop.onCore .sleepReturn).pCtx = s.pop.pCtx ∧ (s.pop.onCore .sleepReturn).queue = s.queue := by
          simp only [onCore_toCore, sleepReturn]
          split <;> exact ⟨rfl, rfl⟩
        exact .timed fs ((congrFun same.1 _).trans gone) awake chain fun m => by
          rw [show (Frame.goSleepTimeout.run s.pop).queue = s.queue from same.2]
          exact off m
      | _ => cases sleeps
  | locking msg top notTimeout chain waits => exact absurd waits (notWaiting mp)
  | locked msg top notTimeout chain off =>
    obtain ⟨rfl, thread, rfl, gone⟩ := next_own ok.core taken top rfl (by simp)
    refine .done msg ?_ ?_ (by rw [if_neg notTimeout]; exact chain)
    · rcases ends with rfl | rfl
      · exact .inl gone
      · exact .inr ⟨gone, rfl⟩
    · have told : s.pop.caller = some s.currp := if_pos thread
      change update s.pop.pRet s.pop.caller _ (some s.currp) = _
      rw [told, update_self]
  | done msg ended ret chain =>
    rcases ended with empty | ⟨top, -⟩
    · exact absurd empty inside
    · obtain ⟨rfl, -, rfl, gone⟩ := next_own ok.core taken top rfl (by simp)
      exact .done msg (.inl gone) ret chain

/-! ### The call -/

variable {cp : CondId}

/-- The rest of the running thread's chain stays. -/
theorem chMtxUnlockS_chain (sched : SchedOk s.toCore) (chain : Chain s.toMutexes s.currp (mp :: k)) :
    Chain s.chMtxUnlockS.toMutexes s.currp k := by
  have first : s.pMtxlist s.currp = some mp := chain.seg.1
  rw [chMtxUnlockS]
  cases waiters : s.queue (.mQueue mp) with
  | nil =>
    rw [unlockWith_free _ first waiters]
    exact chain.release
  | cons t l =>
    have other : s.currp ≠ t :=
      (ne_of_mem_of_not_mem (waiters ▸ .head _) (sched.currp_not_mem (.mQueue mp))).symm
    rw [unlockWith_handed _ first waiters]
    exact chain.release.own_of_ne (update_self ..) other

theorem mem_condInsert (cp : CondId) (c : Core) : c.currp ∈ (Sys.condInsert cp c).queue (.cQueue cp) := by
  simp [Sys.condInsert, Core.prioInsert, Core.setQueue, Core.setU]

theorem WaitStep.starts {s₀ : Sys} {f : MtxId → Frame} {sleep : Core → Core} {timed : Bool}
    (step : WaitStep cp s s₀ s' f sleep timed) (chain : Chain s₀.toMutexes s₀.currp (mp :: k)) :
    (∃ fs, (∀ g ∈ fs, g.sleeps = true) ∧ (timed = false → fs = []) ∧ s'.pCtx s₀.currp = fs ++ f mp :: s₀.pCtx s₀.currp) ∧
      Chain s'.toMutexes s₀.currp k ∧ s₀.currp ∈ s'.queue (.cQueue cp) := by
  obtain ⟨still, sameVt, -⟩ := chMtxUnlockS_frame s₀
  have body : s' = s₀.chMtxUnlockS.onCore fun c => sleep ((Sys.condInsert cp c).push (f mp)) := by
    rw [step.is, condWaitWith, show s₀.pMtxlist s₀.currp = some mp from chain.seg.1]
  have vt : s₀.chMtxUnlockS.vt.Ok := by
    rw [sameVt]
    exact step.begun.ok.timed.vt
  rw [body]
  refine ⟨?_, chMtxUnlockS_chain step.begun.ok.sched chain, ?_⟩
  · obtain ⟨fs, sleeps, untimed, top⟩ := step.sleeps.top (c := (Sys.condInsert cp s₀.chMtxUnlockS.toCore).push (f mp)) vt
    refine ⟨fs, sleeps, untimed, ?_⟩
    rw [onCore_toCore, ← still.currp]
    refine top.trans (congrArg (fs ++ ·) ((update_self ..).trans (congrArg (f mp :: ·) ?_)))
    exact congrFun (chMtxUnlockS_ctx s₀) _
  · rw [onCore_toCore, step.sleeps.lists _ (.cQueue cp) nofun, ← still.currp]
    exact mem_condInsert cp _

/-- The mutex is given up and the queue joined in one step. -/
theorem InWait.starts (ok : KernelOk False s) (waits : l.waitsFor = some cp) (taken : next l s = some s') :
    ∃ mp k rest, (rest = [] ∨ rest = [.sysUnlock]) ∧ Chain s.toMutexes s.currp (mp :: k) ∧
      InWait s.currp mp k rest s' ∧ Chain s'.toMutexes s.currp k ∧ s.currp ∈ s'.queue (.cQueue cp) := by
  obtain ⟨-, ok'⟩ := next_step ok nofun taken
  obtain ⟨s₀, f, sleep, timed, step⟩ := next_waits ok taken waits
  obtain ⟨mp, first⟩ := Option.isSome_iff_exists.1 step.owns
  obtain ⟨k, chain⟩ := ok.mtx.chains.head first
  have begins : Chain s₀.toMutexes s₀.currp (mp :: k) := by rwa [step.begun.mutexes, step.begun.currp]
  obtain ⟨⟨fs, sleeps, untimed, top⟩, chain', mem⟩ := step.starts begins
  rw [step.begun.currp] at top chain' mem
  have elsewhere : ∀ m, s.currp ∉ s'.queue (.mQueue m) := fun m mem' => by
    cases ok'.core.sched.unique _ _ _ mem mem'
  refine ⟨mp, k, s₀.pCtx s.currp, step.begun.currp ▸ step.rest, chain, ?_, chain', mem⟩
  rw [step.frame] at top
  cases timed with
  | false =>
    obtain rfl := untimed rfl
    exact .untimed top (.inl (ok'.core.sched.member _ _ mem).2.1) chain' elsewhere
  | true => exact .timed fs top sleeps chain' elsewhere

/-! ### The return -/

/-- A step taken while the thread is inside a kernel function. -/
def InCall (t : Tid) (s s' : Sys) : Prop := s.pCtx t ≠ [] ∧ ∃ l, next l s = some s'

/-- From its call to its return the wait keeps the rest of the chain. -/
theorem cond_wait_returns {s₁ s₂ : Sys} (ok : KernelOk False s) (waits : l.waitsFor = some cp) (taken : next l s = some s₁)
    (inside : Relation.ReflTransGen (InCall s.currp) s₁ s₂) (returned : s₂.pCtx s.currp = []) :
    ∃ mp k msg, Chain s.toMutexes s.currp (mp :: k) ∧ s₂.pRet (some s.currp) = .msg msg ∧
      Chain s₂.toMutexes s.currp (if msg = rdyTimeout then k else mp :: k) := by
  obtain ⟨effect, ok₁⟩ := next_step ok nofun taken
  obtain ⟨mp, k, rest, ends, chain, starts, -, -⟩ := InWait.starts ok waits taken
  have lt : s.currp < s₁.nthd := ok.core.sched.currp_lt.trans_le effect.moves.nthd_le
  have wait : KernelOk False s₂ ∧ s.currp < s₂.nthd ∧ InWait s.currp mp k rest s₂ := by
    clear returned
    induction inside with
    | refl => exact ⟨ok₁, lt, starts⟩
    | tail _ step ih =>
      obtain ⟨ok', lt', wait⟩ := ih
      obtain ⟨busy, l', taken'⟩ := step
      obtain ⟨effect', ok''⟩ := next_step ok' nofun taken'
      refine ⟨ok'', lt'.trans_le effect'.moves.nthd_le, ?_⟩
      rename_i x _ _
      by_cases mine : s.currp = x.currp
      · rw [mine] at wait busy ⊢
        exact wait.runs ok' taken' ends busy
      · exact wait.stays ok' lt' taken' mine busy
  cases wait.2.2 with
  | done msg _ ret chain' => exact ⟨mp, k, msg, chain, ret, chain'⟩
  | untimed top | locking _ top | locked _ top => cases returned.symm.trans top
  | timed fs top =>
    rw [returned] at top
    cases fs <;> cases top

end ChibiOS.Kernel
