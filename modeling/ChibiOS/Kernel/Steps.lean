import ChibiOS.Kernel.Course

/-!
# Steps

Every step of the kernel is an effect within the foot of its label, and keeps the
invariants of `Core`, of the mutexes and of `due`. What the other objects need is
derived from this: a step whose foot leaves an object out leaves it alone.
-/

namespace ChibiOS.Kernel

open Function (update update_self update_of_ne)
open Lib Sys
open Option (ite_none_right_eq_some)

/-! ## Feet -/

def ICall.foot : ICall → Foot
  | semResetI .. | semSignalI _ | semAddCounterI .. => { sem := true }
  | condSignalI _ | condBroadcastI _ => { cnd := true }
  | evtSignalI .. | evtBroadcastFlagsI .. | evtGetAndClearFlagsI _ => { evt := true }
  | mbPostI .. | mbPostAheadI .. | mbFetchI _ => { sem := true, mb := true }
  | iqResetI _ | iqPutI .. | oqResetI _ | oqGetI _ => { ioq := true }
  | thdCreateI _ => { mtx := true, evt := true, reg := true }
  | vtSetI .. | vtResetI _ => { clk := true }
  | _ => {}

def SCall.foot : SCall → Foot
  | semWaitS _ | semWaitTimeoutS .. => { sem := true }
  | mtxTryLockS _ | mtxUnlockS => { mtx := true }
  | mtxLockS _ | condWaitS _ | condWaitTimeoutS .. => { mtx := true, cnd := true }
  | mbPostS .. | mbPostAheadS .. | mbFetchS .. => { sem := true, mb := true }
  | msgReleaseS .. => { msg := true }
  | thdExitS _ => { reg := true }
  | thdSleepS _ => { slp := true }
  | _ => {}

def ApiCall.foot : ApiCall → Foot
  | semReset .. | semWait _ | semWaitTimeout .. | semSignal _ | semSignalWait .. => { sem := true }
  | mtxTryLock _ | mtxUnlock | mtxUnlockAll | thdSetPriority _ => { mtx := true }
  | mtxLock _ | condWait _ | condWaitTimeout .. => { mtx := true, cnd := true }
  | condSignal _ | condBroadcast _ => { cnd := true }
  | evtRegisterMask .. | evtUnregister .. | evtGetAndClearEvents _ | evtAddEvents _ | evtSignal .. | evtBroadcastFlags ..
  | evtGetAndClearFlags _ | evtWait .. | evtWaitTimeout .. => { evt := true }
  | msgSend .. | msgWait | msgRelease .. => { msg := true }
  | mbReset _ | mbPost .. | mbPostAhead .. | mbFetch .. => { sem := true, mb := true }
  | thdCreate .. => { mtx := true, evt := true, reg := true }
  | thdTerminate _ | thdExit _ | thdWait _ | thdAddRef _ | thdRelease _ | regFirstThread | regNextThread _ => { reg := true }
  | thdSleep _ | thdSleepUntil _ => { slp := true }
  | _ => {}

def Frame.foot : Frame → Foot
  | condWait _ | condWaitTimeout _ => { mtx := true, cnd := true }
  | mbPost .. | mbPostAhead .. | mbFetch _ => { sem := true, mb := true }
  | evtWait .. => { evt := true }
  | msgWait => { msg := true }
  | iqGet .. | iqGetWait .. | iqRead .. | iqReadWait .. | oqPut .. | oqPutWait .. | oqWrite .. | oqWriteWait .. =>
    { ioq := true }
  | thdRelease _ => { reg := true }
  | thdReleaseCheck .. | regRemove .. => { reg := true, rel := true }
  | _ => {}

def Label.foot (s : Sys) : Label → Foot
  | call f => f.foot
  | scall f => f.foot
  | icall f => f.foot
  | run =>
    match s.pCtx s.currp with
    | [] => {}
    | f :: _ => f.foot
  | callback => { sem := true, cnd := true, ioq := true, evt := true, slp := true, clk := true }
  | tick | tickLoop => { clk := true }
  | _ => {}

variable {exact : Prop} {φ : Foot} {s s' : Sys} {fs : List Frame} {f : Frame} {tp : Tid}

theorem Label.foot_run (top : s.pCtx s.currp = f :: fs) : run.foot s = f.foot := by
  rw [foot, top]

/-- A step away from the mutexes. -/
theorem Effect.mtxOk (effect : Effect φ s s') (off : φ.mtx = false) (sched : SchedOk s.toCore) (mtx : MtxOk exact s) :
    MtxOk exact s' := by
  obtain ⟨prio, nthd⟩ := effect.moves.prio_eq off
  have same : SameWaits s.toCore s'.toCore := by
    refine ⟨nthd, prio, fun m => effect.moves.queue_eq sched off, fun t f mem => ?_⟩
    cases mutex : f.mutex with
    | none => exact .inr rfl
    | some m =>
      have keeps : φ.keeps f = true := by cases f <;> first | (simp [Foot.keeps, off]; done) | cases mutex
      have kept : f ∈ (s'.pCtx t).filter φ.keeps := List.mem_filter.2 ⟨mem, keeps⟩
      rw [effect.moves.kept sched t] at kept
      exact .inl (List.mem_filter.1 kept).1
  rw [MtxOk, effect.objs.mtx off]
  exact MtxAt.congr mtx same

theorem Effect.framed (effect : Effect φ s s') (off : φ.mtx = false) (sched : SchedOk s.toCore) (mtx : MtxOk exact s) :
    Effect φ s s' ∧ MtxOk exact s' := ⟨effect, effect.mtxOk off sched mtx⟩

/-! ## I-class functions -/

theorem ICall.effect (f : ICall) (ok : CoreOk s.toCore) (tellable : Tellable s) (allowed : f.allowed s = true) :
    IEffect f.foot s (f.body s) := by
  cases f with
  | semResetI sp n => exact chSemResetI_effect rfl ok _ n
  | semSignalI sp => exact chSemSignalI_effect rfl ok
  | semAddCounterI sp n => exact chSemAddCounterI_effect rfl n ok
  | condSignalI cp => exact chCondSignalI_effect rfl ok cp
  | condBroadcastI cp => exact chCondBroadcastI_effect rfl ok cp
  | evtSignalI tp mask => exact chEvtSignalI_effect rfl ok tp mask
  | evtBroadcastFlagsI es flags => exact broadcastLoop_effect rfl flags _ ok
  | evtGetAndClearFlagsI el => exact chEvtGetAndClearFlagsI_effect rfl tellable el
  | mbPostI mb m => exact mbPostBy_effect rfl rfl ok tellable (s.mbPut mb m).toMailboxes
  | mbPostAheadI mb m => exact mbPostBy_effect rfl rfl ok tellable (s.mbPutAhead mb m).toMailboxes
  | mbFetchI mb => exact chMBFetchI_effect rfl rfl ok tellable
  | iqResetI n => exact chIQResetI_effect rfl ok
  | iqPutI n b => exact chIQPutI_effect rfl ok tellable b
  | oqResetI n => exact chOQResetI_effect rfl ok
  | oqGetI n => exact chOQGetI_effect rfl ok tellable
  | thdCreateI prio =>
    obtain ⟨le, ge⟩ := of_decide_eq_true allowed
    obtain ⟨moves, still⟩ := chThdCreateI_moves (φ := (thdCreateI prio).foot) rfl rfl ok tellable le ge
    exact ⟨⟨moves, fun _ => rfl, nofun, fun _ => rfl, fun _ => rfl, nofun, fun _ => rfl, nofun⟩, still⟩
  | thdResumeI tp =>
    obtain ⟨state, lt⟩ := of_decide_eq_true allowed
    exact chThdResumeI_effect ok tp state lt
  | vtSetI n time =>
    obtain ⟨unarmed, -⟩ := of_decide_eq_true allowed
    simp only [body]
    split
    · exact .refl s
    next vt set =>
      exact ⟨⟨.single (.vtSet n time vt unarmed set rfl), .core⟩, ⟨rfl, rfl, rfl, rfl⟩⟩
  | vtResetI n =>
    exact ⟨⟨.single (.vtReset n rfl), .core⟩, ⟨rfl, rfl, rfl, rfl⟩⟩

theorem ICall.mtxOk (f : ICall) (ok : CoreOk s.toCore) (tellable : Tellable s) (allowed : f.allowed s = true)
    (mtx : MtxOk exact s) : MtxOk exact (f.body s) := by
  have effect := f.effect ok tellable allowed
  cases f with
  | thdCreateI prio => exact chThdCreateI_mtx ok.sched mtx (of_decide_eq_true allowed).1
  | _ => exact effect.toEffect.mtxOk rfl ok.sched mtx

/-! ## S-class functions -/

theorem SCall.effect (f : SCall) (work : AtWork f.foot s s) (allowed : f.allowed s = true) (mtx : MtxOk exact s) :
    Effect f.foot s (f.body s) ∧ MtxOk exact (f.body s) := by
  have framed : ∀ {f : SCall}, Effect f.foot s (f.body s) → f.foot.mtx = false →
      Effect f.foot s (f.body s) ∧ MtxOk exact (f.body s) := fun effect off => effect.framed off work.ok.sched mtx
  cases f with
  | semWaitS sp => exact framed (work.chSemWaitS rfl) rfl
  | semWaitTimeoutS sp time => exact framed (work.asking.chSemWaitTimeoutS rfl time) rfl
  | mtxLockS mp => exact work.chMtxLockS rfl rfl mtx (of_decide_eq_true allowed)
  | mtxTryLockS mp => exact work.chMtxTryLockS rfl mtx (of_decide_eq_true allowed)
  | mtxUnlockS =>
    obtain ⟨effect, done⟩ := chMtxUnlockS_effect rfl work.ok work.zone mtx
    exact ⟨effect.toEffect, done⟩
  | condWaitS cp => exact work.chCondWaitS rfl rfl mtx cp
  | condWaitTimeoutS cp time => exact work.chCondWaitTimeoutS rfl rfl mtx cp (of_decide_eq_true allowed).2
  | mbPostS | mbPostAheadS | mbFetchS => exact framed ((work.askToken rfl (by rfl)).chSemWaitTimeoutS rfl _) rfl
  | msgReleaseS tp msg =>
    obtain ⟨state, lt, quiet⟩ := of_decide_eq_true allowed
    exact framed (work.chMsgReleaseS rfl quiet state lt msg) rfl
  | thdSleepS time => exact framed (work.chThdSleepS rfl (of_decide_eq_true allowed)) rfl
  | thdExitS msg => exact framed (work.chThdExitS rfl msg) rfl
  | suspendS =>
    exact framed (work.moves (work.zone.sleepPlain .suspended work.ok (work.plain.asksFor _) work.plain.direct rfl rfl nofun)
      .core) rfl

/-! ## Functions with lock zones -/

/-- The caller's own reference is the one released. -/
theorem thdRelease_effect (foot : φ.reg = true) (ok : CoreOk s.toCore) (outside : Outside s) (empty : s.pCtx s.currp = [])
    (tp : Tid) : Effect φ s (((s.handOver tp).ret .void).chThdRelease tp) := by
  have handed : IEffect φ s (s.handOver tp) := .of_objs (.onReg foot) rfl
  have told : IEffect φ (s.handOver tp) ((s.handOver tp).ret .void) := .tell (fun _ => by simp [handOver, empty, Plain]) .void
  have all := handed.trans told
  exact all.toEffect.trans (chThdRelease_effect foot (all.coreOk ok) ⟨outside.thread, outside.unlocked, outside.notIdle⟩ empty tp)

theorem ApiCall.effect (f : ApiCall) (ok : CoreOk s.toCore) (outside : Outside s) (empty : s.pCtx s.currp = [])
    (quiet : s.due = false) (allowed : f.allowed s = true) (mtx : MtxOk exact s)
    (steady : exact → ∀ p, f ≠ .thdSetPriority p) : Effect f.foot s (f.body s) ∧ MtxOk exact (f.body s) := by
  have work := outside.enter (φ := f.foot) ok
  have framed : ∀ {f : ApiCall}, Effect f.foot s (f.body s) → f.foot.mtx = false →
      Effect f.foot s (f.body s) ∧ MtxOk exact (f.body s) := fun effect off => effect.framed off ok.sched mtx
  cases f with
  | semReset sp n => exact framed (work.step (chSemResetI_effect rfl work.ok _ n)).reschedule rfl
  | semWait sp => exact framed (work.chSemWaitS rfl) rfl
  | semWaitTimeout sp time => exact framed (work.asking.chSemWaitTimeoutS rfl time) rfl
  | semSignal sp => exact framed (chSemSignal_effect rfl ok outside quiet) rfl
  | semSignalWait sps spw => exact framed (chSemSignalWait_effect rfl ok outside) rfl
  | mtxLock mp => exact (work.tell .void).chMtxLockS rfl rfl (mtx.enter.ret .void) (of_decide_eq_true allowed)
  | mtxTryLock mp => exact work.chMtxTryLockS rfl mtx.enter (of_decide_eq_true allowed)
  | mtxUnlock => exact chMtxUnlock_effect rfl ok outside quiet mtx
  | mtxUnlockAll => exact chMtxUnlockAll_effect rfl ok outside mtx
  | condSignal cp => exact framed (chCondSignal_effect rfl ok cp outside quiet) rfl
  | condBroadcast cp => exact framed (work.step (chCondBroadcastI_effect rfl work.ok cp)).reschedule rfl
  | condWait cp => exact work.chCondWaitS rfl rfl mtx.enter cp
  | condWaitTimeout cp time => exact work.chCondWaitTimeoutS rfl rfl mtx.enter cp (of_decide_eq_true allowed).2
  | evtRegisterMask | evtUnregister | evtGetAndClearEvents | evtAddEvents | evtGetAndClearFlags =>
    exact framed (AtWork.tell (work.step (.of_objs (.onEvt rfl) (by rfl))) _).effect rfl
  | thdTerminate | thdAddRef => exact framed (AtWork.tell (work.step (.of_objs (.onReg rfl) (by rfl))) _).effect rfl
  | evtSignal tp mask => exact framed (work.step (chEvtSignalI_effect rfl work.ok tp mask)).reschedule rfl
  | evtBroadcastFlags es flags => exact framed (work.step (broadcastLoop_effect rfl flags _ work.ok)).reschedule rfl
  | evtWait w mask => exact framed (chEvtWait_effect rfl ok outside w) rfl
  | evtWaitTimeout w mask time => exact framed (chEvtWaitTimeout_effect rfl ok outside w time) rfl
  | msgSend tp msg => exact framed (chMsgSend_effect rfl ok outside tp (of_decide_eq_true allowed) msg) rfl
  | msgWait => exact framed (chMsgWait_effect rfl ok outside) rfl
  | msgRelease tp msg =>
    obtain ⟨state, lt⟩ := of_decide_eq_true allowed
    exact framed (work.chMsgReleaseS rfl quiet state lt msg) rfl
  | mbReset mb => exact framed (chMBReset_effect rfl rfl ok outside) rfl
  | mbPost | mbPostAhead | mbFetch => exact framed ((work.askToken rfl (by rfl)).chSemWaitTimeoutS rfl _) rfl
  | iqGetTimeout n time => exact framed ((work.push (.iqGet n time) rfl ⟨rfl, rfl, .inr ⟨rfl, nofun⟩, rfl, rfl⟩).qCallNotify (.iq n)) rfl
  | iqReadTimeout n want time => exact framed (iqReadRound_effect outside ok empty want []) rfl
  | oqPutTimeout n b time => exact framed (work.push (.oqPut n b time) rfl ⟨rfl, rfl, .inr ⟨rfl, nofun⟩, rfl, rfl⟩).effect rfl
  | oqWriteTimeout n bytes time => exact framed (oqWriteRound_effect outside ok empty bytes []) rfl
  | thdCreate prio mode =>
    obtain ⟨le, ge⟩ := of_decide_eq_true allowed
    exact ⟨⟨chThdCreate_moves rfl rfl ok outside quiet le ge,
      fun _ => rfl, nofun, fun _ => rfl, fun _ => rfl, nofun, fun _ => rfl, nofun⟩,
      MtxAt.congr (chThdCreateI_mtx (s := s.enter) ok.sched mtx.enter le) (.wakeupS _ _ _)⟩
  | thdSetPriority newprio =>
    obtain ⟨le, ge⟩ := of_decide_eq_true allowed
    exact ⟨chThdSetPriority_effect rfl ok outside le ge,
      chThdSetPriority_mtx ok.sched mtx (fun on => steady on newprio rfl) le⟩
  | thdResume tp =>
    obtain ⟨state, lt⟩ := of_decide_eq_true allowed
    exact framed (chThdResume_effect ok outside quiet tp state lt) rfl
  | thdSleep time => exact framed (work.chThdSleepS rfl (of_decide_eq_true allowed)) rfl
  | thdSleepUntil time => exact framed (chThdSleepUntil_effect rfl ok outside time) rfl
  | thdYield => exact framed (chThdYield_effect ok outside) rfl
  | thdExit msg => exact framed ((outside.lock ok empty).chThdExitS rfl msg) rfl
  | thdWait tp =>
    obtain ⟨lt, -⟩ := of_decide_eq_true allowed
    exact framed (chThdWait_effect rfl ok outside empty tp lt) rfl
  | thdRelease tp => exact framed (thdRelease_effect rfl ok outside empty tp) rfl
  | regFirstThread => exact framed (chRegFirstThread_effect rfl ok outside) rfl
  | regNextThread tp => exact framed (chRegNextThread_effect rfl ok outside empty tp) rfl

/-! ## Frames -/

/-- The frame `f` is taken off the context of the running thread. -/
structure Popped (φ : Foot) (f : Frame) (fs : List Frame) (s : Sys) : Prop extends Effect φ s s.pop where
  ctx : s.pop.pCtx s.currp = fs
  awake : Awake fs
  plain : Plain fs
  notIdle : s.currp ≠ idleThread
  last : f.last = true → fs = []

theorem popped (ok : CoreOk s.toCore) (thread : s.isr = []) (top : s.pCtx s.currp = f :: fs)
    (notSleep : f.sleeps = false) (notUnlock : f ≠ .sysUnlock) (drops : φ.keeps f = false)
    (covered : φ.covers f = true) : Popped φ f fs s := by
  have ctx : CtxOk s.locked (f :: fs) := top ▸ ok.ctl.current
  have plain := ctx.plain_tail notSleep
  have notIdle : s.currp ≠ idleThread := ok.ctl.ne_idle (top ▸ .head _) notUnlock
  have below : CtxOk s.locked fs := by
    cases locked : s.locked with
    | true => exact (locked ▸ ctx).tail notUnlock
    | false =>
      have unlocked : f.unlocked = true := by simpa [locked] using ctx.head f rfl
      rw [ctx.last (Frame.last_of_unlocked unlocked)]
      exact .nil false
  have move : Move φ s.toCore _ := .ctl fs s.locked thread (fun g is => by rw [top] at is; cases is; exact notSleep)
    ctx.awake_tail below ⟨?_, plain.covered, ?_⟩ fun is => absurd is notIdle
  · refine ⟨⟨?_, .core⟩, ?_, ctx.awake_tail, plain, notIdle, ctx.last⟩
    · rw [pop, top]
      exact .single move
    · rw [pop, top]
      exact update_self ..
  · rw [top]
    exact List.forall_mem_cons.2 ⟨covered, plain.covered⟩
  · rw [top, List.filter_cons_of_neg (by simp [drops])]

theorem Popped.work (popped : Popped φ f fs s) (ok : CoreOk s.toCore) (thread : s.isr = []) (locked : s.locked = true) :
    AtWork φ s s.pop :=
  ⟨popped.toEffect, popped.coreOk ok, ⟨thread, locked, popped.notIdle, popped.ctx ▸ popped.awake,
    popped.ctx ▸ popped.plain.covered⟩, popped.ctx ▸ popped.plain⟩

theorem Popped.outside (popped : Popped φ f fs s) (thread : s.isr = []) (unlocked : s.locked = false) : Outside s.pop :=
  ⟨thread, unlocked, popped.notIdle⟩

theorem MtxOk.pop (mtx : MtxOk exact s) : MtxOk exact s.pop := by
  refine MtxAt.congr mtx ⟨rfl, rfl, fun _ => rfl, fun t f mem => .inl ?_⟩
  by_cases same : t = s.currp
  · subst same
    simp only [Sys.pop, update_self] at mem
    exact List.mem_of_mem_tail mem
  · simpa only [Sys.pop, update_of_ne same] using mem

/-- `chSysUnlock()`. -/
theorem sysUnlock_effect (ok : CoreOk s.toCore) (thread : s.isr = [])
    (top : s.pCtx s.currp = .sysUnlock :: fs) : Effect φ s { s.pop with locked := false } := by
  have ctx : CtxOk s.locked (.sysUnlock :: fs) := top ▸ ok.ctl.current
  have plain := ctx.plain rfl rfl
  have move : Move φ s.toCore _ := .ctl fs false thread (fun g is => by rw [top] at is; cases is; rfl) ctx.awake_tail
    ctx.unlock ⟨top ▸ plain.covered, (ctx.plain_tail rfl).covered, by rw [top]; rfl⟩
    fun is f mem => ok.ctl.idle f (is ▸ top ▸ List.mem_cons_of_mem _ mem)
  refine ⟨?_, .core⟩
  rw [pop, top]
  exact .single move

/-- The scheduler's own sleeps return. -/
theorem sleepFrame_effect (thread : s.isr = []) (locked : s.locked = true) (top : s.pCtx s.currp = f :: fs)
    (sleeps : f.sleeps = true) : Effect φ s (f.run s.pop) := by
  have pop : s.pop = { s with pCtx := update s.pCtx s.currp fs } := by rw [pop, top]; rfl
  rw [pop]
  cases f with
  | rdymsg => exact ⟨.single (.rdymsg fs thread locked top), .core⟩
  | goSleepTimeout => exact ⟨.single (.sleepReturn fs thread locked top), .core⟩
  | _ => cases sleeps

/-- The rest of a mailbox function. -/
theorem AtWork.mbResume {s₀ : Sys} (work : AtWork f.foot s₀ s) (isMb : f.isMb = true) : Effect f.foot s₀ (f.run s) := by
  cases f with
  | mbPost mb m =>
    simp only [Frame.run, mbPostResume]
    split
    · exact AtWork.reschedule (work.step (.signal (.of_objs (.onMb rfl rfl) (by rfl)) rfl work.ok _))
    · exact work.effect
  | mbPostAhead mb m =>
    simp only [Frame.run, mbPostAheadResume]
    split
    · exact AtWork.reschedule (work.step (.signal (.of_objs (.onMb rfl rfl) (by rfl)) rfl work.ok _))
    · exact work.effect
  | mbFetch mb =>
    simp only [Frame.run, mbFetchResume]
    split
    · have told := work.tell (.fetched s.lastMsg (some (s.mbFirst mb)))
      exact AtWork.reschedule (told.step (.signal (.of_objs (.onMb rfl rfl) (by rfl)) rfl told.ok _))
    · exact (work.tell _).effect
  | _ => cases isMb

section

variable (reg : φ.reg = true) (rel : φ.rel = true) (outside : Outside s) (empty : s.pCtx s.currp = [])
include reg rel outside empty

theorem removes_effect (tp : Tid) (st : RegStage) : Effect φ s (s.removes tp st) :=
  (outside.push empty rfl rfl rfl (by simp [Foot.keeps, reg, rel])).1

theorem thdReleaseCheck_effect (tp : Tid) (refs : Nat) : Effect φ s (s.thdReleaseCheck tp refs) := by
  rw [thdReleaseCheck]
  split
  · exact removes_effect reg rel outside empty tp .start
  · exact .refl s

theorem regRemoveStep_effect (tp : Tid) (st : RegStage) : Effect φ s (s.regRemoveStep tp st) := by
  have linked (r : Registry) : Effect φ s { s with toRegistry := r } := (IEffect.of_objs (.onReg reg) rfl).toEffect
  have stored (r : Registry) (st : RegStage) : Effect φ s ({ s with toRegistry := r }.removes tp st) :=
    (linked r).trans (removes_effect (s := { s with toRegistry := r }) reg rel
      ⟨outside.thread, outside.unlocked, outside.notIdle⟩ empty tp st)
  cases st with
  | forth | back => exact stored _ _
  | done => exact linked _
  | _ => exact removes_effect reg rel outside empty tp _

end

theorem Frame.effect (f : Frame) (ok : CoreOk s.toCore) (thread : s.isr = [])
    (top : s.pCtx s.currp = f :: fs) (notNotify : ∀ qp, f ≠ .notify qp) (mtx : MtxOk exact s) :
    Effect f.foot s (f.run s.pop) ∧ MtxOk exact (f.run s.pop) := by
  have ctx : CtxOk s.locked (f :: fs) := top ▸ ok.ctl.current
  have locked : f.unlocked = false → s.locked = true := fun is => by simpa [is] using ctx.head f rfl
  have unlocked : f.unlocked = true → s.locked = false := fun is => by simpa [is] using ctx.head f rfl
  have empty : f.last = true → s.pop.pCtx s.currp = [] := fun last => by
    rw [Sys.pop, top, ctx.last last]
    exact update_self ..
  have framed : ∀ {s' : Sys}, Effect f.foot s s' → f.foot.mtx = false → Effect f.foot s s' ∧ MtxOk exact s' :=
    fun effect off => effect.framed off ok.sched mtx
  rcases eq_or_ne f .sysUnlock with rfl | other
  · exact framed (sysUnlock_effect ok thread top) rfl
  have pop (awake : f.sleeps = false) : f.foot.keeps f = false → f.foot.covers f = true → Popped f.foot f fs s :=
    popped ok thread top awake other
  have work : f.sleeps = false → f.foot.keeps f = false → f.foot.covers f = true → f.unlocked = false →
      AtWork f.foot s s.pop := fun awake drops covered isLocked =>
    (pop awake drops covered).work ok thread (locked isLocked)
  have relocks : ∀ {mp : MtxId} (msg : Msg), AtWork f.foot s s.pop → f.mutex = some mp → f.foot.mtx = true →
      f.foot.cnd = true → Effect f.foot s (s.pop.condWaitResume mp msg) ∧ MtxOk exact (s.pop.condWaitResume mp msg) :=
    fun msg work mutex on onCnd =>
      work.condWaitResume on onCnd mtx.pop (mtx.frames s.currp f (top ▸ .head _) _ mutex) msg
  cases f with
  | sysUnlock => exact absurd rfl other
  | rdymsg | goSleepTimeout => exact framed (sleepFrame_effect thread (locked rfl) top rfl) rfl
  | notify qp => exact absurd rfl (notNotify qp)
  | condWait mp => exact relocks _ (work rfl rfl rfl rfl) rfl rfl rfl
  | condWaitTimeout mp =>
    have work := work rfl rfl rfl rfl
    simp only [run]
    split
    · exact relocks _ work rfl rfl rfl
    · exact ⟨work.effect, mtx.pop⟩
  | retMsg | thdWait => exact framed (AtWork.tell (work rfl rfl rfl rfl) _).effect rfl
  | mbPost | mbPostAhead | mbFetch => exact framed (AtWork.mbResume (work rfl rfl rfl rfl) rfl) rfl
  | evtWait w mask timed => exact framed ((work rfl rfl rfl rfl).evtWaitResume rfl w timed _) rfl
  | msgWait => exact framed ((work rfl rfl rfl rfl).msgWaitResume rfl) rfl
  | thdRelease tp =>
    have popped := pop rfl rfl rfl
    exact framed (popped.toEffect.trans (chThdRelease_effect rfl (popped.coreOk ok) (popped.outside thread (unlocked rfl))
      (empty rfl) tp)) rfl
  | thdReleaseCheck tp refs =>
    have popped := pop rfl rfl rfl
    exact framed (popped.toEffect.trans (thdReleaseCheck_effect rfl rfl (popped.outside thread (unlocked rfl)) (empty rfl)
      tp refs)) rfl
  | regRemove tp st =>
    have popped := pop rfl rfl rfl
    exact framed (popped.toEffect.trans (regRemoveStep_effect rfl rfl (popped.outside thread (unlocked rfl)) (empty rfl)
      tp st)) rfl
  | iqGet n time => exact framed ((work rfl rfl rfl rfl).iqGetLoop rfl) rfl
  | iqGetWait n time => exact framed ((work rfl rfl rfl rfl).iqGetResume _) rfl
  | iqRead n time want got => exact framed ((work rfl rfl rfl rfl).iqReadLoop (empty rfl) rfl want got) rfl
  | iqReadWait n time want got => exact framed ((work rfl rfl rfl rfl).iqReadResume (empty rfl) want got _) rfl
  | iqReadNext n time want got =>
    have popped := pop rfl rfl rfl
    exact framed (popped.toEffect.trans (iqReadRound_effect (popped.outside thread (unlocked rfl)) (popped.coreOk ok)
      (empty rfl) want got)) rfl
  | oqPut n b time => exact framed ((work rfl rfl rfl rfl).oqPutLoop rfl b) rfl
  | oqPutWait n b time => exact framed ((work rfl rfl rfl rfl).oqPutResume b _) rfl
  | oqWrite n time todo done => exact framed ((work rfl rfl rfl rfl).oqWriteLoop (empty rfl) rfl todo done) rfl
  | oqWriteWait n time todo done => exact framed ((work rfl rfl rfl rfl).oqWriteResume (empty rfl) todo done _) rfl
  | oqWriteNext n time todo done =>
    have popped := pop rfl rfl rfl
    exact framed (popped.toEffect.trans (oqWriteRound_effect (popped.outside thread (unlocked rfl)) (popped.coreOk ok)
      (empty rfl) todo done)) rfl

/-! ## Interrupts -/

/-- The callback of a timed sleep finds the thread in its wait: a token counted for it
is given back, and it is taken off its list and made ready. -/
theorem wakeup_timed (sched : SchedOk s.toCore) (timed : (s.pState tp).timed = true) :
    (∃ sp, tp ∈ s.queue (.sQueue sp) ∧ s.wakeup tp = ((s.chSemFastSignalI sp).logSem sp (.expire (s.semTicket tp))).onCore
      fun c => (c.dequeue tp).readyTimeout tp) ∨
    s.pState tp ≠ .wtsem ∧ s.wakeup tp = s.onCore fun c => (c.dequeue tp).readyTimeout tp := by
  have lt : tp < s.nthd := sched.lt_of_ne_suspended fun is => by rw [is] at timed; cases timed
  unfold wakeup
  cases state : s.pState tp with
  | wtsem =>
    obtain ⟨q, mem⟩ := sched.queued tp lt nofun (by rw [state]; rfl)
    have inState := (sched.member q tp mem).2.1
    rw [state] at inState
    cases q with
    | sQueue sp =>
      have obj : s.pU tp = .wtobjp (.sQueue sp) := sched.obj _ tp mem rfl
      exact .inl ⟨sp, mem, by simp only [obj]⟩
    | rQueue | mQueue | cQueue | qWaiting | pMsgqueue | pWaiting => cases inState
  | wtqueue | wtcond => exact .inr ⟨by simp, rfl⟩
  | sleeping | wtorevt | wtandevt =>
    have unlinked : s.toCore.dequeue tp = s.toCore := sched.dequeue_of_not_queued (by rw [state]; rfl)
    exact .inr ⟨by simp, by simp only [onCore, unlinked]⟩
  | _ => rw [state] at timed; cases timed

theorem wakeup_toCore (sched : SchedOk s.toCore) (timed : (s.pState tp).timed = true) :
    (s.wakeup tp).toCore = (s.toCore.dequeue tp).readyTimeout tp := by
  rcases wakeup_timed sched timed with ⟨sp, -, is⟩ | ⟨-, is⟩ <;> rw [is] <;> rfl

theorem wakeup_effect {isr : List Isr} (footSem : φ.sem = true) (footCnd : φ.cnd = true)
    (footIoq : φ.ioq = true) (footEvt : φ.evt = true) (footSlp : φ.slp = true) (footClk : φ.clk = true)
    (ok : CoreOk s.toCore) (is : s.isr = .tick (some (.wakeup tp)) :: isr) : Effect φ s { s.wakeup tp with isr := .tick none :: isr } := by
  rcases (ok.called_back is).symm with timed | ready
  · have lt : tp < s.nthd := ok.sched.lt_of_ne_suspended fun is => by rw [is] at timed; cases timed
    have foot : φ.state (s.pState tp) = true := by
      cases state : s.pState tp <;> first
        | exact footSem | exact footCnd | exact footIoq | exact footEvt | exact footSlp | (rw [state] at timed; cases timed)
    have move : Moves φ s.toCore _ := .single (.timeout tp isr is lt timed foot footClk)
    rcases wakeup_timed ok.sched timed with ⟨sp, -, woken⟩ | ⟨-, woken⟩
    · rw [woken]
      exact ⟨move, .onSem footSem⟩
    · rw [woken]
      exact ⟨move, .core⟩
  · have move : Moves φ s.toCore _ := .single (.callback _ isr is (fun t same => by cases same; exact ready) footClk)
    simp only [wakeup, ready]
    exact ⟨move, .core⟩

/-- The end of the last handler. -/
theorem irqEpilogue_moves {c : Core} (ok : CoreOk c) (thread : c.isr = []) (unlocked : c.locked = false) :
    Moves φ c c.irqEpilogue := by
  have ctx : CtxOk false (c.pCtx c.currp) := unlocked ▸ ok.ctl.current
  have plain := ctx.plain_of_unlocked
  rw [Core.irqEpilogue]
  split
  next required =>
    have entered : Moves φ c ({ c with locked := true }.push .sysUnlock) := by
      refine .single (.ctl (.sysUnlock :: c.pCtx c.currp) true thread ctx.awake_of_unlocked
        (fun g is => by rw [← Option.some.inj is]; rfl) ctx.lock
        ⟨plain.covered, List.forall_mem_cons.2 ⟨rfl, plain.covered⟩, rfl⟩ fun is f mem => ?_)
      rcases List.mem_cons.1 mem with rfl | mem
      · rfl
      · exact ok.ctl.idle f (is ▸ mem)
    have ok' := entered.coreOk ok
    refine entered.trans ?_
    rw [Core.chSchDoReschedule]
    rw [Core.chSchIsPreemptionRequired] at required
    split
    next exhausted =>
      have le : c.pPrio c.currp ≤ c.firstprio := by
        simpa [show c.pPreempt c.currp = 0 from exhausted] using required
      exact chSchDoRescheduleBehind_moves ok' thread rfl le
    next left =>
      have lt : c.pPrio c.currp < c.firstprio := by
        simpa [show ¬ c.pPreempt c.currp = 0 from left] using required
      obtain ⟨h, l, first, lt⟩ := SchedOk.first_of_lt lt
      exact .single (.ahead h l thread rfl first lt)
  next notRequired =>
    refine .single (.calm fun r mem => (ok.sched.le_firstprio r mem).trans ?_)
    rw [Core.chSchIsPreemptionRequired] at notRequired
    by_cases left : c.pPreempt c.currp = 0
    · simp only [left, ne_eq, not_true_eq_false, if_false, decide_eq_true_eq, not_le] at notRequired
      exact notRequired.le
    · simpa [left] using notRequired

theorem irqEpilogue_due {c : Core} : c.irqEpilogue.due = false := by
  rw [Core.irqEpilogue]
  split
  · rw [Core.chSchDoReschedule]
    split <;> rfl
  · rfl

/-! ## What a step is -/

theorem next_call {f : ApiCall} (taken : next (.call f) s = some s') : Outside s ∧ s.pCtx s.currp = [] ∧
    f.allowed s = true ∧ s' = f.body s := by
  obtain ⟨⟨mode, unlocked, allowed⟩, ⟨⟩⟩ := ite_none_right_eq_some.1 taken
  obtain ⟨thread, empty, notIdle⟩ := of_decide_eq_true mode
  exact ⟨⟨thread, unlocked, notIdle⟩, empty, allowed, rfl⟩

theorem next_scall {f : SCall} (taken : next (.scall f) s = some s') : (∀ φ, Zone φ s.toCore) ∧ s.pCtx s.currp = [] ∧
    f.allowed s = true ∧ s' = f.body s := by
  obtain ⟨⟨mode, locked, allowed⟩, ⟨⟩⟩ := ite_none_right_eq_some.1 taken
  obtain ⟨thread, empty, notIdle⟩ := of_decide_eq_true mode
  exact ⟨fun φ => ⟨thread, locked, notIdle, by rw [empty]; nofun, by rw [empty]; nofun⟩, empty, allowed, rfl⟩

theorem next_icall {f : ICall} (taken : next (.icall f) s = some s') :
    (s.isrMode = true ∨ s.lockZone = true) ∧ f.allowed s = true ∧ s' = f.body s := by
  obtain ⟨⟨mode, allowed⟩, ⟨⟩⟩ := ite_none_right_eq_some.1 taken
  exact ⟨mode, allowed, rfl⟩

theorem next_run (taken : next .run s = some s') : ∃ f fs, s.isr = [] ∧ s.pCtx s.currp = f :: fs ∧
    (∀ qp, f ≠ .notify qp) ∧ s' = f.run s.pop := by
  simp only [next] at taken
  split at taken
  · cases taken
  next f fs notNotify thread top =>
    simp only [ite_none_right_eq_some, Option.some.injEq] at taken
    exact ⟨f, fs, thread, top, notNotify, taken.2.symm⟩
  · cases taken

theorem next_notifyReturn (taken : next .notifyReturn s = some s') : ∃ qp fs, s.isr = [] ∧
    s.pCtx s.currp = .notify qp :: fs ∧ s.due = false ∧ s' = s.pop := by
  simp only [next] at taken
  split at taken
  next qp fs thread top =>
    simp only [ite_none_right_eq_some, Option.some.injEq] at taken
    exact ⟨qp, fs, thread, top, taken.1.2, taken.2.symm⟩
  · cases taken

theorem next_isrExit (taken : next .isrExit s = some s') :
    s.isr = [.handler] ∧ s' = { s with isr := [] }.onCore .irqEpilogue ∨
      ∃ isr, s.isr = .handler :: isr ∧ isr ≠ [] ∧ s' = { s with isr := isr } := by
  simp only [next] at taken
  split at taken
  next is =>
    cases taken
    exact .inl ⟨is, rfl⟩
  next isr nested is =>
    cases taken
    exact .inr ⟨isr, is, nested, rfl⟩
  · cases taken

theorem next_callback (taken : next .callback s = some s') : ∃ isr,
    (∃ tp, s.isr = .tick (some (.wakeup tp)) :: isr ∧ s' = { s.wakeup tp with isr := .tick none :: isr }) ∨
      ∃ n, s.isr = .tick (some (.app n)) :: isr ∧ s' = { s with isr := .tick none :: isr } := by
  simp only [next] at taken
  split at taken
  next tp isr is =>
    cases taken
    exact ⟨isr, .inl ⟨tp, is, rfl⟩⟩
  next n isr is =>
    cases taken
    exact ⟨isr, .inr ⟨n, is, rfl⟩⟩
  · cases taken

theorem next_tickLoop (taken : next .tickLoop s = some s') : ∃ isr r, s.isr = .tick none :: isr ∧
    vtExpire s.vt = some r ∧ s' = { s with toCore := s.toCore.tickLoop isr r } := by
  simp only [next] at taken
  split at taken
  next isr is =>
    obtain ⟨r, expired, rfl⟩ := Option.map_eq_some_iff.1 taken
    exact ⟨isr, r, is, expired, rfl⟩
  · cases taken

/-! ## All steps -/

/-- The invariants that every step keeps. -/
structure KernelOk (exact : Prop) (s : Sys) : Prop where
  core : CoreOk s.toCore
  due : DueOk s.toCore
  mtx : MtxOk exact s

theorem KernelOk.sound (ok : KernelOk exact s) : Sound s where
  vt := ok.core.timed.vt
  owner m t owns := (ok.mtx.chains.bound m t owns).2.1

/-- A step, from its effect and what is due after it. -/
theorem KernelOk.step (ok : KernelOk exact s) (effect : Effect φ s s' ∧ MtxOk exact s') (due : DueOk s'.toCore) :
    Effect φ s s' ∧ KernelOk exact s' :=
  ⟨effect.1, effect.1.coreOk ok.core, due, effect.2⟩

/-- In a lock zone something may be due. -/
theorem lockZone_lax (zone : s.lockZone = true) : s.isr = [] ∧ s.locked = true ∧ Lax (s.pCtx s.currp) := by
  unfold lockZone at zone
  split at zone
  next empty =>
    obtain ⟨locked, thread, -⟩ := of_decide_eq_true zone
    exact ⟨thread, locked, empty ▸ .own⟩
  next qp fs top =>
    obtain ⟨locked, thread⟩ := of_decide_eq_true zone
    exact ⟨thread, locked, top ▸ .notify qp fs⟩
  · cases zone

theorem lockZone_plain (ok : CoreOk s.toCore) (zone : s.lockZone = true) : Plain (s.pCtx s.currp) := by
  unfold lockZone at zone
  split at zone
  next empty =>
    rw [empty]
    nofun
  next qp fs top =>
    have ctx : CtxOk s.locked (.notify qp :: fs) := top ▸ ok.ctl.current
    rw [top]
    exact ctx.plain rfl rfl
  · cases zone

theorem isrMode_isr (mode : s.isrMode = true) : s.isr ≠ [] := by
  intro none
  rw [isrMode, none] at mode
  cases mode

theorem tellable_of_mode (ok : CoreOk s.toCore) (mode : s.isrMode = true ∨ s.lockZone = true) : Tellable s := by
  intro thread
  rcases mode with inIsr | zone
  · exact absurd thread (isrMode_isr inIsr)
  · exact lockZone_plain ok zone

theorem icall_step {f : ICall} (ok : KernelOk exact s) (mode : s.isrMode = true ∨ s.lockZone = true)
    (allowed : f.allowed s = true) : Effect f.foot s (f.body s) ∧ KernelOk exact (f.body s) := by
  have tellable := tellable_of_mode ok.core mode
  have effect := f.effect ok.core tellable allowed
  refine ok.step ⟨effect.toEffect, f.mtxOk ok.core tellable allowed ok.mtx⟩ (.still ?_ effect.still)
  rcases mode with inIsr | zone
  · exact .inl (isrMode_isr inIsr)
  · exact .inr (lockZone_lax zone).2

/-- A frame of the running thread. -/
theorem run_step (ok : KernelOk exact s) (thread : s.isr = []) (top : s.pCtx s.currp = f :: fs)
    (notNotify : ∀ qp, f ≠ .notify qp) :
    Effect f.foot s (f.run s.pop) ∧ KernelOk exact (f.run s.pop) := by
  refine ok.step (f.effect ok.core thread top notNotify ok.mtx) ?_
  cases due : s.due with
  | false => exact .quiet ((f.run_course .start ok.sound.pop rfl rfl id).quiet due)
  | true =>
    -- only a mailbox function of the application's own lock zone goes on with something due
    rcases ok.due due with inIsr | ⟨locked, lax⟩
    · exact absurd thread inIsr
    · have own : fs = [] → s.pop.pCtx s.pop.currp = [] := fun last => by
        rw [pop, top, last]
        exact update_self ..
      generalize ctx : s.pCtx s.currp = gs at lax
      rw [top] at ctx
      cases lax with
      | own => cases ctx
      | notify qp => cases ctx; exact absurd rfl (notNotify qp)
      | mailbox g isMb =>
        cases ctx
        cases f with
        | mbPost | mbPostAhead | mbFetch =>
          simp only [Frame.run, mbPostResume, mbPostAheadResume, mbFetchResume]
          split
          · exact .quiet Core.chSchRescheduleS_due
          · exact .own locked (own rfl)
        | _ => cases isMb

theorem next_step {l : Label} (ok : KernelOk exact s) (steady : exact → ∀ p, l ≠ .call (.thdSetPriority p))
    (taken : next l s = some s') : Effect (l.foot s) s s' ∧ KernelOk exact s' := by
  have framed : ∀ {s' : Sys}, Effect {} s s' → DueOk s'.toCore → Effect {} s s' ∧ KernelOk exact s' :=
    fun effect due => ok.step (effect.framed rfl ok.core.sched ok.mtx) due
  have moves : ∀ {c : Core}, Move {} s.toCore c → Effect {} s { s with toCore := c } := fun move =>
    ⟨.single move, .core⟩
  cases l with
  | call f =>
    obtain ⟨outside, empty, allowed, rfl⟩ := next_call taken
    have quiet := ok.due.of_unlocked outside.thread outside.unlocked
    exact ok.step (f.effect ok.core outside empty quiet allowed ok.mtx fun on p same => steady on p (same ▸ rfl))
      (.quiet ((f.body_course ok.sound quiet allowed).quiet quiet))
  | scall f =>
    obtain ⟨zone, empty, allowed, rfl⟩ := next_scall taken
    exact ok.step (f.effect (.start ok.core (zone _) (by rw [empty]; nofun)) allowed ok.mtx)
      (f.body_dueOk ok.core.timed.vt (zone {}).locked empty)
  | icall f =>
    obtain ⟨mode, allowed, rfl⟩ := next_icall taken
    exact icall_step ok mode allowed
  | sysLock =>
    obtain ⟨⟨mode, unlocked⟩, ⟨⟩⟩ := ite_none_right_eq_some.1 taken
    obtain ⟨thread, empty, -⟩ := of_decide_eq_true mode
    have quiet := ok.due.of_unlocked thread unlocked
    exact framed (lock_effect thread empty true) (.quiet quiet)
  | sysUnlock =>
    obtain ⟨⟨mode, -, quiet⟩, ⟨⟩⟩ := ite_none_right_eq_some.1 taken
    obtain ⟨thread, empty, -⟩ := of_decide_eq_true mode
    exact framed (lock_effect thread empty false) (.quiet quiet)
  | reschedule =>
    obtain ⟨zone, ⟨⟩⟩ := ite_none_right_eq_some.1 taken
    obtain ⟨thread, locked, -⟩ := lockZone_lax zone
    exact framed (.onCore (chSchRescheduleS_moves ok.core thread locked)) (.quiet Core.chSchRescheduleS_due)
  | run =>
    obtain ⟨f, fs, thread, top, notNotify, rfl⟩ := next_run taken
    rw [Label.foot_run top]
    exact run_step ok thread top notNotify
  | notifyReturn =>
    obtain ⟨qp, fs, thread, top, quiet, rfl⟩ := next_notifyReturn taken
    exact framed (popped ok.core thread top rfl nofun rfl rfl).toEffect (.quiet quiet)
  | isrEnter =>
    simp only [next, Option.ite_none_left_eq_some, Option.some.injEq] at taken
    obtain ⟨unlocked, rfl⟩ := taken
    exact framed (moves (.isrEnter (by simpa using unlocked))) fun _ => .inl nofun
  | isrExit =>
    rcases next_isrExit taken with ⟨is, rfl⟩ | ⟨isr, is, nested, rfl⟩
    · have unlocked : s.locked = false := ok.core.ctl.isr (by simp [is])
      have left : Effect {} s { s with isr := [] } := moves (.isrExit [] is)
      exact framed (left.trans (.onCore (irqEpilogue_moves (left.coreOk ok.core) rfl unlocked))) (.quiet irqEpilogue_due)
    · exact framed (moves (.isrExit isr is)) fun _ => .inl nested
  | tick =>
    simp only [next, ite_none_right_eq_some, Option.map_eq_some_iff] at taken
    obtain ⟨⟨unlocked, handlers⟩, c, ticked, rfl⟩ := taken
    have done : Effect (Label.foot s .tick) s { s with toCore := c } := ⟨.single (.tick c unlocked handlers ticked rfl), .core⟩
    refine ok.step (done.framed rfl ok.core.sched ok.mtx) fun _ => .inl ?_
    obtain ⟨⟨vt, r⟩, _, rfl⟩ := Option.map_eq_some_iff.1 ticked
    cases r <;> exact nofun
  | callback =>
    obtain ⟨isr, ⟨tp, is, rfl⟩ | ⟨n, is, rfl⟩⟩ := next_callback taken
    · exact ok.step ((wakeup_effect rfl rfl rfl rfl rfl rfl ok.core is).framed rfl ok.core.sched ok.mtx) fun _ => .inl nofun
    · have done : Effect (Label.foot s .callback) s { s with isr := .tick none :: isr } :=
        ⟨.single (.callback _ isr is nofun rfl), .core⟩
      exact ok.step (done.framed rfl ok.core.sched ok.mtx) fun _ => .inl nofun
  | tickLoop =>
    obtain ⟨isr, r, is, expired, rfl⟩ := next_tickLoop taken
    have done : Effect (Label.foot s .tickLoop) s { s with toCore := s.toCore.tickLoop isr r } :=
      ⟨.single (.tickLoop isr r is expired rfl), .core⟩
    refine ok.step (done.framed rfl ok.core.sched ok.mtx) fun _ => .inl ?_
    obtain ⟨vt, r⟩ := r
    cases r <;> exact nofun

/-- A thread in the middle of a kernel function, with the kernel locked, can only go on. -/
theorem next_eq_run {l : Label} (ok : CoreOk s.toCore) (taken : next l s = some s')
    (top : s.pCtx s.currp = f :: fs) (locks : f.unlocked = false) (notNotify : ∀ qp, f ≠ .notify qp) : l = .run := by
  have locked : s.locked = true := by simpa [locks] using ok.ctl.current.head f (by rw [top]; rfl)
  have thread : s.isr = [] := by
    by_contra inIsr
    cases (ok.ctl.isr inIsr).symm.trans locked
  have notMode : s.threadMode ≠ true := fun mode => by
    cases ((of_decide_eq_true mode).2.1).symm.trans top
  have notZone : s.lockZone ≠ true := fun zone => by
    unfold lockZone at zone
    rw [top] at zone
    split at zone
    next is =>
      cases is
    next qp _ is =>
      cases is
      exact notNotify qp rfl
    · cases zone
  cases l with
  | run => rfl
  | call f | scall f | sysLock | sysUnlock | reschedule => simp [next, notMode, notZone] at taken
  | icall f =>
    rcases (next_icall taken).1 with mode | zone
    · exact absurd thread (isrMode_isr mode)
    · exact absurd zone notZone
  | notifyReturn =>
    obtain ⟨qp, _, -, is, -⟩ := next_notifyReturn taken
    cases top.symm.trans is
    exact absurd rfl (notNotify qp)
  | isrEnter | tick => simp [next, locked] at taken
  | isrExit | callback | tickLoop => simp [next, thread] at taken

/-- The thread in the middle of a function takes its next frame. -/
theorem next_own {l : Label} (ok : CoreOk s.toCore) (taken : next l s = some s')
    (top : s.pCtx s.currp = f :: fs) (locks : f.unlocked = false) (notNotify : ∀ qp, f ≠ .notify qp) :
    l = .run ∧ s.isr = [] ∧ s' = f.run s.pop ∧ s.pop.pCtx s.currp = fs := by
  obtain rfl := next_eq_run ok taken top locks notNotify
  obtain ⟨f', fs', thread, top', -, is⟩ := next_run taken
  obtain ⟨rfl, rfl⟩ := List.cons.inj (top.symm.trans top')
  exact ⟨rfl, thread, is, by rw [pop, top]; exact update_self ..⟩

end ChibiOS.Kernel
