import ChibiOS.Kernel.Effects

/-!
# The effects of the kernel's functions

One lemma for each function: an `Effect` for a function in a lock zone, from the thread `AtWork`
that calls it, and an `IEffect` for one that an interrupt handler may call. The mutexes, whose unlock
relies on an invariant of their own, are in `MtxEffects`.
-/

namespace ChibiOS.Kernel

open Function
open Lib Kernel.Core Sys Effect

variable {φ : Foot} {s s' : Sys} {t : Tid}

/-- A waiting thread is taken from its list and readied. -/
theorem IEffect.readyMsg {q : QueueId} {c : Core} {m : Msg} (removed : Removed q s.toCore t c) (notReady : q ≠ .rQueue)
    (foot : φ.state q.tstate = true) (msg : m ≠ rdyTimeout) : IEffect φ s { s with toCore := c.readyMsg t m } :=
  ⟨⟨removed.readyMsg notReady foot msg, .core⟩, removed.still.trans ⟨rfl, rfl, rfl, rfl⟩⟩

/-- A list is emptied, every thread in it told `m`. -/
theorem IEffect.flush {q : QueueId} {m : Msg} (ok : CoreOk s.toCore) (notReady : q ≠ .rQueue)
    (foot : φ.state q.tstate = true) (msg : m ≠ rdyTimeout) :
    IEffect φ s (s.onCore fun c => c.flush q (.readyMsg · m) (c.queue q).length) := by
  have step : ∀ {c : Core} {t : Tid} {c' : Core}, CoreOk c → Removed q c t c' →
      Moves φ c (c'.readyMsg t m) ∧ Still c (c'.readyMsg t m) := fun _ removed =>
    ⟨removed.readyMsg notReady foot msg, removed.still.trans ⟨rfl, rfl, rfl, rfl⟩⟩
  obtain ⟨moves, still⟩ := flush_moves step (s.queue q).length ok
  exact ⟨.onCore moves, still⟩

/-! ## Semaphores -/

section Sem

variable {sp : SemId}

/-- The running thread waits at the end of the semaphore's queue. -/
theorem joins_sem {c : Core} : Joins c .wtsem (.wtobjp (.sQueue sp))
    (update c.queue (.sQueue sp) (c.queue (.sQueue sp) ++ [c.currp])) :=
  Joins.last (q := .sQueue sp) nofun rfl trivial

/-- The first of the threads in a list is woken. -/
theorem AtWork.wakes {q : QueueId} {c : Core} (work : AtWork φ s s') (removed : s'.fifoRemove q = some (t, c))
    (quiet : s'.due = false) (notReady : q ≠ .rQueue) (foot : φ.state q.tstate = true) :
    Moves φ s'.toCore (c.chSchWakeupS t rdyOk) :=
  (work.ok.sched.fifoRemove removed).wakeS notReady foot (by decide) work.zone.thread work.zone.locked
    ((work.ok.calm quiet).below _)

section

variable (foot : φ.sem = true)
include foot

theorem chSemSignalI_effect (ok : CoreOk s.toCore) : IEffect φ s (s.chSemSignalI sp) := by
  rw [chSemSignalI]
  split
  · split
    · exact .of_objs (.onSem foot) rfl
    next removed =>
      have gone := ok.sched.fifoRemove removed
      exact ⟨⟨gone.readyMsg nofun foot (by decide : rdyOk ≠ rdyTimeout), .onSem foot⟩, gone.still.trans ⟨rfl, rfl, rfl, rfl⟩⟩
  · exact .of_objs (.onSem foot) rfl

theorem chSemAddCounterI_effect : ∀ (n : Nat) {s : Sys}, CoreOk s.toCore → IEffect φ s (s.chSemAddCounterI sp n)
  | 0, s, _ => .refl s
  | n + 1, s, ok => by
    have first : IEffect φ s (s.chSemSignalI sp) := chSemSignalI_effect foot ok
    exact first.trans (chSemAddCounterI_effect n (first.coreOk ok))

theorem chSemResetI_effect (ok : CoreOk s.toCore) (sp : SemId) (n : Nat) : IEffect φ s (s.chSemResetI sp n) := by
  obtain ⟨moves, still⟩ := resetLoop_moves sp foot (-s.sCnt sp).toNat ok
  exact ⟨⟨moves, .onSem foot⟩, still⟩

theorem AtWork.chSemWaitS (work : AtWork φ s s') : Effect φ s (s'.chSemWaitS sp) := by
  rw [Sys.chSemWaitS]
  split
  · exact work.moves (work.sleep .wtsem foot joins_sem) (.onSem foot)
  · exact work.moves (work.zone.ret _).1 (.onSem foot)

theorem Asking.chSemWaitTimeoutS (asking : Asking φ .wtsem s s') (time : Systime) :
    Effect φ s (s'.chSemWaitTimeoutS sp time) := by
  rw [Sys.chSemWaitTimeoutS]
  split
  · split
    · exact asking.moves (asking.zone.ret _).1 (.onSem foot)
    next later =>
      exact asking.moves (asking.zone.sleepTimeout .wtsem asking.ok asking.asks (asking.asks.indirect (.inl rfl)) foot rfl
        joins_sem later) (.onSem foot)
  · exact asking.moves (asking.zone.ret _).1 (.onSem foot)

theorem chSemSignal_effect (ok : CoreOk s.toCore) (outside : Outside s) (quiet : s.due = false) :
    Effect φ s (s.chSemSignal sp) := by
  have work := outside.enter (φ := φ) ok
  simp only [chSemSignal, zone]
  split
  · split
    · exact work.moves (.refl _) (.onSem foot)
    · rename_i removed
      exact work.moves (work.wakes removed quiet nofun foot) (.onSem foot)
  · exact work.moves (.refl _) (.onSem foot)

theorem AtWork.chSemSignalWait (work : AtWork φ s s') :
    Effect φ s (if ((s'.setCnt sp (s'.sCnt sp - 1)).startWait sp).sCnt sp < 0
      then ((s'.setCnt sp (s'.sCnt sp - 1)).startWait sp).onCore fun c => ((semInsert sp c).push .rdymsg).chSchGoSleepS .wtsem
      else ((((s'.setCnt sp (s'.sCnt sp - 1)).startWait sp).grant sp s'.currp).ret (.msg rdyOk)).onCore .chSchRescheduleS) := by
  split
  · exact work.moves (work.sleep .wtsem foot joins_sem) (.onSem foot)
  · exact ((work.step (.of_objs (.onSem foot) (by rfl))).tell (.msg rdyOk)).reschedule

theorem chSemSignalWait_effect {sps spw : SemId} (ok : CoreOk s.toCore) (outside : Outside s) :
    Effect φ s (s.chSemSignalWait sps spw) := by
  have entered := outside.enter (φ := φ) ok
  have work : AtWork φ s (s.enter.chSemSignalI sps) := entered.step (chSemSignalI_effect foot entered.ok)
  exact work.chSemSignalWait foot

end

end Sem

/-! ## Condition variables -/

section

variable (foot : φ.cnd = true) (ok : CoreOk s.toCore) (cp : CondId)
include foot ok cp

theorem chCondSignalI_effect : IEffect φ s (s.chCondSignalI cp) := by
  rw [chCondSignalI]
  split
  · exact .refl s
  next removed =>
    exact .readyMsg (ok.sched.fifoRemove removed) nofun foot (by decide)

theorem chCondBroadcastI_effect : IEffect φ s (s.chCondBroadcastI cp) := .flush ok nofun foot (by decide)

theorem chCondSignal_effect (outside : Outside s) (quiet : s.due = false) : Effect φ s (s.chCondSignal cp) := by
  have work := outside.enter (φ := φ) ok
  simp only [chCondSignal, zone]
  split
  · exact work.effect
  · rename_i removed
    exact work.moves (work.wakes removed quiet nofun foot) .core

end

/-! ## Results -/

/-- An interrupt handler, or a thread that has asked for nothing, is told. -/
def Tellable (s : Sys) : Prop := s.isr = [] → Plain (s.pCtx s.currp)

theorem IEffect.tell (tellable : Tellable s) (r : Ret) : IEffect φ s (s.ret r) :=
  .ret r fun thread => (tellable thread).covered

theorem Tellable.still (tellable : Tellable s) (still : Still s.toCore s'.toCore) : Tellable s' :=
  fun thread => still.plain (tellable (still.isr ▸ thread))

/-! ## Mailboxes -/

section Mailbox

variable {mb : MbId}

/-- Then a token is given. -/
theorem IEffect.signal (effect : IEffect φ s s') (foot : φ.sem = true) (ok : CoreOk s.toCore) (sp : SemId) :
    IEffect φ s (s'.chSemSignalI sp) := effect.trans (chSemSignalI_effect foot (effect.coreOk ok))

/-- A mailbox function asks for its token. -/
theorem AtWork.askToken (work : AtWork φ s s') (footMb : φ.mb = true) {f : Frame} (isMb : f.isMb = true) :
    Asking φ .wtsem s (s'.onCore (.push f)) := by
  cases f with
  | mbPost | mbPostAhead | mbFetch => exact work.ask _ rfl ⟨rfl, rfl, .inr ⟨rfl, nofun⟩, footMb, rfl⟩
  | _ => cases isMb

theorem chMBReset_effect (footSem : φ.sem = true) (footMb : φ.mb = true) (ok : CoreOk s.toCore) (outside : Outside s) :
    Effect φ s (s.chMBReset mb) := by
  have entered := outside.enter (φ := φ) ok
  have cleared : AtWork φ s
      ({ s.enter with mbWrptr := update s.mbWrptr mb 0, mbRdptr := update s.mbRdptr mb 0 }.logMb mb .reset) :=
    entered.step (.of_objs (.onMb footSem footMb) (by rfl))
  have empty := cleared.step (chSemResetI_effect footSem cleared.ok (.mbEmptysem mb) (s.mbSize mb))
  exact (empty.step (chSemResetI_effect footSem empty.ok (.mbFullsem mb) 0)).reschedule

/-- `chMBPostI` and `chMBPostAheadI`, which differ in what they make of the mailboxes. -/
def Sys.mbPostBy (mb : MbId) (o : Mailboxes) (s : Sys) : Sys :=
  if s.sCnt (.mbEmptysem mb) ≤ 0 then s.ret (.msg rdyTimeout)
  else ({ s.chSemFastWaitI (.mbEmptysem mb) with toMailboxes := o }.chSemSignalI (.mbFullsem mb)).ret (.msg rdyOk)

section

variable (footSem : φ.sem = true) (footMb : φ.mb = true) (ok : CoreOk s.toCore) (tellable : Tellable s)
include footSem footMb ok tellable

theorem mbPostBy_effect (o : Mailboxes) : IEffect φ s (s.mbPostBy mb o) := by
  have stored : IEffect φ s { s.chSemFastWaitI (.mbEmptysem mb) with toMailboxes := o } := .of_objs (.onMb footSem footMb) rfl
  have done := stored.signal footSem ok (.mbFullsem mb)
  rw [mbPostBy]
  split
  · exact .tell tellable _
  · exact done.trans (.tell (tellable.still done.still) _)

theorem chMBFetchI_effect : IEffect φ s (s.chMBFetchI mb) := by
  have taken : IEffect φ s (s.chSemFastWaitI (.mbFullsem mb)) := .of_objs (.onMb footSem footMb) rfl
  have told := taken.trans (.tell (tellable.still taken.still) (.fetched rdyOk (some (s.mbFirst mb))))
  rw [chMBFetchI]
  split
  · exact .tell tellable _
  · exact (told.trans (.of_objs (.onMb footSem footMb) (by rfl))).signal footSem ok (.mbEmptysem mb)

end

end Mailbox

/-! ## I/O queues -/

section Queues

variable {n : Nat} {time : Systime} {f : Frame} {time : Systime}

section

variable (foot : φ.ioq = true) (ok : CoreOk s.toCore)
include foot ok

theorem qReadyFirst_effect (qp : IoQueue) : IEffect φ s (s.qReadyFirst qp) := by
  rw [qReadyFirst]
  split
  · exact .refl s
  next removed =>
    exact .readyMsg (ok.sched.fifoRemove removed) nofun foot (by decide)

theorem qReadyAll_effect (qp : IoQueue) : IEffect φ s (s.qReadyAll qp) :=
  .flush ok nofun foot (by decide)

theorem chIQResetI_effect : IEffect φ s (s.chIQResetI n) := by
  have cleared : IEffect φ s ((s.qRewind (.iq n)).qCount (.iq n) 0) := .of_objs (.onIoq foot) rfl
  exact cleared.trans (qReadyAll_effect foot (cleared.coreOk ok) _)

theorem chOQResetI_effect : IEffect φ s (s.chOQResetI n) := by
  have cleared : IEffect φ s ((s.qRewind (.oq n)).qCount (.oq n) (s.qSize (.oq n))) := .of_objs (.onIoq foot) rfl
  exact cleared.trans (qReadyAll_effect foot (cleared.coreOk ok) _)

theorem chIQPutI_effect (tellable : Tellable s) (b : UInt8) : IEffect φ s (s.chIQPutI n b) := by
  rw [chIQPutI]
  split
  · exact .tell tellable _
  · have stored : IEffect φ s ((s.qCount (.iq n) (s.qCounter (.iq n) + 1)).qStore (.iq n) b) := .of_objs (.onIoq foot) rfl
    have readied := stored.trans (qReadyFirst_effect foot (stored.coreOk ok) (.iq n))
    exact readied.trans (.tell (tellable.still readied.still) _)

theorem chOQGetI_effect (tellable : Tellable s) : IEffect φ s (s.chOQGetI n) := by
  rw [chOQGetI]
  split
  · exact .tell tellable _
  · have told : IEffect φ s (s.ret (.bytes [s.qFirst (.oq n)])) := .tell tellable _
    have taken : IEffect φ s (((s.ret (.bytes [s.qFirst (.oq n)])).qCount (.oq n) (s.qCounter (.oq n) + 1)).qSkip (.oq n)) :=
      told.trans (.of_objs (.onIoq foot) (by rfl))
    exact taken.trans (qReadyFirst_effect foot (taken.coreOk ok) (.oq n))

end

theorem Frame.direct_pushed (direct : f.direct = true) :
    Direct ((s.onCore (.push f)).pCtx (s.onCore (.push f)).currp) := by
  rw [show (s.onCore (.push f)).pCtx (s.onCore (.push f)).currp = _ from push_top f s.toCore]
  exact fun g is _ => Option.some.inj is ▸ direct

theorem Frame.indirect_pushed (indirect : f.direct = false) :
    Indirect ((s.onCore (.push f)).pCtx (s.onCore (.push f)).currp) := by
  rw [show (s.onCore (.push f)).pCtx (s.onCore (.push f)).currp = _ from push_top f s.toCore]
  exact fun g is => Option.some.inj is ▸ indirect

theorem Asking.qwait (asking : Asking φ .wtqueue s s') (foot : φ.ioq = true) (qp : IoQueue) (later : time ≠ timeImmediate) :
    Effect φ s (s'.qwait qp time) :=
  asking.moves (asking.zone.sleepTimeout .wtqueue asking.ok asking.asks (asking.asks.indirect (.inr rfl)) foot rfl
    (Joins.last (q := .qWaiting qp) nofun rfl trivial) later) .core

section

variable (work : AtWork φ s s')
include work

theorem AtWork.qCallNotify (qp : IoQueue) : Effect φ s (s'.qCallNotify qp) := by
  rw [Sys.qCallNotify]
  split
  · exact (work.push (.notify qp) rfl ⟨rfl, rfl, .inr ⟨rfl, nofun⟩, rfl, rfl⟩).effect
  · exact work.effect

theorem AtWork.iqGetLoop (foot : φ.ioq = true) : Effect φ s (s'.iqGetLoop n time) := by
  rw [Sys.iqGetLoop]
  split
  · split
    · exact (work.tell _).effect
    next later =>
      exact (work.ask (.iqGetWait n time) rfl ⟨rfl, rfl, .inr ⟨rfl, nofun⟩, foot, rfl⟩).qwait foot _ later
  · exact ((work.tell _).step (.of_objs (.onIoq foot) (by rfl))).effect

theorem AtWork.iqGetResume (msg : Msg) : Effect φ s (s'.iqGetResume n time msg) := by
  rw [Sys.iqGetResume]
  split
  · exact (work.tell _).effect
  · exact (work.push (.iqGet n time) rfl ⟨rfl, rfl, .inr ⟨rfl, nofun⟩, rfl, rfl⟩).effect

theorem AtWork.oqPutLoop (foot : φ.ioq = true) (b : UInt8) : Effect φ s (s'.oqPutLoop n b time) := by
  rw [Sys.oqPutLoop]
  split
  · split
    · exact (work.tell _).effect
    next later =>
      exact (work.ask (.oqPutWait n b time) rfl ⟨rfl, rfl, .inr ⟨rfl, nofun⟩, foot, rfl⟩).qwait foot _ later
  · have stored : AtWork φ s (s'.oqPutByte n b) := work.step (.of_objs (.onIoq foot) (by rfl))
    exact (stored.tell _).qCallNotify (.oq n)

theorem AtWork.oqPutResume (b : UInt8) (msg : Msg) : Effect φ s (s'.oqPutResume n b time msg) := by
  rw [Sys.oqPutResume]
  split
  · exact (work.tell _).effect
  · exact (work.push (.oqPut n b time) rfl ⟨rfl, rfl, .inr ⟨rfl, nofun⟩, rfl, rfl⟩).effect

end

/-! ### Block functions -/

section

variable (outside : Outside s) (ok : CoreOk s.toCore) (empty : s.pCtx s.currp = [])
include outside ok empty

/-- A round of a block function begins with `chSysLock()`. -/
theorem Outside.round (locked : f.unlocked = false)
    (awake : f.sleeps = false) (notAsks : f.asks = none) (drops : φ.keeps f = false) :
    AtWork φ s ({ s with locked := true }.onCore (.push f)) := by
  have isAwake : Awake [f] := by simpa [Awake] using awake
  have plain : Plain [f] := by simpa [Plain] using notAsks
  have pushed : ({ s with locked := true }.onCore (.push f)) =
      { s with locked := true, pCtx := update s.pCtx s.currp [f] } := by
    simp [Sys.onCore, Core.push, empty]
  have move : Moves φ s.toCore _ := .single (.ctl [f] true outside.thread (by simp [Awake, empty]) isAwake
    ⟨.singleton _, by simpa using locked⟩ ⟨by simp [empty], plain.covered, by simp [empty, drops]⟩
    fun is => absurd is outside.notIdle)
  rw [pushed]
  refine ⟨⟨move, .core⟩, move.coreOk ok, ⟨outside.thread, rfl, outside.notIdle, ?_, ?_⟩, ?_⟩
  · simpa using isAwake
  · simpa using plain.covered
  · simpa using plain

theorem iqReadRound_effect (want : Nat) (got : List UInt8) : Effect φ s (s.iqReadRound n time want got) :=
  (outside.round ok empty rfl rfl rfl rfl).qCallNotify (.iq n)

theorem oqWriteRound_effect (todo done : List UInt8) :
    Effect φ s (s.oqWriteRound n time todo done) := (outside.round ok empty rfl rfl rfl rfl).effect

end

section

variable (work : AtWork φ s s') (empty : s'.pCtx s'.currp = [])
include work empty

/-- The result of a block function, and its unlock. -/
theorem AtWork.finish (r : Ret) : AtWork φ s ((s'.ret r).onCore (.push .sysUnlock)) :=
  (work.tell r).push .sysUnlock rfl ⟨rfl, rfl, .inl empty, rfl, rfl⟩

/-- Between two bytes of a block function the kernel is unlocked. -/
theorem AtWork.nextByte (unlocked : f.unlocked = true) (notAsks : f.asks = none) (drops : φ.keeps f = false) :
    AtWork φ s ((s'.onCore (.push f)).onCore (.push .sysUnlock)) := by
  have pushed : (s'.onCore (.push f)).onCore (.push .sysUnlock) =
      s'.onCore fun c => { c with pCtx := update c.pCtx c.currp [.sysUnlock, f] } := by
    simp [Sys.onCore, Core.push, empty]
  have plain : Plain [.sysUnlock, f] := by simpa [Plain, Frame.asks] using notAsks
  have unlock : φ.keeps .sysUnlock = false := rfl
  have paused : CtxOk true [.sysUnlock, f] := .lock ⟨.singleton _, by simpa using unlocked⟩
  obtain ⟨moves, zone⟩ := work.zone.setCtx paused
    (by simp [Awake, Frame.sleeps]) ⟨by simp [empty], plain.covered, by simp [empty, unlock, drops]⟩
  rw [pushed]
  refine ⟨work.moves moves .core, moves.coreOk work.ok, zone, ?_⟩
  simpa using plain

theorem AtWork.iqReadLoop (foot : φ.ioq = true) (want : Nat) (got : List UInt8) :
    Effect φ s (s'.iqReadLoop n time want got) := by
  have taken : AtWork φ s (s'.iqTake n) := work.step (.of_objs (.onIoq foot) (by rfl))
  rw [Sys.iqReadLoop]
  split
  · split
    · exact (work.finish empty _).effect
    next later =>
      exact (work.ask (.iqReadWait n time want got) rfl ⟨rfl, rfl, .inl empty, foot, rfl⟩).qwait foot _ later
  · dsimp only
    split
    · exact (taken.finish empty _).effect
    · exact (taken.nextByte empty rfl rfl rfl).effect

theorem AtWork.iqReadResume (want : Nat) (got : List UInt8) (msg : Msg) : Effect φ s (s'.iqReadResume n time want got msg) := by
  rw [Sys.iqReadResume]
  split
  · exact (work.finish empty _).effect
  · exact (work.push (.iqRead n time want got) rfl ⟨rfl, rfl, .inl empty, rfl, rfl⟩).effect

/-- The end of a round of a block write, with its byte written. -/
theorem AtWork.oqWritten (time : Systime) (todo done : List UInt8) : Effect φ s
    (((if todo = [] then s'.ret (.bytes done) else s'.onCore (.push (.oqWriteNext n time todo done))).onCore
      (.push .sysUnlock)).qCallNotify (.oq n)) := by
  split
  · exact (work.finish empty _).qCallNotify _
  · exact (work.nextByte empty rfl rfl rfl).qCallNotify _

theorem AtWork.oqWriteLoop (foot : φ.ioq = true) (todo done : List UInt8) :
    Effect φ s (s'.oqWriteLoop n time todo done) := by
  rw [oqWriteLoop.eq_def]
  split
  · exact (work.finish empty _).effect
  next b todo' =>
    split
    · split
      · exact (work.finish empty _).effect
      next later =>
        exact (work.ask (.oqWriteWait n time (b :: todo') done) rfl ⟨rfl, rfl, .inl empty, foot, rfl⟩).qwait foot _ later
    · have stored : AtWork φ s (s'.oqPutByte n b) := work.step (.of_objs (.onIoq foot) (by rfl))
      exact stored.oqWritten empty time todo' (done ++ [b])

theorem AtWork.oqWriteResume (todo done : List UInt8) (msg : Msg) : Effect φ s (s'.oqWriteResume n time todo done msg) := by
  rw [Sys.oqWriteResume]
  split
  · exact (work.finish empty _).effect
  · exact (work.push (.oqWrite n time todo done) rfl ⟨rfl, rfl, .inl empty, rfl, rfl⟩).effect

end

end Queues

/-! ## Events -/

section Events

variable {mask : EventMask} (foot : φ.evt = true)
include foot

theorem chEvtSignalI_effect (ok : CoreOk s.toCore) (tp : Tid) (mask : EventMask) :
    IEffect φ s (s.chEvtSignalI tp mask) := by
  have pending : IEffect φ s (s.setPending tp (s.pEpending tp ||| mask)) := .of_objs (.onEvt foot) rfl
  rw [chEvtSignalI]
  split
  · rename_i satisfied
    have waits : s.pState tp = .wtorevt ∨ s.pState tp = .wtandevt := by
      unfold evtSatisfied at satisfied
      split at satisfied
      · rename_i is _; exact .inl is
      · rename_i is _; exact .inr is
      · cases satisfied
    have lt : tp < s.nthd := by
      refine not_le.1 fun ge => ?_
      have fresh := (ok.sched.fresh tp ge).1
      rcases waits with is | is <;> · cases fresh.symm.trans is
    have state : (s.pState tp).queued = false ∧ (s.pState tp).waits = true ∧ φ.state (s.pState tp) = true := by
      rcases waits with is | is <;> · rw [is]; exact ⟨rfl, rfl, foot⟩
    have move : Move φ s.toCore _ :=
      .wake tp (.rdymsg rdyOk) state.2.1 lt state.2.2 fun _ => ⟨rdyOk, rfl, by decide⟩
    rw [ok.sched.dequeue_of_not_queued state.1] at move
    exact pending.trans ⟨.onCore (.single move), ⟨rfl, rfl, rfl, rfl⟩⟩
  · exact pending

theorem broadcastLoop_effect (flags : EventMask) : ∀ (els : List ElId) {s : Sys}, CoreOk s.toCore →
    IEffect φ s (s.broadcastLoop flags els)
  | [], s, _ => .refl s
  | el :: els, s, ok => by
    have flagged : IEffect φ s { s with elFlags := update s.elFlags el (s.elFlags el ||| flags) } := .of_objs (.onEvt foot) rfl
    have signalled := flagged.trans (chEvtSignalI_effect foot (flagged.coreOk ok) (s.elListener el) (s.elMask el))
    exact signalled.trans (broadcastLoop_effect flags els (signalled.coreOk ok))

theorem chEvtGetAndClearFlagsI_effect (tellable : Tellable s) (el : ElId) :
    IEffect φ s (s.chEvtGetAndClearFlagsI el) := by
  have cleared : IEffect φ s { s with elFlags := update s.elFlags el 0 } := .of_objs (.onEvt foot) rfl
  exact cleared.trans (.tell (tellable.still cleared.still) _)

theorem AtWork.evtDeliver (work : AtWork φ s s') (w : EvtWait) : Effect φ s (s'.evtDeliver w mask) :=
  ((work.step (.of_objs (.onEvt foot) (by rfl))).tell _).effect

theorem AtWork.evtWaitResume (work : AtWork φ s s') (w : EvtWait) (timed : Bool) (msg : Msg) :
    Effect φ s (s'.evtWaitResume w mask timed msg) := by
  rw [Sys.evtWaitResume]
  split
  · exact (work.tell _).effect
  · exact work.evtDeliver foot w

theorem EvtWait.tstate_cases (w : EvtWait) : w.tstate.queued = false ∧ w.tstate ≠ .current ∧
    w.tstate.timed = true ∧ φ.state w.tstate = true := by
  cases w <;> exact ⟨rfl, nofun, rfl, foot⟩

theorem chEvtWait_effect (ok : CoreOk s.toCore) (outside : Outside s) (w : EvtWait) :
    Effect φ s (s.chEvtWait w mask) := by
  have work := outside.enter (φ := φ) ok
  obtain ⟨notQueued, notCurrent, _, state⟩ := EvtWait.tstate_cases foot w
  simp only [chEvtWait, zone]
  split
  · exact work.evtDeliver foot w
  · have asking : Asking φ w.tstate s _ :=
      work.ask (.evtWait w mask false) rfl ⟨rfl, rfl, .inr ⟨rfl, nofun⟩, foot, rfl⟩
    exact asking.moves (asking.zone.sleepS (u := .ewmask mask) w.tstate asking.ok asking.asks (Frame.direct_pushed rfl) state
      (.plain notQueued notCurrent)) .core

theorem chEvtWaitTimeout_effect (ok : CoreOk s.toCore) (outside : Outside s) (w : EvtWait)
    (time : Systime) : Effect φ s (s.chEvtWaitTimeout w mask time) := by
  have work := outside.enter (φ := φ) ok
  obtain ⟨notQueued, notCurrent, timed, state⟩ := EvtWait.tstate_cases foot w
  simp only [chEvtWaitTimeout, zone]
  split
  · exact work.evtDeliver foot w
  · split
    · exact (work.tell _).effect
    next later =>
      have asking : Asking φ w.tstate s _ :=
        work.ask (.evtWait w mask true) rfl ⟨rfl, rfl, .inr ⟨rfl, nofun⟩, foot, rfl⟩
      exact asking.moves (asking.zone.sleepTimeout (u := .ewmask mask) w.tstate asking.ok asking.asks
        (Frame.indirect_pushed rfl) state timed (.plain notQueued notCurrent) later) .core

end Events

/-! ## Messages -/

section Messages

/-- Readying a thread and joining another list commute. -/
theorem chSchReadyI_queueInsert {c : Core} {t x : Tid} {u : PU} {q : QueueId} (notReady : q ≠ .rQueue) :
    ((c.setU x u).queueInsert x q).chSchReadyI t = ((c.chSchReadyI t).setU x u).queueInsert x q := by
  simp only [setU, queueInsert, setQueue, chSchReadyI, update_of_ne notReady,
    update_of_ne notReady.symm, update_comm notReady]
  rfl

variable (foot : φ.msg = true)
include foot

theorem chMsgSend_effect (ok : CoreOk s.toCore) (outside : Outside s) (tp : Tid) (lt : tp < s.nthd)
    (msg : Msg) : Effect φ s (s.chMsgSend tp msg) := by
  have work := outside.enter (φ := φ) ok
  have joins : ∀ {c : Core}, c.nthd = s.nthd → Joins c .sndmsgq (.wtobjp (.pMsgqueue tp))
      (update c.queue (.pMsgqueue tp) (c.queue (.pMsgqueue tp) ++ [c.currp])) := fun same =>
    Joins.last (q := .pMsgqueue tp) nofun rfl (same ▸ lt)
  simp only [chMsgSend, zone]
  split
  next state =>
    have readied : AtWork φ s (s.enter.onCore (.chSchReadyI tp)) :=
      work.step ⟨.onCore (work.ok.ready state lt ⟨rfl, rfl, rfl, foot⟩), ⟨rfl, rfl, rfl, rfl⟩⟩
    have slept : Moves φ (s.enter.toCore.chSchReadyI tp) (((((s.enter.toCore.setU s.currp (.wtobjp (.pMsgqueue tp))).queueInsert
        s.currp (.pMsgqueue tp)).chSchReadyI tp).push .rdymsg).chSchGoSleepS .sndmsgq) := by
      rw [chSchReadyI_queueInsert (q := .pMsgqueue tp) nofun]
      exact readied.sleep .sndmsgq foot (joins rfl)
    exact readied.moves slept (.onMsg foot)
  · exact work.moves (work.sleep .sndmsgq foot (joins rfl)) (.onMsg foot)

theorem chMsgWait_effect (ok : CoreOk s.toCore) (outside : Outside s) : Effect φ s s.chMsgWait := by
  have asking : Asking φ .wtmsg s _ :=
    (outside.enter ok).ask .msgWait rfl ⟨rfl, rfl, .inr ⟨rfl, nofun⟩, foot, rfl⟩
  simp only [chMsgWait, zone]
  split
  · exact asking.moves (asking.zone.sleepPlain .wtmsg asking.ok asking.asks (Frame.direct_pushed rfl) foot rfl nofun) .core
  · exact asking.effect

theorem AtWork.msgWaitResume (work : AtWork φ s s') : Effect φ s s'.msgWaitResume := by
  rw [Sys.msgWaitResume]
  split
  · exact work.effect
  next tp c removed =>
    obtain ⟨l, first, rfl⟩ := fifoRemove_some removed
    have taken : Moves φ s'.toCore _ := .single (.take _ _ foot first)
    exact work.moves (taken.trans (.single (.ret _ fun _ => work.zone.covered))) .core

theorem AtWork.chMsgReleaseS (work : AtWork φ s s') (quiet : s'.due = false) {tp : Tid}
    (state : s'.pState tp = .sndmsg) (lt : tp < s'.nthd) (msg : Msg) : Effect φ s (s'.chMsgReleaseS tp msg) :=
  work.moves (work.zone.wakeS work.ok state lt quiet ⟨rfl, rfl, rfl, foot⟩) .core

end Messages

/-! ## Threads -/

section Threads

/-- The running thread locks or unlocks the kernel in its own code. -/
theorem lock_effect (thread : s.isr = []) (empty : s.pCtx s.currp = []) (locked : Bool) :
    Effect φ s { s with locked := locked } := by
  have move : Move φ s.toCore _ := .ctl [] locked thread (by rw [empty]; nofun) nofun (.nil locked)
    ⟨by simp [empty], nofun, by rw [empty]⟩ fun _ => nofun
  rw [show update s.pCtx s.currp [] = s.pCtx from empty ▸ update_eq_self _ _] at move
  exact ⟨.single move, .core⟩

theorem chThdCreateI_moves {prio : Nat} {mode : MemMode} (footMtx : φ.mtx = true) (footReg : φ.reg = true) (ok : CoreOk s.toCore)
    (tellable : Tellable s) (le : 1 ≤ prio) (ge : prio ≤ highPrio) : Moves φ s.toCore (s.chThdCreateI prio mode).toCore ∧
      Still s.toCore (s.chThdCreateI prio mode).toCore := by
  have newer : s.currp ≠ s.nthd := ne_of_lt ok.sched.currp_lt
  have created : Move φ s.toCore _ := .create prio footMtx footReg le ge
  have told := Moves.trans (.single created) (.single (.ret (.thread (some s.nthd)) fun thread => ?_))
  · exact ⟨told, update_of_ne newer .., rfl, rfl, rfl⟩
  · simpa only [update_of_ne newer] using (tellable thread).covered

theorem chThdCreate_moves {prio : Nat} {mode : MemMode} (footMtx : φ.mtx = true) (footReg : φ.reg = true) (ok : CoreOk s.toCore)
    (outside : Outside s) (quiet : s.due = false) (le : 1 ≤ prio) (ge : prio ≤ highPrio) :
    Moves φ s.toCore (s.chThdCreate prio mode).toCore := by
  obtain ⟨entered, ok', zone, plain⟩ := outside.enter ok
  obtain ⟨moves, still⟩ : Moves φ s.enter.toCore (s.enter.chThdCreateI prio mode).toCore ∧ _ :=
    chThdCreateI_moves footMtx footReg ok' (fun _ => plain) le ge
  have state : (s.enter.chThdCreateI prio mode).pState s.nthd = .suspended := update_self ..
  have woken : Moves φ _ ((s.enter.chThdCreateI prio mode).chSchWakeupS s.nthd rdyOk) :=
    (zone.still still).wakeS (moves.coreOk ok') state (Nat.lt_succ_self s.nthd) quiet ⟨rfl, rfl, rfl, rfl⟩
  exact entered.moves.trans (moves.trans woken)

theorem chThdSetPriority_effect {newprio : Nat} (footMtx : φ.mtx = true) (ok : CoreOk s.toCore) (outside : Outside s)
    (le : 1 ≤ newprio) (ge : newprio ≤ highPrio) : Effect φ s (s.chThdSetPriority newprio) := by
  have work := (outside.enter (φ := φ) ok).tell (.msg (s.pRealprio s.currp))
  simp only [chThdSetPriority, zone]
  split
  · exact AtWork.reschedule (work.step ⟨⟨.single (.ownPrio newprio footMtx le ge), .onMtx footMtx⟩, ⟨rfl, rfl, rfl, rfl⟩⟩)
  · exact AtWork.reschedule (work.step (.of_objs (.onMtx footMtx) (by rfl)))

theorem chThdResume_effect (ok : CoreOk s.toCore) (outside : Outside s) (quiet : s.due = false) (tp : Tid)
    (state : s.pState tp = .suspended) (lt : tp < s.nthd) : Effect φ s (s.chThdResume tp) := by
  have work := (outside.enter (φ := φ) ok).tell (.thread (some tp))
  exact work.moves (work.zone.wakeS work.ok state lt quiet ⟨rfl, rfl, rfl, rfl⟩) .core

theorem chThdResumeI_effect (ok : CoreOk s.toCore) (tp : Tid) (state : s.pState tp = .suspended) (lt : tp < s.nthd) :
    IEffect φ s (s.chThdResumeI tp) := ⟨.onCore (ok.ready state lt ⟨rfl, rfl, rfl, rfl⟩), ⟨rfl, rfl, rfl, rfl⟩⟩

theorem AtWork.chThdSleepS (work : AtWork φ s s') (foot : φ.slp = true) {time : Systime} (later : time ≠ timeImmediate) :
    Effect φ s (s'.chThdSleepS time) :=
  work.moves (work.zone.sleepTimeoutPlain .sleeping work.ok (work.plain.asksFor _) work.plain.indirect foot rfl rfl nofun later)
    .core

theorem chThdSleepUntil_effect (foot : φ.slp = true) (ok : CoreOk s.toCore) (outside : Outside s) (time : Systime) :
    Effect φ s (s.chThdSleepUntil time) := by
  have work := outside.enter (φ := φ) ok
  simp only [chThdSleepUntil, zone]
  split
  · rename_i later
    exact work.chThdSleepS foot (fun now => by rw [now] at later; cases later)
  · exact work.effect

theorem chThdYield_effect (ok : CoreOk s.toCore) (outside : Outside s) : Effect φ s s.chThdYield := by
  have work := (outside.enter (φ := φ) ok).tell .void
  have yields : Moves φ (s.enter.ret .void).toCore (s.enter.ret .void).toCore.chSchDoYieldS := by
    rw [chSchDoYieldS]
    split
    · rename_i can
      exact chSchDoRescheduleBehind_moves work.ok work.zone.thread work.zone.locked (of_decide_eq_true can)
    · exact .refl _
  exact work.moves yields .core

/-- Those who wait for the running thread to end are made ready. -/
theorem exitFlush_moves (ok : CoreOk s.toCore) (zone : Zone φ s.toCore) (msg : Msg) :
    Moves φ s.toCore ((s.toCore.setU s.currp (.exitcode msg)).flush (.pWaiting s.currp) .chSchReadyI
      (s.queue (.pWaiting s.currp)).length) ∧
    Still (s.toCore.setU s.currp (.exitcode msg)) ((s.toCore.setU s.currp (.exitcode msg)).flush (.pWaiting s.currp) .chSchReadyI
      (s.queue (.pWaiting s.currp)).length) := by
  have coded : Moves φ s.toCore (s.toCore.setU s.currp (.exitcode msg)) := .single (.setU _ zone.awake zone.covered)
  have step : ∀ {c : Core} {t : Tid} {c' : Core}, CoreOk c → Removed (.pWaiting s.currp) c t c' →
      Moves φ c (c'.chSchReadyI t) ∧ Still c (c'.chSchReadyI t) := fun _ removed =>
    ⟨removed.ready nofun rfl rfl, removed.still.trans ⟨rfl, rfl, rfl, rfl⟩⟩
  obtain ⟨flushed, still⟩ := flush_moves step (s.queue (.pWaiting s.currp)).length (coded.coreOk ok)
  exact ⟨coded.trans flushed, still⟩

theorem AtWork.chThdExitS (work : AtWork φ s s') (footReg : φ.reg = true) (msg : Msg) : Effect φ s (s'.chThdExitS msg) := by
  obtain ⟨moves, still⟩ := exitFlush_moves work.ok work.zone msg
  have zone' : Zone φ (s'.toCore.setU s'.currp (.exitcode msg)) := work.zone.congr rfl rfl rfl rfl
  have plain' := still.plain work.plain
  have done := moves.trans ((zone'.still still).sleepPlain .final (moves.coreOk work.ok)
    (plain'.asksFor _) plain'.direct footReg rfl nofun)
  rw [Sys.chThdExitS]
  split <;> exact work.moves done (.onReg footReg)

/-- A thread that exits has ended. -/
theorem chThdExitS_final (ok : CoreOk s.toCore) (zone : Zone φ s.toCore) (msg : Msg) :
    (s.chThdExitS msg).pState s.currp = .final := by
  obtain ⟨moves, still⟩ := exitFlush_moves ok zone msg
  have sched := (moves.coreOk ok).sched
  generalize flushed : (s.toCore.setU s.currp (.exitcode msg)).flush (.pWaiting s.currp) .chSchReadyI
      (s.queue (.pWaiting s.currp)).length = c at still sched
  have ended : (c.chSchGoSleepS .final).pState c.currp = .final := by
    cases first : c.queue .rQueue with
    | nil => simp [chSchGoSleepS, runFirst, fifoRemove, first]
    | cons h l =>
      rw [chSchGoSleepS_eq first]
      have ready := (sched.member .rQueue h (by rw [first]; exact .head _)).2.1
      have other : c.currp ≠ h := by
        rintro rfl
        cases sched.currp_state.symm.trans ready
      exact (update_of_ne other ..).trans (update_self ..)
  have same : c.currp = s.currp := still.currp
  rw [same, ← flushed] at ended
  rw [chThdExitS]
  split
  · exact ended
  · exact ended

/-- The lock zone of `chThdExit`, which is not left. -/
theorem Outside.lock (outside : Outside s) (ok : CoreOk s.toCore) (empty : s.pCtx s.currp = []) :
    AtWork φ s { s with locked := true } := by
  have plain : Plain (s.pCtx s.currp) := by rw [empty]; nofun
  have locked : Effect φ s { s with locked := true } := lock_effect outside.thread empty true
  exact ⟨locked, locked.coreOk ok, ⟨outside.thread, rfl, outside.notIdle, by change Awake (s.pCtx s.currp); rw [empty]; nofun,
    plain.covered⟩, plain⟩

/-- A call that will go on at the unlocked frame `f`. -/
theorem Outside.push {f : Frame} (outside : Outside s) (empty : s.pCtx s.currp = []) (unlocked : f.unlocked = true)
    (awake : f.sleeps = false) (notAsks : f.asks = none) (drops : φ.keeps f = false) :
    Effect φ s (s.onCore (.push f)) ∧ Outside (s.onCore (.push f)) := by
  refine ⟨⟨.single ?_, .core⟩, outside.thread, outside.unlocked, outside.notIdle⟩
  have move : Move φ s.toCore _ := .ctl [f] false outside.thread (by rw [empty]; nofun)
    (by simpa [Awake] using awake) ⟨.singleton _, by simpa using unlocked⟩
    ⟨by simp [empty], by simpa using Foot.covers_of_asks notAsks, by simp [empty, drops]⟩
    fun is => absurd is outside.notIdle
  rwa [← outside.unlocked, ← empty] at move

theorem chThdRelease_effect (footReg : φ.reg = true) (ok : CoreOk s.toCore) (outside : Outside s)
    (empty : s.pCtx s.currp = []) (tp : Tid) : Effect φ s (s.chThdRelease tp) := by
  have dropped : IEffect φ s (s.dropRef tp) := .of_objs (.onReg footReg) rfl
  obtain ⟨pushed, outside'⟩ : Effect φ (s.dropRef tp) _ ∧ _ :=
    Outside.push (f := .thdReleaseCheck tp ((s.dropRef tp).pRefs tp)) ⟨outside.thread, outside.unlocked, outside.notIdle⟩
      empty rfl rfl rfl (by simp [Foot.keeps, footReg])
  have all := dropped.toEffect.trans pushed
  exact all.trans (outside'.enter (all.coreOk ok)).effect

/-- The caller gets a reference. -/
theorem AtWork.addRef (work : AtWork φ s s') (footReg : φ.reg = true) (tp : Tid) :
    Effect φ s ((s'.addRef tp).ret (.thread (some tp))) := ((work.step (.of_objs (.onReg footReg) (by rfl))).tell _).effect

theorem chRegFirstThread_effect (footReg : φ.reg = true) (ok : CoreOk s.toCore) (outside : Outside s) :
    Effect φ s s.chRegFirstThread := by
  have work := outside.enter (φ := φ) ok
  simp only [chRegFirstThread, zone]
  split
  · exact work.effect
  · exact work.addRef footReg _

/-- A call has begun that will release the caller's reference when it is done. -/
abbrev Sys.leaving (tp : Tid) (s : Sys) : Sys := (s.handOver tp).onCore (.push (.thdRelease tp))

theorem Outside.handOver (outside : Outside s) (empty : s.pCtx s.currp = []) (footReg : φ.reg = true) (tp : Tid) :
    Effect φ s (s.leaving tp) ∧ Outside (s.leaving tp) := by
  have handed : IEffect φ s (s.handOver tp) := .of_objs (.onReg footReg) rfl
  obtain ⟨pushed, outside'⟩ : Effect φ (s.handOver tp) _ ∧ _ :=
    push (f := .thdRelease tp) ⟨outside.thread, outside.unlocked, outside.notIdle⟩ empty rfl rfl rfl
      (by simp [Foot.keeps, footReg])
  exact ⟨handed.toEffect.trans pushed, outside'⟩

theorem chRegNextThread_effect (footReg : φ.reg = true) (ok : CoreOk s.toCore) (outside : Outside s)
    (empty : s.pCtx s.currp = []) (tp : Tid) : Effect φ s (s.chRegNextThread tp) := by
  obtain ⟨handed, outside'⟩ := outside.handOver empty footReg tp
  have work := outside'.enter (φ := φ) (handed.coreOk ok)
  refine handed.trans ?_
  simp only [chRegNextThread, zone]
  split
  · exact (work.tell _).effect
  · exact work.addRef footReg _

theorem chThdWait_effect (footReg : φ.reg = true) (ok : CoreOk s.toCore) (outside : Outside s)
    (empty : s.pCtx s.currp = []) (tp : Tid) (lt : tp < s.nthd) : Effect φ s (s.chThdWait tp) := by
  obtain ⟨handed, outside'⟩ := outside.handOver empty footReg tp
  have work := (outside'.enter (φ := φ) (handed.coreOk ok)).push (.thdWait tp) rfl
    ⟨rfl, rfl, .inr ⟨rfl, nofun⟩, rfl, rfl⟩
  refine handed.trans ?_
  simp only [chThdWait, zone]
  split
  · exact work.moves (work.zone.sleepKeep .wtexit work.ok (work.plain.asksFor _) work.plain.direct rfl
      (.queue (.pWaiting tp) _ rfl nofun (.refl _) nofun nofun lt)) .core
  · exact work.effect

end Threads

end ChibiOS.Kernel
