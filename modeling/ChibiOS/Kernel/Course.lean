import ChibiOS.Kernel.MtxEffects

/-!
# The course of a kernel function

A function works for the running thread: it changes that thread's own context and `p_u`,
and readies threads that wait. Then it may give the processor away, once and last, and it
leaves nothing of its own to do after that. `Course` says so of every function. What
follows for the contexts, for the ready list and for the rescheduling that is due is
derived from the course alone.
-/

namespace ChibiOS.Kernel

open Function
open Lib Kernel.Core Sys

/-- `t` waits, and leaves its list if it is in one. -/
inductive Leaves (t : Tid) (c : Core) : Core → Prop
  | listed {q : QueueId} {l : List Tid} : q ≠ .rQueue → t ∈ c.queue q → l ⊆ c.queue q → Leaves t c (c.setQueue q l)
  | alone : (c.pState t).waits = true → c.pState t ≠ .suspended ∨ t < c.nthd → Leaves t c c

/-- The contexts and the messages of the threads that do not run are the same. -/
structure Others (c c' : Core) : Prop where
  u : ∀ t, t ≠ c.currp → c'.pU t = c.pU t
  ctx : ∀ t, t ≠ c.currp → c'.pCtx t = c.pCtx t

/-- Who runs, and with which priorities. -/
def Core.standing (c : Core) := (c.pPrio, c.pPreempt, c.currp, c.isr, c.nthd)

/-- All but the lock, the timers and the results. -/
def Core.seen (c : Core) := (c.toThreads, c.pPreempt, c.currp, c.isr, c.pCtx)

/-- The running thread goes on; it may be in the list in which it will wait. -/
structure GoesOn (c c' : Core) : Prop extends Others c c' where
  ready : c'.queue .rQueue = c.queue .rQueue
  standing : c'.standing = c.standing

/-- A function at work, from `c` on. -/
inductive Works (c : Core) : Core → Prop
  | start : Works c c
  | own {c' c'' : Core} : Works c c' → (c''.queue, c''.pState, c''.standing) = (c'.queue, c'.pState, c'.standing) →
      Others c' c'' → Works c c''
  | takes {t : Tid} {c' c'' : Core} : Works c c' → Leaves t c' c'' → Works c c''
  | readies {t : Tid} {c' c'' : Core} : Works c c' → Leaves t c' c'' → Works c (c''.chSchReadyI t)
  | answers {t : Tid} {c' c'' : Core} (m : Msg) : Works c c' → Leaves t c' c'' → Works c (c''.readyMsg t m)
  | setPrio {s : Sys} (prio : Nat) : Works c s.toCore → Works c (s.setOwnPrio prio).toCore

/-- What a function has done when it ends or gives the processor away. `who` is the thread that may run ahead of others that
are ready and not below it. -/
inductive Course (who : Option Tid) (c : Core) : Core → Prop
  | stays {c' c'' : Core} : Works c c' → GoesOn c' c'' → (c.due = false → c''.due = false) → Course who c c''
  | sleeps {c' c'' : Core} (st : TState) : Works c c' → GoesOn c' c'' → Course who c (c''.chSchGoSleepS st)
  | reschedules {c' : Core} : Works c c' → Course who c c'.chSchRescheduleS
  | yields {c' : Core} : Works c c' → (c.due = false → c'.due = false) → Course who c c'.chSchDoYieldS
  | wakes {t : Tid} {c' c'' : Core} (m : Msg) : Works c c' → Leaves t c' c'' →
      ((c.due = false → Top c) → t ≠ c''.currp → c''.pPrio c''.currp < c''.pPrio t → Top c'' ∨ who = some t) →
      Course who c (c''.chSchWakeupS t m)
  | creates {s : Sys} (prio : Nat) (mode : MemMode) : Works c s.toCore → s.toThreads = c.toThreads → s.currp = c.currp →
      c.due = false → Course who c ((s.chThdCreateI prio mode).toCore.chSchWakeupS s.nthd rdyOk)
  | locks {s : Sys} (mp : MtxId) : Works c s.toCore → s.toThreads = c.toThreads → s.currp = c.currp →
      (∀ m t, s.mOwner m = some t → t < s.nthd) → (c.due = false → s.due = false) → Course who c (s.chMtxLockS mp).toCore

/-- The thread that `chMtxUnlock` hands the processor to: the first waiter of the caller's last mutex, if it is above what the
caller has left. -/
def Sys.heir (s : Sys) : Option Tid :=
  match s.pMtxlist s.currp with
  | none => none
  | some ump =>
    match s.queue (.mQueue ump) with
    | [] => none
    | tp :: _ => if s.scanOwned s.nmtx (s.mNext ump) (s.pRealprio s.currp) < s.pPrio tp then some tp else none

variable {who : Option Tid} {c c' c'' : Core} {s : Sys} {q : QueueId} {t : Tid}

/-! ## Removals -/

theorem Leaves.of_fifoRemove (removed : c.fifoRemove q = some (t, c')) (notReady : q ≠ .rQueue) : Leaves t c c' := by
  obtain ⟨l, is, rfl⟩ := fifoRemove_some removed
  exact .listed notReady (is ▸ .head _) (is ▸ List.subset_cons_self ..)

theorem Leaves.of_lifoRemove (removed : c.lifoRemove q = some (t, c')) (notReady : q ≠ .rQueue) : Leaves t c c' := by
  obtain ⟨last, rfl⟩ := lifoRemove_some removed
  exact .listed notReady (List.mem_of_getLast? last) (List.dropLast_subset _)

theorem Top.removed (top : Top c) (removed : c.fifoRemove q = some (t, c')) (notReady : q ≠ .rQueue) : Top c' := by
  obtain ⟨l, -, rfl⟩ := fifoRemove_some removed
  intro r mem
  exact top r (by simpa [setQueue, notReady.symm] using mem)

/-! ## Functions that go on -/

theorem Works.push (works : Works c s.toCore) (f : Frame) : Works c (s.onCore (.push f)).toCore :=
  works.own rfl ⟨fun _ _ => rfl, fun _ other => update_of_ne other ..⟩

theorem Works.setU (works : Works c s.toCore) (u : PU) : Works c (s.onCore (.setU s.currp u)).toCore :=
  works.own rfl ⟨fun _ other => update_of_ne other .., fun _ _ => rfl⟩

theorem Works.same (works : Works c c') (same : c''.seen = c'.seen) : Works c c'' := by
  simp only [seen, Prod.mk.injEq] at same
  obtain ⟨threads, preempt, currp, isr, ctx⟩ := same
  exact works.own (by simp only [standing, threads, preempt, currp, isr]) ⟨by simp [threads], by simp [ctx]⟩

theorem Works.ret (works : Works c s.toCore) (r : Ret) : Works c (s.ret r).toCore := works.same rfl

theorem Works.enter (works : Works c s.toCore) : Works c s.enter.toCore := (works.push .sysUnlock).same rfl

theorem GoesOn.refl : GoesOn c c := ⟨⟨fun _ _ => rfl, fun _ _ => rfl⟩, rfl, rfl⟩

theorem GoesOn.setU {u : PU} : GoesOn c (c.setU c.currp u) :=
  ⟨⟨fun _ other => update_of_ne other .., fun _ _ => rfl⟩, rfl, rfl⟩

/-- The running thread is in the list in which it will wait. -/
theorem GoesOn.joins {l : List Tid} (same : GoesOn c c') (notReady : .rQueue ≠ q) : GoesOn c (c'.setQueue q l) :=
  ⟨⟨same.u, same.ctx⟩, (update_of_ne notReady ..).trans same.ready, same.standing⟩

theorem GoesOn.waits {u : PU} {l : List Tid} {f : Frame} (notReady : .rQueue ≠ q) :
    GoesOn c (((c.setU c.currp u).setQueue q l).push f) :=
  ⟨⟨fun _ other => update_of_ne other .., fun _ other => update_of_ne other ..⟩, update_of_ne notReady .., rfl⟩

/-- The running thread goes on with nothing to show. -/
theorem Works.idle (works : Works c c') (quiet : c.due = false → c''.due = false) (same : c''.seen = c'.seen) :
    Course who c c'' := .stays (works.same same) .refl quiet

theorem Works.flush {ready : Tid → Core → Core} (notReady : q ≠ .rQueue)
    (step : ∀ {t : Tid} {c' c'' : Core}, Works c c' → Leaves t c' c'' → Works c (ready t c'')) :
    ∀ (n : Nat) {c' : Core}, Works c c' → Works c (c'.flush q ready n)
  | 0, _, works => works
  | n + 1, c', works => by
    rw [Core.flush]
    split
    · exact works
    next removed =>
      exact flush notReady step n (step works (.of_fifoRemove removed notReady))

theorem Works.flushMsg (works : Works c c') (notReady : q ≠ .rQueue) (m : Msg) (n : Nat) :
    Works c (c'.flush q (.readyMsg · m) n) :=
  flush notReady (fun works leaves => works.answers m leaves) n works

theorem Works.resetLoop (sp : SemId) : ∀ (n : Nat) {c' : Core}, Works c c' → Works c (Sys.resetLoop sp n c')
  | 0, _, works => works
  | n + 1, c', works => by
    rw [Sys.resetLoop]
    split
    · exact works
    next removed =>
      exact resetLoop sp n (works.answers rdyReset (.of_lifoRemove removed (by simp)))

theorem Works.chSemSignalI (works : Works c s.toCore) (sp : SemId) : Works c (s.chSemSignalI sp).toCore := by
  unfold Sys.chSemSignalI
  dsimp only
  split
  · split
    · exact works
    next removed =>
      exact works.answers rdyOk (.of_fifoRemove removed nofun)
  · exact works

theorem Works.chSemAddCounterI (sp : SemId) : ∀ (n : Nat) {s : Sys}, Works c s.toCore →
    Works c (s.chSemAddCounterI sp n).toCore
  | 0, _, works => works
  | n + 1, _, works => chSemAddCounterI sp n (works.chSemSignalI sp)

theorem Works.chEvtSignalI (works : Works c s.toCore) (tp : Tid) (mask : EventMask) :
    Works c (s.chEvtSignalI tp mask).toCore := by
  unfold Sys.chEvtSignalI
  dsimp only
  split
  next satisfied =>
    have waits : s.pState tp = .wtorevt ∨ s.pState tp = .wtandevt := by
      unfold Sys.evtSatisfied at satisfied
      split at satisfied
      next is _ =>
        exact .inl is
      next is _ =>
        exact .inr is
      · cases satisfied
    refine works.answers rdyOk (.alone ?_ (.inl ?_)) <;> rcases waits with is | is <;> simp [is, TState.waits]
  · exact works

theorem Works.broadcastLoop (flags : EventMask) : ∀ (els : List ElId) {s : Sys}, Works c s.toCore →
    Works c (s.broadcastLoop flags els).toCore
  | [], _, works => works
  | el :: els, s, works => by
    have signalled := chEvtSignalI (s := { s with elFlags := update s.elFlags el (s.elFlags el ||| flags) }) works
      (s.elListener el) (s.elMask el)
    exact broadcastLoop flags els signalled

theorem Works.qReadyFirst (works : Works c s.toCore) (qp : IoQueue) : Works c (s.qReadyFirst qp).toCore := by
  unfold Sys.qReadyFirst
  split
  · exact works
  next removed =>
    exact works.answers rdyOk (.of_fifoRemove removed nofun)

theorem Works.qCallNotify (works : Works c s.toCore) (quiet : c.due = false → s.due = false) (qp : IoQueue) :
    Course who c (s.qCallNotify qp).toCore := by
  unfold Sys.qCallNotify
  split
  · exact (works.push _).idle quiet rfl
  · exact works.idle quiet rfl

theorem scanOwned_congr (s s' : Sys) (queue : s'.queue = s.queue) (prio : s'.pPrio = s.pPrio) (next : s'.mNext = s.mNext) :
    ∀ (n : Nat) (mp : Option MtxId) (p : Nat), s'.scanOwned n mp p = s.scanOwned n mp p
  | 0, _, _ => rfl
  | _ + 1, none, _ => rfl
  | n + 1, some mp, p => by
    rw [Sys.scanOwned, Sys.scanOwned, queue, prio, next]
    exact scanOwned_congr s s' queue prio next n ..

/-- The running thread's last mutex has left its chain. -/
def Sys.unchained (ump : MtxId) (s : Sys) : Sys :=
  { s with pMtxlist := update s.pMtxlist s.currp (s.mNext ump) }.ret (.mutex ump)

/-- The running thread unlocks its last mutex: before the heir is woken, it has the priority that its other mutexes and its
own give it. -/
theorem Works.unlockWith {wake : Tid → Core → Core} {P : Core → Prop} (works : Works c s.toCore)
    (stays : ∀ {c'}, Works c c' → c'.due = s.due → P c')
    (wakes : ∀ {ump tp c' c''}, s.pMtxlist s.currp = some ump → (s.queue (.mQueue ump)).head? = some tp → Works c c' →
      Leaves tp c' c'' → c''.currp = s.currp →
      c''.pPrio = update s.pPrio s.currp (s.scanOwned s.nmtx (s.mNext ump) (s.pRealprio s.currp)) → P (wake tp c'')) :
    P (s.unlockWith wake).toCore := by
  unfold Sys.unlockWith
  split
  · exact stays works rfl
  next ump last =>
    have told : Works c (s.unchained ump).toCore := works.same rfl
    dsimp only
    split
    next waited =>
      have scan : (s.unchained ump).scanOwned s.nmtx ((s.unchained ump).pMtxlist s.currp) (s.pRealprio s.currp) =
          s.scanOwned s.nmtx (s.mNext ump) (s.pRealprio s.currp) := by
        rw [show (s.unchained ump).pMtxlist s.currp = s.mNext ump from update_self ..]
        exact scanOwned_congr s (s.unchained ump) rfl rfl rfl ..
      have lowered := told.setPrio ((s.unchained ump).scanOwned s.nmtx ((s.unchained ump).pMtxlist s.currp)
        (s.pRealprio s.currp))
      split
      next removed =>
        unfold fifoRemove at removed
        split at removed
        next empty =>
          exact absurd empty waited
        · cases removed
      next tp c' removed =>
        have leaves := Leaves.of_fifoRemove removed nofun
        obtain ⟨l, is, rfl⟩ := fifoRemove_some removed
        refine wakes last ?_ lowered leaves rfl (congrArg (update s.pPrio s.currp) scan)
        exact congrArg List.head? is
    · exact stays told rfl

theorem Works.chMtxUnlockS (works : Works c s.toCore) : Works c s.chMtxUnlockS.toCore :=
  works.unlockWith (fun works _ => works) fun _ _ works leaves _ _ => works.readies leaves

theorem Works.unlockAllLoop : ∀ (n : Nat) {s : Sys}, Works c s.toCore → Works c (s.unlockAllLoop n).toCore
  | 0, _, works => works
  | n + 1, s, works => by
    rw [Sys.unlockAllLoop]
    split
    · exact works
    · dsimp only
      refine unlockAllLoop n ?_
      split
      · split
        · exact works
        next removed =>
          exact works.readies (.of_fifoRemove removed (by simp))
      · exact works

/-! ## Functions that sleep -/

/-- The timer can be set, so the thread sleeps. -/
theorem Works.sleepTimeout (works : Works c c') (ok : c'.vt.Ok) (st : TState) (time : Systime)
    (same : GoesOn c' c'') (vt : c''.vt = c'.vt) : Course who c (c''.chSchGoSleepTimeoutS st time) := by
  obtain ⟨⟨u, ctx⟩, ready, standing⟩ := same
  have pushed (f : Frame) : ∀ t, t ≠ c'.currp → update c''.pCtx c''.currp (f :: c''.pCtx c''.currp) t = c'.pCtx t := by
    intro t other
    have currp : c''.currp = c'.currp := congrArg (·.2.2.1) standing
    rw [update_of_ne (currp ▸ other), ctx t other]
  rw [chSchGoSleepTimeoutS]
  split
  · obtain ⟨vt', set⟩ := ok.set_isSome (.stack c''.currp) time (.wakeup c''.currp)
    rw [vt, set]
    exact .sleeps st works { u, ready, standing, ctx := pushed _ }
  · exact .sleeps st works { u, ready, standing, ctx := pushed _ }

section

variable (works : Works c s.toCore)
include works

theorem Works.chThdExitS (msg : Msg) : Course who c (s.chThdExitS msg).toCore := by
  have told : Works c (s.toCore.setU s.currp (.exitcode msg)) := works.setU _
  have flushed : Works c ((s.toCore.setU s.currp (.exitcode msg)).flush (.pWaiting s.currp) .chSchReadyI
      (s.queue (.pWaiting s.currp)).length) :=
    .flush (q := .pWaiting s.currp) nofun (fun works leaves => works.readies leaves) _ told
  unfold Sys.chThdExitS
  dsimp only
  split <;> exact .sleeps .final flushed .refl

theorem Works.qwait (vt : s.vt.Ok) (f : Frame) (qp : IoQueue) (time : Systime) :
    Course who c ((s.onCore (.push f)).qwait qp time).toCore :=
  (works.push f).sleepTimeout vt .wtqueue time (.joins .setU nofun) rfl

variable (quiet : c.due = false → s.due = false)
include quiet

theorem Works.chSemWaitS (sp : SemId) : Course who c (s.chSemWaitS sp).toCore := by
  unfold Sys.chSemWaitS
  dsimp only
  split
  · exact .sleeps .wtsem works (.waits nofun)
  · exact works.idle quiet rfl

theorem Works.chCondWaitS (cp : CondId) : Course who c (s.chCondWaitS cp).toCore := by
  unfold Sys.chCondWaitS
  split
  · exact works.idle quiet rfl
  · exact .sleeps .wtcond works.chMtxUnlockS (.waits nofun)

variable (vt : s.vt.Ok)
include vt

theorem Works.chSemWaitTimeoutS (sp : SemId) (time : Systime) :
    Course who c (s.chSemWaitTimeoutS sp time).toCore := by
  unfold Sys.chSemWaitTimeoutS
  dsimp only
  split
  · split
    · exact works.idle quiet rfl
    · exact works.sleepTimeout vt .wtsem time (.joins .setU nofun) rfl
  · exact works.idle quiet rfl

theorem Works.chCondWaitTimeoutS (cp : CondId) (time : Systime) :
    Course who c (s.chCondWaitTimeoutS cp time).toCore := by
  unfold Sys.chCondWaitTimeoutS
  split
  · exact works.idle quiet rfl
  · have vt' : s.chMtxUnlockS.vt.Ok := (chMtxUnlockS_frame s).2.1 ▸ vt
    exact works.chMtxUnlockS.sleepTimeout vt' .wtcond time (.waits nofun) rfl

theorem Works.iqGetLoop (n : Nat) (time : Systime) : Course who c (s.iqGetLoop n time).toCore := by
  unfold Sys.iqGetLoop
  split
  · split
    · exact works.idle quiet rfl
    · exact works.qwait vt _ (.iq n) time
  · exact works.idle quiet rfl

theorem Works.iqReadLoop (n : Nat) (time : Systime) (want : Nat)
    (got : List UInt8) : Course who c (s.iqReadLoop n time want got).toCore := by
  unfold Sys.iqReadLoop
  split
  · split
    · exact (works.push _).idle quiet rfl
    · exact works.qwait vt _ (.iq n) time
  · dsimp only
    split
    · exact (works.push _).idle quiet rfl
    · exact ((works.push _).push _).idle quiet rfl

theorem Works.oqPutLoop (n : Nat) (b : UInt8) (time : Systime) : Course who c (s.oqPutLoop n b time).toCore := by
  unfold Sys.oqPutLoop
  split
  · split
    · exact works.idle quiet rfl
    · exact works.qwait vt _ (.oq n) time
  · have put : Works c ((s.oqPutByte n b).ret (.msg rdyOk)).toCore := works.same rfl
    exact put.qCallNotify quiet (.oq n)

theorem Works.oqWriteLoop (n : Nat) (time : Systime)
    (todo done : List UInt8) : Course who c (s.oqWriteLoop n time todo done).toCore := by
  unfold Sys.oqWriteLoop
  split
  · exact (works.push _).idle quiet rfl
  · split
    · split
      · exact (works.push _).idle quiet rfl
      · exact works.qwait vt _ (.oq n) time
    · dsimp only
      split
      · exact qCallNotify (by exact (works.push _).same rfl) (by exact quiet) (.oq n)
      · exact qCallNotify (by exact ((works.push _).push _).same rfl) (by exact quiet) (.oq n)

end

/-! ## Every function -/

theorem ICall.body_works (f : ICall) (allowed : f.allowed s = true) (notCreate : ∀ prio, f ≠ .thdCreateI prio) :
    Works s.toCore (f.body s).toCore := by
  have begun := Works.start (c := s.toCore)
  cases f with
  | semResetI sp n => exact begun.resetLoop (.sem sp) _
  | semSignalI sp => exact begun.chSemSignalI (.sem sp)
  | semAddCounterI sp n => exact begun.chSemAddCounterI (.sem sp) n
  | condSignalI cp =>
    simp only [body, chCondSignalI]
    split
    · exact begun
    next removed =>
      exact begun.answers rdyOk (.of_fifoRemove removed (by simp))
  | condBroadcastI cp => exact begun.flushMsg (by simp) rdyReset _
  | evtSignalI tp mask => exact begun.chEvtSignalI tp mask
  | evtBroadcastFlagsI es flags => exact begun.broadcastLoop flags (s.esNext es)
  | mbPostI | mbPostAheadI =>
    simp only [body, chMBPostI, chMBPostAheadI]
    split
    · exact begun.ret _
    · exact .ret (.chSemSignalI (by exact begun) _) _
  | mbFetchI mb =>
    simp only [body, chMBFetchI]
    split
    · exact begun.ret _
    · exact .chSemSignalI (by exact begun.same rfl) (.mbEmptysem mb)
  | iqResetI n => exact begun.flushMsg (by simp) rdyReset _
  | iqPutI n b =>
    simp only [body, chIQPutI]
    split
    · exact begun.ret _
    · exact .ret (.qReadyFirst (by exact begun) (.iq n)) _
  | oqResetI n => exact begun.flushMsg (q := .qWaiting (.oq n)) (by simp) rdyReset _
  | oqGetI n =>
    simp only [body, chOQGetI]
    split
    · exact begun.ret _
    · exact .qReadyFirst (by exact begun.same rfl) (.oq n)
  | thdCreateI prio => exact absurd rfl (notCreate prio)
  | thdResumeI tp =>
    obtain ⟨suspended, lt⟩ := of_decide_eq_true allowed
    exact begun.readies (.alone (by rw [suspended]; rfl) (.inr lt))
  | vtSetI n time =>
    simp only [body]
    split <;> exact begun.same rfl
  | evtGetAndClearFlagsI | vtResetI => exact begun.same rfl

/-- What a function that may sleep relies on. -/
structure Sound (s : Sys) : Prop where
  vt : s.vt.Ok
  owner : ∀ m t, s.mOwner m = some t → t < s.nthd

theorem Sound.pop (sound : Sound s) : Sound s.pop := ⟨sound.vt, sound.owner⟩

theorem SCall.body_course (f : SCall) (sound : Sound s) (allowed : f.allowed s = true) (notUnlock : f ≠ .mtxUnlockS) :
    Course none s.toCore (f.body s).toCore := by
  have begun := Works.start (c := s.toCore)
  have vt := sound.vt
  cases f with
  | semWaitS sp => exact begun.chSemWaitS id (.sem sp)
  | semWaitTimeoutS sp time => exact begun.chSemWaitTimeoutS id vt (.sem sp) time
  | mtxLockS mp => exact .locks mp begun rfl rfl sound.owner id
  | mtxTryLockS mp =>
    simp only [body, chMtxTryLockS]
    split <;> exact begun.idle id rfl
  | mtxUnlockS => exact absurd rfl notUnlock
  | condWaitS cp => exact begun.chCondWaitS id cp
  | condWaitTimeoutS cp time => exact begun.chCondWaitTimeoutS id vt cp time
  | mbPostS | mbPostAheadS | mbFetchS => exact (begun.push _).chSemWaitTimeoutS id vt _ _
  | msgReleaseS tp msg =>
    obtain ⟨waits, lt, calm⟩ := of_decide_eq_true allowed
    exact .wakes msg begun (.alone (by rw [waits]; rfl) (.inr lt)) fun top _ _ => .inl (top calm)
  | thdSleepS time => exact begun.sleepTimeout vt .sleeping time .refl rfl
  | thdExitS msg => exact begun.chThdExitS msg
  | suspendS => exact .sleeps .suspended begun .refl

theorem chMtxUnlock_course : Course s.heir s.toCore s.chMtxUnlock.toCore := by
  refine Works.unlockWith (s := s.enter) (P := Course s.heir s.toCore) Works.start.enter
    (fun works quiet => works.idle (fun was => quiet.trans was) rfl) fun {ump tp c' c''} last first lowered leaves currp prio => ?_
  refine .wakes rdyOk lowered leaves fun _ other above => .inr ?_
  have last : s.pMtxlist s.currp = some ump := last
  obtain ⟨rest, list⟩ := List.head?_eq_some_iff.1 first
  have list : s.queue (.mQueue ump) = tp :: rest := list
  rw [prio, currp, update_self, update_of_ne (currp ▸ other)] at above
  rw [scanOwned_congr s s.enter rfl rfl rfl] at above
  simp only [heir, last, list]
  exact if_pos above

/-- The sender is in the server's list before the server is readied. -/
theorem chMsgSend_course {who : Option Tid} (tp : Tid) (msg : Msg) : Course who s.toCore (s.chMsgSend tp msg).toCore := by
  unfold Sys.chMsgSend Sys.zone
  dsimp only
  split
  next waits =>
    have waits : s.enter.pState tp = .wtmsg := waits
    have leaves : Leaves tp s.enter.toCore s.enter.toCore := .alone (by rw [waits]; rfl) (.inl (by rw [waits]; nofun))
    have readied := Works.start.enter.readies leaves
    refine .sleeps .sndmsgq readied ⟨⟨fun _ other => update_of_ne other .., fun _ other => update_of_ne other ..⟩, ?_, rfl⟩
    simp [Core.push, Core.chSchReadyI, Core.queueInsert, Core.setQueue, Core.setU, Sys.enter]
  · exact .sleeps .sndmsgq Works.start.enter (.waits (by simp))

/-- The thread that a step hands the processor to by passing a mutex on. -/
def ApiCall.heir (s : Sys) : ApiCall → Option Tid
  | .mtxUnlock => s.heir
  | _ => none

theorem ApiCall.body_course (f : ApiCall) (sound : Sound s) (quiet : s.due = false) (allowed : f.allowed s = true) :
    Course (f.heir s) s.toCore (f.body s).toCore := by
  have begun := Works.start (c := s.toCore)
  have enter := begun.enter
  have handed (tp : Tid) : Works s.toCore (s.leaving tp).toCore := begun.push _
  have vt := sound.vt
  have top : (s.due = false → Top s.toCore) → Top s.enter.toCore := fun top => top quiet
  cases f with
  | semReset sp n => exact .reschedules (.resetLoop (.sem sp) _ enter)
  | semWait sp => exact enter.chSemWaitS id (.sem sp)
  | semWaitTimeout sp time => exact enter.chSemWaitTimeoutS id vt (.sem sp) time
  | semSignal sp =>
    simp only [body, chSemSignal, zone]
    split
    · split
      · exact enter.idle id rfl
      next removed =>
        exact .wakes rdyOk enter (.of_fifoRemove removed (by simp)) fun calm _ _ => .inl ((top calm).removed removed (by simp))
    · exact enter.idle id rfl
  | semSignalWait sps spw =>
    have signalled := enter.chSemSignalI (.sem sps)
    simp only [body, chSemSignalWait, zone]
    split
    · exact .sleeps .wtsem signalled (.waits (by simp))
    · exact .reschedules (signalled.same rfl)
  | mtxLock mp => exact .locks mp (enter.ret .void) rfl rfl sound.owner id
  | mtxTryLock | regFirstThread =>
    simp only [body, chMtxTryLock, chMtxTryLockS, chRegFirstThread, zone]
    split <;> exact enter.idle id rfl
  | regNextThread =>
    simp only [body, chRegNextThread, zone]
    split <;> exact (handed _).enter.idle id rfl
  | mtxUnlock => exact chMtxUnlock_course
  | mtxUnlockAll =>
    have told := enter.ret .void
    simp only [body, chMtxUnlockAll, zone]
    split
    · exact .reschedules ((told.unlockAllLoop _).setPrio _)
    · exact told.idle id rfl
  | condSignal cp =>
    simp only [body, chCondSignal, zone]
    split
    · exact enter.idle id rfl
    next removed =>
      exact .wakes rdyOk enter (.of_fifoRemove removed (by simp)) fun calm _ _ => .inl ((top calm).removed removed (by simp))
  | condBroadcast cp => exact .reschedules (enter.flushMsg (by simp) rdyReset _)
  | condWait cp => exact enter.chCondWaitS id cp
  | condWaitTimeout cp time => exact enter.chCondWaitTimeoutS id vt cp time
  | evtSignal tp mask => exact .reschedules (enter.chEvtSignalI tp mask)
  | evtBroadcastFlags es flags => exact .reschedules (enter.broadcastLoop flags (s.esNext es))
  | evtRegisterMask | evtUnregister | evtGetAndClearEvents | evtAddEvents | evtGetAndClearFlags | thdTerminate | thdAddRef =>
    exact enter.idle id rfl
  | oqWriteTimeout => exact (begun.push _).idle id rfl
  | oqPutTimeout => exact (enter.push _).idle id rfl
  | thdRelease tp => exact (begun.push (.thdReleaseCheck tp _)).enter.idle id rfl
  | evtWait w mask =>
    simp only [body, chEvtWait, zone]
    split
    · exact enter.idle id rfl
    · exact .sleeps w.tstate ((enter.setU _).push _) .refl
  | evtWaitTimeout w mask time =>
    simp only [body, chEvtWaitTimeout, zone]
    split
    · exact enter.idle id rfl
    · split
      · exact enter.idle id rfl
      · exact ((enter.setU _).push _).sleepTimeout vt w.tstate time .refl rfl
  | msgSend tp msg => exact chMsgSend_course tp msg
  | msgWait =>
    simp only [body, chMsgWait, zone]
    split
    · exact .sleeps .wtmsg (enter.push _) .refl
    · exact (enter.push _).idle id rfl
  | msgRelease tp msg =>
    obtain ⟨waits, lt⟩ := of_decide_eq_true allowed
    have waits : s.enter.pState tp = .sndmsg := waits
    exact .wakes msg enter (.alone (by rw [waits]; rfl) (.inr lt)) fun calm _ _ => .inl (top calm)
  | mbReset mb => exact .reschedules (.resetLoop (.mbFullsem mb) _ (.resetLoop (.mbEmptysem mb) _ enter))
  | mbPost | mbPostAhead | mbFetch => exact (enter.push _).chSemWaitTimeoutS id vt _ _
  | iqGetTimeout n time => exact (enter.push (.iqGet n time)).qCallNotify id (.iq n)
  | iqReadTimeout n want time => exact Works.qCallNotify (by exact (begun.push _).same rfl) (by exact id) (.iq n)
  | thdCreate prio mode => exact .creates prio mode enter rfl rfl quiet
  | thdSetPriority newprio =>
    have told := enter.ret (.msg (s.pRealprio s.currp))
    simp only [body, chThdSetPriority, zone]
    split
    · exact .reschedules (told.setPrio newprio)
    · exact .reschedules told
  | thdResume tp =>
    obtain ⟨waits, lt⟩ := of_decide_eq_true allowed
    have waits : s.enter.pState tp = .suspended := waits
    refine .wakes rdyOk (enter.ret (.thread (some tp))) (.alone ?_ (.inr lt)) fun calm _ _ => .inl (top calm)
    exact (congrArg TState.waits waits).trans rfl
  | thdSleep time => exact enter.sleepTimeout vt .sleeping time .refl rfl
  | thdSleepUntil time =>
    simp only [body, chThdSleepUntil, zone]
    split
    · exact enter.sleepTimeout vt .sleeping _ .refl rfl
    · exact enter.idle id rfl
  | thdYield => exact .yields (enter.ret .void) id
  | thdExit msg => exact Works.chThdExitS (s := { s with locked := true }) (begun.same rfl) msg
  | thdWait tp =>
    simp only [body, chThdWait, zone]
    split
    · exact .sleeps .wtexit ((handed tp).enter.push _) (.joins .refl (by simp))
    · exact ((handed tp).enter.push _).idle id rfl

theorem Frame.run_course (f : Frame) (works : Works c s.toCore) (sound : Sound s) (threads : s.toThreads = c.toThreads)
    (currp : s.currp = c.currp) (quiet : c.due = false → s.due = false) : Course none c (f.run s).toCore := by
  have vt := sound.vt
  have locks (m : Msg) (mp : MtxId) : Course none c (s.condWaitResume mp m).toCore :=
    .locks mp (works.push (.retMsg m)) threads currp sound.owner quiet
  cases f with
  | sysUnlock | rdymsg | retMsg | notify | thdWait => exact works.idle quiet rfl
  | thdRelease tp => exact (works.push (.thdReleaseCheck tp _)).enter.idle quiet rfl
  | oqWriteNext => exact (works.push _).idle quiet rfl
  | regRemove tp st => cases st <;> first | exact works.idle quiet rfl | exact (works.push _).idle quiet rfl
  | condWait mp => exact locks _ mp
  | condWaitTimeout mp =>
    simp only [Frame.run]
    split
    · exact locks _ mp
    · exact works.idle quiet rfl
  | mbPost | mbPostAhead =>
    simp only [Frame.run, Sys.mbPostResume, Sys.mbPostAheadResume]
    split
    · exact .reschedules (.chSemSignalI (by exact works) _)
    · exact works.idle quiet rfl
  | mbFetch mb =>
    simp only [Frame.run, Sys.mbFetchResume]
    split
    · exact .reschedules (.chSemSignalI (by exact works.same rfl) (.mbEmptysem mb))
    · exact works.idle quiet rfl
  | goSleepTimeout | evtWait | thdReleaseCheck | iqGetWait | iqReadWait | oqPutWait | oqWriteWait =>
    simp only [Frame.run, Sys.onCore, Core.sleepReturn, Sys.evtWaitResume, Sys.thdReleaseCheck, Sys.removes, Sys.iqGetResume,
      Sys.iqReadResume, Sys.oqPutResume, Sys.oqWriteResume]
    split <;> first | exact works.idle quiet rfl | exact (works.push _).idle quiet rfl
  | msgWait =>
    simp only [Frame.run, Sys.msgWaitResume]
    split
    · exact works.idle quiet rfl
    next removed =>
      refine .stays (works.takes (.of_fifoRemove removed (by simp))) ⟨⟨fun _ _ => rfl, fun _ _ => rfl⟩, rfl, rfl⟩ ?_
      obtain ⟨l, -, rfl⟩ := fifoRemove_some removed
      exact quiet
  | iqGet n time => exact works.iqGetLoop quiet vt n time
  | iqRead n time want got => exact works.iqReadLoop quiet vt n time want got
  | oqPut n b time => exact works.oqPutLoop quiet vt n b time
  | oqWrite n time todo done => exact works.oqWriteLoop quiet vt n time todo done
  | iqReadNext n time want got => exact Works.qCallNotify (by exact (works.push _).same rfl) (by exact quiet) (.iq n)

/-!
## When a rescheduling is due

A ready thread may be above the running one only while the running thread cannot
give the processor up yet, and it is `due` then: in an interrupt handler, in a lock
zone of the application, or in a callback from a queue function. A kernel function
that is called with nothing due leaves nothing due, whatever it does in between.
-/

/-- A context in which something may be due: the application's own code, a callback
of a queue, or a mailbox function that the application called in its lock zone. -/
inductive Lax : List Frame → Prop
  | own : Lax []
  | notify (qp : IoQueue) (fs : List Frame) : Lax (.notify qp :: fs)
  | mailbox (f : Frame) : f.isMb = true → Lax [f]

def DueOk (c : Core) : Prop := c.due = true → c.isr ≠ [] ∨ c.locked = true ∧ Lax (c.pCtx c.currp)

variable {time : Systime}

theorem DueOk.quiet (quiet : c.due = false) : DueOk c := fun due => by cases quiet.symm.trans due

theorem DueOk.still (lax : c.isr ≠ [] ∨ c.locked = true ∧ Lax (c.pCtx c.currp)) (still : Still c c') : DueOk c' := by
  intro _
  rwa [still.isr, still.locked, still.currp, still.ctx]

/-- Outside lock zones and handlers nothing is due. -/
theorem DueOk.of_unlocked (ok : DueOk c) (thread : c.isr = []) (unlocked : c.locked = false) : c.due = false := by
  rw [← Bool.not_eq_true]
  intro due
  rcases ok due with inIsr | ⟨locked, -⟩
  · exact inIsr thread
  · cases unlocked.symm.trans locked

/-! ## The scheduler -/

theorem Core.chSchWakeupS_due (t : Tid) (m : Msg) : (c.chSchWakeupS t m).due = false := by
  rw [chSchWakeupS]
  split <;> rfl

theorem Core.chSchRescheduleS_due : c.chSchRescheduleS.due = false := by
  rw [chSchRescheduleS]
  split <;> rfl

theorem Core.chSchDoYieldS_due (quiet : c.due = false) : c.chSchDoYieldS.due = false := by
  rw [chSchDoYieldS]
  split
  · rfl
  · exact quiet

theorem Core.chSchGoSleepTimeoutS_due (vt : c.vt.Ok) (st : TState) : (c.chSchGoSleepTimeoutS st time).due = false := by
  rw [chSchGoSleepTimeoutS]
  split
  · obtain ⟨vt', set⟩ := vt.set_isSome (.stack c.currp) time (.wakeup c.currp)
    rw [set]
    rfl
  · rfl

/-- A function called with nothing due leaves nothing due. -/
theorem Course.quiet {who : Option Tid} (course : Course who c c') (quiet : c.due = false) : c'.due = false := by
  cases course with
  | stays _ _ still => exact still quiet
  | sleeps => rfl
  | reschedules => exact chSchRescheduleS_due
  | yields _ still => exact chSchDoYieldS_due (still quiet)
  | wakes | creates => exact chSchWakeupS_due ..
  | locks mp _ _ _ _ still =>
    rw [chMtxLockS]
    split
    · rfl
    · exact still quiet

/-! ## Functions for lock zones of the application -/

theorem DueOk.own (locked : c.locked = true) (empty : c.pCtx c.currp = []) : DueOk c :=
  fun _ => .inr ⟨locked, empty ▸ .own⟩

/-- A mailbox function asks for its token. -/
theorem mbAsk_dueOk {f : Frame} (isMb : f.isMb = true) (vt : s.vt.Ok) (locked : s.locked = true)
    (empty : s.pCtx s.currp = []) (sp : SemId) : DueOk ((s.onCore (.push f)).chSemWaitTimeoutS sp time).toCore := by
  have lax : Lax ((s.onCore (.push f)).pCtx s.currp) := by
    simpa [push, empty] using Lax.mailbox f isMb
  rw [chSemWaitTimeoutS]
  split
  · split
    · exact fun _ => .inr ⟨locked, lax⟩
    · exact .quiet (chSchGoSleepTimeoutS_due (c := semInsert sp (s.toCore.push f)) vt .wtsem)
  · exact fun _ => .inr ⟨locked, lax⟩

theorem SCall.body_dueOk (f : SCall) (vt : s.vt.Ok) (locked : s.locked = true) (empty : s.pCtx s.currp = []) :
    DueOk (f.body s).toCore := by
  have own : DueOk s.toCore := .own locked empty
  cases f with
  | semWaitS | mtxLockS | mtxTryLockS =>
    simp only [body, chSemWaitS, chMtxLockS, chMtxTryLockS]
    split <;> first | exact .own locked empty | exact .quiet rfl
  | semWaitTimeoutS sp time =>
    simp only [body, chSemWaitTimeoutS]
    split
    · split
      · exact .own locked empty
      · exact .quiet (chSchGoSleepTimeoutS_due (c := semInsert (.sem sp) s.toCore) vt .wtsem)
    · exact .own locked empty
  | mtxUnlockS => exact .still (.inr ⟨locked, empty ▸ .own⟩) (chMtxUnlockS_frame s).1
  | condWaitS cp =>
    simp only [body, chCondWaitS]
    split
    · exact own
    · exact .quiet rfl
  | condWaitTimeoutS cp time =>
    simp only [body, chCondWaitTimeoutS]
    split
    · exact own
    next mp _ =>
      exact .quiet (chSchGoSleepTimeoutS_due
        ((chMtxUnlockS_frame s).2.1 ▸ vt) .wtcond)
  | mbPostS | mbPostAheadS | mbFetchS => exact mbAsk_dueOk rfl vt locked empty _
  | msgReleaseS tp msg => exact .quiet (chSchWakeupS_due ..)
  | thdSleepS time => exact .quiet (chSchGoSleepTimeoutS_due vt .sleeping)
  | thdExitS msg => exact .quiet rfl
  | suspendS => exact .quiet rfl

end ChibiOS.Kernel
