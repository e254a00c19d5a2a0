import ChibiOS.Lib.Lts
import ChibiOS.Kernel.Mtx
import ChibiOS.Kernel.Mailbox
import ChibiOS.Kernel.Queues
import ChibiOS.Kernel.Events
import ChibiOS.Kernel.Threads

/-!
# The running kernel

The application is any program: whatever thread is running and in control may
call any kernel function, and any interrupt may arrive while the kernel is
unlocked. What it may not do is what the functions' preconditions and the rules
on call contexts exclude (`ApiCall.allowed` and the like), in particular leave a
lock zone of its own while `due`, without `chSchRescheduleS`.

A step is a call up to its first change of thread or return; a frame of the
running thread; or a piece of an interrupt handler between two lock zones.
-/

namespace ChibiOS.Kernel

open Function
open Lib

/-- I-class functions: for interrupt handlers, and for threads in lock zones. -/
inductive ICall
  | semResetI (sp : Nat) (n : Nat)
  | semSignalI (sp : Nat)
  | semAddCounterI (sp : Nat) (n : Nat)
  | condSignalI (cp : CondId)
  | condBroadcastI (cp : CondId)
  | evtSignalI (tp : Tid) (mask : EventMask)
  | evtBroadcastFlagsI (es : EsId) (flags : EventMask)
  | evtGetAndClearFlagsI (el : ElId)
  | mbPostI (mb : MbId) (m : Msg)
  | mbPostAheadI (mb : MbId) (m : Msg)
  | mbFetchI (mb : MbId)
  | iqResetI (n : Nat)
  | iqPutI (n : Nat) (b : UInt8)
  | oqResetI (n : Nat)
  | oqGetI (n : Nat)
  | thdCreateI (prio : Nat)
  | thdResumeI (tp : Tid)
  | vtSetI (n : Nat) (time : Systime)
  | vtResetI (n : Nat)
deriving DecidableEq

/-- S-class functions: for threads in lock zones of their own. -/
inductive SCall
  | semWaitS (sp : Nat)
  | semWaitTimeoutS (sp : Nat) (time : Systime)
  | mtxLockS (mp : MtxId)
  | mtxTryLockS (mp : MtxId)
  | mtxUnlockS
  | condWaitS (cp : CondId)
  | condWaitTimeoutS (cp : CondId) (time : Systime)
  | mbPostS (mb : MbId) (m : Msg) (time : Systime)
  | mbPostAheadS (mb : MbId) (m : Msg) (time : Systime)
  | mbFetchS (mb : MbId) (time : Systime)
  | msgReleaseS (tp : Tid) (msg : Msg)
  | thdSleepS (time : Systime)
  | thdExitS (msg : Msg)
  /-- `chSchGoSleepS(THD_STATE_SUSPENDED)`. -/
  | suspendS
deriving DecidableEq

/-- Functions that lock the kernel themselves. -/
inductive ApiCall
  | semReset (sp : Nat) (n : Nat)
  | semWait (sp : Nat)
  | semWaitTimeout (sp : Nat) (time : Systime)
  | semSignal (sp : Nat)
  | semSignalWait (sps spw : Nat)
  | mtxLock (mp : MtxId)
  | mtxTryLock (mp : MtxId)
  | mtxUnlock
  | mtxUnlockAll
  | condSignal (cp : CondId)
  | condBroadcast (cp : CondId)
  | condWait (cp : CondId)
  | condWaitTimeout (cp : CondId) (time : Systime)
  | evtRegisterMask (es : EsId) (el : ElId) (mask : EventMask)
  | evtUnregister (es : EsId) (el : ElId)
  | evtGetAndClearEvents (mask : EventMask)
  | evtAddEvents (mask : EventMask)
  | evtSignal (tp : Tid) (mask : EventMask)
  | evtBroadcastFlags (es : EsId) (flags : EventMask)
  | evtGetAndClearFlags (el : ElId)
  | evtWait (w : EvtWait) (mask : EventMask)
  | evtWaitTimeout (w : EvtWait) (mask : EventMask) (time : Systime)
  | msgSend (tp : Tid) (msg : Msg)
  | msgWait
  | msgRelease (tp : Tid) (msg : Msg)
  | mbReset (mb : MbId)
  | mbPost (mb : MbId) (m : Msg) (time : Systime)
  | mbPostAhead (mb : MbId) (m : Msg) (time : Systime)
  | mbFetch (mb : MbId) (time : Systime)
  | iqGetTimeout (n : Nat) (time : Systime)
  | iqReadTimeout (n : Nat) (want : Nat) (time : Systime)
  | oqPutTimeout (n : Nat) (b : UInt8) (time : Systime)
  | oqWriteTimeout (n : Nat) (bytes : List UInt8) (time : Systime)
  | thdCreate (prio : Nat) (mode : MemMode)
  | thdSetPriority (newprio : Nat)
  | thdResume (tp : Tid)
  | thdTerminate (tp : Tid)
  | thdSleep (time : Systime)
  | thdSleepUntil (time : Systime)
  | thdYield
  | thdExit (msg : Msg)
  | thdWait (tp : Tid)
  | thdAddRef (tp : Tid)
  | thdRelease (tp : Tid)
  | regFirstThread
  | regNextThread (tp : Tid)
deriving DecidableEq

/-! ## Preconditions -/

/-- A priority for a thread. -/
def prioOk (prio : Nat) : Bool := 1 ≤ prio ∧ prio ≤ highPrio

def ICall.allowed (s : Sys) : ICall → Bool
  | evtSignalI tp _ => tp < s.nthd
  | thdCreateI prio => prioOk prio
  | thdResumeI tp => s.pState tp = .suspended ∧ tp < s.nthd
  | vtSetI n time => chVTIsArmedI (.app n) s.vt = false ∧ time ≠ timeImmediate
  | vtResetI n => chVTIsArmedI (.app n) s.vt
  | _ => true

/-- `chMsgReleaseS` is `chSchWakeupS`, which assumes that no ready thread is above
the running one. -/
def SCall.allowed (s : Sys) : SCall → Bool
  | mtxLockS mp | mtxTryLockS mp => mp < s.nmtx
  | mtxUnlockS => (s.pMtxlist s.currp).isSome
  | condWaitS _ => (s.pMtxlist s.currp).isSome
  | condWaitTimeoutS _ time => (s.pMtxlist s.currp).isSome ∧ time ≠ timeImmediate
  | msgReleaseS tp _ => s.pState tp = .sndmsg ∧ tp < s.nthd ∧ s.due = false
  | thdSleepS time => time ≠ timeImmediate
  | _ => true

def ApiCall.allowed (s : Sys) : ApiCall → Bool
  | mtxLock mp | mtxTryLock mp => mp < s.nmtx
  | mtxUnlock => (s.pMtxlist s.currp).isSome
  | condWait _ => (s.pMtxlist s.currp).isSome
  | condWaitTimeout _ time => (s.pMtxlist s.currp).isSome ∧ time ≠ timeImmediate
  | evtRegisterMask _ el _ => s.elSource el = none
  | evtSignal tp _ | msgSend tp _ | thdTerminate tp | thdAddRef tp => tp < s.nthd
  | msgRelease tp _ => s.pState tp = .sndmsg ∧ tp < s.nthd
  | iqReadTimeout _ want _ => 0 < want
  | oqWriteTimeout _ bytes _ => bytes ≠ []
  | thdCreate prio _ => prioOk prio
  | thdSetPriority newprio => prioOk newprio
  | thdResume tp => s.pState tp = .suspended ∧ tp < s.nthd
  | thdSleep time => time ≠ timeImmediate
  | thdWait tp => tp < s.nthd ∧ tp ≠ s.currp ∧ 0 < s.held tp
  | thdRelease tp | regNextThread tp => tp < s.nthd ∧ 0 < s.held tp
  | _ => true

/-! ## Bodies -/

def ICall.body : ICall → Sys → Sys
  | semResetI sp n => (·.chSemResetI (.sem sp) n)
  | semSignalI sp => (·.chSemSignalI (.sem sp))
  | semAddCounterI sp n => (·.chSemAddCounterI (.sem sp) n)
  | condSignalI cp => (·.chCondSignalI cp)
  | condBroadcastI cp => (·.chCondBroadcastI cp)
  | evtSignalI tp mask => (·.chEvtSignalI tp mask)
  | evtBroadcastFlagsI es flags => (·.chEvtBroadcastFlagsI es flags)
  | evtGetAndClearFlagsI el => (·.chEvtGetAndClearFlagsI el)
  | mbPostI mb m => (·.chMBPostI mb m)
  | mbPostAheadI mb m => (·.chMBPostAheadI mb m)
  | mbFetchI mb => (·.chMBFetchI mb)
  | iqResetI n => (·.chIQResetI n)
  | iqPutI n b => (·.chIQPutI n b)
  | oqResetI n => (·.chOQResetI n)
  | oqGetI n => (·.chOQGetI n)
  | thdCreateI prio => (·.chThdCreateI prio .static)
  | thdResumeI tp => (·.chThdResumeI tp)
  | vtSetI n time => fun s =>
    match chVTSetI (.app n) time (.app n) s.vt with
    | none => s
    | some vt => { s with vt := vt }
  | vtResetI n => fun s => { s with vt := chVTResetI (.app n) s.vt }

def SCall.body : SCall → Sys → Sys
  | semWaitS sp => (·.chSemWaitS (.sem sp))
  | semWaitTimeoutS sp time => (·.chSemWaitTimeoutS (.sem sp) time)
  | mtxLockS mp => (·.chMtxLockS mp)
  | mtxTryLockS mp => (·.chMtxTryLockS mp)
  | mtxUnlockS => (·.chMtxUnlockS)
  | condWaitS cp => (·.chCondWaitS cp)
  | condWaitTimeoutS cp time => (·.chCondWaitTimeoutS cp time)
  | mbPostS mb m time => (·.chMBPostS mb m time)
  | mbPostAheadS mb m time => (·.chMBPostAheadS mb m time)
  | mbFetchS mb time => (·.chMBFetchS mb time)
  | msgReleaseS tp msg => (·.chMsgReleaseS tp msg)
  | thdSleepS time => (·.chThdSleepS time)
  | thdExitS msg => (·.chThdExitS msg)
  | suspendS => (·.onCore (.chSchGoSleepS .suspended))

def ApiCall.body : ApiCall → Sys → Sys
  | semReset sp n => (·.chSemReset (.sem sp) n)
  | semWait sp => (·.chSemWait (.sem sp))
  | semWaitTimeout sp time => (·.chSemWaitTimeout (.sem sp) time)
  | semSignal sp => (·.chSemSignal (.sem sp))
  | semSignalWait sps spw => (·.chSemSignalWait (.sem sps) (.sem spw))
  | mtxLock mp => (·.chMtxLock mp)
  | mtxTryLock mp => (·.chMtxTryLock mp)
  | mtxUnlock => (·.chMtxUnlock)
  | mtxUnlockAll => (·.chMtxUnlockAll)
  | condSignal cp => (·.chCondSignal cp)
  | condBroadcast cp => (·.chCondBroadcast cp)
  | condWait cp => (·.chCondWait cp)
  | condWaitTimeout cp time => (·.chCondWaitTimeout cp time)
  | evtRegisterMask es el mask => (·.chEvtRegisterMask es el mask)
  | evtUnregister es el => (·.chEvtUnregister es el)
  | evtGetAndClearEvents mask => (·.chEvtGetAndClearEvents mask)
  | evtAddEvents mask => (·.chEvtAddEvents mask)
  | evtSignal tp mask => (·.chEvtSignal tp mask)
  | evtBroadcastFlags es flags => (·.chEvtBroadcastFlags es flags)
  | evtGetAndClearFlags el => (·.chEvtGetAndClearFlags el)
  | evtWait w mask => (·.chEvtWait w mask)
  | evtWaitTimeout w mask time => (·.chEvtWaitTimeout w mask time)
  | msgSend tp msg => (·.chMsgSend tp msg)
  | msgWait => (·.chMsgWait)
  | msgRelease tp msg => (·.chMsgRelease tp msg)
  | mbReset mb => (·.chMBReset mb)
  | mbPost mb m time => (·.chMBPost mb m time)
  | mbPostAhead mb m time => (·.chMBPostAhead mb m time)
  | mbFetch mb time => (·.chMBFetch mb time)
  | iqGetTimeout n time => (·.chIQGetTimeout n time)
  | iqReadTimeout n want time => (·.chIQReadTimeout n want time)
  | oqPutTimeout n b time => (·.chOQPutTimeout n b time)
  | oqWriteTimeout n bytes time => (·.chOQWriteTimeout n bytes time)
  | thdCreate prio mode => (·.chThdCreate prio mode)
  | thdSetPriority newprio => (·.chThdSetPriority newprio)
  | thdResume tp => (·.chThdResume tp)
  | thdTerminate tp => (·.chThdTerminate tp)
  | thdSleep time => (·.chThdSleep time)
  | thdSleepUntil time => (·.chThdSleepUntil time)
  | thdYield => (·.chThdYield)
  | thdExit msg => (·.chThdExit msg)
  | thdWait tp => (·.chThdWait tp)
  | thdAddRef tp => (·.chThdAddRef tp)
  | thdRelease tp => fun s => ((s.handOver tp).ret .void).chThdRelease tp
  | regFirstThread => (·.chRegFirstThread)
  | regNextThread tp => (·.chRegNextThread tp)

/-! ## Frames -/

/-- The frames that run with the kernel unlocked. -/
def Frame.unlocked : Frame → Bool
  | thdRelease _ | thdReleaseCheck .. | regRemove .. | iqReadNext .. | oqWriteNext .. => true
  | _ => false

/-- The rest of `chSchGoSleepTimeoutS`: the timer is reset if it is still armed. -/
def Core.sleepReturn (c : Core) : Core :=
  let v := VtId.stack c.currp
  let c := if chVTIsArmedI v c.vt then { c with vt := chVTResetI v c.vt } else c
  let m := c.rdymsg c.currp
  { c with hist := .ret c.currp m :: c.hist }.ret (.msg m)

/-- The message the running thread was given last. -/
def Core.lastMsg (c : Core) : Msg :=
  match c.pRet (some c.currp) with
  | .msg m => m
  | _ => rdyOk

/-- The running thread goes on at the frame `f`, taken off its context. -/
def Frame.run : Frame → Sys → Sys
  | sysUnlock => fun s => { s with locked := false }
  | rdymsg => fun s => s.ret (.msg (s.rdymsg s.currp))
  | goSleepTimeout => (·.onCore .sleepReturn)
  | condWait mp => fun s => s.condWaitResume mp (s.rdymsg s.currp)
  | condWaitTimeout mp => fun s => if s.lastMsg ≠ rdyTimeout then s.condWaitResume mp s.lastMsg else s
  | retMsg m => (·.ret (.msg m))
  | mbPost mb m => fun s => s.mbPostResume mb m s.lastMsg
  | mbPostAhead mb m => fun s => s.mbPostAheadResume mb m s.lastMsg
  | mbFetch mb => fun s => s.mbFetchResume mb s.lastMsg
  | evtWait w mask timed => fun s => s.evtWaitResume w mask timed s.lastMsg
  | msgWait => (·.msgWaitResume)
  | thdWait tp => fun s => s.ret (.msg (s.exitcode tp))
  | thdRelease tp => (·.chThdRelease tp)
  | thdReleaseCheck tp refs => (·.thdReleaseCheck tp refs)
  | regRemove tp st => (·.regRemoveStep tp st)
  | notify _ => id
  | iqGet n time => (·.iqGetLoop n time)
  | iqGetWait n time => fun s => s.iqGetResume n time s.lastMsg
  | iqRead n time want got => (·.iqReadLoop n time want got)
  | iqReadWait n time want got => fun s => s.iqReadResume n time want got s.lastMsg
  | iqReadNext n time want got => (·.iqReadRound n time want got)
  | oqPut n b time => (·.oqPutLoop n b time)
  | oqPutWait n b time => fun s => s.oqPutResume n b time s.lastMsg
  | oqWrite n time todo done => (·.oqWriteLoop n time todo done)
  | oqWriteWait n time todo done => fun s => s.oqWriteResume n time todo done s.lastMsg
  | oqWriteNext n time todo done => (·.oqWriteRound n time todo done)

/-! ## Interrupts -/

/-- `chVTDoTickI` found a timer due and calls its function, or is done. -/
def Core.tickLoop (isr : List Isr) (c : Core) : VTList VtId Callback Systime × Option (VtId × Option Callback) → Core
  | (vt, none) => { c with vt := vt, isr := .handler :: isr }
  | (vt, some (_, fn)) => { c with vt := vt, isr := .tick fn :: isr }

/-- The tick interrupt, up to its first callback: `chSysTimerHandlerI`. -/
def Core.chSysTimerHandlerI (c : Core) : Option Core :=
  let c := { c with pPreempt := update c.pPreempt c.currp (c.pPreempt c.currp - 1) }
  (chVTDoTickI c.vt).map (c.tickLoop c.isr)

/-- The end of the last handler: the running thread is preempted, or goes on. -/
def Core.irqEpilogue (c : Core) : Core :=
  if c.chSchIsPreemptionRequired then ({ c with locked := true }.push .sysUnlock).chSchDoReschedule
  else { c with due := false }

/-! ## Steps -/

inductive Label
  | call (f : ApiCall)
  | scall (f : SCall)
  | icall (f : ICall)
  | sysLock
  | sysUnlock
  | reschedule
  /-- A frame of the running thread. -/
  | run
  /-- A notification callback returns. -/
  | notifyReturn
  | isrEnter
  | isrExit
  | tick
  /-- The function of the timer that is due. -/
  | callback
  /-- `chVTDoTickI` looks for the next one. -/
  | tickLoop
deriving DecidableEq

namespace Sys

/-- The running thread's own code is running. -/
def threadMode (s : Sys) : Bool := s.isr = [] ∧ s.pCtx s.currp = [] ∧ s.currp ≠ idleThread

/-- The running thread's own code is running in a lock zone, or in a notification
callback. -/
def lockZone (s : Sys) : Bool :=
  match s.pCtx s.currp with
  | [] => s.locked = true ∧ s.isr = [] ∧ s.currp ≠ idleThread
  | .notify _ :: _ => s.locked = true ∧ s.isr = []
  | _ => false

/-- The application's code is running in an interrupt handler. -/
def isrMode (s : Sys) : Bool :=
  match s.isr with
  | .handler :: _ | .tick (some (.app _)) :: _ => true
  | _ => false

/-- The innermost frame is finished. -/
def pop (s : Sys) : Sys := { s with pCtx := update s.pCtx s.currp (s.pCtx s.currp).tail }

end Sys

def next : Label → Sys → Option Sys
  | .call f, s => if s.threadMode = true ∧ s.locked = false ∧ f.allowed s = true then some (f.body s) else none
  | .scall f, s => if s.threadMode = true ∧ s.locked = true ∧ f.allowed s = true then some (f.body s) else none
  | .icall f, s =>
    if (s.isrMode = true ∨ s.lockZone = true) ∧ f.allowed s = true then some (f.body s) else none
  | .sysLock, s => if s.threadMode = true ∧ s.locked = false then some { s with locked := true } else none
  | .sysUnlock, s =>
    if s.threadMode = true ∧ s.locked = true ∧ s.due = false then some { s with locked := false } else none
  | .reschedule, s => if s.lockZone then some (s.onCore .chSchRescheduleS) else none
  | .run, s =>
    match s.isr, s.pCtx s.currp with
    | [], .notify _ :: _ => none
    | [], f :: _ => if f.unlocked = !s.locked then some (f.run s.pop) else none
    | _, _ => none
  | .notifyReturn, s =>
    match s.isr, s.pCtx s.currp with
    | [], .notify _ :: _ => if s.locked = true ∧ s.due = false then some s.pop else none
    | _, _ => none
  | .isrEnter, s => if s.locked then none else some { s with isr := .handler :: s.isr }
  | .isrExit, s =>
    match s.isr with
    | [.handler] => some ({ s with isr := [] }.onCore .irqEpilogue)
    | .handler :: isr => some { s with isr := isr }
    | _ => none
  | .tick, s =>
    if s.locked = false ∧ s.isr.all (· = .handler) = true then
      s.chSysTimerHandlerI.map fun c => { s with toCore := c }
    else none
  | .callback, s =>
    match s.isr with
    | .tick (some (.wakeup tp)) :: isr => some { s.wakeup tp with isr := .tick none :: isr }
    | .tick (some (.app _)) :: isr => some { s with isr := .tick none :: isr }
    | _ => none
  | .tickLoop, s =>
    match s.isr with
    | .tick none :: isr => (vtExpire s.vt).map fun r => { s with toCore := s.toCore.tickLoop isr r }
    | _ => none

/-- The kernel from `chSysInit` on. -/
def kernelLts (cfg : Config) : Lts Sys Label where
  init := chSysInit cfg
  next := next

end ChibiOS.Kernel
