import ChibiOS.Kernel.Time

/-!
# Kernel types

Objects are named by numbers. A thread's name is never used again after the
thread has ended, so two threads that had one working area at different times
are two threads.
-/

namespace ChibiOS.Kernel

/-- `Thread *`. -/
abbrev Tid := Nat

/-- `msg_t`. -/
abbrev Msg := Int

/-- `eventmask_t` and `flagsmask_t`. -/
abbrev EventMask := UInt32

abbrev MtxId := Nat
abbrev CondId := Nat
abbrev MbId := Nat
abbrev EsId := Nat
abbrev ElId := Nat

/-! ## Constants -/

def rdyOk : Msg := 0
def rdyTimeout : Msg := -1
def rdyReset : Msg := -2

/-- `Q_EMPTY` and `Q_FULL`; `Q_OK`, `Q_TIMEOUT` and `Q_RESET` are the `RDY` codes. -/
def qEmpty : Msg := -3
def qFull : Msg := -4

def noPrio : Nat := 0
def idlePrio : Nat := 1
def normalPrio : Nat := 64
def highPrio : Nat := 127

/-- `CH_TIME_QUANTUM`. -/
def chTimeQuantum : Nat := 20

/-- The main thread, which runs `chSysInit`. -/
def mainThread : Tid := 0

def idleThread : Tid := 1

/-! ## Threads -/

/-- `p_state`. -/
inductive TState
  | ready | current | suspended | wtsem | wtmtx | wtcond | sleeping | wtexit
  | wtorevt | wtandevt | sndmsgq | sndmsg | wtmsg | wtqueue | final
deriving DecidableEq

/-- `Semaphore *`: a semaphore of the application, or one of a mailbox's two. -/
inductive SemId
  | sem (n : Nat)
  | mbFullsem (mb : MbId)
  | mbEmptysem (mb : MbId)
deriving DecidableEq

/-- `GenericQueue *`. -/
inductive IoQueue
  | iq (n : Nat)
  | oq (n : Nat)
deriving DecidableEq

/-- The lists that threads are linked in by `p_next` and `p_prev`. -/
inductive QueueId
  | rQueue
  | sQueue (sp : SemId)
  | mQueue (mp : MtxId)
  | cQueue (cp : CondId)
  | qWaiting (qp : IoQueue)
  | pMsgqueue (tp : Tid)
  | pWaiting (tp : Tid)
deriving DecidableEq

namespace QueueId

/-- The state of the members of a list. -/
def tstate : QueueId → TState
  | rQueue => .ready
  | sQueue _ => .wtsem
  | mQueue _ => .wtmtx
  | cQueue _ => .wtcond
  | qWaiting _ => .wtqueue
  | pMsgqueue _ => .sndmsgq
  | pWaiting _ => .wtexit

/-- The lists kept in priority order. -/
def byPrio : QueueId → Bool
  | rQueue | mQueue _ | cQueue _ => true
  | _ => false

/-- The lists whose members point back at them in `wtobjp`. -/
def isObj : QueueId → Bool
  | rQueue | pWaiting _ => false
  | _ => true

end QueueId

/-- The union `p_u`, as last written. -/
inductive PU
  | rdymsg (m : Msg)
  | exitcode (m : Msg)
  | wtobjp (q : QueueId)
  | ewmask (m : EventMask)
deriving DecidableEq

/-- `VirtualTimer *`: the one on the stack of `chSchGoSleepTimeoutS`, or the
application's. -/
inductive VtId
  | stack (tp : Tid)
  | app (n : Nat)
deriving DecidableEq

/-- `vt_func` with its parameter. -/
inductive Callback
  | wakeup (tp : Tid)
  | app (n : Nat)
deriving DecidableEq

/-! ## Control -/

/-- The value a kernel function gave back to its caller. -/
inductive Ret
  | void
  | msg (m : Msg)
  | bool (b : Bool)
  | mask (m : EventMask)
  | thread (tp : Option Tid)
  | mutex (mp : MtxId)
  /-- `chMBFetch`: the result and the message stored through `msgp`. -/
  | fetched (m : Msg) (value : Option Msg)
  /-- Bytes moved by a queue function. -/
  | bytes (l : List UInt8)
deriving DecidableEq

/-- Which of the event wait functions. -/
inductive EvtWait
  | one | any | all
deriving DecidableEq

/-- The state in which they sleep. -/
def EvtWait.tstate : EvtWait → TState
  | one | any => .wtorevt
  | all => .wtandevt

/-- A node of the registry ring. -/
inductive RegNode
  | rlist
  | thread (tp : Tid)
deriving DecidableEq

/-- Where a thread is in a `REG_REMOVE` that is not in a lock zone, with the pointers that it has loaded. -/
inductive RegStage
  | start
  | older (older : RegNode)
  /-- Before `p_older->p_newer = p_newer`. -/
  | forth (older newer : RegNode)
  | between
  | newer (newer : RegNode)
  /-- Before `p_newer->p_older = p_older`. -/
  | back (newer older : RegNode)
  /-- Before the working area is given back. -/
  | done
deriving DecidableEq

/-- Where a thread goes on when the kernel returns into it: the calls on its
stack that are not finished, innermost first. A frame runs with the kernel
locked unless said otherwise. -/
inductive Frame
  /-- `chSysUnlock()` at the end of a function. -/
  | sysUnlock
  /-- `return currp->p_u.rdymsg` after `chSchGoSleepS`. -/
  | rdymsg
  /-- `chSchGoSleepTimeoutS` after its sleep with a timer. -/
  | goSleepTimeout
  /-- `chCondWaitS` after its sleep. -/
  | condWait (mp : MtxId)
  /-- `chCondWaitTimeoutS` after its sleep. -/
  | condWaitTimeout (mp : MtxId)
  /-- `return msg`, with `msg` in a local variable. -/
  | retMsg (m : Msg)
  | mbPost (mb : MbId) (m : Msg)
  | mbPostAhead (mb : MbId) (m : Msg)
  | mbFetch (mb : MbId)
  /-- `chEvtWait…` after its sleep, with a timeout or not. -/
  | evtWait (w : EvtWait) (mask : EventMask) (timed : Bool)
  | msgWait
  /-- `chThdWait` after its sleep. -/
  | thdWait (tp : Tid)
  /-- `chThdRelease`, not yet begun (unlocked). -/
  | thdRelease (tp : Tid)
  /-- `chThdRelease` after its lock zone (unlocked). -/
  | thdReleaseCheck (tp : Tid) (refs : Nat)
  /-- `REG_REMOVE` in `chThdRelease`, and the return of the working area behind it (unlocked). -/
  | regRemove (tp : Tid) (st : RegStage)
  /-- The notification callback of a queue: the application has control. It keeps the
  kernel locked; those of `serial_usb.c`, which unlock it in between, are modelled with the
  USB driver. -/
  | notify (qp : IoQueue)
  /-- The test of the waiting loop of `chIQGetTimeout`, and the return of `qwait` into it. -/
  | iqGet (n : Nat) (time : Systime)
  | iqGetWait (n : Nat) (time : Systime)
  /-- The same for `chIQReadTimeout`: bytes still wanted, bytes read; `iqReadNext`
  is where it locks again (unlocked). -/
  | iqRead (n : Nat) (time : Systime) (want : Nat) (got : List UInt8)
  | iqReadWait (n : Nat) (time : Systime) (want : Nat) (got : List UInt8)
  | iqReadNext (n : Nat) (time : Systime) (want : Nat) (got : List UInt8)
  | oqPut (n : Nat) (b : UInt8) (time : Systime)
  | oqPutWait (n : Nat) (b : UInt8) (time : Systime)
  | oqWrite (n : Nat) (time : Systime) (todo done : List UInt8)
  | oqWriteWait (n : Nat) (time : Systime) (todo done : List UInt8)
  | oqWriteNext (n : Nat) (time : Systime) (todo done : List UInt8)
deriving DecidableEq

/-- An interrupt handler that has been entered. -/
inductive Isr
  /-- Outside `chVTDoTickI`. -/
  | handler
  /-- In the loop of `chVTDoTickI`, unlocked: the callback has still to be
  called (or is running), or has returned. -/
  | tick (fn : Option Callback)
deriving DecidableEq

end ChibiOS.Kernel
