import ChibiOS.Kernel.Sched
import ChibiOS.Lib.Semaphore

/-!
# The kernel state

The state of the kernel objects, beside `Core`. The fields that the code does
not have (a history for each semaphore, mailbox and I/O queue, the order of mutex
acquisitions, the references to threads that are held and the working areas
given back) are marked; nothing but their own updates reads them.
-/

namespace ChibiOS.Kernel

open Function
open Lib

/-! ## Objects -/

structure Semaphores where
  sCnt : SemId → Int
  /-- Not in the code: the waits started, the wait that each thread is in, and
  the history, newest first. -/
  semWaits : SemId → Nat
  semTicket : Tid → Nat
  semLog : SemId → List SemEvent

structure Mutexes where
  /-- The mutexes of the application are numbered below `nmtx`. -/
  nmtx : Nat
  mOwner : MtxId → Option Tid
  mNext : MtxId → Option MtxId
  pMtxlist : Tid → Option MtxId
  pRealprio : Tid → Nat
  /-- Not in the code: the acquisitions so far, and each mutex's last one. -/
  acqs : Nat
  mAcq : MtxId → Nat

/-- A message entered the buffer of a mailbox at its back or front or left it at
the front, or the mailbox was reset. -/
inductive MbEvent
  | post (m : Msg)
  | postAhead (m : Msg)
  | fetch (m : Msg)
  | reset
deriving DecidableEq

structure Mailboxes where
  /-- `mb_top - mb_buffer`. -/
  mbSize : MbId → Nat
  mbBuffer : MbId → Nat → Msg
  /-- `mb_wrptr` and `mb_rdptr`, from `mb_buffer`. -/
  mbWrptr : MbId → Nat
  mbRdptr : MbId → Nat
  /-- Not in the code. -/
  mbLog : MbId → List MbEvent

/-- A byte was stored in the buffer of an I/O queue or taken out of it, or the queue was
reset. -/
inductive QEvent
  | put (b : UInt8)
  | get (b : UInt8)
  | reset
deriving DecidableEq

structure IoQueues where
  /-- `chQSizeI`, and whether there is a `q_notify`. -/
  qSize : IoQueue → Nat
  qNotify : IoQueue → Bool
  qCounter : IoQueue → Nat
  qBuffer : IoQueue → Nat → UInt8
  qWrptr : IoQueue → Nat
  qRdptr : IoQueue → Nat
  /-- Not in the code. -/
  qLog : IoQueue → List QEvent

structure Events where
  pEpending : Tid → EventMask
  /-- The listeners met when following `el_next` from a source. -/
  esNext : EsId → List ElId
  /-- Not in the code: the source that a listener is on. -/
  elSource : ElId → Option EsId
  elListener : ElId → Tid
  elMask : ElId → EventMask
  elFlags : ElId → EventMask

structure Messages where
  pMsg : Tid → Msg

/-- `p_flags & THD_MEM_MODE_MASK`. -/
inductive MemMode
  | static | heap | mempool
deriving DecidableEq

structure Registry where
  pMode : Tid → MemMode
  /-- `THD_TERMINATE`. -/
  pTerminate : Tid → Bool
  /-- An 8-bit count. -/
  pRefs : Tid → Nat
  pNewer : RegNode → RegNode
  pOlder : RegNode → RegNode
  /-- Not in the code: the references that the application holds, apart from those
  it has handed to a call that will release them, and the working areas given
  back, newest first. -/
  held : Tid → Nat
  freed : List Tid

/-- The whole state. -/
structure Sys extends Core, Semaphores, Mutexes, Mailboxes, IoQueues, Events, Messages, Registry

/-! ## Start -/

/-- The application's objects, as initialised. -/
structure Config where
  nmtx : Nat
  semInit : Nat → Nat
  mbSize : MbId → Nat
  mbSize_pos : ∀ mb, 0 < mbSize mb
  qSize : IoQueue → Nat
  qSize_pos : ∀ qp, 0 < qSize qp
  qNotify : IoQueue → Bool

/-- After `_scheduler_init`, `_vt_init` and the creation of the main thread and
of the idle thread. -/
def Core.init : Core where
  nthd := 2
  pPrio := fun tp => if tp = idleThread then idlePrio else normalPrio
  pState := fun tp => if tp = mainThread then .current else if tp = idleThread then .ready else .suspended
  pPreempt := fun _ => chTimeQuantum
  pU := fun _ => .rdymsg rdyOk
  queue := fun q => if q = .rQueue then [idleThread] else []
  currp := mainThread
  locked := false
  isr := []
  pCtx := fun tp => if tp = mainThread then [] else [.sysUnlock]
  pRet := fun _ => .void
  vt := vtInit
  due := false
  hist := []

/-- `chSysInit`, with the application's objects initialised. -/
def chSysInit (cfg : Config) : Sys where
  toCore := Core.init
  toSemaphores := {
    sCnt := fun
      | .sem n => cfg.semInit n
      | .mbFullsem _ => 0
      | .mbEmptysem mb => cfg.mbSize mb
    semWaits := fun _ => 0
    semTicket := fun _ => 0
    semLog := fun _ => [] }
  toMutexes := {
    nmtx := cfg.nmtx
    mOwner := fun _ => none
    mNext := fun _ => none
    pMtxlist := fun _ => none
    pRealprio := Core.init.pPrio
    acqs := 0
    mAcq := fun _ => 0 }
  toMailboxes := {
    mbSize := cfg.mbSize
    mbBuffer := fun _ _ => 0
    mbWrptr := fun _ => 0
    mbRdptr := fun _ => 0
    mbLog := fun _ => [] }
  toIoQueues := {
    qSize := cfg.qSize
    qNotify := cfg.qNotify
    qCounter := fun
      | .iq _ => 0
      | .oq n => cfg.qSize (.oq n)
    qBuffer := fun _ _ => 0
    qWrptr := fun _ => 0
    qRdptr := fun _ => 0
    qLog := fun _ => [] }
  toEvents := {
    pEpending := fun _ => 0
    esNext := fun _ => []
    elSource := fun _ => none
    elListener := fun _ => mainThread
    elMask := fun _ => 0
    elFlags := fun _ => 0 }
  toMessages := { pMsg := fun _ => 0 }
  toRegistry := {
    pMode := fun _ => .static
    pTerminate := fun _ => false
    pRefs := fun _ => 1
    pNewer := fun
      | .rlist => .thread mainThread
      | .thread tp => if tp = mainThread then .thread idleThread else .rlist
    pOlder := fun
      | .rlist => .thread idleThread
      | .thread tp => if tp = idleThread then .thread mainThread else .rlist
    held := fun _ => 1
    freed := [] }

namespace Sys

/-- A scheduler function on the kernel state. -/
def onCore (f : Core → Core) (s : Sys) : Sys := { s with toCore := f s.toCore }

/-- The lock zone of a function: `chSysLock()`, the body, `chSysUnlock()`. The
body may give the processor away, so the unlock is left in the context. -/
def zone (body : Sys → Sys) (s : Sys) : Sys := body ({ s with locked := true }.onCore (.push .sysUnlock))

/-- The caller gets a result. -/
def ret (r : Ret) (s : Sys) : Sys := s.onCore (.ret r)

@[simp] theorem onCore_toCore (f : Core → Core) (s : Sys) : (s.onCore f).toCore = f s.toCore := rfl

/-- A thread is told the result of its call. -/
theorem ret_told {s : Sys} (thread : s.isr = []) (r : Ret) : (s.ret r).pRet (some s.currp) = r := by
  have caller : s.caller = some s.currp := by rw [Core.caller, thread]; rfl
  show update s.pRet s.caller r (some s.currp) = r
  rw [caller, update_self]

end Sys

end ChibiOS.Kernel
