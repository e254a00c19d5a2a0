import ChibiOS.Lib.PrioQueue
import ChibiOS.Kernel.Types

/-!
# The scheduler (`chschd.c`)

`Core` is what the scheduler and the virtual timers work on: the thread records,
the thread lists, the running thread, the kernel lock, the interrupt handlers
entered, and the saved contexts. A context is the stack of kernel calls that
the thread has not finished (`Frame`), so `chSysSwitch` is the change of `currp`:
the new thread goes on with its own frames.

Two components are not the code's. `due` says that a thread may be ready above
the running one: `chSchReadyI` sets it, and what ends in a choice of the running
thread clears it. `hist` records, newest first, how timed sleeps went.
-/

namespace ChibiOS.Kernel

open Function
open Lib

/-- A thread went to sleep with a timer, was taken out of a wait, was taken out
of it by its timer, or returned from the timed sleep. -/
inductive WaitEvent
  | sleep (tp : Tid)
  | wake (tp : Tid)
  | timeout (tp : Tid)
  | ret (tp : Tid) (m : Msg)
deriving DecidableEq

/-- The threads and the lists they are in. -/
structure Threads where
  /-- Threads created so far. -/
  nthd : Nat
  pPrio : Tid → Nat
  pState : Tid → TState
  pU : Tid → PU
  queue : QueueId → List Tid

structure Core extends Threads where
  pPreempt : Tid → Nat
  currp : Tid
  locked : Bool
  isr : List Isr
  pCtx : Tid → List Frame
  /-- The results given back: to each thread, and to interrupt handlers. -/
  pRet : Option Tid → Ret
  vt : VTList VtId Callback Systime
  due : Bool
  hist : List WaitEvent

/-- Neither running, nor ready, nor ended. -/
def TState.waits : TState → Bool
  | .ready | .current | .final => false
  | _ => true

namespace Core

/-! ## Thread lists (`chinline.h`) -/

def setQueue (q : QueueId) (l : List Tid) (c : Core) : Core := { c with queue := update c.queue q l }

/-- `prio_insert`. -/
def prioInsert (tp : Tid) (q : QueueId) (c : Core) : Core :=
  c.setQueue q (insertBehind c.pPrio tp (c.queue q))

/-- `queue_insert`. -/
def queueInsert (tp : Tid) (q : QueueId) (c : Core) : Core := c.setQueue q (c.queue q ++ [tp])

/-- `list_insert`. -/
def listInsert (tp : Tid) (q : QueueId) (c : Core) : Core := c.setQueue q (tp :: c.queue q)

/-- `fifo_remove`, and `list_remove`. -/
def fifoRemove (q : QueueId) (c : Core) : Option (Tid × Core) :=
  match c.queue q with
  | [] => none
  | tp :: l => some (tp, c.setQueue q l)

/-- `lifo_remove`. -/
def lifoRemove (q : QueueId) (c : Core) : Option (Tid × Core) :=
  match (c.queue q).getLast? with
  | none => none
  | some tp => some (tp, c.setQueue q (c.queue q).dropLast)

/-- `dequeue`: unlinks a thread from whatever list it is in. -/
def dequeue (tp : Tid) (c : Core) : Core := { c with queue := fun q => (c.queue q).erase tp }

/-! ## Contexts -/

/-- A call of the running thread that will go on at `f`. -/
def push (f : Frame) (c : Core) : Core := { c with pCtx := update c.pCtx c.currp (f :: c.pCtx c.currp) }

/-- Who is calling: the running thread, or an interrupt handler. -/
def caller (c : Core) : Option Tid := if c.isr = [] then some c.currp else none

/-- The caller gets a result. -/
def ret (r : Ret) (c : Core) : Core := { c with pRet := update c.pRet c.caller r }

def setU (tp : Tid) (u : PU) (c : Core) : Core := { c with pU := update c.pU tp u }

/-- `p_u.rdymsg` read; the other members of the union are not read as messages. -/
def rdymsg (tp : Tid) (c : Core) : Msg :=
  match c.pU tp with
  | .rdymsg m => m
  | _ => rdyOk

/-! ## Scheduling -/

/-- `firstprio(&rlist.r_queue)`; the list header has `NOPRIO`. -/
def firstprio (c : Core) : Nat :=
  match c.queue .rQueue with
  | [] => noPrio
  | tp :: _ => c.pPrio tp

def chSchReadyI (tp : Tid) (c : Core) : Core :=
  { c with
    pState := update c.pState tp .ready
    queue := update c.queue .rQueue (insertBehind c.pPrio tp (c.queue .rQueue))
    due := true
    hist := if (c.pState tp).waits then .wake tp :: c.hist else c.hist }

/-- `setcurrp(fifo_remove(&rlist.r_queue)); currp->p_state = THD_STATE_CURRENT`.
The ready list is not empty: the idle thread never sleeps. -/
def runFirst (c : Core) : Core :=
  match c.fifoRemove .rQueue with
  | none => c
  | some (ntp, c) => { c with currp := ntp, pState := update c.pState ntp .current }

def chSchGoSleepS (newstate : TState) (c : Core) : Core :=
  let otp := c.currp
  let c := { c with pState := update c.pState otp newstate, pPreempt := update c.pPreempt otp chTimeQuantum }
  { c.runFirst with due := false }

/-- The insertion of the timer is a scan that stops; see `vtInsert_isSome`. -/
def chSchGoSleepTimeoutS (newstate : TState) (time : Systime) (c : Core) : Core :=
  if time ≠ timeInfinite then
    match chVTSetI (.stack c.currp) time (.wakeup c.currp) c.vt with
    | none => c
    | some vt => ({ c with vt := vt, hist := .sleep c.currp :: c.hist }.push .goSleepTimeout).chSchGoSleepS newstate
  else (c.push .rdymsg).chSchGoSleepS newstate

/-- The function assumes that no ready thread is above the running one, so
afterwards none is. -/
def chSchWakeupS (ntp : Tid) (msg : Msg) (c : Core) : Core :=
  let c := c.setU ntp (.rdymsg msg)
  if c.pPrio ntp ≤ c.pPrio c.currp then { c.chSchReadyI ntp with due := false }
  else
    let c := c.chSchReadyI c.currp
    { c with
      currp := ntp
      pState := update c.pState ntp .current
      due := false
      hist := .wake ntp :: c.hist }

def chSchIsRescRequiredI (c : Core) : Bool := c.pPrio c.currp < c.firstprio

def chSchDoRescheduleBehind (c : Core) : Core :=
  let otp := c.currp
  let c := c.runFirst
  let c := { c with pPreempt := update c.pPreempt otp chTimeQuantum }
  { c.chSchReadyI otp with due := false }

def chSchDoRescheduleAhead (c : Core) : Core :=
  let otp := c.currp
  let c := c.runFirst
  { c with
    pState := update c.pState otp .ready
    queue := update c.queue .rQueue (insertAhead c.pPrio otp (c.queue .rQueue))
    due := false }

def chSchRescheduleS (c : Core) : Core :=
  if c.chSchIsRescRequiredI then c.chSchDoRescheduleAhead else { c with due := false }

def chSchIsPreemptionRequired (c : Core) : Bool :=
  let p1 := c.firstprio
  let p2 := c.pPrio c.currp
  if c.pPreempt c.currp ≠ 0 then p2 < p1 else p2 ≤ p1

def chSchDoReschedule (c : Core) : Core :=
  if c.pPreempt c.currp = 0 then c.chSchDoRescheduleBehind else c.chSchDoRescheduleAhead

def chSchCanYieldS (c : Core) : Bool := c.pPrio c.currp ≤ c.firstprio

def chSchDoYieldS (c : Core) : Core := if c.chSchCanYieldS then c.chSchDoRescheduleBehind else c

/-- `chSchReadyI(tp)->p_u.rdymsg = msg`. -/
def readyMsg (tp : Tid) (msg : Msg) (c : Core) : Core := (c.chSchReadyI tp).setU tp (.rdymsg msg)

/-- The loops that empty a list: each first member is removed and handed to
`ready`. The count is the length of the list. -/
def flush (q : QueueId) (ready : Tid → Core → Core) : Nat → Core → Core
  | 0, c => c
  | n + 1, c =>
    match c.fifoRemove q with
    | none => c
    | some (tp, c) => flush q ready n (ready tp c)

end Core

end ChibiOS.Kernel
