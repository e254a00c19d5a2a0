import ChibiOS.Kernel.State

/-!
# I/O queues (`chqueues.c`)

The pointers of a queue are offsets from `q_buffer`. The functions for threads
loop around a sleep and call the notification callback with the kernel locked,
so their rounds are frames: a callback, a test of the waiting loop, a return of
`qwait`, and for the block functions the point between two bytes where the
kernel is unlocked.
-/

namespace ChibiOS.Kernel

open Function

namespace Sys

/-- `currp->p_u.wtobjp = qp; queue_insert(currp, &qp->q_waiting)` and the sleep of
`qwait`; the case of `TIME_IMMEDIATE` is its caller's. -/
def qwait (qp : IoQueue) (time : Systime) (s : Sys) : Sys :=
  s.onCore fun c => ((c.setU c.currp (.wtobjp (.qWaiting qp))).queueInsert c.currp (.qWaiting qp)).chSchGoSleepTimeoutS
    .wtqueue time

/-- An offset moved on, with the wrap at `q_top`. -/
def qNext (qp : IoQueue) (i : Nat) (s : Sys) : Nat := if s.qSize qp ≤ i + 1 then 0 else i + 1

/-- `*qp->q_wrptr++ = b`. -/
def qStore (qp : IoQueue) (b : UInt8) (s : Sys) : Sys :=
  { s with
    qBuffer := update s.qBuffer qp (update (s.qBuffer qp) (s.qWrptr qp) b)
    qWrptr := update s.qWrptr qp (s.qNext qp (s.qWrptr qp))
    qLog := update s.qLog qp (.put b :: s.qLog qp) }

/-- `*qp->q_rdptr`. -/
def qFirst (qp : IoQueue) (s : Sys) : UInt8 := s.qBuffer qp (s.qRdptr qp)

/-- `qp->q_rdptr++`. -/
def qSkip (qp : IoQueue) (s : Sys) : Sys :=
  { s with
    qRdptr := update s.qRdptr qp (s.qNext qp (s.qRdptr qp))
    qLog := update s.qLog qp (.get (s.qFirst qp) :: s.qLog qp) }

def qCount (qp : IoQueue) (n : Nat) (s : Sys) : Sys := { s with qCounter := update s.qCounter qp n }

/-- `qp->q_rdptr = qp->q_wrptr = qp->q_buffer`. -/
def qRewind (qp : IoQueue) (s : Sys) : Sys :=
  { s with
    qRdptr := update s.qRdptr qp 0
    qWrptr := update s.qWrptr qp 0
    qLog := update s.qLog qp (.reset :: s.qLog qp) }

/-- `if (notempty(&qp->q_waiting)) chSchReadyI(fifo_remove(&qp->q_waiting))->p_u.rdymsg = Q_OK`. -/
def qReadyFirst (qp : IoQueue) (s : Sys) : Sys :=
  match s.fifoRemove (.qWaiting qp) with
  | none => s
  | some (tp, c) => { s with toCore := c.readyMsg tp rdyOk }

/-- `while (notempty(&qp->q_waiting)) …->p_u.rdymsg = Q_RESET`. -/
def qReadyAll (qp : IoQueue) (s : Sys) : Sys :=
  s.onCore fun c => c.flush (.qWaiting qp) (.readyMsg · rdyReset) (c.queue (.qWaiting qp)).length

/-- `if (qp->q_notify) qp->q_notify(qp)`: the callback is the application's. -/
def qCallNotify (qp : IoQueue) (s : Sys) : Sys := if s.qNotify qp then s.onCore (.push (.notify qp)) else s

/-! ## Input queues -/

def chIQIsEmptyI (n : Nat) (s : Sys) : Bool := s.qCounter (.iq n) ≤ 0

def chIQIsFullI (n : Nat) (s : Sys) : Bool :=
  s.qWrptr (.iq n) = s.qRdptr (.iq n) ∧ s.qCounter (.iq n) ≠ 0

def chIQResetI (n : Nat) (s : Sys) : Sys := ((s.qRewind (.iq n)).qCount (.iq n) 0).qReadyAll (.iq n)

def chIQPutI (n : Nat) (b : UInt8) (s : Sys) : Sys :=
  if s.chIQIsFullI n then s.ret (.msg qFull)
  else (((s.qCount (.iq n) (s.qCounter (.iq n) + 1)).qStore (.iq n) b).qReadyFirst (.iq n)).ret (.msg rdyOk)

/-- `q_counter--; b = *q_rdptr++`. -/
def iqTake (n : Nat) (s : Sys) : Sys := (s.qCount (.iq n) (s.qCounter (.iq n) - 1)).qSkip (.iq n)

def chIQGetTimeout (n : Nat) (time : Systime) : Sys → Sys :=
  zone fun s => (s.onCore (.push (.iqGet n time))).qCallNotify (.iq n)

/-- A round of its waiting loop, or its end. -/
def iqGetLoop (n : Nat) (time : Systime) (s : Sys) : Sys :=
  if s.chIQIsEmptyI n then
    if time = timeImmediate then s.ret (.msg rdyTimeout)
    else (s.onCore (.push (.iqGetWait n time))).qwait (.iq n) time
  else (s.ret (.bytes [s.qFirst (.iq n)])).iqTake n

def iqGetResume (n : Nat) (time : Systime) (msg : Msg) (s : Sys) : Sys :=
  if msg < rdyOk then s.ret (.msg msg) else s.onCore (.push (.iqGet n time))

/-- `chIQReadTimeout` from a `chSysLock()` on. -/
def iqReadRound (n : Nat) (time : Systime) (want : Nat) (got : List UInt8) (s : Sys) : Sys :=
  ({ s with locked := true }.onCore (.push (.iqRead n time want got))).qCallNotify (.iq n)

def chIQReadTimeout (n : Nat) (want : Nat) (time : Systime) (s : Sys) : Sys := s.iqReadRound n time want []

def iqReadLoop (n : Nat) (time : Systime) (want : Nat) (got : List UInt8) (s : Sys) : Sys :=
  if s.chIQIsEmptyI n then
    if time = timeImmediate then (s.ret (.bytes got)).onCore (.push .sysUnlock)
    else (s.onCore (.push (.iqReadWait n time want got))).qwait (.iq n) time
  else
    let got := got ++ [s.qFirst (.iq n)]
    let s := s.iqTake n
    if want ≤ 1 then (s.ret (.bytes got)).onCore (.push .sysUnlock)
    else (s.onCore (.push (.iqReadNext n time (want - 1) got))).onCore (.push .sysUnlock)

def iqReadResume (n : Nat) (time : Systime) (want : Nat) (got : List UInt8) (msg : Msg) (s : Sys) : Sys :=
  if msg ≠ rdyOk then (s.ret (.bytes got)).onCore (.push .sysUnlock)
  else s.onCore (.push (.iqRead n time want got))

/-! ## Output queues -/

def chOQIsFullI (n : Nat) (s : Sys) : Bool := s.qCounter (.oq n) ≤ 0

def chOQIsEmptyI (n : Nat) (s : Sys) : Bool :=
  s.qWrptr (.oq n) = s.qRdptr (.oq n) ∧ s.qCounter (.oq n) ≠ 0

def chOQResetI (n : Nat) (s : Sys) : Sys := ((s.qRewind (.oq n)).qCount (.oq n) (s.qSize (.oq n))).qReadyAll (.oq n)

def chOQGetI (n : Nat) (s : Sys) : Sys :=
  if s.chOQIsEmptyI n then s.ret (.msg qEmpty)
  else
    let s := s.ret (.bytes [s.qFirst (.oq n)])
    ((s.qCount (.oq n) (s.qCounter (.oq n) + 1)).qSkip (.oq n)).qReadyFirst (.oq n)

/-- `q_counter--; *q_wrptr++ = b`. -/
def oqPutByte (n : Nat) (b : UInt8) (s : Sys) : Sys := (s.qCount (.oq n) (s.qCounter (.oq n) - 1)).qStore (.oq n) b

def chOQPutTimeout (n : Nat) (b : UInt8) (time : Systime) : Sys → Sys :=
  zone fun s => s.onCore (.push (.oqPut n b time))

def oqPutLoop (n : Nat) (b : UInt8) (time : Systime) (s : Sys) : Sys :=
  if s.chOQIsFullI n then
    if time = timeImmediate then s.ret (.msg rdyTimeout)
    else (s.onCore (.push (.oqPutWait n b time))).qwait (.oq n) time
  else ((s.oqPutByte n b).ret (.msg rdyOk)).qCallNotify (.oq n)

def oqPutResume (n : Nat) (b : UInt8) (time : Systime) (msg : Msg) (s : Sys) : Sys :=
  if msg < rdyOk then s.ret (.msg msg) else s.onCore (.push (.oqPut n b time))

/-- `chOQWriteTimeout` from a `chSysLock()` on. -/
def oqWriteRound (n : Nat) (time : Systime) (todo done : List UInt8) (s : Sys) : Sys :=
  { s with locked := true }.onCore (.push (.oqWrite n time todo done))

def chOQWriteTimeout (n : Nat) (bytes : List UInt8) (time : Systime) (s : Sys) : Sys := s.oqWriteRound n time bytes []

def oqWriteLoop (n : Nat) (time : Systime) (todo done : List UInt8) (s : Sys) : Sys :=
  match todo with
  | [] => (s.ret (.bytes done)).onCore (.push .sysUnlock)
  | b :: todo' =>
    if s.chOQIsFullI n then
      if time = timeImmediate then (s.ret (.bytes done)).onCore (.push .sysUnlock)
      else (s.onCore (.push (.oqWriteWait n time todo done))).qwait (.oq n) time
    else
      let done := done ++ [b]
      let s := s.oqPutByte n b
      let s :=
        if todo' = [] then s.ret (.bytes done)
        else s.onCore (.push (.oqWriteNext n time todo' done))
      (s.onCore (.push .sysUnlock)).qCallNotify (.oq n)

def oqWriteResume (n : Nat) (time : Systime) (todo done : List UInt8) (msg : Msg) (s : Sys) : Sys :=
  if msg ≠ rdyOk then (s.ret (.bytes done)).onCore (.push .sysUnlock)
  else s.onCore (.push (.oqWrite n time todo done))

end Sys

end ChibiOS.Kernel
