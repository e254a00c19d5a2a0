import ChibiOS.Kernel.State

/-!
# Threads (`chthreads.c`), references (`chdynamic.c`) and the registry (`chregistry.c`)

The registry is the ring through `p_newer` and `p_older`, with `rlist` in it, kept
as pointers: `REG_REMOVE` leaves the pointers of the removed thread as they are.
A reference count is an 8-bit number.

A working area goes back to its allocator behind the lock zone of `chThdRelease`, when
the thread has been taken out of the registry by a `REG_REMOVE` that no lock protects:
its loads and stores are steps of their own.
-/

namespace ChibiOS.Kernel

open Function

namespace Sys

/-! ## Registry -/

/-- `REG_INSERT`. -/
def regInsert (tp : Tid) (s : Sys) : Sys :=
  let older := s.pOlder .rlist
  { s with
    pNewer := update (update s.pNewer (.thread tp) .rlist) older (.thread tp)
    pOlder := update (update s.pOlder (.thread tp) older) .rlist (.thread tp) }

/-- `REG_REMOVE` in a lock zone. -/
def regRemove (tp : Tid) (s : Sys) : Sys :=
  let older := s.pOlder (.thread tp)
  let newer := s.pNewer (.thread tp)
  { s with pNewer := update s.pNewer older newer, pOlder := update s.pOlder newer older }

/-! ## References -/

/-- `tp->p_refs++`: the caller holds one more. -/
def addRef (tp : Tid) (s : Sys) : Sys :=
  { s with pRefs := update s.pRefs tp ((s.pRefs tp + 1) % 256), held := update s.held tp (s.held tp + 1) }

/-- `--tp->p_refs`. -/
def dropRef (tp : Tid) (s : Sys) : Sys := { s with pRefs := update s.pRefs tp ((s.pRefs tp + 255) % 256) }

/-- The caller hands its reference to a function that will release it. -/
def handOver (tp : Tid) (s : Sys) : Sys := { s with held := update s.held tp (s.held tp - 1) }

def chThdAddRef (tp : Tid) : Sys → Sys := zone fun s => (s.addRef tp).ret (.thread (some tp))

/-- `chThdRelease` with its lock zone; what follows it is left in the context. -/
def chThdRelease (tp : Tid) (s : Sys) : Sys :=
  let s := s.dropRef tp
  (s.onCore (.push (.thdReleaseCheck tp (s.pRefs tp)))).zone id

/-- The running thread will go on with a `REG_REMOVE`. -/
def removes (tp : Tid) (st : RegStage) (s : Sys) : Sys := s.onCore (.push (.regRemove tp st))

/-- `chThdRelease` behind its lock zone, up to its `REG_REMOVE`. -/
def thdReleaseCheck (tp : Tid) (refs : Nat) (s : Sys) : Sys :=
  if refs = 0 ∧ s.pState tp = .final ∧ s.pMode tp ≠ .static then s.removes tp .start else s

/-- `REG_REMOVE`, one load or store at a time; then `chHeapFree` or `chPoolFree`. -/
def regRemoveStep (tp : Tid) (s : Sys) : RegStage → Sys
  | .start => s.removes tp (.older (s.pOlder (.thread tp)))
  | .older older => s.removes tp (.forth older (s.pNewer (.thread tp)))
  | .forth older newer => { s with pNewer := update s.pNewer older newer }.removes tp .between
  | .between => s.removes tp (.newer (s.pNewer (.thread tp)))
  | .newer newer => s.removes tp (.back newer (s.pOlder (.thread tp)))
  | .back newer older => { s with pOlder := update s.pOlder newer older }.removes tp .done
  | .done => { s with freed := tp :: s.freed }

def chRegFirstThread : Sys → Sys :=
  zone fun s =>
    match s.pNewer .rlist with
    | .rlist => s
    | .thread tp => (s.addRef tp).ret (.thread (some tp))

def chRegNextThread (tp : Tid) (s : Sys) : Sys :=
  ((s.handOver tp).onCore (.push (.thdRelease tp))).zone fun s =>
    match s.pNewer (.thread tp) with
    | .rlist => s.ret (.thread none)
    | .thread ntp => (s.addRef ntp).ret (.thread (some ntp))

/-! ## Threads -/

/-- `chThdCreateI`: the new thread starts by unlocking the kernel. -/
def chThdCreateI (prio : Nat) (mode : MemMode) (s : Sys) : Sys :=
  let tp := s.nthd
  ({ s with
    nthd := tp + 1
    pPrio := update s.pPrio tp prio
    pState := update s.pState tp .suspended
    pPreempt := update s.pPreempt tp chTimeQuantum
    pCtx := update s.pCtx tp [.sysUnlock]
    pRealprio := update s.pRealprio tp prio
    pMtxlist := update s.pMtxlist tp none
    pEpending := update s.pEpending tp 0
    pMode := update s.pMode tp mode
    pTerminate := update s.pTerminate tp false
    pRefs := update s.pRefs tp 1
    held := update s.held tp 1
    queue := update (update s.queue (.pWaiting tp) []) (.pMsgqueue tp) [] }.regInsert tp).ret (.thread (some tp))

/-- `chThdCreateStatic`, and `chThdCreateFromHeap` and `chThdCreateFromMemoryPool`
when they got their memory. -/
def chThdCreate (prio : Nat) (mode : MemMode) : Sys → Sys :=
  zone fun s => (s.chThdCreateI prio mode).onCore (.chSchWakeupS s.nthd rdyOk)

def chThdSetPriority (newprio : Nat) : Sys → Sys :=
  zone fun s =>
    let ctp := s.currp
    let s := s.ret (.msg (s.pRealprio ctp))
    let s :=
      if s.pPrio ctp = s.pRealprio ctp ∨ s.pPrio ctp < newprio then
        { s with pPrio := update s.pPrio ctp newprio, due := true }
      else s
    { s with pRealprio := update s.pRealprio ctp newprio }.onCore .chSchRescheduleS

def chThdResume (tp : Tid) : Sys → Sys := zone fun s => (s.ret (.thread (some tp))).onCore (.chSchWakeupS tp rdyOk)

/-- `chThdResumeI`. -/
def chThdResumeI (tp : Tid) (s : Sys) : Sys := s.onCore (.chSchReadyI tp)

def chThdTerminate (tp : Tid) : Sys → Sys := zone fun s => { s with pTerminate := update s.pTerminate tp true }.ret .void

def chThdSleepS (time : Systime) (s : Sys) : Sys := s.onCore (.chSchGoSleepTimeoutS .sleeping time)

def chThdSleep (time : Systime) : Sys → Sys := zone fun s => s.chThdSleepS time

def chThdSleepUntil (time : Systime) : Sys → Sys :=
  zone fun s =>
    let time := time - s.vt.vtSystime
    if 0 < time then s.chThdSleepS time else s

def chThdYield : Sys → Sys := zone fun s => (s.ret .void).onCore .chSchDoYieldS

def chThdExitS (msg : Msg) (s : Sys) : Sys :=
  let tp := s.currp
  let s := s.onCore fun c =>
    let c := c.setU tp (.exitcode msg)
    c.flush (.pWaiting tp) .chSchReadyI (c.queue (.pWaiting tp)).length
  let s := if s.pMode tp = .static then s.regRemove tp else s
  s.onCore (.chSchGoSleepS .final)

def chThdExit (msg : Msg) (s : Sys) : Sys := { s with locked := true }.chThdExitS msg

/-- The exit code of a thread that has ended. -/
def exitcode (tp : Tid) (s : Sys) : Msg :=
  match s.pU tp with
  | .exitcode m => m
  | _ => rdyOk

def chThdWait (tp : Tid) (s : Sys) : Sys :=
  ((s.handOver tp).onCore (.push (.thdRelease tp))).zone fun s =>
    let s := s.onCore (.push (.thdWait tp))
    if s.pState tp ≠ .final then s.onCore fun c => (c.listInsert c.currp (.pWaiting tp)).chSchGoSleepS .wtexit
    else s

end Sys

end ChibiOS.Kernel
