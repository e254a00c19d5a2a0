import ChibiOS.Kernel.State

/-!
# Counting semaphores (`chsem.c`) and the timeout of a wait

The queues are first in, first out (`CH_USE_SEMAPHORES_PRIORITY` is off).
Counters are integers without bound.

A function that may sleep leaves its result in `pRet`, at once or through the
frames it pushed. `wakeup`, the callback of the timer of a timed sleep, is here
because it gives a semaphore its token back.
-/

namespace ChibiOS.Kernel

open Function
open Lib

/-- `tp->p_u.rdymsg = RDY_TIMEOUT; chSchReadyI(tp)`. -/
def Core.readyTimeout (tp : Tid) (c : Core) : Core :=
  { c with hist := .timeout tp :: c.hist }.readyMsg tp rdyTimeout

namespace Sys

def setCnt (sp : SemId) (n : Int) (s : Sys) : Sys := { s with sCnt := update s.sCnt sp n }

def logSem (sp : SemId) (e : SemEvent) (s : Sys) : Sys := { s with semLog := update s.semLog sp (e :: s.semLog sp) }

/-- The running thread starts a wait. -/
def startWait (sp : SemId) (s : Sys) : Sys :=
  { s with
    semWaits := update s.semWaits sp (s.semWaits sp + 1)
    semTicket := update s.semTicket s.currp (s.semWaits sp) }.logSem sp (.wait (s.semWaits sp))

/-- The token goes to the wait of `tp`. -/
def grant (sp : SemId) (tp : Tid) (s : Sys) : Sys := s.logSem sp (.grant (s.semTicket tp))

/-- `chSemFastSignalI`. -/
def chSemFastSignalI (sp : SemId) (s : Sys) : Sys := s.setCnt sp (s.sCnt sp + 1)

/-- `chSemFastWaitI`: the running thread (or the interrupt handler) takes a token
that is there. -/
def chSemFastWaitI (sp : SemId) (s : Sys) : Sys :=
  { s.setCnt sp (s.sCnt sp - 1) with semWaits := update s.semWaits sp (s.semWaits sp + 1) }.logSem sp
    (.wait (s.semWaits sp)) |>.logSem sp (.grant (s.semWaits sp))

/-- `chSchReadyI(lifo_remove(&sp->s_queue))->p_u.rdymsg = RDY_RESET`, so many times. -/
def resetLoop (sp : SemId) : Nat → Core → Core
  | 0, c => c
  | k + 1, c =>
    match c.lifoRemove (.sQueue sp) with
    | none => c
    | some (tp, c) => resetLoop sp k (c.readyMsg tp rdyReset)

/-- `while (++cnt <= 0)` runs once for each unit that the old counter is below
zero. -/
def chSemResetI (sp : SemId) (n : Nat) (s : Sys) : Sys :=
  let cnt := s.sCnt sp
  ((s.setCnt sp n).logSem sp (.reset n)).onCore (resetLoop sp (-cnt).toNat)

def chSemReset (sp : SemId) (n : Nat) : Sys → Sys :=
  zone fun s => (s.chSemResetI sp n).onCore .chSchRescheduleS

/-- `currp->p_u.wtobjp = sp; sem_insert(currp, &sp->s_queue)`. -/
def semInsert (sp : SemId) (c : Core) : Core :=
  (c.setU c.currp (.wtobjp (.sQueue sp))).queueInsert c.currp (.sQueue sp)

def chSemWaitS (sp : SemId) (s : Sys) : Sys :=
  let s := (s.setCnt sp (s.sCnt sp - 1)).startWait sp
  if s.sCnt sp < 0 then s.onCore fun c => ((semInsert sp c).push .rdymsg).chSchGoSleepS .wtsem
  else (s.grant sp s.currp).ret (.msg rdyOk)

def chSemWait (sp : SemId) : Sys → Sys := zone fun s => s.chSemWaitS sp

def chSemWaitTimeoutS (sp : SemId) (time : Systime) (s : Sys) : Sys :=
  let s := s.setCnt sp (s.sCnt sp - 1)
  if s.sCnt sp < 0 then
    if time = timeImmediate then (s.setCnt sp (s.sCnt sp + 1)).ret (.msg rdyTimeout)
    else (s.startWait sp).onCore fun c => (semInsert sp c).chSchGoSleepTimeoutS .wtsem time
  else ((s.startWait sp).grant sp s.currp).ret (.msg rdyOk)

def chSemWaitTimeout (sp : SemId) (time : Systime) : Sys → Sys := zone fun s => s.chSemWaitTimeoutS sp time

def chSemSignal (sp : SemId) : Sys → Sys :=
  zone fun s =>
    let s := (s.setCnt sp (s.sCnt sp + 1)).logSem sp .signal
    if s.sCnt sp ≤ 0 then
      match s.fifoRemove (.sQueue sp) with
      | none => s
      | some (tp, c) => ({ s with toCore := c }.grant sp tp).onCore (.chSchWakeupS tp rdyOk)
    else s

def chSemSignalI (sp : SemId) (s : Sys) : Sys :=
  let s := (s.setCnt sp (s.sCnt sp + 1)).logSem sp .signal
  if s.sCnt sp ≤ 0 then
    match s.fifoRemove (.sQueue sp) with
    | none => s
    | some (tp, c) => ({ s with toCore := c }.grant sp tp).onCore (.readyMsg tp rdyOk)
  else s

/-- One round of its loop is `chSemSignalI`. -/
def chSemAddCounterI (sp : SemId) : Nat → Sys → Sys
  | 0, s => s
  | n + 1, s => (s.chSemSignalI sp).chSemAddCounterI sp n

/-- The first half is `chSemSignalI` again. -/
def chSemSignalWait (sps spw : SemId) : Sys → Sys :=
  zone fun s =>
    let s := s.chSemSignalI sps
    let s := (s.setCnt spw (s.sCnt spw - 1)).startWait spw
    if s.sCnt spw < 0 then s.onCore fun c => ((semInsert spw c).push .rdymsg).chSchGoSleepS .wtsem
    else ((s.grant spw s.currp).ret (.msg rdyOk)).onCore .chSchRescheduleS

/-- The second half is `chSemWaitS`, with a reschedule if it does not sleep. -/
theorem chSemSignalWait_eq (sps spw : SemId) : chSemSignalWait sps spw = zone fun s =>
    let s := s.chSemSignalI sps
    if s.sCnt spw ≤ 0 then s.chSemWaitS spw else (s.chSemWaitS spw).onCore .chSchRescheduleS := by
  unfold chSemSignalWait
  congr 1
  funext s
  have cnt : (((s.chSemSignalI sps).setCnt spw ((s.chSemSignalI sps).sCnt spw - 1)).startWait spw).sCnt spw =
      (s.chSemSignalI sps).sCnt spw - 1 := update_self ..
  unfold chSemWaitS
  dsimp only
  split
  · rw [if_pos (by omega)]
  · rw [if_neg (by omega)]

/-- `wakeup`: what it dequeues depends on the state it finds the thread in. -/
def wakeup (tp : Tid) (s : Sys) : Sys :=
  match s.pState tp with
  | .ready => s
  | .wtsem =>
    match s.pU tp with
    | .wtobjp (.sQueue sp) => ((s.chSemFastSignalI sp).logSem sp (.expire (s.semTicket tp))).onCore fun c =>
        (c.dequeue tp).readyTimeout tp
    | _ => s
  | .wtqueue | .wtcond => s.onCore fun c => (c.dequeue tp).readyTimeout tp
  | _ => s.onCore fun c => c.readyTimeout tp

end Sys

end ChibiOS.Kernel
