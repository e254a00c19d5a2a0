import ChibiOS.Kernel.State

/-!
# Mutexes (`chmtx.c`) and condition variables (`chcond.c`)

The loops over owners and over owned mutexes follow pointers, so they have
fuel: the number of threads, which bounds the priorities that boosting can
raise, and the number of mutexes, which bounds the length of a chain of owned
mutexes.
-/

namespace ChibiOS.Kernel

open Function

/-- `mp->m_owner = tp; mp->m_next = tp->p_mtxlist; tp->p_mtxlist = mp`. -/
def Mutexes.own (mp : MtxId) (tp : Tid) (o : Mutexes) : Mutexes :=
  { o with
    mOwner := update o.mOwner mp (some tp)
    mNext := update o.mNext mp (o.pMtxlist tp)
    pMtxlist := update o.pMtxlist tp (some mp)
    acqs := o.acqs + 1
    mAcq := update o.mAcq mp o.acqs }

namespace Sys

def own (mp : MtxId) (tp : Tid) (s : Sys) : Sys := { s with toMutexes := s.toMutexes.own mp tp }

/-- The boosting loop of `chMtxLockS`: `tp` and the owners that it waits for are
raised to `prio`. -/
def boostLoop (prio : Nat) : Nat → Tid → Sys → Sys
  | 0, _, s => s
  | fuel + 1, tp, s =>
    if s.pPrio tp < prio then
      let s := { s with pPrio := update s.pPrio tp prio }
      match s.pState tp, s.pU tp with
      | .wtmtx, .wtobjp (.mQueue mp) =>
        let s := s.onCore fun c => (c.dequeue tp).prioInsert tp (.mQueue mp)
        match s.mOwner mp with
        | none => s
        | some owner => boostLoop prio fuel owner s
      | .wtcond, .wtobjp q => s.onCore fun c => (c.dequeue tp).prioInsert tp q
      | .ready, _ => s.onCore fun c => (c.dequeue tp).chSchReadyI tp
      | _, _ => s
    else s

def chMtxLockS (mp : MtxId) (s : Sys) : Sys :=
  match s.mOwner mp with
  | some tp =>
    (s.boostLoop (s.pPrio s.currp) s.nthd tp).onCore fun c =>
      ((c.prioInsert c.currp (.mQueue mp)).setU c.currp (.wtobjp (.mQueue mp))).chSchGoSleepS .wtmtx
  | none => s.own mp s.currp

def chMtxLock (mp : MtxId) : Sys → Sys := zone fun s => (s.ret .void).chMtxLockS mp

def chMtxTryLockS (mp : MtxId) (s : Sys) : Sys :=
  match s.mOwner mp with
  | some _ => s.ret (.bool false)
  | none => (s.own mp s.currp).ret (.bool true)

def chMtxTryLock (mp : MtxId) : Sys → Sys := zone fun s => s.chMtxTryLockS mp

/-- The scan for the highest priority waiting on the mutexes from `mp` on. -/
def scanOwned (s : Sys) : Nat → Option MtxId → Nat → Nat
  | 0, _, newprio => newprio
  | _ + 1, none, newprio => newprio
  | fuel + 1, some mp, newprio =>
    scanOwned s fuel (s.mNext mp)
      (match s.queue (.mQueue mp) with
      | [] => newprio
      | tp :: _ => if newprio < s.pPrio tp then s.pPrio tp else newprio)

/-- The running thread's own priority. A lower one may leave a ready thread
above it. -/
def setOwnPrio (prio : Nat) (s : Sys) : Sys := { s with pPrio := update s.pPrio s.currp prio, due := true }

/-- What `chMtxUnlock` and `chMtxUnlockS` share: the last mutex locked leaves the
running thread's chain, and goes to its first waiter, which `wake` readies. -/
def unlockWith (wake : Tid → Core → Core) (s : Sys) : Sys :=
  match s.pMtxlist s.currp with
  | none => s
  | some ump =>
    let s := { s with pMtxlist := update s.pMtxlist s.currp (s.mNext ump) }.ret (.mutex ump)
    if s.queue (.mQueue ump) ≠ [] then
      let s := s.setOwnPrio (s.scanOwned s.nmtx (s.pMtxlist s.currp) (s.pRealprio s.currp))
      match s.fifoRemove (.mQueue ump) with
      | none => s
      | some (tp, c) => ({ s with toCore := c }.own ump tp).onCore (wake tp)
    else { s with mOwner := update s.mOwner ump none }

def chMtxUnlock : Sys → Sys := zone (unlockWith fun tp => .chSchWakeupS tp rdyOk)

def chMtxUnlockS : Sys → Sys := unlockWith .chSchReadyI

/-- The loop of `chMtxUnlockAll`. -/
def unlockAllLoop : Nat → Sys → Sys
  | 0, s => s
  | fuel + 1, s =>
    match s.pMtxlist s.currp with
    | none => s
    | some ump =>
      let s := { s with pMtxlist := update s.pMtxlist s.currp (s.mNext ump) }
      unlockAllLoop fuel
        (if s.queue (.mQueue ump) ≠ [] then
          match s.fifoRemove (.mQueue ump) with
          | none => s
          | some (tp, c) => ({ s with toCore := c }.own ump tp).onCore (.chSchReadyI tp)
        else { s with mOwner := update s.mOwner ump none })

def chMtxUnlockAll : Sys → Sys :=
  zone fun s =>
    let s := s.ret .void
    if (s.pMtxlist s.currp).isSome then
      let s := s.unlockAllLoop s.nmtx
      (s.setOwnPrio (s.pRealprio s.currp)).onCore .chSchRescheduleS
    else s

/-! ## Condition variables -/

def chCondSignal (cp : CondId) : Sys → Sys :=
  zone fun s =>
    match s.fifoRemove (.cQueue cp) with
    | none => s
    | some (tp, c) => { s with toCore := c.chSchWakeupS tp rdyOk }

def chCondSignalI (cp : CondId) (s : Sys) : Sys :=
  match s.fifoRemove (.cQueue cp) with
  | none => s
  | some (tp, c) => { s with toCore := c.readyMsg tp rdyOk }

def chCondBroadcastI (cp : CondId) (s : Sys) : Sys :=
  s.onCore fun c => c.flush (.cQueue cp) (.readyMsg · rdyReset) (c.queue (.cQueue cp)).length

def chCondBroadcast (cp : CondId) : Sys → Sys :=
  zone fun s => (s.chCondBroadcastI cp).onCore .chSchRescheduleS

/-- `ctp->p_u.wtobjp = cp; prio_insert(ctp, &cp->c_queue)`. -/
def condInsert (cp : CondId) (c : Core) : Core :=
  (c.setU c.currp (.wtobjp (.cQueue cp))).prioInsert c.currp (.cQueue cp)

/-- The mutex released is the one `chMtxUnlockS` returns: the top of the chain. -/
def chCondWaitS (cp : CondId) (s : Sys) : Sys :=
  match s.pMtxlist s.currp with
  | none => s
  | some mp => s.chMtxUnlockS.onCore fun c => ((condInsert cp c).push (.condWait mp)).chSchGoSleepS .wtcond

def chCondWait (cp : CondId) : Sys → Sys := zone fun s => s.chCondWaitS cp

def chCondWaitTimeoutS (cp : CondId) (time : Systime) (s : Sys) : Sys :=
  match s.pMtxlist s.currp with
  | none => s
  | some mp => s.chMtxUnlockS.onCore fun c =>
      ((condInsert cp c).push (.condWaitTimeout mp)).chSchGoSleepTimeoutS .wtcond time

def chCondWaitTimeout (cp : CondId) (time : Systime) : Sys → Sys := zone fun s => s.chCondWaitTimeoutS cp time

/-- `msg = ctp->p_u.rdymsg; chMtxLockS(mp); return msg`. -/
def condWaitResume (mp : MtxId) (msg : Msg) (s : Sys) : Sys :=
  (s.onCore (.push (.retMsg msg))).chMtxLockS mp

end Sys

end ChibiOS.Kernel
