import ChibiOS.Kernel.Scheduling

/-!
# Unlocking the mutexes all at once, or one by one

`chMtxUnlockAll` drops the running thread to its own priority and never scans the
mutexes that are left. The scans of `chMtxUnlockS` only move the priority of the running
thread, which is in no list, and the last of them finds its own priority.
-/

namespace ChibiOS.Kernel

open Function (update update_self update_of_ne update_eq_self)
open Lib Kernel.Core Sys

/-- `while (currp->p_mtxlist != NULL) chMtxUnlockS()`. -/
def Sys.unlockEach : Nat → Sys → Sys
  | 0, s => s
  | fuel + 1, s =>
    match s.pMtxlist s.currp with
    | none => s
    | some _ => unlockEach fuel s.chMtxUnlockS

/-- But for the results that calls have handed to their callers. -/
def Sys.forgetRet (s : Sys) : Sys := { s with pRet := fun _ => .void }

/-- Another priority of the running thread, other results and another reschedule flag. -/
def Sys.redress (p : Nat) (r : Option Tid → Ret) (d : Bool) (s : Sys) : Sys :=
  { s with pPrio := update s.pPrio s.currp p, pRet := r, due := d }

variable {exact : Prop} {φ : Foot} {cfg : Config} {s s' : Sys} {m : MtxId} {t : Tid} {l : List Tid} {k : List MtxId}

/-- The ready list does not hold the running thread, so its priority places nobody. -/
theorem Core.chSchReadyI_redress {c : Core} (off : c.currp ∉ c.queue .rQueue) (other : t ≠ c.currp) (p : Nat)
    (r : Option Tid → Ret) (d : Bool) :
    Core.chSchReadyI t { c with pPrio := update c.pPrio c.currp p, pRet := r, due := d } =
      { c.chSchReadyI t with pPrio := update c.pPrio c.currp p, pRet := r } := by
  have same : insertBehind (update c.pPrio c.currp p) t (c.queue .rQueue) = insertBehind c.pPrio t (c.queue .rQueue) :=
    insertBehind_congr (update_of_ne other ..) fun x mem =>
      update_of_ne (ne_of_mem_of_not_mem mem off) ..
  simp only [chSchReadyI, same]

/-- A round of both loops, from states that `redress` tells apart. -/
theorem unlockAllLoop_redress (fuel : Nat) (off : ∀ q, s.currp ∉ s.queue q) (chain : Chain s.toMutexes s.currp (m :: k)) (p : Nat)
    (r : Option Tid → Ret) (d : Bool) :
    ∃ (s' : Sys) (p' : Nat) (r' : Option Tid → Ret) (d' : Bool), s.unlockAllLoop (fuel + 1) = s'.unlockAllLoop fuel ∧
      (s.redress p r d).chMtxUnlockS = s'.redress p' r' d' ∧ Chain s'.toMutexes s'.currp k := by
  have first : s.pMtxlist s.currp = some m := chain.seg.1
  have first' : (s.redress p r d).pMtxlist (s.redress p r d).currp = some m := first
  rw [chMtxUnlockS]
  cases waiters : s.queue (.mQueue m) with
  | nil =>
    rw [unlockWith_free _ first' waiters, unlockAllLoop_free fuel first waiters]
    exact ⟨_, p, _, d, rfl, rfl, chain.release⟩
  | cons t l =>
    have other : t ≠ s.currp := ne_of_mem_of_not_mem (waiters ▸ .head _) (off (.mQueue m))
    have lowered : (((s.redress p r d).toCore.ret (.mutex m)).ownPrio ((s.redress p r d).restPrio m)).setQueue (.mQueue m) l =
        { s.toCore.setQueue (.mQueue m) l with
          pPrio := update s.pPrio s.currp ((s.redress p r d).restPrio m)
          pRet := ((s.redress p r d).ret (.mutex m)).pRet
          due := true } := by
      simp [Core.ownPrio, Sys.redress, Sys.ret, Sys.onCore, Core.ret, Core.setQueue]
    have ready := chSchReadyI_redress (c := s.toCore.setQueue (.mQueue m) l) (off .rQueue) other
      ((s.redress p r d).restPrio m) ((s.redress p r d).ret (.mutex m)).pRet true
    rw [unlockWith_handed _ first' waiters, unlockAllLoop_handed fuel first waiters, lowered]
    refine ⟨_, (s.redress p r d).restPrio m, ((s.redress p r d).ret (.mutex m)).pRet, true, rfl, ?_,
      chain.release.own_of_ne (update_self ..) other.symm⟩
    exact congrArg (fun c : Core => ({ s with toCore := c, toMutexes := (s.toMutexes.release m s.currp).own m t } : Sys)) ready

/-- The two loops end in states that `redress` tells apart. -/
theorem unlockEach_redress (on : φ.mtx = true) : ∀ (k : List MtxId) (fuel : Nat) {s : Sys} (p : Nat) (r : Option Tid → Ret)
    (d : Bool),
    Zone φ (s.redress p r d).toCore → CoreOk (s.redress p r d).toCore → MtxOk exact (s.redress p r d) →
    Chain s.toMutexes s.currp k → k.length ≤ fuel →
    ∃ (p' : Nat) (r' : Option Tid → Ret) (d' : Bool),
      (s.redress p r d).unlockEach fuel = (s.unlockAllLoop fuel).redress p' r' d' ∧
      MtxOk exact ((s.redress p r d).unlockEach fuel) ∧
      ((s.redress p r d).unlockEach fuel).pMtxlist s.currp = none ∧ ((s.redress p r d).unlockEach fuel).currp = s.currp
  | [], fuel, s, p, r, d, _, _, mtx, chain, _ => by
    have none : s.pMtxlist s.currp = none := chain.seg
    have none' : (s.redress p r d).pMtxlist (s.redress p r d).currp = .none := none
    have stop : s.unlockAllLoop fuel = s := by cases fuel <;> simp [unlockAllLoop, none]
    have stop' : (s.redress p r d).unlockEach fuel = s.redress p r d := by cases fuel <;> simp [unlockEach, none']
    rw [stop, stop']
    exact ⟨p, r, d, rfl, mtx, none, rfl⟩
  | m :: k, fuel + 1, s, p, r, d, zone, ok, mtx, chain, short => by
    have first : (s.redress p r d).pMtxlist (s.redress p r d).currp = some m := chain.seg.1
    obtain ⟨s', p', r', d', bulk, single, chain'⟩ := unlockAllLoop_redress (s := s) fuel ok.sched.currp_not_mem chain p r d
    have round : (s.redress p r d).unlockEach (fuel + 1) = (s'.redress p' r' d').unlockEach fuel := by
      simp only [unlockEach, first, single]
    obtain ⟨effect, mtx'⟩ := chMtxUnlockS_effect on ok zone mtx
    rw [single] at effect mtx'
    have same : s'.currp = s.currp := effect.still.currp
    rw [round, bulk, ← same]
    exact unlockEach_redress on k fuel p' r' d' (effect.zone zone) (effect.coreOk ok) mtx' chain' (Nat.le_of_succ_le_succ short)

/-- Without a mutex the running thread has its own priority. -/
theorem MtxOk.ownPrio (mtx : MtxOk exact s) (none : s.pMtxlist s.currp = none) :
    s.pPrio s.currp = s.pRealprio s.currp := by
  obtain ⟨k, chain⟩ := mtx.chains.chain s.currp
  cases k with
  | cons m k => cases none.symm.trans chain.seg.1
  | nil =>
    rcases mtx.justified s.currp nofun with le | ⟨w, ⟨m, owns, _⟩, _⟩
    · exact le.antisymm (mtx.real s.currp).2
    · cases (chain.owned m).2 owns

/-- Neither the results nor the flag matter to the choice of the running thread. -/
theorem chSchRescheduleS_redress (r : Option Tid → Ret) (d : Bool) (s : Sys) :
    ((s.redress (s.pPrio s.currp) r d).onCore .chSchRescheduleS).forgetRet = (s.onCore .chSchRescheduleS).forgetRet := by
  have required : (s.redress (s.pPrio s.currp) r d).chSchIsRescRequiredI = s.chSchIsRescRequiredI := by
    simp only [redress, chSchIsRescRequiredI, firstprio, update_eq_self]
    rfl
  simp only [onCore, chSchRescheduleS, required]
  split
  · simp only [chSchDoRescheduleAhead, runFirst, fifoRemove, redress, update_eq_self]
    cases s.queue .rQueue <;> rfl
  · simp [redress, forgetRet]

/-- Unlocking all the mutexes at once is unlocking them one by one, and choosing the running
thread once. -/
theorem bulk_unlock (reached : (kernelLts cfg).Reach (fun _ _ => True) s) (taken : next (.call .mtxUnlockAll) s = some s')
    (owns : s.pMtxlist s.currp ≠ none) :
    (s.enter.unlockEach s.nmtx).pMtxlist s.currp = none ∧
      s'.forgetRet = ((s.enter.unlockEach s.nmtx).onCore .chSchRescheduleS).forgetRet := by
  have inv : KernelOk False s := reach_kernelOk (fun _ _ _ => nofun) reached
  obtain ⟨outside, -, -, is⟩ := next_call taken
  obtain ⟨-, ok, zone, -⟩ : AtWork { mtx := true } s s.enter := outside.enter inv.core
  obtain ⟨k, chain⟩ := inv.mtx.chains.chain s.currp
  have dressed : s.enter = (s.enter.ret .void).redress (s.pPrio s.currp) s.pRet s.due := by
    simp [Sys.redress, Sys.enter, Sys.ret, Sys.onCore, Core.ret, Core.push]
  obtain ⟨p, r, d, single, mtx, last, same⟩ := unlockEach_redress (s := s.enter.ret .void) (φ := { mtx := true }) rfl k s.nmtx
    (s.pPrio s.currp) s.pRet s.due (dressed ▸ zone) (dressed ▸ ok) (dressed ▸ inv.mtx.enter) chain (inv.mtx.chains.length_le chain)
  rw [← dressed] at single mtx last same
  have all : s' = (((s.enter.ret .void).unlockAllLoop s.nmtx).setOwnPrio
      (((s.enter.ret .void).unlockAllLoop s.nmtx).pRealprio ((s.enter.ret .void).unlockAllLoop s.nmtx).currp)).onCore
      .chSchRescheduleS := is.trans (if_pos (Option.isSome_iff_ne_none.2 owns))
  refine ⟨last, ?_⟩
  have prio := mtx.ownPrio (same.symm ▸ last)
  generalize (s.enter.ret .void).unlockAllLoop s.nmtx = bulk at single all
  rw [single] at prio ⊢
  have own : p = bulk.pRealprio bulk.currp := by simpa [Sys.redress] using prio
  have dressed' : bulk.redress p r d = (bulk.setOwnPrio p).redress p r d := by simp [Sys.redress, setOwnPrio]
  have results := chSchRescheduleS_redress r d (bulk.setOwnPrio p)
  rw [show (bulk.setOwnPrio p).pPrio (bulk.setOwnPrio p).currp = p from update_self ..] at results
  rw [all, ← own, dressed', results]

/-- The main thread owns two mutexes, and a thread above it waits for each. -/
def twoWaitersRun : List Label :=
  [.call (.mtxLock 0), .run, .call (.mtxLock 1), .run, .call (.thdCreate 70 .static), .run, .call (.mtxLock 0), .run,
    .call (.thdCreate 80 .static), .run, .call (.mtxLock 1), .run]

theorem bulk_unlock_two : ∃ s s', (kernelLts smallConfig).run twoWaitersRun (chSysInit smallConfig) = some s ∧
    next (.call .mtxUnlockAll) s = some s' ∧ s.pPrio 0 = 80 ∧ s.pMtxlist 0 = some 1 ∧ s'.pPrio 0 = 64 ∧ s'.currp = 3 ∧
    s'.queue .rQueue = [2, 0, 1] ∧ (s.enter.unlockEach s.nmtx).pMtxlist 0 = none ∧
    s'.forgetRet = ((s.enter.unlockEach s.nmtx).onCore .chSchRescheduleS).forgetRet := by
  exact Lts.exists_run₂ (by rfl) rfl fun reached => ⟨_, rfl, rfl, rfl, rfl, rfl, rfl, bulk_unlock reached rfl (by decide)⟩

end ChibiOS.Kernel
