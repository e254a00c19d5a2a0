import ChibiOS.Kernel.State
import ChibiOS.Lib.Links

/-!
# The ready list as a ring

The scans of `chSchReadyI` and `chSchDoRescheduleAhead` do not test for the end of the
list. They stop at the list header, because of the priority that it has: `NOPRIO` is below
what `chSchReadyI` looks for, unless that is `NOPRIO` itself. The checks of `chThdCreateI`
and `chThdSetPriority` let `NOPRIO` through.
-/

namespace ChibiOS.Kernel

open Function
open Lib

/-- The nodes of the ready list, threads and `rlist` itself, by the fields they share. -/
structure ReadyRing where
  pNext : RegNode → RegNode
  pPrev : RegNode → RegNode
  pPrio : RegNode → Nat
  pState : RegNode → TState
  currp : RegNode

/-- `chDbgCheck` of `chThdCreateI` and `chThdSetPriority`, as far as the priority goes. -/
def checkPrio (prio : Nat) : Bool := prio ≤ highPrio

namespace ReadyRing

/-- `_scheduler_init`, over the memory `r`. -/
def schedulerInit (r : ReadyRing) : ReadyRing :=
  { r with
    pNext := update r.pNext .rlist .rlist
    pPrev := update r.pPrev .rlist .rlist
    pPrio := update r.pPrio .rlist noPrio }

/-- `do cp = cp->p_next; while (test(cp->p_prio))`, for at most `fuel` rounds. -/
def scan (test : Nat → Bool) (r : ReadyRing) : Nat → RegNode → Option RegNode
  | 0, _ => none
  | fuel + 1, cp =>
    let cp := r.pNext cp
    if test (r.pPrio cp) then scan test r fuel cp else some cp

/-- `tp->p_next = cp; tp->p_prev = cp->p_prev; tp->p_prev->p_next = cp->p_prev = tp`. -/
def insertOnPrev (tp cp : RegNode) (r : ReadyRing) : ReadyRing :=
  let r := { r with pNext := update r.pNext tp cp, pPrev := update r.pPrev tp (r.pPrev cp) }
  { r with pNext := update r.pNext (r.pPrev tp) tp, pPrev := update r.pPrev cp tp }

def chSchReadyI (fuel : Nat) (tp : RegNode) (r : ReadyRing) : Option ReadyRing :=
  let r := { r with pState := update r.pState tp .ready }
  (r.scan (r.pPrio tp ≤ ·) fuel .rlist).map fun cp => r.insertOnPrev tp cp

/-- `fifo_remove(&rlist.r_queue)`. -/
def fifoRemove (r : ReadyRing) : RegNode × ReadyRing :=
  let tp := r.pNext .rlist
  (tp, { r with pNext := update r.pNext .rlist (r.pNext tp), pPrev := update r.pPrev (r.pNext tp) .rlist })

/-- Up to the switch. -/
def chSchDoRescheduleAhead (fuel : Nat) (r : ReadyRing) : Option ReadyRing :=
  let otp := r.currp
  let (ntp, r) := r.fifoRemove
  let r := { r with currp := ntp, pState := update r.pState ntp .current }
  let r := { r with pState := update r.pState otp .ready }
  (r.scan (r.pPrio otp < ·) fuel .rlist).map fun cp => r.insertOnPrev otp cp

end ReadyRing

/-- The ring is linked, sorted and has the header that it was given at initialisation. -/
structure ReadyRing.Holds (r : ReadyRing) (l : List Tid) : Prop where
  links : Links r.pNext r.pPrev .rlist (l.map .thread)
  header : r.pPrio .rlist = noPrio
  sorted : Descending (fun tp => r.pPrio (.thread tp)) l

variable {r r' : ReadyRing} {l : List Tid} {tp : Tid} {p : Nat → Bool}

theorem ReadyRing.scan_eq : ∀ (fuel : Nat) (x : RegNode), r.scan p fuel x = Lib.scan r.pNext (fun y => p (r.pPrio y)) fuel x
  | 0, _ => rfl
  | fuel + 1, x => by rw [scan, Lib.scan, scan_eq fuel]

/-- A scan that passes the header as well goes round for ever. -/
theorem ReadyRing.scan_none {ls : List RegNode} (links : Links r.pNext r.pPrev .rlist ls)
    (passes : ∀ y ∈ .rlist :: ls, p (r.pPrio y) = true) : ∀ (fuel : Nat) {x : RegNode}, x ∈ .rlist :: ls →
    r.scan p fuel x = none
  | 0, _, _ => rfl
  | fuel + 1, x, mem => by
    have next := links.newer_mem mem
    simp only [scan, passes _ next, if_true]
    exact scan_none links passes fuel next

/-- A thread goes before the first node at which its scan stops, within one pass. -/
theorem ReadyRing.Holds.insert (ring : r.Holds l) (new : tp ∉ l) (header : p noPrio = false) :
    ∃ cp, r.scan p (l.length + 1) .rlist = some cp ∧
      Links (r.insertOnPrev (.thread tp) cp).pNext (r.insertOnPrev (.thread tp) cp).pPrev .rlist
        ((l.takeWhile (fun y => p (r.pPrio (.thread y))) ++ tp ::
          l.dropWhile (fun y => p (r.pPrio (.thread y)))).map .thread) := by
  obtain ⟨cp, -, found, links⟩ := ring.links.insertAt (x := .thread tp) (p := fun y => p (r.pPrio y)) (by simpa using new)
    (by rwa [ring.header]) fun _ _ => rfl
  refine ⟨cp, by simpa only [scan_eq, List.length_map] using found, ?_⟩
  simpa [insertOnPrev, List.takeWhile_map, List.dropWhile_map, Function.comp_def] using links

/-- `chSchReadyI` stops within one pass, unless it looks for `NOPRIO`. -/
theorem ReadyRing.Holds.chSchReadyI (ring : r.Holds l) (new : tp ∉ l) (above : r.pPrio (.thread tp) ≠ noPrio) :
    ∃ cp, r.chSchReadyI (l.length + 1) (.thread tp) =
        some (insertOnPrev (.thread tp) cp { r with pState := update r.pState (.thread tp) .ready }) ∧
      (insertOnPrev (.thread tp) cp { r with pState := update r.pState (.thread tp) .ready }).Holds
        (insertBehind (fun tp => r.pPrio (.thread tp)) tp l) := by
  have ready : ReadyRing.Holds { r with pState := update r.pState (.thread tp) .ready } l := ⟨ring.links, ring.header, ring.sorted⟩
  have header : decide (r.pPrio (.thread tp) ≤ noPrio) = false := decide_eq_false (by simpa [noPrio] using above)
  obtain ⟨cp, found, links⟩ := ready.insert (p := (r.pPrio (.thread tp) ≤ ·)) new header
  refine ⟨cp, congrArg (Option.map _) found, ⟨?_, ring.header, ring.sorted.insertBehind tp⟩⟩
  rwa [insertBehind_eq]

theorem ReadyRing.Holds.fifoRemove {ntp : Tid} (ring : r.Holds (ntp :: l)) :
    r.fifoRemove.1 = .thread ntp ∧ r.fifoRemove.2.Holds l := by
  have links := ring.links
  obtain ⟨next, prev⟩ := links.pair (a := []) rfl
  refine ⟨next, ?_, ring.header, List.Pairwise.of_cons ring.sorted⟩
  have removed := Links.remove (a := []) links
  rw [prev] at removed
  simpa only [ReadyRing.fifoRemove, next, List.nil_append] using removed

/-- `chSchDoRescheduleAhead` stops within one pass over what is left of the list. -/
theorem ReadyRing.Holds.chSchDoRescheduleAhead {ntp : Tid} (ring : r.Holds (ntp :: l)) (current : r.currp = .thread tp)
    (new : tp ∉ l) : ∃ r', r.chSchDoRescheduleAhead (l.length + 1) = some r' ∧ r'.currp = .thread ntp ∧
      r'.pPrio = r.pPrio ∧ r'.pState = update (update r.pState (.thread ntp) .current) (.thread tp) .ready ∧
      r'.Holds (insertAhead (fun tp => r.pPrio (.thread tp)) tp l) := by
  obtain ⟨first, rest⟩ := ring.fifoRemove
  let r₁ : ReadyRing := { r.fifoRemove.2 with
    currp := r.fifoRemove.1
    pState := update (update r.fifoRemove.2.pState r.fifoRemove.1 .current) (.thread tp) .ready }
  have ready : r₁.Holds l := ⟨rest.links, rest.header, rest.sorted⟩
  have step : r.chSchDoRescheduleAhead (l.length + 1) =
      (r₁.scan (r.pPrio (.thread tp) < ·) (l.length + 1) .rlist).map fun cp => r₁.insertOnPrev (.thread tp) cp := by
    rw [ReadyRing.chSchDoRescheduleAhead, current]
    rfl
  obtain ⟨cp, found, links⟩ := ready.insert (p := (r.pPrio (.thread tp) < ·)) new (decide_eq_false (Nat.not_lt_zero _))
  refine ⟨r₁.insertOnPrev (.thread tp) cp, by rw [step, found]; rfl, first, rfl, ?_, ⟨?_, rest.header, rest.sorted.insertAhead tp⟩⟩
  · rw [← first]
    rfl
  rwa [insertAhead_eq]

/-- With `NOPRIO` the scan of `chSchReadyI` does not stop at the header either. -/
theorem ReadyRing.Holds.chSchReadyI_noPrio (ring : r.Holds l) (lowest : r.pPrio (.thread tp) = noPrio) (fuel : Nat) :
    r.chSchReadyI fuel (.thread tp) = none := by
  have ready : ReadyRing.Holds { r with pState := update r.pState (.thread tp) .ready } l := ⟨ring.links, ring.header, ring.sorted⟩
  have never := scan_none (p := (r.pPrio (.thread tp) ≤ ·)) ready.links (fun y _ => by simp [lowest, noPrio]) fuel
    List.mem_cons_self
  exact congrArg (Option.map _) never

/-- The insertions into the ready list stop within one pass and keep it sorted and linked, for every priority but `NOPRIO`. -/
theorem ready_insertion_terminates (ring : r.Holds l) (new : tp ∉ l) :
    ((∃ r', r.chSchReadyI (l.length + 1) (.thread tp) = some r' ∧
        r'.Holds (insertBehind (fun tp => r.pPrio (.thread tp)) tp l)) ∧
      ∀ ntp rest, l = ntp :: rest → r.currp = .thread tp →
        ∃ r', r.chSchDoRescheduleAhead (rest.length + 1) = some r' ∧ r'.currp = .thread ntp ∧
          r'.Holds (insertAhead (fun tp => r.pPrio (.thread tp)) tp rest)) ↔
    r.pPrio (.thread tp) ≠ noPrio := by
  refine ⟨fun stops lowest => ?_, fun above => ⟨?_, ?_⟩⟩
  · obtain ⟨⟨r', done, -⟩, -⟩ := stops
    rw [ring.chSchReadyI_noPrio lowest] at done
    cases done
  · obtain ⟨cp, done, ring'⟩ := ring.chSchReadyI new above
    exact ⟨_, done, ring'⟩
  · rintro ntp rest rfl current
    obtain ⟨r', done, first, -, -, ring'⟩ := ring.chSchDoRescheduleAhead current (List.not_mem_of_not_mem_cons new)
    exact ⟨r', done, first, ring'⟩

/-! ## The kernel's ready list -/

/-- The ring of the kernel state `c`. -/
structure ReadyRing.Models (r : ReadyRing) (c : Core) : Prop where
  holds : r.Holds (c.queue .rQueue)
  prio : ∀ tp, r.pPrio (.thread tp) = c.pPrio tp
  state : ∀ tp, r.pState (.thread tp) = c.pState tp
  currp : r.currp = .thread c.currp

/-- What the kernel does to the list it does to the ring, within one pass. -/
theorem ready_ring_refines {c : Core} (models : r.Models c) : (∀ tp, tp ∉ c.queue .rQueue → c.pPrio tp ≠ noPrio →
      ∃ r', r.chSchReadyI ((c.queue .rQueue).length + 1) (.thread tp) = some r' ∧ r'.Models (c.chSchReadyI tp)) ∧
    ∀ ntp l, c.queue .rQueue = ntp :: l → c.currp ∉ l →
      ∃ r', r.chSchDoRescheduleAhead (l.length + 1) = some r' ∧ r'.Models c.chSchDoRescheduleAhead := by
  have prio : (fun tp => r.pPrio (.thread tp)) = c.pPrio := funext models.prio
  constructor
  · intro tp new above
    obtain ⟨cp, done, ring⟩ := models.holds.chSchReadyI new (models.prio tp ▸ above)
    refine ⟨_, done, ?_, models.prio, fun t => ?_, models.currp⟩
    · rw [prio] at ring
      simpa [Core.chSchReadyI] using ring
    · simp only [ReadyRing.insertOnPrev, Core.chSchReadyI, update_apply, RegNode.thread.injEq, models.state]
  · intro ntp l first new
    obtain ⟨r', done, current, samePrio, state, ring⟩ := (first ▸ models.holds).chSchDoRescheduleAhead models.currp new
    have ran : c.chSchDoRescheduleAhead = { c with
        currp := ntp
        pState := update (update c.pState ntp .current) c.currp .ready
        queue := update (update c.queue .rQueue l) .rQueue (insertAhead c.pPrio c.currp l)
        due := false } := by
      simp [Core.chSchDoRescheduleAhead, Core.runFirst, Core.fifoRemove, first, Core.setQueue]
    rw [ran]
    refine ⟨r', done, ?_, fun t => by rw [samePrio, models.prio], fun t => ?_, current⟩
    · rw [prio] at ring
      simpa using ring
    · simp only [state, update_apply, RegNode.thread.injEq, models.state]

/-! ## Runs of the code -/

/-- After `_scheduler_init` the list is empty. -/
theorem ReadyRing.Holds.init (r : ReadyRing) : r.schedulerInit.Holds [] :=
  ⟨⟨List.nodup_singleton _, by simp [schedulerInit]⟩, by simp [schedulerInit], .nil⟩

/-- The idle thread is ready, the main thread runs, and there is a thread with the priority `prio`. -/
def idleReady (prio : Nat) : ReadyRing where
  pNext x := if x = .rlist then .thread idleThread else .rlist
  pPrev x := if x = .rlist then .thread idleThread else .rlist
  pPrio
    | .rlist => noPrio
    | .thread tp => if tp = idleThread then idlePrio else if tp = mainThread then normalPrio else prio
  pState x := if x = .thread idleThread then .ready else if x = .thread mainThread then .current else .suspended
  currp := .thread mainThread

theorem idleReady_holds (prio : Nat) : (idleReady prio).Holds [idleThread] :=
  ⟨⟨by decide, by simp [idleReady]⟩, rfl, List.pairwise_singleton _ _⟩

/-- The running thread has the priority of the idle one: the scan passes that one and stops at the header. -/
theorem ready_insertion_terminates_idlePrio : ∃ r : ReadyRing, r.Holds [idleThread] ∧ r.currp = .thread 2 ∧
    (∃ r', r.chSchReadyI 2 (.thread 2) = some r' ∧ r'.Holds [idleThread, 2]) ∧
    ∃ r', r.chSchDoRescheduleAhead 1 = some r' ∧ r'.currp = .thread idleThread ∧ r'.Holds [2] := by
  have holds := idleReady_holds idlePrio
  have running : ReadyRing.Holds { idleReady idlePrio with currp := .thread 2 } [idleThread] :=
    ⟨holds.links, holds.header, holds.sorted⟩
  have new : 2 ∉ [idleThread] := by decide
  obtain ⟨readied, preempted⟩ := (ready_insertion_terminates running new).2 (by decide)
  exact ⟨_, running, rfl, readied, preempted idleThread [] rfl rfl⟩

/-- A thread with the priority 0, which the checks accept. -/
theorem ready_insertion_noPrio : checkPrio 0 = true ∧ (idleReady 0).Holds [idleThread] ∧ (idleReady 0).pPrio (.thread 2) = 0 ∧
    ∀ fuel, (idleReady 0).chSchReadyI fuel (.thread 2) = none :=
  ⟨rfl, idleReady_holds 0, rfl, (idleReady_holds 0).chSchReadyI_noPrio rfl⟩

end ChibiOS.Kernel
