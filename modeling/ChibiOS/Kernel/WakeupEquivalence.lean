import ChibiOS.Kernel.Scheduling

/-!
# Waking a thread, in one step or in two

`chSchWakeupS` is documented as a `chSchReadyI` followed by a `chSchRescheduleS`. The
two differ in where a preempted thread goes: `chSchWakeupS` puts it behind the ready
threads of its priority, `chSchRescheduleS` ahead of them.
-/

namespace ChibiOS.Kernel

open Function
open Lib Kernel.Core

/-- The message is stored, the thread is made ready, and the running thread is chosen
again. -/
def Core.readyReschedule (ntp : Tid) (msg : Msg) (c : Core) : Core :=
  ((c.setU ntp (.rdymsg msg)).chSchReadyI ntp).chSchRescheduleS

/-- The same running thread, ready list, quanta and messages. -/
structure SameSchedule (c c' : Core) : Prop where
  currp : c'.currp = c.currp
  ready : c'.queue .rQueue = c.queue .rQueue
  preempt : c'.pPreempt = c.pPreempt
  msgs : c'.pU = c.pU

variable {c : Core} {ntp : Tid}

/-- Nobody is put above the running thread. -/
theorem Core.readyReschedule_below {msg : Msg} (top : ∀ t ∈ c.queue .rQueue, c.pPrio t ≤ c.pPrio c.currp)
    (below : c.pPrio ntp ≤ c.pPrio c.currp) :
    c.readyReschedule ntp msg = { (c.setU ntp (.rdymsg msg)).chSchReadyI ntp with due := false } := by
  rw [readyReschedule, chSchRescheduleS, if_neg]
  intro required
  obtain ⟨h, l, first, above⟩ := SchedOk.first_of_lt (of_decide_eq_true required)
  have mem : h ∈ insertBehind c.pPrio ntp (c.queue .rQueue) := by
    rw [show insertBehind c.pPrio ntp (c.queue .rQueue) = h :: l by simpa [chSchReadyI, setU] using first]
    exact .head _
  have le : c.pPrio h ≤ c.pPrio c.currp := by
    rcases mem_insertBehind.1 mem with rfl | mem
    · exact below
    · exact top h mem
  exact absurd above (not_lt.2 le)

/-- The woken thread runs, and the other one goes to the front of the ready list. -/
theorem Core.readyReschedule_above (msg : Msg) (top : ∀ t ∈ c.queue .rQueue, c.pPrio t ≤ c.pPrio c.currp)
    (above : c.pPrio c.currp < c.pPrio ntp) :
    (c.readyReschedule ntp msg).currp = ntp ∧ (c.readyReschedule ntp msg).queue .rQueue = c.currp :: c.queue .rQueue ∧
      (c.readyReschedule ntp msg).pPreempt = c.pPreempt ∧ (c.readyReschedule ntp msg).pU = update c.pU ntp (.rdymsg msg) := by
  have first : ((c.setU ntp (.rdymsg msg)).chSchReadyI ntp).queue .rQueue = ntp :: c.queue .rQueue := by
    exact insertBehind_above fun t mem => lt_of_le_of_lt (top t mem) above
  have required : ((c.setU ntp (.rdymsg msg)).chSchReadyI ntp).chSchIsRescRequiredI = true := by
    rw [chSchIsRescRequiredI, firstprio, first]
    exact decide_eq_true above
  rw [readyReschedule, chSchRescheduleS, if_pos required, chSchDoRescheduleAhead, runFirst_eq first]
  refine ⟨rfl, ?_, rfl, rfl⟩
  exact insertAhead_top top

/-- The woken thread runs, and the other one goes behind its equals. -/
theorem Core.chSchWakeupS_above (msg : Msg) (above : c.pPrio c.currp < c.pPrio ntp) :
    (c.chSchWakeupS ntp msg).currp = ntp ∧
      (c.chSchWakeupS ntp msg).queue .rQueue = insertBehind c.pPrio c.currp (c.queue .rQueue) ∧
      (c.chSchWakeupS ntp msg).pPreempt = c.pPreempt ∧ (c.chSchWakeupS ntp msg).pU = update c.pU ntp (.rdymsg msg) := by
  rw [chSchWakeupS]
  split
  next below =>
    exact absurd above (not_lt.2 below)
  · exact ⟨rfl, by simp [chSchReadyI, setU], rfl, rfl⟩

/-- The documented equivalence holds except when a thread is preempted that has ready
threads of its own priority. -/
theorem wakeup_equivalence (ntp : Tid) (msg : Msg) (sorted : Descending c.pPrio (c.queue .rQueue))
    (top : ∀ t ∈ c.queue .rQueue, c.pPrio t ≤ c.pPrio c.currp) (running : c.currp ∉ c.queue .rQueue) :
    SameSchedule (c.readyReschedule ntp msg) (c.chSchWakeupS ntp msg) ↔
      (c.pPrio ntp ≤ c.pPrio c.currp ∨ ∀ t ∈ c.queue .rQueue, c.pPrio t ≠ c.pPrio c.currp) := by
  by_cases below : c.pPrio ntp ≤ c.pPrio c.currp
  · have woken : c.chSchWakeupS ntp msg = { (c.setU ntp (.rdymsg msg)).chSchReadyI ntp with due := false } := if_pos below
    refine iff_of_true ?_ (.inl below)
    rw [readyReschedule_below top below, woken]
    exact ⟨rfl, rfl, rfl, rfl⟩
  · have above := not_le.1 below
    obtain ⟨currp, ready, preempt, msgs⟩ := readyReschedule_above msg top above
    obtain ⟨currp', ready', preempt', msgs'⟩ := chSchWakeupS_above msg above
    constructor
    · intro same
      have front : insertBehind c.pPrio c.currp (c.queue .rQueue) = c.currp :: c.queue .rQueue := by
        rw [← ready', same.ready, ready]
      exact .inr fun t mem => ne_of_lt (sorted.lt_of_insertBehind running front t mem)
    · rintro (bad | alone)
      · exact absurd bad below
      · have front := insertBehind_above fun t mem => Nat.lt_of_le_of_ne (top t mem) (alone t mem)
        exact ⟨currp'.trans currp.symm, (ready'.trans front).trans ready.symm, preempt'.trans preempt.symm, msgs'.trans msgs.symm⟩

/-- Thread 2, with priority 70, is suspended, and a thread 3 is created. -/
def suspendedRun (prio : Nat) : List Label :=
  [.call (.thdCreate 70 .static), .run, .sysLock, .scall .suspendS, .run, .call (.thdCreate prio .static), .run, .sysLock]

/-- Thread 3 runs, above thread 2. -/
theorem wakeup_equivalence_below : ∃ s, (kernelLts smallConfig).run (suspendedRun 80) (chSysInit smallConfig) = some s ∧
    s.currp = 3 ∧ s.queue .rQueue = [0, 1] ∧ s.pState 2 = .suspended ∧
    SameSchedule (s.readyReschedule 2 rdyOk) (s.chSchWakeupS 2 rdyOk) := by
  refine ⟨_, rfl, rfl, rfl, rfl, (wakeup_equivalence 2 rdyOk ?_ ?_ ?_).2 (.inl ?_)⟩
  · exact List.pairwise_pair.2 (by decide)
  · exact List.forall_mem_cons.2 ⟨by decide, List.forall_mem_singleton.2 (by decide)⟩
  · decide
  · decide

/-- Thread 3 is ready at the priority of the main thread when thread 2 is woken: the main thread goes behind it, not ahead
of it. -/
theorem wakeup_equivalence_peer : ∃ s, (kernelLts smallConfig).run (suspendedRun 64) (chSysInit smallConfig) = some s ∧
    Descending s.pPrio (s.queue .rQueue) ∧ (∀ t ∈ s.queue .rQueue, s.pPrio t ≤ s.pPrio s.currp) ∧ s.currp ∉ s.queue .rQueue ∧
    (s.chSchWakeupS 2 rdyOk).queue .rQueue = [3, 0, 1] ∧ (s.readyReschedule 2 rdyOk).queue .rQueue = [0, 3, 1] ∧
    ¬ SameSchedule (s.readyReschedule 2 rdyOk) (s.chSchWakeupS 2 rdyOk) := by
  refine ⟨_, rfl, List.pairwise_pair.2 (by decide), ?_, by decide, rfl, rfl, fun same => ?_⟩
  · exact List.forall_mem_cons.2 ⟨by decide, List.forall_mem_singleton.2 (by decide)⟩
  · exact absurd same.ready (by decide)

end ChibiOS.Kernel
