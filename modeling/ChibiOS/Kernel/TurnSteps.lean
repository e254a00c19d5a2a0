import ChibiOS.Kernel.Turns

/-!
# Every step is one turn

What a step does to the running thread and the ready ones is one `Turn`. The only thread
that comes to run ahead of a ready one as high as itself is the heir of a mutex that
`chMtxUnlock` passes on: the caller has just given up the priority it had from it, so it may
be below threads that are ready, and `chSchWakeupS` does not look at them.
-/

namespace ChibiOS.Kernel

open Function
open Lib Kernel.Core Sys

variable {c : Core} {s : Sys} {u t : Tid}

def Label.heir (s : Sys) : Label → Option Tid
  | .call f => f.heir s
  | _ => none

/-- A handler goes on at another place. -/
theorem Tidy.inHandler (tidy : Tidy c) {i j : Isr} {isr : List Isr} (is : c.isr = i :: isr)
    (vt : VTList VtId Callback Systime) : SameTurn c { c with vt := vt, isr := j :: isr } :=
  tidy.same rfl rfl rfl rfl rfl rfl (by simp [is]) fun _ _ => rfl

/-- The callback of a timed sleep readies the thread, unless it is ready already. -/
theorem wakeup_turn {tp : Tid} {isr : List Isr} (ok : CoreOk s.toCore) (tidy : Tidy s.toCore)
    (is : s.isr = .tick (some (.wakeup tp)) :: isr) :
    Goes s.toCore ({ s.wakeup tp with isr := .tick none :: isr } : Sys).toCore := by
  rcases (ok.called_back is).symm with timed | ready
  · have lt : tp < s.nthd := ok.sched.lt_of_ne_suspended fun is => by rw [is] at timed; cases timed
    have off : tp ∉ s.queue .rQueue := fun mem => by rw [tidy.ready tp mem] at timed; cases timed
    have other : tp ≠ s.currp := by
      rintro rfl
      rw [tidy.running] at timed
      cases timed
    have gone : SameTurn s.toCore { s.toCore.dequeue tp with hist := .timeout tp :: s.hist } :=
      (tidy.dequeue off).still rfl rfl rfl rfl rfl rfl rfl fun _ _ => rfl
    have readied : SameTurn s.toCore ((s.toCore.dequeue tp).readyTimeout tp) :=
      gone.readyMsg other lt (.inr (TState.timed_waits timed)) rdyTimeout
    have done := (readied.trans (readied.tidy.inHandler (j := .tick none) is s.vt)).toGoes
    rcases wakeup_timed ok.sched timed with ⟨sp, -, woken⟩ | ⟨-, woken⟩
    · rwa [woken]
    · rwa [woken]
  · simp only [wakeup, ready]
    exact (tidy.inHandler is s.vt).toGoes

/-- A step outside the tick and the borders of interrupt handlers is one turn. -/
theorem next_turn {exact : Prop} {s' : Sys} {l : Label} (ok : KernelOk exact s) (mem : u ∈ s.queue .rQueue)
    (taken : next l s = some s') (tick : l ≠ .tick) (enter : l ≠ .isrEnter) (leave : l ≠ .isrExit) :
    Turn (l.heir s) s.toCore s'.toCore := by
  have sched := ok.core.sched
  have tidy := sched.tidy mem
  cases l with
  | call f =>
    obtain ⟨outside, -, allowed, rfl⟩ := next_call taken
    have quiet := ok.due.of_unlocked outside.thread outside.unlocked
    exact (f.body_course ok.sound quiet allowed).turn sched mem outside.thread ok.core.calm
  | scall f =>
    obtain ⟨zone, -, allowed, rfl⟩ := next_scall taken
    by_cases unlock : f = .mtxUnlockS
    · subst unlock
      exact .same (Works.start.chMtxUnlockS.sameTurn tidy).toGoes
    · exact (f.body_course ok.sound allowed unlock).turn sched mem (zone {}).thread ok.core.calm
  | icall f =>
    obtain ⟨-, allowed, rfl⟩ := next_icall taken
    by_cases create : ∃ prio, f = .thdCreateI prio
    · obtain ⟨prio, rfl⟩ := create
      exact .same (tidy.refl.chThdCreateI prio .static).1.toGoes
    · exact .same ((f.body_works allowed fun prio is => create ⟨prio, is⟩).sameTurn tidy).toGoes
  | sysLock | sysUnlock =>
    obtain ⟨-, ⟨⟩⟩ := Option.ite_none_right_eq_some.1 taken
    exact tidy.refl.idle ⟨⟨fun _ _ => rfl, fun _ _ => rfl⟩, rfl, rfl⟩
  | reschedule =>
    obtain ⟨zone, ⟨⟩⟩ := Option.ite_none_right_eq_some.1 taken
    exact tidy.refl.reschedule (lockZone_lax zone).1
  | run =>
    obtain ⟨f, fs, thread, -, -, rfl⟩ := next_run taken
    have popped : Works s.toCore s.pop.toCore :=
      .own .start rfl ⟨fun _ _ => rfl, fun _ other => update_of_ne other ..⟩
    exact (f.run_course popped ok.sound.pop rfl rfl id).turn sched mem thread ok.core.calm
  | notifyReturn =>
    obtain ⟨qp, fs, -, -, -, rfl⟩ := next_notifyReturn taken
    exact tidy.refl.idle ⟨⟨fun _ _ => rfl, fun _ other => update_of_ne other ..⟩, rfl, rfl⟩
  | isrEnter => cases enter rfl
  | isrExit => cases leave rfl
  | tick => cases tick rfl
  | callback =>
    obtain ⟨isr, ⟨tp, is, rfl⟩ | ⟨n, is, rfl⟩⟩ := next_callback taken
    · exact .same (wakeup_turn ok.core tidy is)
    · exact .same (tidy.inHandler is s.vt).toGoes
  | tickLoop =>
    obtain ⟨isr, ⟨vt, r⟩, is, -, rfl⟩ := next_tickLoop taken
    cases r <;> exact .same (tidy.inHandler is vt).toGoes

/-! ## Threads that are ready -/

/-- A ready thread keeps `p_u`, and is ready or running afterwards. -/
def Stays (t : Tid) (c c' : Core) : Prop := c'.pU t = c.pU t ∧ (t = c'.currp ∨ t ∈ c'.queue .rQueue)

theorem SchedOk.not_asleep (sched : SchedOk c) (mem : t ∈ c.queue .rQueue) : ¬ c.asleep t := by
  rintro (⟨q, notReady, waits⟩ | waits)
  · exact notReady (sched.unique _ _ t waits mem)
  · rw [(sched.member _ t mem).2.1] at waits
    cases waits

theorem Switch.mem {who : Option Tid} {c' : Core} (switch : Switch who c c') (mem : t ∈ c.queue .rQueue) :
    t = c'.currp ∨ t ∈ c'.queue .rQueue := by
  obtain ⟨rest, next, kept, -, -, -, -, -⟩ := switch
  have back : t ∈ rest → t ∈ c'.queue .rQueue := fun later => (List.mem_filter.1 (kept ▸ later)).1
  rcases next with is | ⟨is, -⟩
  · rw [is] at mem
    exact (List.mem_cons.1 mem).imp_right back
  · exact .inr (back (is ▸ mem))

theorem Turn.stays {who : Option Tid} {c' : Core} (turn : Turn who c c') (sched : SchedOk c)
    (mem : t ∈ c.queue .rQueue) : Stays t c c' := by
  have off := sched.not_asleep mem
  have other : t ≠ c.currp := ne_of_mem_of_not_mem mem (sched.currp_not_mem _)
  have keeps : ∀ {u : PU}, u = c.pU t ∨ t = c.currp ∨ c.asleep t → u = c.pU t := fun is =>
    is.resolve_right fun bad => bad.elim other off
  cases turn with
  | same goes => exact ⟨keeps (goes.u t), .inr (goes.order.subset mem)⟩
  | switch first switch u =>
    refine ⟨keeps ((u t).imp_left (·.trans (keeps (first.u t)))), switch.mem (first.order.subset mem)⟩
  | boost first list lifted switch u =>
    refine ⟨keeps ((u t).imp_left (·.trans (keeps (first.u t)))), switch.mem ((lifted.members t).2 (list ▸ mem))⟩

theorem irqEpilogue_stays (sched : SchedOk c) (thread : c.isr = []) (mem : t ∈ c.queue .rQueue) :
    Stays t c c.irqEpilogue := by
  have entering : SameTurn c ({ c with locked := true }.push .sysUnlock) :=
    (sched.tidy mem).refl.still rfl rfl rfl rfl rfl rfl rfl fun _ _ => rfl
  have kept : ∀ {c' : Core}, Switch none ({ c with locked := true }.push .sysUnlock) c' → c'.pU = c.pU → Stays t c c' :=
    fun switch u => ⟨congrFun u t, switch.mem mem⟩
  rw [irqEpilogue]
  split
  · rw [chSchDoReschedule]
    split
    · exact kept (entering.tidy.behind thread) (runFirst_u _)
    · exact kept (entering.tidy.ahead thread) (runFirst_u _)
  · exact ⟨rfl, .inr mem⟩

/-- A step of another thread leaves a ready thread ready, with the message it was given. -/
theorem next_ready_stays {exact : Prop} {s' : Sys} {l : Label} (ok : KernelOk exact s)
    (mem : t ∈ s.queue .rQueue) (taken : next l s = some s') : Stays t s.toCore s'.toCore := by
  by_cases tick : l = .tick
  · subst tick
    simp only [next, Option.ite_none_right_eq_some] at taken
    obtain ⟨c, ticked, rfl⟩ := Option.map_eq_some_iff.1 taken.2
    obtain ⟨⟨vt, r⟩, -, rfl⟩ := Option.map_eq_some_iff.1 ticked
    cases r <;> exact ⟨rfl, .inr mem⟩
  by_cases enter : l = .isrEnter
  · subst enter
    simp only [next, Option.ite_none_left_eq_some, Option.some.injEq] at taken
    obtain ⟨-, rfl⟩ := taken
    exact ⟨rfl, .inr mem⟩
  by_cases leave : l = .isrExit
  · subst leave
    rcases next_isrExit taken with ⟨-, rfl⟩ | ⟨isr, -, -, rfl⟩
    · exact irqEpilogue_stays ok.core.sched rfl mem
    · exact ⟨rfl, .inr mem⟩
  · exact (next_turn ok mem taken tick enter leave).stays ok.core.sched mem

end ChibiOS.Kernel
