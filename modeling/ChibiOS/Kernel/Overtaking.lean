import ChibiOS.Kernel.TurnSteps
import ChibiOS.Kernel.Scheduling

/-!
# Bounded overtaking

Two threads with the same priority: while one of them stays ready, the other runs for at
most a time quantum. A thread that gives the processor up in time goes ahead of its equals
with what is left of its quantum; whatever refills the quantum puts it behind them.
-/

namespace ChibiOS.Kernel

open Function
open Lib Kernel.Core

/-! ## What is left -/

/-- `a` may run for `n` more ticks before it is behind `b`. With its quantum used up it is preempted at the end of the
handler. -/
structure Left (a b : Tid) (n : Nat) (c : Core) : Prop where
  running : c.currp = a → c.isr ≠ [] ∧ c.pPreempt a = 0 ∨ max (c.pPreempt a) 1 ≤ n
  ahead : [a, b].Sublist (c.queue .rQueue) → max (c.pPreempt a) 1 ≤ n

variable {a b x : Tid} {n : Nat} {c c' : Core} {who : Option Tid} {s s' : Sys} {w w' : Watch} {l : Label}

theorem Goes.left (goes : Goes c c') (nodup : (c'.queue .rQueue).Nodup) (mem : b ∈ c.queue .rQueue) (other : a ≠ b)
    (equal : a ∈ c'.queue .rQueue → a ∉ c.queue .rQueue → c'.pPrio a ≤ c'.pPrio b) (left : Left a b n c) : Left a b n c' where
  running is := by
    have own : c.currp = a := goes.currp ▸ is
    rw [goes.preempt a (.inl own.symm), ne_eq, goes.isr]
    exact left.running own
  ahead before := by
    have mem' : a ∈ c'.queue .rQueue := before.subset (.head _)
    by_cases old : a ∈ c.queue .rQueue
    · rw [goes.preempt a (.inr old)]
      refine left.ahead ((pair_total old mem other).resolve_right fun behind => ?_)
      exact pair_antisymm nodup before (behind.trans goes.order)
    · exact (pair_antisymm nodup before (goes.behind a mem' old b mem (equal mem' old))).elim

/-- Neither of two equals is lifted alone. -/
theorem Lifted.left (lifted : Lifted x c c')
    (before : a ∈ c.queue .rQueue → c.pPrio a = c.pPrio b) (after : c'.pPrio a = c'.pPrio b) (other : a ≠ b)
    (left : Left a b n c) : Left a b n c' where
  running is := by
    rw [lifted.preempt, lifted.isr]
    exact left.running (lifted.currp ▸ is)
  ahead pair := by
    have old : a ∈ c.queue .rQueue := (lifted.members a).1 (pair.subset (.head _))
    have equal := before old
    have above := lifted.above
    have notA : a ≠ x := by
      rintro rfl
      rw [after, lifted.others b other.symm, equal] at above
      exact above.false
    have notB : b ≠ x := by
      rintro rfl
      rw [← after, lifted.others a other, equal] at above
      exact above.false
    rw [lifted.preempt]
    refine left.ahead ?_
    have kept := pair_filter_ne notA notB pair
    rw [lifted.kept] at kept
    exact kept.trans List.filter_sublist

section

variable (switch : Switch who c c')
include switch

theorem Switch.prio_eq : c'.pPrio = c.pPrio := by
  cases switch
  assumption

/-- The ready list before a change of thread, from the one after it. -/
theorem Switch.nodup (sched : SchedOk c') : (c.queue .rQueue).Nodup := by
  obtain ⟨rest, next, kept, -, -, -, -, -⟩ := switch
  have sub : rest.Sublist (c'.queue .rQueue) := kept ▸ List.filter_sublist
  have nodup := (sched.nodup .rQueue).sublist sub
  rcases next with is | ⟨is, -⟩
  · rw [is]
    exact List.nodup_cons.2 ⟨fun mem => sched.currp_not_mem _ (sub.subset mem), nodup⟩
  · rwa [is]

theorem Switch.left (sched : SchedOk c') (off : c.currp ∉ c.queue .rQueue)
    (mem : b ∈ c.queue .rQueue) (still : b ∈ c'.queue .rQueue) (equal : c'.pPrio a = c'.pPrio b) (notHeir : who ≠ some a)
    (left : Left a b n c) : Left a b n c' := by
  obtain ⟨rest, next, kept, own, prio, preempt, thread, -⟩ := switch
  have notB : b ≠ c.currp := ne_of_mem_of_not_mem mem off
  have later : b ∈ rest := by
    rw [← kept]
    exact List.mem_filter.2 ⟨still, by simpa using notB⟩
  constructor
  · intro is
    rcases next with first | ⟨list, -, high⟩
    · rw [is] at first
      have pair : [a, b].Sublist (c.queue .rQueue) := by
        rw [first]
        exact (List.singleton_sublist.2 later).cons_cons a
      rw [preempt a (ne_of_mem_of_not_mem (first ▸ .head _) off)]
      exact .inr (left.ahead pair)
    · rcases high with ⟨top, above⟩ | who
      · have le := top b mem
        rw [is, ← prio, equal, prio] at above
        exact absurd le (Nat.not_le_of_gt above)
      · exact absurd (is ▸ who) notHeir
  · intro pair
    by_cases notA : a = c.currp
    · subst notA
      rcases own (pair.subset (.head _)) with same | behind
      · rw [same]
        exact (left.running rfl).resolve_left fun handler => handler.1 thread
      · have le : c.pPrio c.currp ≤ c.pPrio b := by rw [← prio, equal]
        exact (pair_antisymm (sched.nodup _) pair (behind b later le)).elim
    · rw [preempt a notA]
      have back := pair_filter_ne notA notB pair
      rw [kept] at back
      refine left.ahead (back.trans ?_)
      rcases next with is | ⟨is, -⟩
      · exact is ▸ List.sublist_cons_self ..
      · exact is ▸ List.Sublist.refl _

/-- Whoever gets a new quantum while it is preempted is behind its equals. -/
theorem Switch.left_of_refilled (sched : SchedOk c') (off : c.currp ∉ c.queue .rQueue)
    (mem : b ∈ c.queue .rQueue) (still : b ∈ c'.queue .rQueue) (equal : c'.pPrio c.currp = c'.pPrio b)
    (refilled : c'.pPreempt c.currp ≠ c.pPreempt c.currp) : Left c.currp b n c' := by
  obtain ⟨rest, next, kept, own, prio, -, -, -⟩ := switch
  refine ⟨fun is => ?_, fun pair => ?_⟩
  · rcases next with first | ⟨-, moved, -⟩
    · rw [is] at first
      exact absurd (first ▸ .head _) off
    · exact absurd is moved
  · have behind := (own (pair.subset (.head _))).resolve_left refilled
    have later : b ∈ rest := by
      rw [← kept]
      exact List.mem_filter.2 ⟨still, by simpa using ne_of_mem_of_not_mem mem off⟩
    rw [prio] at equal
    exact (pair_antisymm (sched.nodup _) pair (behind b later equal.le)).elim

end

/-- A turn that does not hand the processor to `a` out of order. -/
theorem Turn.left (turn : Turn who c c') (sched : SchedOk c) (sched' : SchedOk c') (mem : b ∈ c.queue .rQueue)
    (still : b ∈ c'.queue .rQueue) (before : c.pPrio a = c.pPrio b) (after : c'.pPrio a = c'.pPrio b) (other : a ≠ b)
    (notHeir : who ≠ some a) (left : Left a b n c) : Left a b n c' := by
  cases turn with
  | same goes => exact goes.left (sched'.nodup _) mem other (fun _ _ => after.le) left
  | switch first switch _ =>
    have prio := switch.prio_eq
    have mid := first.left (switch.nodup sched') mem other (fun _ _ => (prio ▸ after).le) left
    exact switch.left sched' (first.tidy.off _) (first.order.subset mem) still after notHeir mid
  | @boost x c₁ c₂ first list lifted switch _ =>
    have prio := switch.prio_eq
    have mid := first.left (list ▸ sched.nodup _) mem other (fun new old => absurd (list ▸ new) old) left
    have mem₁ : b ∈ c₁.queue .rQueue := list ▸ mem
    have equal : a ∈ c₁.queue .rQueue → c₁.pPrio a = c₁.pPrio b := fun ready => by
      rw [first.prio a (list ▸ ready), first.prio b mem, before]
    have raised := lifted.left equal (prio ▸ after) other mid
    refine switch.left sched' ?_ ((lifted.members b).2 mem₁) still after notHeir raised
    rw [lifted.members, lifted.currp]
    exact first.tidy.off _

/-! ## Interrupts -/

/-- The tick takes one from the quantum of the running thread. -/
theorem Core.chSysTimerHandlerI_frame (ticked : c.chSysTimerHandlerI = some c') : c'.toThreads = c.toThreads ∧
    c'.currp = c.currp ∧ c'.isr ≠ [] ∧ c'.pPreempt = update c.pPreempt c.currp (c.pPreempt c.currp - 1) := by
  obtain ⟨⟨vt, r⟩, -, rfl⟩ := Option.map_eq_some_iff.1 ticked
  cases r <;> exact ⟨rfl, rfl, List.cons_ne_nil _ _, rfl⟩

theorem Left.tick (left : Left a b n c) (sched : SchedOk c) (thread : c.isr = []) (ticked : c.chSysTimerHandlerI = some c') :
    ∃ m, (if c.currp = a then 1 else 0) + m = n ∧ Left a b m c' := by
  obtain ⟨threads, currp, handler, preempt⟩ := chSysTimerHandlerI_frame ticked
  by_cases is : c.currp = a
  · subst is
    have budget := (left.running rfl).resolve_left fun within => within.1 thread
    refine ⟨n - 1, by rw [if_pos rfl]; omega, fun _ => ?_, fun pair => ?_⟩
    · rw [preempt, update_self]
      by_cases used : c.pPreempt c.currp - 1 = 0
      · exact .inl ⟨handler, used⟩
      · exact .inr (by omega)
    · rw [threads] at pair
      exact absurd (pair.subset (.head _)) (sched.currp_not_mem _)
  · refine ⟨n, by rw [if_neg is]; exact zero_add n, fun own => absurd (currp ▸ own) is, fun pair => ?_⟩
    rw [threads] at pair
    rw [preempt, update_of_ne (Ne.symm is)]
    exact left.ahead pair

/-- At the end of the last handler a thread whose quantum is used up goes behind its equals. -/
theorem Left.exit (sched : SchedOk c) (sched' : SchedOk c.irqEpilogue) (thread : c.isr = []) (mem : b ∈ c.queue .rQueue)
    (still : b ∈ c.irqEpilogue.queue .rQueue) (before : c.pPrio a = c.pPrio b)
    (after : c.irqEpilogue.pPrio a = c.irqEpilogue.pPrio b)
    (running : c.currp = a → c.pPreempt a = 0 ∨ max (c.pPreempt a) 1 ≤ n)
    (ahead : [a, b].Sublist (c.queue .rQueue) → max (c.pPreempt a) 1 ≤ n) : Left a b n c.irqEpilogue := by
  have entering : SameTurn c ({ c with locked := true }.push .sysUnlock) :=
    (sched.tidy mem).same rfl rfl rfl rfl rfl rfl .rfl fun _ _ => rfl
  have entered := entering.tidy
  have highest := sched.le_firstprio b mem
  by_cases exhausted : c.currp = a ∧ c.pPreempt a = 0
  · obtain ⟨rfl, used⟩ := exhausted
    have required : c.chSchIsPreemptionRequired = true := by
      simpa [chSchIsPreemptionRequired, used] using before.le.trans highest
    have behind : c.irqEpilogue = ({ c with locked := true }.push .sysUnlock).chSchDoRescheduleBehind := by
      rw [irqEpilogue, if_pos required, chSchDoReschedule]
      exact if_pos used
    rw [behind] at sched' still after ⊢
    have refilled : (({ c with locked := true }.push .sysUnlock).chSchDoRescheduleBehind).pPreempt c.currp = chTimeQuantum :=
      update_self ..
    have switch : Switch none ({ c with locked := true }.push .sysUnlock) _ := entered.behind thread
    refine switch.left_of_refilled sched' (entered.off _) mem still after fun same => ?_
    exact absurd (refilled.symm.trans (same.trans used)) (by decide)
  · have left : Left a b n ({ c with locked := true }.push .sysUnlock) :=
      ⟨fun is => .inr ((running is).resolve_left fun used => exhausted ⟨is, used⟩), ahead⟩
    have gone : ∀ {c' : Core}, Switch none ({ c with locked := true }.push .sysUnlock) c' → SchedOk c' →
        b ∈ c'.queue .rQueue → c'.pPrio a = c'.pPrio b → Left a b n c' := fun switch sched' still after =>
      switch.left sched' (entered.off _) mem still after (by simp) left
    revert sched' still after
    rw [irqEpilogue]
    split
    · rw [chSchDoReschedule]
      split
      · exact gone (entered.behind thread)
      · exact gone (entered.ahead thread)
    · exact fun _ _ _ => ⟨left.running, left.ahead⟩

/-! ## Quanta -/

theorem Core.runFirst_preempt (c : Core) : c.runFirst.pPreempt = c.pPreempt := by
  unfold runFirst
  split
  · rfl
  next removed =>
    obtain ⟨l, -, rfl⟩ := fifoRemove_some removed
    rfl

/-- No thread has more than a quantum left. -/
theorem Move.quantum {φ : Foot} (move : Move φ c c') (le : ∀ t, c.pPreempt t ≤ chTimeQuantum) :
    ∀ t, c'.pPreempt t ≤ chTimeQuantum := by
  have refilled : ∀ u t, update c.pPreempt u chTimeQuantum t ≤ chTimeQuantum := fun u t => by
    rw [update_apply]
    split
    · exact le_rfl
    · exact le t
  intro t
  cases move with
  | wakeS u m =>
    rw [chSchWakeupS]
    split <;> exact le t
  | sleep =>
    rw [chSchGoSleepS]
    exact (congrFun (runFirst_preempt _) t).trans_le (refilled _ t)
  | ahead => exact (congrFun (runFirst_preempt c) t).trans_le (le t)
  | behind =>
    show update c.runFirst.pPreempt c.currp chTimeQuantum t ≤ _
    rw [runFirst_preempt]
    exact refilled _ t
  | sleepReturn =>
    simp only [Core.sleepReturn, Core.ret]
    split <;> exact le t
  | create => exact refilled _ t
  | boost u prio =>
    rw [boosted]
    split <;> exact le t
  | tick _ _ _ ticked =>
    rw [(chSysTimerHandlerI_frame ticked).2.2.2, update_apply]
    split
    · exact (Nat.sub_le ..).trans (le _)
    · exact le t
  | tickLoop isr r =>
    obtain ⟨vt, _ | _⟩ := r <;> exact le t
  | _ => exact le t

theorem Moves.quantum {φ : Foot} (moves : Moves φ c c') (le : ∀ t, c.pPreempt t ≤ chTimeQuantum) :
    ∀ t, c'.pPreempt t ≤ chTimeQuantum := by
  induction moves with
  | refl => exact le
  | tail _ move ih => exact move.quantum ih

theorem reach_quantum {cfg : Config} (reached : (kernelLts cfg).Reach (fun _ _ => True) s) :
    ∀ t, s.pPreempt t ≤ chTimeQuantum := by
  refine (reached.invariant (I := fun s => KernelOk False s ∧ ∀ t, s.pPreempt t ≤ chTimeQuantum) ⟨.init False cfg, fun _ => le_rfl⟩
    fun s l s' ⟨ok, le⟩ _ taken => ?_).2
  obtain ⟨effect, ok'⟩ := next_step ok nofun taken
  exact ⟨ok', effect.moves.quantum le⟩

/-! ## Runs -/

/-- The kernel, and how many ticks have found `a` running. -/
structure Watch where
  sys : Sys
  ticks : Nat

/-- A step of the kernel in which `b` stays ready, as high as `a`. A tick interrupts no other handler, so that it returns to
the thread. -/
def Watch.next (a b : Tid) (l : Label) (w : Watch) : Option Watch :=
  (Kernel.next l w.sys).bind fun s =>
    if (l = .tick → w.sys.isr = []) ∧ s.pState b = .ready ∧ s.pPrio a = s.pPrio b then
      some ⟨s, (if l = .tick ∧ w.sys.currp = a then 1 else 0) + w.ticks⟩
    else none

def overtaking (a b : Tid) (s : Sys) : Lts Watch Label where
  init := ⟨s, 0⟩
  next := Watch.next a b

structure WatchOk (a b : Tid) (w : Watch) : Prop where
  ok : KernelOk False w.sys
  ready : w.sys.pState b = .ready
  equal : w.sys.pPrio a = w.sys.pPrio b
  budget : ∃ n, w.ticks + n ≤ chTimeQuantum ∧ Left a b n w.sys.toCore

theorem Watch.next_some (taken : Watch.next a b l w = some w') : Kernel.next l w.sys = some w'.sys ∧
    (l = .tick → w.sys.isr = []) ∧ w'.sys.pState b = .ready ∧ w'.sys.pPrio a = w'.sys.pPrio b ∧
    w'.ticks = (if l = .tick ∧ w.sys.currp = a then 1 else 0) + w.ticks := by
  obtain ⟨s, step, rest⟩ := Option.bind_eq_some_iff.1 taken
  simp only [Option.ite_none_right_eq_some, Option.some.injEq] at rest
  obtain ⟨⟨direct, ready, equal⟩, rfl⟩ := rest
  exact ⟨step, direct, ready, equal, rfl⟩

theorem SchedOk.ready_mem {c : Core} {t : Tid} (sched : SchedOk c) (ready : c.pState t = .ready) : t ∈ c.queue .rQueue :=
  sched.mem_ready (sched.lt_of_ne_suspended (by rw [ready]; nofun)) (by simp) ready

theorem WatchOk.step (inv : WatchOk a b w) (other : a ≠ b) (notHeir : l.heir w.sys ≠ some a)
    (taken : Watch.next a b l w = some w') : WatchOk a b w' := by
  obtain ⟨step, direct, ready, equal, ticks⟩ := Watch.next_some taken
  have ok' := (next_step inv.ok nofun step).2
  have mem := inv.ok.core.sched.ready_mem inv.ready
  have still := ok'.core.sched.ready_mem ready
  obtain ⟨n, spent, left⟩ := inv.budget
  refine ⟨ok', ready, equal, ?_⟩
  have quiet : l ≠ .tick → Left a b n w'.sys.toCore → ∃ n, w'.ticks + n ≤ chTimeQuantum ∧ Left a b n w'.sys.toCore :=
    fun notTick left => ⟨n, by rw [ticks, if_neg (notTick ·.1)]; omega, left⟩
  by_cases isTick : l = .tick
  · subst isTick
    simp only [next, Option.ite_none_right_eq_some] at step
    obtain ⟨c, ticked, is⟩ := Option.map_eq_some_iff.1 step.2
    obtain ⟨m, less, left'⟩ := left.tick inv.ok.core.sched (direct rfl) ticked
    refine ⟨m, ?_, is ▸ left'⟩
    rw [ticks]
    simp only [true_and]
    omega
  · refine quiet isTick ?_
    by_cases enters : l = .isrEnter
    · subst enters
      simp only [next, Option.ite_none_left_eq_some, Option.some.injEq] at step
      obtain ⟨-, is⟩ := step
      rw [← is]
      exact ⟨fun own => (left.running own).imp_left fun within => ⟨List.cons_ne_nil _ _, within.2⟩, left.ahead⟩
    by_cases leaves : l = .isrExit
    · subst leaves
      rcases next_isrExit step with ⟨-, is⟩ | ⟨isr, -, nested, is⟩
      · rw [is] at ok' still equal ⊢
        exact Left.exit inv.ok.core.sched ok'.core.sched rfl mem still inv.equal equal
          (fun own => (left.running own).imp_left (·.2)) left.ahead
      · rw [is]
        exact ⟨fun own => (left.running own).imp_left fun within => ⟨nested, within.2⟩, left.ahead⟩
    · exact (next_turn inv.ok mem step isTick enters leaves).left inv.ok.core.sched ok'.core.sched mem still inv.equal equal
        other notHeir left

/-- While `b` stays ready and the priorities of `a` and `b` stay the same, at most a quantum of ticks finds `a` running, in
every run in which no `chMtxUnlock` hands the processor to `a`. -/
theorem bounded_overtaking {cfg : Config} (reached : (kernelLts cfg).Reach (fun _ _ => True) s) (other : a ≠ b)
    (ready : s.pState b = .ready) (equal : s.pPrio a = s.pPrio b)
    (run : (overtaking a b s).Reach (fun w l => l.heir w.sys ≠ some a) w) : w.ticks ≤ chTimeQuantum := by
  have le := reach_quantum reached a
  have start : WatchOk a b (overtaking a b s).init := {
    ok := reach_kernelOk (fun _ _ _ => nofun) reached
    ready := ready
    equal := equal
    budget := ⟨chTimeQuantum, le_of_eq (zero_add _), fun _ => .inr (max_le le (by decide)), fun _ => max_le le (by decide)⟩ }
  obtain ⟨n, spent, -⟩ := (run.invariant start fun w l w' inv notHeir taken => inv.step other notHeir taken).budget
  exact (Nat.le_add_right ..).trans spent

/-- The main thread runs, and a thread that it created is ready behind it. -/
theorem bounded_overtaking_ticks : ∃ s w, (kernelLts smallConfig).run [.call (.thdCreate 64 .static), .run]
    (chSysInit smallConfig) =
      some s ∧ (overtaking 0 2 s).run [.tick, .isrExit, .tick, .isrExit, .tick] ⟨s, 0⟩ = some w ∧ w.ticks = 3 ∧
    w.ticks ≤ chTimeQuantum := by
  refine ⟨_, _, rfl, rfl, rfl, ?_⟩
  have reached := @Lts.Reach.of_run _ _ (kernelLts smallConfig) (fun _ _ => true) [.call (.thdCreate 64 .static), .run] _ rfl rfl
  refine bounded_overtaking (a := 0) (b := 2) (reached.mono fun _ _ _ => trivial) (by decide) rfl rfl
    (@Lts.Reach.of_run _ _ (overtaking 0 2 _) (fun w l => l.heir w.sys ≠ some 0) [.tick, .isrExit, .tick, .isrExit, .tick] _ rfl rfl
      |>.mono fun _ _ permitted => of_decide_eq_true permitted)

/-- Thread 2 has locked two mutexes and owes its priority, 64 instead of 10, to thread 3 that waits for the second one. The
main thread runs; threads 2 and 4 are ready, in this order. -/
def heirStart : List Label :=
  [.call (.thdCreate 10 .static), .run, .call (.semWait 0), .run, .call (.mtxLock 0), .run, .call (.mtxLock 1), .run,
    .call (.thdCreate 64 .static), .run, .call (.mtxLock 1), .run, .call (.semSignal 0), .run, .call .thdYield, .run, .run,
    .call (.thdCreate 64 .static), .run]

/-- After one tick the main thread waits for the first mutex. Thread 2 unlocks both; the second `chMtxUnlock` leaves it with
priority 10, and makes the main thread run before thread 4. -/
def heirRace : List Label :=
  [.tick, .isrExit, .call (.mtxLock 0), .run, .call .mtxUnlock, .run, .call .mtxUnlock, .run] ++
    (List.replicate 19 [.tick, .isrExit]).flatten ++ [.tick]

/-- What the race starts from, and what it comes to. -/
structure HeirShown where
  ready : TState
  prios : Nat × Nat
  ticks : Option Nat
deriving DecidableEq

theorem bounded_overtaking_heir : ((kernelLts smallConfig).run heirStart (chSysInit smallConfig)).map (fun s =>
    { ready := s.pState 4, prios := (s.pPrio 0, s.pPrio 4), ticks := ((overtaking 0 4 s).run heirRace ⟨s, 0⟩).map Watch.ticks }) =
    some ({ ready := .ready, prios := (64, 64), ticks := some (chTimeQuantum + 1) } : HeirShown) := by
  decide +kernel

end ChibiOS.Kernel
