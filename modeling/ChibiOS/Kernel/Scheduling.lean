import ChibiOS.Kernel.Steps

/-!
# The scheduler's invariant

Every state that the kernel reaches is in order: the ready list is sorted and
holds exactly the threads that are ready, and whenever the kernel is unlocked in
thread context, or the last interrupt handler has ended, no ready thread is above
the running one.
-/

namespace ChibiOS.Kernel

open Function
open Lib

/-! ## The initial state -/

theorem SchedOk.init : SchedOk Core.init := by
  have mem : ∀ q t, t ∈ Core.init.queue q → q = .rQueue ∧ t = idleThread := fun q t mem => by
    by_cases same : q = .rQueue
    · subst same
      exact ⟨rfl, List.mem_singleton.1 mem⟩
    · simp [Core.init, same] at mem
  have single : ∀ q, Core.init.queue q = [] ∨ Core.init.queue q = [idleThread] := fun q => by
    simp only [Core.init]
    split <;> simp
  refine
    { nodup := fun q => ?_
      member := fun q t is => ?_
      unique := fun q q' t is is' => (mem q t is).1.trans (mem q' t is').1.symm
      queued := fun t lt _ state => ?_
      obj := fun q t is isObj => ?_
      sorted := fun q _ => ?_
      current := fun t _ => ?_
      curLt := fun t is => ?_
      floatLt := nofun
      prio := fun t _ => ?_
      fresh := fun t ge => ?_
      idle := ⟨by decide, .inr (.inl rfl)⟩ }
  · rcases single q with is | is <;> rw [is] <;> simp
  · obtain ⟨rfl, rfl⟩ := mem q t is
    exact ⟨nofun, rfl, by decide⟩
  · have : t = 0 ∨ t = 1 := by change t < 2 at lt; omega
    rcases this with rfl | rfl
    · cases state
    · exact ⟨.rQueue, List.mem_singleton_self _⟩
  · obtain ⟨rfl, -⟩ := mem q t is
    cases isObj
  · rcases single q with is | is <;> rw [is]
    · exact .nil
    · exact List.pairwise_singleton ..
  · simp only [Core.init]
    split
    next is =>
      exact ⟨fun _ => by rw [is], fun _ => rfl⟩
    next other =>
      refine ⟨fun bad => ?_, fun is => absurd (Option.some.inj is).symm other⟩
      split at bad <;> cases bad
  · cases is
    exact ⟨by decide, nofun⟩
  · simp only [Core.init]
    split <;> decide
  · change 2 ≤ t at ge
    have notMain : t ≠ mainThread := by rintro rfl; exact absurd ge (by decide)
    have notIdle : t ≠ idleThread := by rintro rfl; exact absurd ge (by decide)
    simp [Core.init, notMain, notIdle]

theorem CoreOk.init : CoreOk Core.init where
  sched := .init
  ask := fun t => by
    have plain : Plain (Core.init.pCtx t) := by
      simp only [Core.init]
      split <;> simp [Plain, Frame.asks]
    exact .inr (.inr ⟨plain.asksFor _, plain.direct⟩)
  calm := fun _ t mem => by
    obtain rfl := List.mem_singleton.1 mem
    decide
  ctl := by
    refine ⟨fun t other => ?_, ⟨.nil, nofun⟩, fun bad => absurd rfl bad, fun f mem => ?_⟩
    · simp only [Core.init]
      split
      · exact ⟨.nil, nofun⟩
      · exact ⟨.singleton _, by simp [Frame.unlocked]⟩
    · exact List.mem_singleton.1 mem
  timed := by
    refine ⟨.init, (fun v f is => by cases is), .nil, fun t => ⟨.awake, rfl, .awake ?_ ?_ fun bad => by cases bad⟩⟩
    · simp only [Core.init, InSleep]
      split <;> simp
    · simp [Core.Armed, Core.init, chVTIsArmedI, vtInit]

theorem KernelOk.init (exact : Prop) (cfg : Config) : KernelOk exact (chSysInit cfg) where
  core := .init
  due := .quiet rfl
  mtx := by
    have unwaited : ∀ m, (chSysInit cfg).queue (.mQueue m) = [] := fun m => by simp [chSysInit, Core.init]
    have none : ∀ w t, ¬ Waits (chSysInit cfg).toCore (chSysInit cfg).toMutexes w t := fun w t ⟨m, bad, _⟩ => by cases bad
    refine ⟨⟨fun t => ⟨[], rfl, fun m => ?_, .nil⟩, nofun⟩, fun m waited => absurd (unwaited m) waited, fun t => ?_,
      fun t _ => .inl le_rfl, fun _ w t waits => absurd waits (none w t), fun t f mem => ?_⟩
    · simp [chSysInit]
    · simp only [chSysInit, Core.init]
      split <;> decide
    · simp only [chSysInit, Core.init] at mem
      split at mem
      · cases mem
      · rw [List.mem_singleton.1 mem]
        nofun

/-- Every reached state is in order; with `exact`, in runs in which no thread changes
its own priority. -/
theorem reach_kernelOk {exact : Prop} {cfg : Config} {ok : Sys → Label → Prop} {s : Sys}
    (steady : ∀ s l, ok s l → exact → ∀ p, l ≠ .call (.thdSetPriority p)) (reached : (kernelLts cfg).Reach ok s) :
    KernelOk exact s :=
  reached.invariant (I := KernelOk exact) (.init exact cfg) fun s l _ inv permitted taken =>
    (next_step inv (steady s l permitted) taken).2

/-! ## The invariant -/

/-- The ready list is in order, and one thread runs. -/
structure ReadyOk (s : Sys) : Prop where
  nodup : (s.queue .rQueue).Nodup
  sorted : (s.queue .rQueue).Pairwise fun a b => s.pPrio b ≤ s.pPrio a
  ready : ∀ t, t ∈ s.queue .rQueue ↔ s.pState t = .ready
  current : ∀ t, s.pState t = .current ↔ t = s.currp

/-- No ready thread is above the running one. -/
def Highest (s : Sys) : Prop := ∀ t, s.pState t = .ready → s.pPrio t ≤ s.pPrio s.currp

theorem SchedOk.mem_ready_iff {c : Core} (sched : SchedOk c) (t : Tid) : t ∈ c.queue .rQueue ↔ c.pState t = .ready := by
  constructor
  · intro mem
    exact (sched.member _ t mem).2.1
  · intro ready
    exact sched.mem_ready (sched.lt_of_ne_suspended (by rw [ready]; nofun)) nofun ready

theorem SchedOk.readyOk {s : Sys} (sched : SchedOk s.toCore) : ReadyOk s where
  nodup := sched.nodup _
  sorted := sched.sorted _ rfl
  ready := sched.mem_ready_iff
  current t := (sched.current t nofun).trans ⟨fun is => (Option.some.inj is).symm, fun is => is ▸ rfl⟩

theorem CoreOk.highest {s : Sys} (ok : CoreOk s.toCore) (quiet : s.due = false) : Highest s := fun t ready =>
  ok.calm quiet t ((ok.sched.mem_ready_iff t).2 ready)

/-- Runs are any sequences of calls, frames and interrupts. In every state the ready
list is in order. The running thread is the highest when the kernel is unlocked in
thread context, and when the last interrupt handler has ended. -/
theorem scheduler_invariant {cfg : Config} {s : Sys} (reached : (kernelLts cfg).Reach (fun _ _ => True) s) :
    ReadyOk s ∧ (s.isr = [] → s.locked = false → Highest s) ∧
      ∀ s', next .isrExit s = some s' → s'.isr = [] → ReadyOk s' ∧ Highest s' := by
  have ok : KernelOk False s := reach_kernelOk (fun _ _ _ => nofun) reached
  refine ⟨ok.core.sched.readyOk, fun thread unlocked => ok.core.highest (ok.due.of_unlocked thread unlocked),
    fun s' taken last => ?_⟩
  have ok' : KernelOk False s' := (next_step ok nofun taken).2
  refine ⟨ok'.core.sched.readyOk, ok'.core.highest ?_⟩
  rcases next_isrExit taken with ⟨-, rfl⟩ | ⟨isr, -, nested, rfl⟩
  · exact irqEpilogue_due
  · exact absurd last nested

/-- A small application. -/
def smallConfig : Config where
  nmtx := 2
  semInit := fun _ => 0
  mbSize := fun _ => 1
  mbSize_pos := fun _ => Nat.one_pos
  qSize := fun _ => 4
  qSize_pos := fun _ => by decide
  qNotify := fun _ => false

/-- A thread above the main one waits for a semaphore and is woken by an interrupt. -/
theorem scheduler_invariant_preempts : ∃ s s',
    (kernelLts smallConfig).run [.call (.thdCreate 70 .heap), .run, .call (.semWait 0), .run, .isrEnter,
      .icall (.semSignalI 0)] (chSysInit smallConfig) = some s ∧
    next .isrExit s = some s' ∧ s'.currp = 2 ∧ s'.queue .rQueue = [0, 1] ∧ ReadyOk s' ∧ Highest s' :=
  Lts.exists_run₂ (by rfl) rfl fun reached => ⟨_, rfl, rfl, rfl, (scheduler_invariant reached).2.2 _ rfl rfl⟩

end ChibiOS.Kernel
