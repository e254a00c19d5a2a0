import ChibiOS.Kernel.Contexts

/-!
# Who is woken

What the functions of the kernel do to the threads that do not run: one that is taken
out of its wait gets a message, once; the others wait on, or are awake as before.
-/

namespace ChibiOS.Kernel

open Function
open Lib Kernel.Core

/-- Ready or running. -/
def Core.awake (t : Tid) (c : Core) : Prop := c.pState t = .ready ∨ c.pState t = .current

/-- The times a thread has been taken out of a wait. -/
def Core.wakes (t : Tid) (c : Core) : Nat := c.hist.count (.wake t)

/-- A thread waits on, or is awake as before. -/
structure Undisturbed (t : Tid) (c c' : Core) : Prop where
  state : c'.pState t = c.pState t ∨ c.awake t ∧ c'.awake t
  u : c'.pU t = c.pU t
  wakes : c'.wakes t = c.wakes t

/-- A thread is taken out of its wait, with a message. -/
structure Woken (t : Tid) (m : Msg) (c c' : Core) : Prop where
  waited : (c.pState t).waits = true
  awake : c'.awake t
  u : c'.pU t = .rdymsg m
  wakes : c'.wakes t = c.wakes t + 1

/-- The threads of a list are woken, and no others. -/
structure WakesAll (l : List Tid) (m : Msg) (c c' : Core) : Prop where
  woken : ∀ t ∈ l, Woken t m c c'
  others : ∀ t, t ∉ l → Undisturbed t c c'

variable {c c' c'' : Core} {t x : Tid} {m : Msg} {l : List Tid} {q : QueueId}

theorem Undisturbed.congr (state : c'.pState t = c.pState t) (u : c'.pU t = c.pU t) (hist : c'.hist = c.hist) :
    Undisturbed t c c' :=
  ⟨.inl state, u, by rw [Core.wakes, hist]; rfl⟩

theorem Undisturbed.refl (t : Tid) (c : Core) : Undisturbed t c c := .congr rfl rfl rfl

theorem Undisturbed.awake (same : Undisturbed t c c') (awake : c.awake t) : c'.awake t := by
  rcases same.state with is | ⟨-, awake'⟩
  · rwa [Core.awake, is]
  · exact awake'

theorem Undisturbed.trans (left : Undisturbed t c c') (right : Undisturbed t c' c'') : Undisturbed t c c'' := by
  refine ⟨?_, right.u.trans left.u, right.wakes.trans left.wakes⟩
  rcases left.state with is | ⟨awake, awake'⟩
  · rcases right.state with is' | ⟨awake', awake''⟩
    · exact .inl (is'.trans is)
    · exact .inr ⟨by rwa [Core.awake, ← is], awake''⟩
  · exact .inr ⟨awake, right.awake awake'⟩

theorem Woken.after (woken : Woken t m c c') (right : Undisturbed t c' c'') : Woken t m c c'' :=
  ⟨woken.waited, right.awake woken.awake, right.u.trans woken.u, right.wakes.trans woken.wakes⟩

/-- It was waiting before, too. -/
theorem Undisturbed.waited (left : Undisturbed t c c') (waits : (c'.pState t).waits = true) : (c.pState t).waits = true := by
  rcases left.state with is | ⟨-, ready | running⟩
  · rwa [← is]
  · rw [ready] at waits; cases waits
  · rw [running] at waits; cases waits

theorem Woken.before (woken : Woken t m c' c'') (left : Undisturbed t c c') : Woken t m c c'' :=
  ⟨left.waited woken.waited, woken.awake, woken.u, woken.wakes.trans (congrArg (· + 1) left.wakes)⟩

theorem WakesAll.after (wakes : WakesAll l m c c') (right : ∀ t, Undisturbed t c' c'') : WakesAll l m c c'' :=
  ⟨fun t mem => (wakes.woken t mem).after (right t), fun t notMem => (wakes.others t notMem).trans (right t)⟩

theorem WakesAll.before (wakes : WakesAll l m c' c'') (left : ∀ t, Undisturbed t c c') : WakesAll l m c c'' :=
  ⟨fun t mem => (wakes.woken t mem).before (left t), fun t notMem => (left t).trans (wakes.others t notMem)⟩

theorem Undisturbed.readyI (other : t ≠ x) : Undisturbed t c (c.chSchReadyI x) := by
  refine ⟨.inl (update_of_ne other ..), rfl, ?_⟩
  simp only [chSchReadyI]
  split
  · exact List.count_cons_of_ne (by simpa using other.symm)
  · rfl

theorem WakesAll.readyMsg (m : Msg) (waits : (c.pState t).waits = true) : WakesAll [t] m c (c.readyMsg t m) := by
  refine ⟨fun x mem => ?_, fun x notMem => ?_⟩
  · rw [List.mem_singleton] at mem
    subst mem
    refine ⟨waits, .inl (update_self ..), update_self .., ?_⟩
    simp [wakes, readyMsg, setU, chSchReadyI, waits]
  · have other : x ≠ t := by simpa using notMem
    obtain ⟨state, -, wakes⟩ := Undisturbed.readyI other
    exact ⟨state, update_of_ne other .., wakes⟩

/-- Who is first runs. -/
theorem Undisturbed.runFirst (sched : ∀ h ∈ c.queue .rQueue, c.pState h = .ready) : Undisturbed t c c.runFirst := by
  cases first : c.queue .rQueue with
  | nil => simpa [Core.runFirst, fifoRemove, first] using .refl t c
  | cons h l =>
    rw [runFirst_eq first]
    refine ⟨?_, rfl, rfl⟩
    by_cases same : t = h
    · subst same
      exact .inr ⟨.inl (sched t (by rw [first]; exact .head _)), .inr (update_self ..)⟩
    · exact .inl (update_of_ne same ..)

theorem SchedOk.ready_of_mem (sched : SchedOk c) : ∀ h ∈ c.queue .rQueue, c.pState h = .ready := fun h mem =>
  (sched.member .rQueue h mem).2.1

theorem Undisturbed.rescheduleS (sched : SchedOk c) (t : Tid) : Undisturbed t c c.chSchRescheduleS := by
  rw [chSchRescheduleS]
  split
  · obtain ⟨state, u, wakes⟩ := runFirst sched.ready_of_mem
    refine ⟨?_, u, wakes⟩
    by_cases same : t = c.currp
    · subst same
      exact .inr ⟨.inr sched.currp_state, .inl (update_self ..)⟩
    · simpa only [Core.awake, Core.chSchDoRescheduleAhead, update_of_ne same] using state
  · exact .congr rfl rfl rfl

theorem Undisturbed.goSleepS (st : TState) (sched : ∀ h ∈ c.queue .rQueue, c.pState h = .ready)
    (current : c.pState c.currp = .current)
    (other : t ≠ c.currp) : Undisturbed t c (c.chSchGoSleepS st) := by
  have parked : Undisturbed t c (c.parked st) := .congr (update_of_ne other ..) rfl rfl
  have ran : Undisturbed t (c.parked st) (c.parked st).runFirst := .runFirst fun h mem => by
    refine (update_of_ne ?_ ..).trans (sched h mem)
    rintro rfl
    cases (sched _ mem).symm.trans current
  obtain ⟨state, u, wakes⟩ := parked.trans ran
  exact ⟨state, u, wakes⟩

/-- The state a thread sleeps in. -/
theorem Core.chSchGoSleepS_state {c : Core} (st : TState) (ready : ∀ h ∈ c.queue .rQueue, c.pState h = .ready)
    (current : c.pState c.currp = .current) : (c.chSchGoSleepS st).pState c.currp = st := by
  have parked : (c.parked st).pState c.currp = st := update_self ..
  cases first : c.queue .rQueue with
  | nil =>
    have same : (c.parked st).runFirst = c.parked st := by
      rw [runFirst, fifoRemove, show (c.parked st).queue .rQueue = [] from first]
    exact (congrArg (fun c' : Core => c'.pState c.currp) same).trans parked
  | cons h l =>
    have apart : c.currp ≠ h := by
      rintro rfl
      have bad := ready c.currp (by rw [first]; exact .head _)
      rw [current] at bad
      cases bad
    have is : (c.parked st).runFirst = (c.parked st).switch h l := runFirst_eq first
    exact (congrArg (fun c' : Core => c'.pState c.currp) is).trans ((update_of_ne apart ..).trans parked)

theorem Undisturbed.goSleepTimeoutS (st : TState) (time : Systime) (sched : ∀ h ∈ c.queue .rQueue, c.pState h = .ready)
    (current : c.pState c.currp = .current) (other : t ≠ c.currp) : Undisturbed t c (c.chSchGoSleepTimeoutS st time) := by
  rw [chSchGoSleepTimeoutS]
  split
  · split
    · exact .refl t c
    next vt _ =>
      have armed : Undisturbed t c ({ c with vt := vt, hist := .sleep c.currp :: c.hist }.push .goSleepTimeout) :=
        ⟨.inl rfl, rfl, List.count_cons_of_ne (by simp)⟩
      exact armed.trans (.goSleepS st sched current other)
  · have pushed : Undisturbed t c (c.push .rdymsg) := .congr rfl rfl rfl
    exact pushed.trans (.goSleepS st sched current other)

theorem WakesAll.wakeupS (m : Msg) (current : c.pState c.currp = .current) (waits : (c.pState t).waits = true) :
    WakesAll [t] m c (c.chSchWakeupS t m) := by
  have other : c.currp ≠ t := by
    rintro rfl
    rw [current] at waits
    cases waits
  have stored : ∀ x, x ≠ t → Undisturbed x c (c.setU t (.rdymsg m)) := fun x other =>
    .congr rfl (update_of_ne other ..) rfl
  rw [chSchWakeupS]
  split
  · obtain ⟨woken, others⟩ := readyMsg m waits
    exact ⟨fun x mem => { woken x mem with }, fun x notMem => { others x notMem with }⟩
  · refine ⟨fun x mem => ?_, fun x notMem => ?_⟩
    · rw [List.mem_singleton] at mem
      subst mem
      refine ⟨waits, .inr (update_self ..), update_self .., ?_⟩
      simp [wakes, chSchReadyI, setU, current, TState.waits]
    · have apart : x ≠ t := by simpa using notMem
      refine ⟨?_, update_of_ne apart .., ?_⟩
      · by_cases mine : x = c.currp
        · subst mine
          exact .inr ⟨.inr current, .inl (by simp [chSchReadyI, setU, other])⟩
        · exact .inl (by simp [chSchReadyI, setU, apart, mine])
      · simp [wakes, chSchReadyI, setU, current, TState.waits, apart.symm]

/-- The loops that empty a list with a message. -/
theorem WakesAll.flush (m : Msg) : ∀ (l : List Tid) {c : Core}, c.queue q = l → q ≠ .rQueue → l.Nodup →
    (∀ t ∈ l, (c.pState t).waits = true) → WakesAll l m c (c.flush q (.readyMsg · m) l.length) ∧
      (c.flush q (.readyMsg · m) l.length).queue q = []
  | [], c, empty, _, _, _ => ⟨⟨nofun, fun t _ => .refl t c⟩, empty⟩
  | t :: l, c, is, notReady, nodup, waits => by
    obtain ⟨notMem, nodup'⟩ := List.nodup_cons.1 nodup
    have readied : WakesAll [t] m c ((c.setQueue q l).readyMsg t m) := by
      obtain ⟨woken, others⟩ := WakesAll.readyMsg m (waits t (.head _))
      exact ⟨fun x mem => { woken x mem with }, fun x notMem => { others x notMem with }⟩
    have rest : ((c.setQueue q l).readyMsg t m).queue q = l := by
      simp [Core.readyMsg, setU, chSchReadyI, Core.setQueue, notReady]
    obtain ⟨wakes, done⟩ := WakesAll.flush m l rest notReady nodup' fun x mem => by
      rw [show ((c.setQueue q l).readyMsg t m).pState x = c.pState x from
        update_of_ne (ne_of_mem_of_not_mem mem notMem) ..]
      exact waits x (List.mem_cons_of_mem t mem)
    have first : c.fifoRemove q = some (t, c.setQueue q l) := by simp [fifoRemove, is]
    rw [List.length_cons, Core.flush, first]
    refine ⟨⟨fun x mem => ?_, fun x off => ?_⟩, done⟩
    · rcases List.mem_cons.1 mem with rfl | mem
      · exact (readied.woken x (List.mem_singleton_self x)).after (wakes.others x notMem)
      · exact (wakes.woken x mem).before (readied.others x (by simpa using ne_of_mem_of_not_mem mem notMem))
    · obtain ⟨apart, off⟩ := not_or.1 (List.mem_cons.not.1 off)
      exact (readied.others x (by simpa using apart)).trans (wakes.others x off)

/-- In a lock zone a list is emptied, and the processor goes to whoever is first then. -/
theorem Outside.flush_wakes (φ : Foot) {s : Sys} (ok : CoreOk s.toCore) (outside : Outside s) (notReady : q ≠ .rQueue)
    (foot : φ.state q.tstate = true) (msg : m ≠ rdyTimeout) :
    WakesAll (s.queue q) m s.toCore (s.enter.toCore.flush q (.readyMsg · m) (s.queue q).length).chSchRescheduleS ∧
      (s.enter.toCore.flush q (.readyMsg · m) (s.queue q).length).chSchRescheduleS.queue q = [] := by
  have ok' := (outside.enter (φ := φ) ok).ok
  obtain ⟨wakes, empty⟩ := WakesAll.flush m _ rfl notReady (ok'.sched.nodup _) fun t mem => by
    rw [(ok'.sched.member _ t mem).2.1]
    cases q <;> first | rfl | exact absurd rfl notReady
  have readied : IEffect φ s.enter _ := .flush ok' notReady foot msg
  have told := wakes.before (c := s.toCore) fun t => .congr rfl rfl rfl
  refine ⟨told.after fun t => .rescheduleS (readied.coreOk ok').sched t, ?_⟩
  rwa [SameLists.rescheduleS _ _ notReady]

end ChibiOS.Kernel
