import ChibiOS.Kernel.Moves
import ChibiOS.Kernel.TimeRefinement

/-!
# The phases of a timed sleep

`phase t` reads the history of a thread's waits: a timed sleep is begun, ended
once, by the timer or by someone else, and returned from. A history that is not
of this form has no phase. `TimedOk` ties the phase to the state: while asleep
the thread's timer is armed, or its callback is on its way; once woken the
thread is ready or running with the message it will return; otherwise its timer
is off.
-/

namespace ChibiOS.Kernel

open Function
open Lib Kernel.Core

/-- The thread whose wait it is. -/
def WaitEvent.thread : WaitEvent → Tid
  | sleep tp | wake tp | timeout tp | ret tp _ => tp

inductive Phase
  | awake
  | asleep
  /-- The timer is ending the sleep. -/
  | late
  | woken (byTimer : Bool)
deriving DecidableEq

/-- The next phase of the thread that `e` is about. -/
def Phase.next : Phase → WaitEvent → Option Phase
  | awake, .sleep _ => some asleep
  | awake, .wake _ => some awake
  | asleep, .timeout _ => some late
  | asleep, .wake _ => some (woken false)
  | late, .wake _ => some (woken true)
  | woken byTimer, .ret _ m => if decide (m = rdyTimeout) = byTimer then some awake else none
  | _, _ => none

/-- The phase of thread `t` after a history, newest first. -/
def phase (t : Tid) : List WaitEvent → Option Phase
  | [] => some .awake
  | e :: h => (phase t h).bind fun p => if e.thread = t then p.next e else some p

/-- The timer callback of the sleep of `t` is on its way. -/
def Core.Pending (t : Tid) (c : Core) : Prop := .tick (some (.wakeup t)) ∈ c.isr

/-- The timer of the sleep of `t` is armed. -/
def Core.Armed (t : Tid) (c : Core) : Prop := chVTIsArmedI (.stack t) c.vt = true

/-- The thread is in the middle of `chSchGoSleepTimeoutS`. -/
def InSleep (fs : List Frame) : Prop := fs.head? = some .goSleepTimeout

/-- What the phase of a thread says about its state. -/
inductive PhaseOk (t : Tid) (c : Core) : Phase → Prop
  | awake : ¬ InSleep (c.pCtx t) → ¬ c.Armed t → ¬ c.Pending t → PhaseOk t c .awake
  | asleep : InSleep (c.pCtx t) → (c.pState t).timed = true → (c.Armed t ↔ ¬ c.Pending t) → PhaseOk t c .asleep
  | woken (m : Msg) : InSleep (c.pCtx t) → c.pState t = .ready ∨ (c.pState t = .current ∧ ¬ c.Pending t) →
      c.pU t = .rdymsg m → (c.Pending t → ¬ c.Armed t) → PhaseOk t c (.woken (decide (m = rdyTimeout)))

/-- The callback of each timer. -/
def VtId.callback : VtId → Callback
  | stack tp => .wakeup tp
  | app n => .app n

structure TimedOk (c : Core) : Prop where
  vt : c.vt.Ok
  func : ∀ v f, c.vt.vtFunc v = some f → f = v.callback
  /-- At most one handler is in `chVTDoTickI`. -/
  ticks : c.isr.Pairwise fun i j => i = .handler ∨ j = .handler
  thread : ∀ t, ∃ p, phase t c.hist = some p ∧ PhaseOk t c p

variable {φ : Foot} {c c' : Core} {t : Tid}

theorem phase_of_ne {e : WaitEvent} {h : List WaitEvent} (other : e.thread ≠ t) : phase t (e :: h) = phase t h := by
  simp [phase, other]

theorem phase_of_eq {e : WaitEvent} {h : List WaitEvent} {p : Phase} (was : phase e.thread h = some p) :
    phase e.thread (e :: h) = p.next e := by
  simp [phase, was]

namespace PhaseOk

variable {p : Phase}

variable (ok : PhaseOk t c p)
include ok

/-- A thread that nothing happened to. -/
theorem congr (ctx : c'.pCtx t = c.pCtx t) (state : c'.pState t = c.pState t)
    (u : c'.pU t = c.pU t) (armed : c'.Armed t ↔ c.Armed t) (pending : c'.Pending t ↔ c.Pending t) :
    PhaseOk t c' p := by
  cases ok with
  | awake notIn off notPending =>
    exact .awake (by rwa [ctx]) (by rwa [armed]) (by rwa [pending])
  | asleep inSleep timed is => exact .asleep (by rwa [ctx]) (by rwa [state]) (by rwa [armed, pending])
  | woken m inSleep is msg off =>
    exact .woken m (by rwa [ctx]) (by rwa [state, pending]) (by rwa [u]) (by rwa [pending, armed])

/-- Outside a timed sleep the phase is `awake`. -/
theorem eq_awake (notIn : ¬ InSleep (c.pCtx t)) : p = .awake := by
  cases ok with
  | awake => rfl
  | asleep inSleep => exact absurd inSleep notIn
  | woken _ inSleep => exact absurd inSleep notIn

/-- A thread in the middle of a timed sleep that is running has been woken. -/
theorem eq_woken (inSleep : InSleep (c.pCtx t)) (current : c.pState t = .current) :
    ∃ m, p = .woken (decide (m = rdyTimeout)) ∧ c.pU t = .rdymsg m ∧ ¬ c.Pending t := by
  cases ok with
  | awake notIn => exact absurd inSleep notIn
  | asleep _ timed => rw [current] at timed; cases timed
  | woken m _ is msg =>
    rcases is with is | ⟨_, notPending⟩
    · cases current.symm.trans is
    · exact ⟨m, rfl, msg, notPending⟩

/-- Whose timer is pending is asleep, or has been woken and not run since. -/
theorem of_pending (pending : c.Pending t) : (p = .asleep ∧ (c.pState t).timed = true) ∨ c.pState t = .ready := by
  cases ok with
  | awake _ _ notPending => exact absurd pending notPending
  | asleep _ timed => exact .inl ⟨rfl, timed⟩
  | woken m _ is =>
    rcases is with is | ⟨_, notPending⟩
    · exact .inr is
    · exact absurd pending notPending

/-- The thread is taken out of its wait, but not by its timer. -/
theorem wakes {u : PU} (c' : Core) (waits : (c.pState t).waits = true)
    (msg : (c.pState t).timed = true → ∃ m, u = .rdymsg m ∧ m ≠ rdyTimeout)
    (ctx : c'.pCtx t = c.pCtx t) (is : c'.pState t = .ready ∨ (c'.pState t = .current ∧ ¬ c'.Pending t))
    (isU : c'.pU t = u) (armed : c'.Armed t ↔ c.Armed t) (pending : c'.Pending t ↔ c.Pending t) :
    ∃ p', p.next (.wake t) = some p' ∧ PhaseOk t c' p' := by
  cases ok with
  | awake notIn off notPending => exact ⟨_, rfl, .awake (by rwa [ctx]) (by rwa [armed]) (by rwa [pending])⟩
  | asleep inSleep timed xor =>
    obtain ⟨m, rfl, other⟩ := msg timed
    refine ⟨_, rfl, ?_⟩
    have woken := PhaseOk.woken m (by rwa [ctx]) is isU (by rw [armed, pending, xor]; exact fun h h' => h' h)
    rwa [decide_eq_false other] at woken
  | woken m _ was =>
    rcases was with was | ⟨was, _⟩ <;> · rw [was] at waits; cases waits

/-- The thread is taken out of its wait by its timer. -/
theorem times_out (c' : Core) (timed : (c.pState t).timed = true) (pending : c.Pending t)
    (ctx : c'.pCtx t = c.pCtx t) (ready : c'.pState t = .ready) (isU : c'.pU t = .rdymsg rdyTimeout)
    (done : ¬ c'.Pending t) :
    ∃ p', (p.next (.timeout t)).bind (·.next (.wake t)) = some p' ∧ PhaseOk t c' p' := by
  rcases ok.of_pending pending with ⟨rfl, _⟩ | is
  · cases ok with
    | asleep inSleep => exact ⟨_, rfl, .woken rdyTimeout (by rwa [ctx]) (.inl ready) isU fun h => absurd h done⟩
  · rw [is] at timed; cases timed

/-- The thread gets the processor or gives it up. -/
theorem reschedules (was : c.pState t = .ready ∨ c.pState t = .current)
    (is : c'.pState t = .ready ∨ (c'.pState t = .current ∧ ¬ c'.Pending t)) (ctx : c'.pCtx t = c.pCtx t)
    (u : c'.pU t = c.pU t) (armed : c'.Armed t ↔ c.Armed t) (pending : c'.Pending t ↔ c.Pending t) :
    PhaseOk t c' p := by
  cases ok with
  | awake notIn off notPending => exact .awake (by rwa [ctx]) (by rwa [armed]) (by rwa [pending])
  | asleep inSleep timed => rcases was with was | was <;> · rw [was] at timed; cases timed
  | woken m inSleep _ msg off => exact .woken m (by rwa [ctx]) is (by rwa [u]) (by rwa [pending, armed])

/-- The timer of the thread expires. -/
theorem expires (armed : c.Armed t) (notCurrent : InSleep (c.pCtx t) → c.pState t ≠ .current)
    (ctx : c'.pCtx t = c.pCtx t) (state : c'.pState t = c.pState t) (u : c'.pU t = c.pU t) (off : ¬ c'.Armed t)
    (pending : c'.Pending t) : PhaseOk t c' p := by
  cases ok with
  | awake _ off => exact absurd armed off
  | asleep inSleep timed =>
    exact .asleep (by rwa [ctx]) (by rwa [state]) ⟨fun h => absurd h off, fun h => absurd pending h⟩
  | woken m inSleep is msg =>
    rcases is with is | ⟨is, _⟩
    · exact .woken m (by rwa [ctx]) (.inl (by rw [state, is])) (by rwa [u]) fun _ => off
    · exact absurd is (notCurrent inSleep)

end PhaseOk

theorem Awake.not_inSleep {fs : List Frame} (awake : Awake fs) : ¬ InSleep fs := fun inSleep => by
  have := awake _ inSleep
  cases this

namespace TimedOk

/-- Neither the timers nor the handlers nor the waits change, and every thread's
phase still fits. -/
theorem same_vt (tok : TimedOk c) (vt : c'.vt = c.vt) (isr : c'.isr = c.isr)
    (thread : ∀ t p, phase t c.hist = some p → PhaseOk t c p → ∃ p', phase t c'.hist = some p' ∧ PhaseOk t c' p') :
    TimedOk c' where
  vt := vt ▸ tok.vt
  func := vt ▸ tok.func
  ticks := isr ▸ tok.ticks
  thread t := by
    obtain ⟨p, was, ok⟩ := tok.thread t
    exact thread t p was ok

theorem congr (tok : TimedOk c) (ctx : c'.pCtx = c.pCtx) (state : c'.pState = c.pState) (u : c'.pU = c.pU)
    (vt : c'.vt = c.vt) (isr : c'.isr = c.isr) (hist : c'.hist = c.hist) : TimedOk c' := by
  refine tok.same_vt vt isr fun t p was ok => ⟨p, hist ▸ was, ?_⟩
  exact ok.congr (by rw [ctx]) (by rw [state]) (by rw [u]) (by rw [Core.Armed, vt]; rfl) (by rw [Core.Pending, isr]; rfl)

theorem wake {u : PU} (tok : TimedOk c) (waits : (c.pState t).waits = true)
    (msg : (c.pState t).timed = true → ∃ m, u = .rdymsg m ∧ m ≠ rdyTimeout) :
    TimedOk (((c.dequeue t).chSchReadyI t).setU t u) := by
  have hist : (((c.dequeue t).chSchReadyI t).setU t u).hist = .wake t :: c.hist := if_pos waits
  refine tok.same_vt rfl rfl fun x p was ok => ?_
  rw [hist]
  by_cases same : x = t
  · subst same
    obtain ⟨p', next, ok'⟩ := ok.wakes (((c.dequeue x).chSchReadyI x).setU x u) waits msg rfl
      (.inl (update_self ..)) (update_self ..) .rfl .rfl
    exact ⟨p', (phase_of_eq (e := .wake x) was).trans next, ok'⟩
  · exact ⟨p, (phase_of_ne (Ne.symm same)).trans was,
      ok.congr rfl (update_of_ne same ..) (update_of_ne same ..) .rfl .rfl⟩

theorem wakeS {m : Msg} (tok : TimedOk c) (sched : SchedOk c) (thread : c.isr = [])
    (waits : (c.pState t).waits = true) (msg : (c.pState t).timed = true → m ≠ rdyTimeout) :
    TimedOk ((c.dequeue t).chSchWakeupS t m) := by
  have msg' : (c.pState t).timed = true → ∃ m', PU.rdymsg m = .rdymsg m' ∧ m' ≠ rdyTimeout :=
    fun timed => ⟨m, rfl, msg timed⟩
  have quiet : ∀ x, ¬ c.Pending x := fun x pending => by rw [Core.Pending, thread] at pending; cases pending
  have other := sched.waits_ne_currp waits
  rw [chSchWakeupS]
  split
  · exact (tok.wake waits msg').congr rfl rfl rfl rfl rfl rfl
  · -- the running thread is ready again, and the one woken runs
    refine tok.same_vt rfl rfl fun x p was ok => ?_
    dsimp only
    have hist : (((c.dequeue t).setU t (.rdymsg m)).chSchReadyI c.currp).hist = c.hist := by
      refine if_neg ?_
      change ¬ (c.pState c.currp).waits = true
      simp [sched.currp_state, TState.waits]
    rw [show ((c.dequeue t).setU t (.rdymsg m)).currp = c.currp from rfl, hist]
    by_cases same : x = t
    · subst same
      obtain ⟨p', next, ok'⟩ := ok.wakes { ((c.dequeue x).setU x (.rdymsg m)).chSchReadyI c.currp with
        currp := x, pState := update (((c.dequeue x).setU x (.rdymsg m)).chSchReadyI c.currp).pState x .current
        due := false, hist := .wake x :: c.hist } waits msg'
        rfl (.inr ⟨update_self .., quiet x⟩) (update_self ..) .rfl .rfl
      exact ⟨p', (phase_of_eq (e := .wake x) was).trans next, ok'⟩
    · refine ⟨p, (phase_of_ne (Ne.symm same)).trans was, ?_⟩
      by_cases run : x = c.currp
      · subst run
        refine ok.reschedules (.inr sched.currp_state) (.inl ?_) rfl (update_of_ne same ..) .rfl .rfl
        exact (update_of_ne same ..).trans (update_self ..)
      · refine ok.congr rfl ?_ (update_of_ne same ..) .rfl .rfl
        exact (update_of_ne same ..).trans (update_of_ne run ..)

variable {isr : List Isr} {l : List Tid}

/-- Under `chVTDoTickI` there are only other handlers. -/
theorem handlers {fn : Option Callback} (tok : TimedOk c) (is : c.isr = .tick fn :: isr) :
    ∀ i ∈ isr, i = .handler := fun i mem => by
  have ticks := tok.ticks
  rw [is] at ticks
  simpa using (List.pairwise_cons.1 ticks).1 i mem

theorem ticks_of_handlers {i : Isr} (handlers : ∀ i ∈ isr, i = .handler) :
    (i :: isr).Pairwise fun i j => i = .handler ∨ j = .handler :=
  List.pairwise_cons.2 ⟨fun j mem => .inr (handlers j mem),
    List.pairwise_of_forall_mem_list fun j mem _ _ => .inl (handlers j mem)⟩

theorem mem_tick {fn : Option Callback} (handlers : ∀ i ∈ isr, i = .handler) :
    .tick (some (.wakeup t)) ∈ Isr.tick fn :: isr ↔ fn = some (.wakeup t) := by
  refine ⟨fun pending => ?_, fun is => is ▸ .head _⟩
  rcases List.mem_cons.1 pending with is | mem
  · exact (Isr.tick.inj is).symm
  · cases handlers _ mem

section

variable (tok : TimedOk c)
include tok

/-- The callback of the sleep of `t` finds it asleep. -/
theorem timeout (is : c.isr = .tick (some (.wakeup t)) :: isr) (timed : (c.pState t).timed = true) :
    TimedOk { (c.dequeue t).readyTimeout t with isr := .tick none :: isr } := by
  have handlers := tok.handlers is
  have hist : ((c.dequeue t).readyTimeout t).hist = .wake t :: .timeout t :: c.hist :=
    if_pos (TState.timed_waits timed)
  have done : ∀ x, ¬ .tick (some (.wakeup x)) ∈ Isr.tick none :: isr := fun x => by simp [mem_tick handlers]
  refine ⟨tok.vt, tok.func, ticks_of_handlers handlers, fun x => ?_⟩
  obtain ⟨p, was, ok⟩ := tok.thread x
  by_cases same : x = t
  · subst same
    obtain ⟨p', next, ok'⟩ := ok.times_out { (c.dequeue x).readyTimeout x with isr := .tick none :: isr } timed
      (by rw [Core.Pending, is]; exact .head _) rfl (update_self ..) (update_self ..) (done x)
    refine ⟨p', (congrArg (phase x) hist).trans ?_, ok'⟩
    simpa [phase, was, WaitEvent.thread] using next
  · refine ⟨p, (congrArg (phase x) hist).trans
      ((phase_of_ne (Ne.symm same)).trans ((phase_of_ne (Ne.symm same)).trans was)), ?_⟩
    refine ok.congr rfl (update_of_ne same ..) (update_of_ne same ..) .rfl ?_
    rw [Core.Pending, Core.Pending, is, mem_tick handlers, mem_tick handlers]
    simpa using Ne.symm same

/-- The callback finds the thread awake, or is the application's. -/
theorem callback {fn : Callback} (is : c.isr = .tick (some fn) :: isr)
    (ready : ∀ t, fn = .wakeup t → c.pState t = .ready) : TimedOk { c with isr := .tick none :: isr } := by
  have handlers := tok.handlers is
  have pending : ∀ x, c.Pending x ↔ some fn = some (.wakeup x) := fun x => by
    rw [Core.Pending, is, mem_tick handlers]
  have done : ∀ x, ¬ .tick (some (.wakeup x)) ∈ Isr.tick none :: isr := fun x => by simp [mem_tick handlers]
  refine ⟨tok.vt, tok.func, ticks_of_handlers handlers, fun x => ?_⟩
  obtain ⟨p, was, ok⟩ := tok.thread x
  refine ⟨p, was, ?_⟩
  by_cases mine : c.Pending x
  · have isReady := ready x (Option.some.inj ((pending x).1 mine))
    cases ok with
    | awake _ _ notPending => exact absurd mine notPending
    | asleep _ timed => rw [isReady] at timed; cases timed
    | woken m inSleep _ msg => exact .woken m inSleep (.inl isReady) msg fun bad => absurd bad (done x)
  · exact ok.congr rfl rfl rfl .rfl ⟨fun bad => absurd bad (done x), fun bad => absurd bad mine⟩

/-- A thread outside a timed sleep changes as it likes. -/
theorem thread_awake (awake : ∀ p, PhaseOk t c p → p = .awake) (awake' : ¬ InSleep (c'.pCtx t))
    (others : ∀ x, x ≠ t → c'.pCtx x = c.pCtx x ∧ c'.pState x = c.pState x ∧ c'.pU x = c.pU x)
    (vt : c'.vt = c.vt) (isr : c'.isr = c.isr) (hist : c'.hist = c.hist) : TimedOk c' := by
  have armed : ∀ x, c'.Armed x ↔ c.Armed x := fun x => by rw [Core.Armed, vt]; rfl
  have pending : ∀ x, c'.Pending x ↔ c.Pending x := fun x => by rw [Core.Pending, isr]; rfl
  refine tok.same_vt vt isr fun x p was ok => ⟨p, hist ▸ was, ?_⟩
  by_cases same : x = t
  · subst same
    obtain rfl := awake p ok
    cases ok with
    | awake _ off notPending => exact .awake awake' (by rwa [armed]) (by rwa [pending])
  · obtain ⟨ctx, state, u⟩ := others x same
    exact ok.congr ctx state u (armed x) (pending x)

/-- A ready thread gets the processor. -/
theorem switch {h : Tid} (thread : c.isr = []) (ready : c.pState h = .ready) : TimedOk (c.switch h l) := by
  refine tok.same_vt rfl rfl fun x p was ok => ⟨p, was, ?_⟩
  have quiet : ¬ c.Pending x := fun pending => by rw [Core.Pending, thread] at pending; cases pending
  by_cases same : x = h
  · subst same
    exact ok.reschedules (.inl ready) (.inr ⟨update_self .., quiet⟩) rfl rfl .rfl .rfl
  · exact ok.congr rfl (update_of_ne same ..) rfl .rfl .rfl

section

variable (sched : SchedOk c)
include sched

theorem sleep {st : TState} {u : PU} {qs : QueueId → List Tid} {fs : List Frame} {vt : VTList VtId Callback Systime}
    {hist : List WaitEvent} (thread : c.isr = []) (notIdle : c.currp ≠ idleThread)
    (joins : Joins c st u qs) (arms : Arms c st fs vt hist) (awake : Awake (c.pCtx c.currp)) :
    TimedOk ((c.joined u qs fs vt hist).chSchGoSleepS st) := by
  have parked := sched.joins notIdle joins
  obtain ⟨h, l, first⟩ := parked.ready_ne_nil
  have ready := (parked.member .rQueue h (by rw [first]; exact .head _)).2.1
  rw [chSchGoSleepS_eq first]
  suffices tok' : TimedOk ((c.joined u qs fs vt hist).parked st) from
    (tok'.switch thread ready).congr rfl rfl rfl rfl rfl rfl
  have others : ∀ t, t ≠ c.currp → update c.pCtx c.currp (fs ++ c.pCtx c.currp) t = c.pCtx t ∧
      update c.pState c.currp st t = c.pState t ∧ update c.pU c.currp u t = c.pU t := fun t other =>
    ⟨update_of_ne other .., update_of_ne other .., update_of_ne other ..⟩
  cases arms with
  | untimed fs plain =>
    refine tok.thread_awake (fun p ok => ok.eq_awake awake.not_inSleep) ?_ others rfl rfl rfl
    simp only [Core.parked, update_self]
    cases fs with
    | nil => exact awake.not_inSleep
    | cons f fs => exact fun inSleep => plain f (.head _) (Option.some.inj inSleep)
  | timed time vt timed set =>
    obtain ⟨p, was, ok⟩ := tok.thread c.currp
    obtain rfl := ok.eq_awake awake.not_inSleep
    cases ok with
    | awake notIn off quiet =>
    have off : chVTIsArmedI (.stack c.currp) c.vt = false := by simpa [Core.Armed] using off
    have func : vt.vtFunc = update c.vt.vtFunc (.stack c.currp) (some (.wakeup c.currp)) := by
      obtain ⟨_, _, rfl⟩ := Option.map_eq_some_iff.1 set
      rfl
    refine ⟨tok.vt.set off set, fun v f is => ?_, tok.ticks, fun x => ?_⟩
    · change vt.vtFunc v = some f at is
      rw [func] at is
      by_cases same : v = .stack c.currp
      · subst same; simpa [VtId.callback] using is.symm
      · rw [update_of_ne same] at is; exact tok.func v f is
    by_cases same : x = c.currp
    · subst same
      refine ⟨.asleep, phase_of_eq (e := .sleep c.currp) was, .asleep ?_ ?_ ?_⟩
      · simp [Core.parked, InSleep]
      · simpa [Core.parked] using timed
      · refine ⟨fun _ => quiet, fun _ => ?_⟩
        simp [Core.Armed, Core.parked, chVTIsArmedI, func]
    · obtain ⟨p, was, ok⟩ := tok.thread x
      obtain ⟨ctx, state, u⟩ := others x same
      refine ⟨p, (phase_of_ne (Ne.symm same)).trans was, ok.congr ctx state u ?_ .rfl⟩
      simp [Core.Armed, Core.parked, chVTIsArmedI, func, same]

/-- The running thread is made ready. -/
theorem preempt : TimedOk { c with pState := update c.pState c.currp .ready } := by
  refine tok.same_vt rfl rfl fun x p was ok => ⟨p, was, ?_⟩
  by_cases same : x = c.currp
  · subst same
    exact ok.reschedules (.inr sched.currp_state) (.inl (update_self ..)) rfl rfl .rfl .rfl
  · exact ok.congr rfl (update_of_ne same ..) rfl .rfl .rfl

/-- The running thread and the first ready one change places. -/
theorem exchange {h : Tid} (thread : c.isr = []) (first : c.queue .rQueue = h :: l)
    (ctx : c'.pCtx = c.pCtx) (state : c'.pState = update (update c.pState h .current) c.currp .ready)
    (u : c'.pU = c.pU) (vt : c'.vt = c.vt) (isr : c'.isr = c.isr) (hist : c'.hist = c.hist) : TimedOk c' := by
  have mem : h ∈ c.queue .rQueue := by rw [first]; exact .head _
  have other : h ≠ c.currp := by rintro rfl; exact sched.currp_not_mem .rQueue mem
  have ready : update c.pState c.currp .ready h = .ready :=
    (update_of_ne other ..).trans (sched.member _ _ mem).2.1
  refine ((tok.preempt sched).switch (l := l) thread ready).congr ctx ?_ u vt isr hist
  rw [state, update_comm other]
  rfl

theorem sleepReturn {fs : List Frame} (ctl : CtlOk c) (top : c.pCtx c.currp = .goSleepTimeout :: fs) :
    TimedOk { c with pCtx := update c.pCtx c.currp fs }.sleepReturn := by
  obtain ⟨p, was, ok⟩ := tok.thread c.currp
  obtain ⟨m, rfl, msg, quiet⟩ := ok.eq_woken (by rw [InSleep, top]; rfl) sched.currp_state
  have awake : Awake fs := by
    have current := ctl.current
    rw [top] at current
    exact current.awake_tail
  -- whether the timer is still armed or not, it is off now and no other has changed
  obtain ⟨vt, eq, ok', func⟩ : ∃ vt, { c with pCtx := update c.pCtx c.currp fs }.sleepReturn =
      { c with pCtx := update c.pCtx c.currp fs, vt := vt, hist := .ret c.currp m :: c.hist }.ret (.msg m) ∧
      vt.Ok ∧ vt.vtFunc = update c.vt.vtFunc (.stack c.currp) none := by
    rw [Core.sleepReturn]
    split
    · exact ⟨chVTResetI (.stack c.currp) c.vt, by simp [rdymsg, msg], tok.vt.reset _, rfl⟩
    next off =>
      refine ⟨c.vt, by simp [rdymsg, msg], tok.vt, ?_⟩
      have off : c.vt.vtFunc (.stack c.currp) = none := by simpa [chVTIsArmedI] using off
      rw [← off, update_eq_self]
  rw [eq]
  refine ⟨ok', fun v f is => ?_, tok.ticks, fun x => ?_⟩
  · change vt.vtFunc v = some f at is
    rw [func] at is
    by_cases same : v = .stack c.currp
    · subst same; simp at is
    · rw [update_of_ne same] at is; exact tok.func v f is
  by_cases same : x = c.currp
  · subst same
    refine ⟨.awake, (phase_of_eq (e := .ret c.currp m) was).trans (if_pos rfl), .awake ?_ ?_ quiet⟩
    · simpa [ret] using awake.not_inSleep
    · simp [Core.Armed, ret, chVTIsArmedI, func]
  · obtain ⟨p, was, ok⟩ := tok.thread x
    refine ⟨p, (phase_of_ne (Ne.symm same)).trans was, ok.congr (update_of_ne same ..) rfl rfl ?_ .rfl⟩
    simp [Core.Armed, ret, chVTIsArmedI, func, same]

theorem take (first : c.queue (.pMsgqueue c.currp) = t :: l) :
    TimedOk { c with queue := update c.queue (.pMsgqueue c.currp) l, pState := update c.pState t .sndmsg } := by
  have state := (sched.member (.pMsgqueue c.currp) t (by rw [first]; exact .head _)).2.1
  refine tok.same_vt rfl rfl fun x p was ok => ⟨p, was, ?_⟩
  by_cases same : x = t
  · subst same
    cases ok with
    | awake notIn off quiet => exact .awake notIn off quiet
    | asleep _ timed => rw [state] at timed; cases timed
    | woken m _ is => rcases is with is | ⟨is, _⟩ <;> · cases state.symm.trans is
  · exact ok.congr rfl (update_of_ne same ..) rfl .rfl .rfl

theorem create (ctx : c'.pCtx = update c.pCtx c.nthd [.sysUnlock])
    (state : c'.pState = update c.pState c.nthd .suspended) (u : c'.pU = c.pU) (vt : c'.vt = c.vt)
    (isr : c'.isr = c.isr) (hist : c'.hist = c.hist) : TimedOk c' := by
  have fresh := (sched.fresh c.nthd le_rfl).1
  refine tok.thread_awake (fun p ok => ?_) (by rw [ctx, update_self]; nofun) (fun x other => ?_) vt isr hist
  · cases ok with
    | awake => rfl
    | asleep _ timed => rw [fresh] at timed; cases timed
    | woken m _ is => rcases is with is | ⟨is, _⟩ <;> · rw [fresh] at is; cases is
  · rw [ctx, state, u, update_of_ne other, update_of_ne other]
    exact ⟨rfl, rfl, rfl⟩

/-- `chVTDoTickI` finds a timer due, or is done. -/
theorem advance {vt₀ : VTList VtId Callback Systime}
    {out : VTList VtId Callback Systime × Option (VtId × Option Callback)} (ctl : CtlOk c)
    (unlocked : c.locked = false) (handlers : ∀ i ∈ isr, i = .handler) (quiet : ∀ t, ¬ c.Pending t) (ok₀ : vt₀.Ok)
    (func₀ : vt₀.vtFunc = c.vt.vtFunc)
    (done : out = (vt₀, none) ∨ ∃ v fn, vt₀.vtFunc v = some fn ∧ out.2 = some (v, some fn) ∧ out.1.Ok ∧
      out.1.vtFunc = update vt₀.vtFunc v none) : TimedOk (c.tickLoop isr out) := by
  rcases done with rfl | ⟨v, fn, is, hit, ok₁, func₁⟩
  · have done : ∀ x, ¬ .tick (some (.wakeup x)) ∈ Isr.handler :: isr := fun x mem => by
      rcases List.mem_cons.1 mem with bad | mem
      · cases bad
      · cases handlers _ mem
    refine ⟨ok₀, fun v f => func₀ ▸ tok.func v f, ticks_of_handlers handlers, fun x => ?_⟩
    obtain ⟨p, was, ok⟩ := tok.thread x
    refine ⟨p, was, ok.congr rfl rfl rfl ?_ ⟨fun bad => absurd bad (done x), fun bad => absurd bad (quiet x)⟩⟩
    simp only [Core.Armed, tickLoop, chVTIsArmedI, func₀]
  · obtain ⟨vt₁, fired⟩ := out
    replace hit : fired = some (v, some fn) := hit
    subst hit
    replace func₁ : vt₁.vtFunc = update c.vt.vtFunc v none := func₀ ▸ func₁
    have isFn := tok.func v fn (func₀ ▸ is)
    refine ⟨ok₁, fun w f set => ?_, ticks_of_handlers handlers, fun x => ?_⟩
    · change vt₁.vtFunc w = some f at set
      rw [func₁] at set
      by_cases same : w = v
      · subst same; simp at set
      · rw [update_of_ne same] at set; exact tok.func w f set
    obtain ⟨p, was, ok⟩ := tok.thread x
    refine ⟨p, was, ?_⟩
    by_cases same : v = .stack x
    · subst same
      refine ok.expires ?_ ?_ rfl rfl rfl ?_ ((mem_tick handlers).2 (by rw [isFn]; rfl))
      · simp [Core.Armed, chVTIsArmedI, ← func₀, is]
      · -- in the middle of its sleep the running thread would have the kernel locked
        intro inSleep current
        have := ctl.current.head .goSleepTimeout (by
          rw [← Option.some.inj ((sched.current x (by simp)).1 current)] at inSleep; exact inSleep)
        rw [unlocked] at this
        cases this
      · simp [Core.Armed, tickLoop, chVTIsArmedI, func₁]
    · refine ok.congr rfl rfl rfl ?_ ⟨fun bad => ?_, fun bad => absurd bad (quiet x)⟩
      · simp [Core.Armed, tickLoop, chVTIsArmedI, func₁, update_of_ne (Ne.symm same)]
      · have := (mem_tick handlers).1 bad
        rw [isFn, Option.some.injEq] at this
        cases v with
        | stack y => cases this; exact absurd rfl same
        | app n => cases this

end

/-- Sets and resets of the application's timers. -/
theorem appVt {n : Nat} {f : Option Callback} {vt : VTList VtId Callback Systime} (ok : vt.Ok)
    (func : vt.vtFunc = update c.vt.vtFunc (.app n) f) (isApp : ∀ g, f = some g → g = .app n) :
    TimedOk { c with vt := vt } := by
  refine ⟨ok, fun v g is => ?_, tok.ticks, fun x => ?_⟩
  · change vt.vtFunc v = some g at is
    rw [func] at is
    by_cases same : v = .app n
    · subst same; exact isApp g (by simpa using is)
    · rw [update_of_ne same] at is; exact tok.func v g is
  obtain ⟨p, was, ok⟩ := tok.thread x
  refine ⟨p, was, ok.congr rfl rfl rfl ?_ .rfl⟩
  simp [Core.Armed, chVTIsArmedI, func]

theorem handler (is : c.isr = .handler :: isr ∨ isr = .handler :: c.isr) : TimedOk { c with isr := isr } := by
  refine ⟨tok.vt, tok.func, ?_, fun x => ?_⟩
  · have ticks := tok.ticks
    rcases is with is | rfl
    · rw [is] at ticks; exact (List.pairwise_cons.1 ticks).2
    · exact List.pairwise_cons.2 ⟨fun _ _ => .inl rfl, ticks⟩
  obtain ⟨p, was, ok⟩ := tok.thread x
  refine ⟨p, was, ok.congr rfl rfl rfl .rfl ?_⟩
  rcases is with is | rfl
  · simp [Core.Pending, is]
  · simp [Core.Pending]

end

end TimedOk

/-- Every move keeps the timed sleeps in order. -/
theorem Move.timedOk (move : Move φ c c') (sched : SchedOk c) (ctl : CtlOk c) (tok : TimedOk c) : TimedOk c' := by
  cases move with
  | wake t u waits _ _ msg => exact tok.wake waits msg
  | wakeS t m thread _ waits _ _ msg => exact tok.wakeS sched thread waits msg
  | timeout t isr is _ timed => exact tok.timeout is timed
  | callback fn isr is ready => exact tok.callback is ready
  | sleep st u qs fs vt hist thread _ notIdle _ joins arms _ awake =>
    exact tok.sleep sched thread notIdle joins arms awake
  | ahead h l thread _ first =>
    refine tok.exchange sched thread first ?_ ?_ ?_ ?_ ?_ ?_ <;>
      rw [chSchDoRescheduleAhead, runFirst_eq first] <;> rfl
  | behind h l thread _ first =>
    have other : h ≠ c.currp := by
      rintro rfl
      exact sched.currp_not_mem .rQueue (by rw [first]; exact .head _)
    have still : ((c.switch h l).pState c.currp).waits = false := by
      change (update c.pState h .current c.currp).waits = false
      rw [update_of_ne other.symm, sched.currp_state]
      rfl
    refine tok.exchange sched thread first ?_ ?_ ?_ ?_ ?_ ?_ <;>
      rw [chSchDoRescheduleBehind, runFirst_eq first]
    all_goals first | rfl | exact if_neg (by simp [still])
  | ctl fs locked _ awake awake' =>
    refine tok.thread_awake (fun p ok => ok.eq_awake awake.not_inSleep) ?_ (fun t other => ⟨update_of_ne other .., rfl, rfl⟩) rfl rfl rfl
    simpa using awake'.not_inSleep
  | rdymsg fs _ _ top =>
    have current := ctl.current
    rw [top] at current
    refine tok.thread_awake (fun p ok => ok.eq_awake (by simp [InSleep, top])) ?_ (fun t other => ⟨update_of_ne other .., rfl, rfl⟩) rfl rfl rfl
    simpa [Core.ret] using current.awake_tail.not_inSleep
  | sleepReturn fs _ _ top => exact tok.sleepReturn sched ctl top
  | setU u awake =>
    exact tok.thread_awake (fun p ok => ok.eq_awake awake.not_inSleep) awake.not_inSleep
      (fun t other => ⟨rfl, rfl, update_of_ne other ..⟩) rfl rfl rfl
  | take t l _ first => exact tok.take sched first
  | create prio => exact tok.create sched rfl rfl rfl rfl rfl rfl
  | boost t prio =>
    obtain ⟨ctx, _, isr, _⟩ := c.boosted_frame t prio
    obtain ⟨state, u, vt, hist⟩ := c.boosted_wait t prio
    exact tok.congr ctx state u vt isr hist
  | isrEnter => exact tok.handler (.inr rfl)
  | isrExit isr is => exact tok.handler (.inl is)
  | tick c' unlocked all ticked =>
    obtain ⟨out, done, rfl⟩ := Option.map_eq_some_iff.1 ticked
    obtain ⟨vt₀, ok₀, func₀, cases_⟩ := tok.vt.tick done
    have handlers : ∀ i ∈ c.isr, i = .handler := by simpa using all
    have quiet : ∀ t, ¬ c.Pending t := fun t mem => by cases handlers _ mem
    have counted : TimedOk { c with pPreempt := update c.pPreempt c.currp (c.pPreempt c.currp - 1) } :=
      tok.congr rfl rfl rfl rfl rfl rfl
    exact counted.advance sched (ctl.congr rfl rfl rfl rfl) unlocked handlers quiet ok₀ func₀ cases_
  | tickLoop isr out is done =>
    have handlers := tok.handlers is
    have quiet : ∀ t, ¬ c.Pending t := fun t mem => by
      rw [Core.Pending, is, TimedOk.mem_tick handlers] at mem; cases mem
    exact tok.advance sched ctl (ctl.isr (by simp [is])) handlers quiet tok.vt rfl (tok.vt.expire done)
  | vtSet n time vt off set =>
    obtain ⟨_, _, rfl⟩ := Option.map_eq_some_iff.1 set
    exact tok.appVt (tok.vt.set off set) rfl fun g is => (Option.some.inj is).symm
  | vtReset n => exact tok.appVt (tok.vt.reset _) rfl (by simp)
  | calm | ret | ownPrio => exact tok.congr rfl rfl rfl rfl rfl rfl

end ChibiOS.Kernel
