import ChibiOS.Kernel.Scheduling

/-!
# The timers of the running kernel

`Clocked c h`: the timer list of the kernel state `c` is the one that the history `h` of
timer events leads to. Every step of the kernel goes on with such a history. Only the tick
handler counts ticks and lets timers expire; a thread sets and resets the timer on its own
stack; the timers of the application are set and reset by their I-class functions.
-/

namespace ChibiOS.Kernel

open Function (update update_self)
open Lib Kernel.Core
open TimerEvent (ticks About)

/-- A handler is in `chVTDoTickI`. -/
def Core.Ticking (c : Core) : Prop := ∃ fn, .tick fn ∈ c.isr

/-- It calls the function of a timer. -/
def Core.Calls (fn : Callback) (c : Core) : Prop := .tick (some fn) ∈ c.isr

structure Clocked (c : Core) (h : List (TimerEvent VtId)) : Prop where
  timers : ∃ e, Represents c.vt h e
  between : ¬ c.Ticking → due c.vt.vtNext = 0
  systime : c.vt.vtSystime = UInt32.ofNat (ticks h)

/-- The thread `t` sets or resets the timer on its stack. -/
inductive StackEvent (t : Tid) : TimerEvent VtId → Prop
  | set (d : Systime) : StackEvent t (.set (.stack t) d)
  | reset : StackEvent t (.reset (.stack t))

variable {φ : Foot} {c c' : Core} {s s' : Sys} {h : List (TimerEvent VtId)} {v : VtId} {l : Label} {e : Expiries VtId}
  {since : List (TimerEvent VtId)}

theorem Clocked.congr (clocked : Clocked c h) (vt : c'.vt = c.vt) (ticking : c'.Ticking ↔ c.Ticking) : Clocked c' h :=
  ⟨vt ▸ clocked.timers, fun not => vt ▸ clocked.between (ticking.not.1 not), vt ▸ clocked.systime⟩

/-- A timer is set. -/
theorem Clocked.set {vt : VTList VtId Callback Systime} {d : Systime} {fn : Callback} (clocked : Clocked c h)
    (unarmed : chVTIsArmedI v c.vt = false) (done : chVTSetI v d fn c.vt = some vt) (later : d ≠ timeImmediate)
    (is : c'.vt = vt) (ticking : c'.Ticking ↔ c.Ticking) : Clocked c' (.set v d :: h) := by
  obtain ⟨⟨e, represents⟩, between, systime⟩ := clocked
  have set := represents.set unarmed done
  obtain ⟨l, inserted, rfl⟩ := Option.map_eq_some_iff.1 done
  refine ⟨⟨_, is ▸ set⟩, fun not => ?_, by rw [is]; exact systime⟩
  rw [is]
  exact (due_vtInsert inserted later).trans (between (ticking.not.1 not))

/-- A timer is reset. -/
theorem Clocked.reset (clocked : Clocked c h) (armed : chVTIsArmedI v c.vt = true) (is : c'.vt = chVTResetI v c.vt)
    (ticking : c'.Ticking ↔ c.Ticking) : Clocked c' (.reset v :: h) := by
  obtain ⟨⟨e, represents⟩, between, systime⟩ := clocked
  refine ⟨⟨_, is ▸ represents.reset armed⟩, fun not => ?_, by rw [is]; exact systime⟩
  rw [is]
  exact Nat.le_zero.1 ((due_vtRemove represents.short).trans (between (ticking.not.1 not)).le)

/-- Outside `chSchGoSleepTimeoutS` the timer on a thread's stack is off. -/
theorem TimedOk.off {t : Tid} (tok : TimedOk c) (notIn : ¬ InSleep (c.pCtx t)) : ¬ c.Armed t ∧ ¬ c.Pending t := by
  obtain ⟨p, -, phase⟩ := tok.thread t
  obtain rfl := phase.eq_awake notIn
  cases phase with
  | awake _ off quiet => exact ⟨off, quiet⟩

theorem TimedOk.unarmed {t : Tid} (tok : TimedOk c) (notIn : ¬ InSleep (c.pCtx t)) : chVTIsArmedI (.stack t) c.vt = false :=
  eq_false_of_ne_true (tok.off notIn).1

theorem Core.runFirst_timers (c : Core) : c.runFirst.vt = c.vt ∧ c.runFirst.isr = c.isr := by
  cases first : c.queue .rQueue with
  | nil => simp [runFirst, fifoRemove, first]
  | cons t l => rw [runFirst_eq first]; exact ⟨rfl, rfl⟩

theorem ticking_congr (isr : c'.isr = c.isr) : c'.Ticking ↔ c.Ticking := by rw [Core.Ticking, Core.Ticking, isr]

/-- Away from the clock, the tick handler stays where it is. -/
theorem Move.tick_mem (move : Move φ c c') (off : φ.clk = false) (fn : Option Callback) :
    .tick fn ∈ c'.isr ↔ .tick fn ∈ c.isr := by
  have same {c' : Core} (isr : c'.isr = c.isr) : .tick fn ∈ c'.isr ↔ .tick fn ∈ c.isr := by rw [isr]
  have clk : φ.clk ≠ true := by rw [off]; nofun
  cases move with
  | wake | calm | ctl | ret | rdymsg | setU | take | create | ownPrio => exact same rfl
  | wakeS t m =>
    unfold chSchWakeupS
    dsimp only
    split <;> exact same rfl
  | sleep => exact same (runFirst_timers _).2
  | ahead | behind => exact same (runFirst_timers c).2
  | sleepReturn =>
    unfold Core.sleepReturn
    dsimp only
    split <;> exact same rfl
  | boost t prio =>
    obtain ⟨-, -, isr, -⟩ := c.boosted_frame t prio
    exact same isr
  | isrEnter => simp
  | isrExit isr is => simp [is]
  | timeout _ _ _ _ _ _ on | callback _ _ _ _ on | tick _ _ _ _ on | tickLoop _ _ _ _ on | vtSet _ _ _ _ _ on | vtReset _ on =>
    exact absurd on clk

theorem Moves.tick_mem (moves : Moves φ c c') (off : φ.clk = false) (fn : Option Callback) :
    .tick fn ∈ c'.isr ↔ .tick fn ∈ c.isr := by
  induction moves with
  | refl => rfl
  | tail _ move ih => exact (move.tick_mem off fn).trans ih

/-- Away from the clock, the running thread sets and resets the timer on its stack. -/
theorem Move.clocked (move : Move φ c c') (off : φ.clk = false) (tok : TimedOk c) (clocked : Clocked c h) :
    ∃ since, Clocked c' (since ++ h) ∧ ∀ ev ∈ since, StackEvent c.currp ev := by
  have ticking : c'.Ticking ↔ c.Ticking := exists_congr (move.tick_mem off)
  have same (vt : c'.vt = c.vt) : ∃ since, Clocked c' (since ++ h) ∧ ∀ ev ∈ since, StackEvent c.currp ev :=
    ⟨[], clocked.congr vt ticking, nofun⟩
  have clk : φ.clk ≠ true := by rw [off]; nofun
  cases move with
  | wake | calm | ctl | ret | rdymsg | setU | take | create | ownPrio | isrEnter | isrExit => exact same rfl
  | wakeS t m =>
    refine same ?_
    unfold chSchWakeupS
    dsimp only
    split <;> rfl
  | sleep st u qs fs vt hist thread locked notIdle on joins arms ctxOk awake =>
    have vt' := (runFirst_timers ((c.joined u qs fs vt hist).parked st)).1
    cases arms with
    | untimed => exact same vt'
    | timed time vt timed set later =>
      exact ⟨[.set (.stack c.currp) time], clocked.set (tok.unarmed awake.not_inSleep) set later vt' ticking,
        List.forall_mem_singleton.2 (.set time)⟩
  | ahead | behind => exact same (runFirst_timers c).1
  | sleepReturn fs thread locked top =>
    by_cases armed : chVTIsArmedI (.stack c.currp) c.vt = true
    · exact ⟨[.reset (.stack c.currp)], clocked.reset armed (by simp [Core.sleepReturn, Core.ret, armed]) ticking,
        List.forall_mem_singleton.2 .reset⟩
    · exact same (by simp [Core.sleepReturn, Core.ret, armed])
  | boost t prio =>
    obtain ⟨-, -, vt, -⟩ := c.boosted_wait t prio
    exact same vt
  | timeout _ _ _ _ _ _ on | callback _ _ _ _ on | tick _ _ _ _ on | tickLoop _ _ _ _ on | vtSet _ _ _ _ _ on | vtReset _ on =>
    exact absurd on clk

/-- `chSchGoSleepTimeoutS` sets a timer, unless the time is `TIME_INFINITE`. -/
theorem Clocked.goSleepTimeoutS {time : Systime} (clocked : Clocked c h) (unarmed : chVTIsArmedI (.stack c.currp) c.vt = false)
    (ok : c.vt.Ok) (later : time ≠ timeImmediate) (st : TState) :
    Clocked (c.chSchGoSleepTimeoutS st time) ((if time = timeInfinite then [] else [.set (.stack c.currp) time]) ++ h) := by
  by_cases ever : time = timeInfinite
  · obtain ⟨vt, isr⟩ := runFirst_timers ((c.push .rdymsg).parked st)
    rw [if_pos ever, chSchGoSleepTimeoutS, if_neg (not_not.2 ever)]
    exact clocked.congr vt (ticking_congr isr)
  · obtain ⟨vt, set⟩ := ok.set_isSome (.stack c.currp) time (.wakeup c.currp)
    rw [if_neg ever, chSchGoSleepTimeoutS, if_pos ever, set]
    obtain ⟨vt', isr'⟩ := runFirst_timers (({ c with vt := vt, hist := .sleep c.currp :: c.hist }.push .goSleepTimeout).parked st)
    exact clocked.set unarmed set later vt' (ticking_congr isr')

/-- The same over a sequence of moves. A thread that only waits for its time does not run meanwhile. -/
theorem Moves.clocked (moves : Moves φ c c') (off : φ.clk = false) (ok : CoreOk c) (clocked : Clocked c h) :
    ∃ since, Clocked c' (since ++ h) ∧ ∀ ev ∈ since, ∃ t, StackEvent t ev ∧ (φ.slp = false → c.pState t ≠ .sleeping) := by
  induction moves with
  | refl => exact ⟨[], clocked, nofun⟩
  | tail moves move ih =>
    obtain ⟨since, clocked', events⟩ := ih
    have ok' := coreOk moves ok
    obtain ⟨newer, clocked'', events'⟩ := move.clocked off ok'.timed clocked'
    refine ⟨newer ++ since, by rwa [List.append_assoc], fun ev mem => ?_⟩
    rcases List.mem_append.1 mem with mem | mem
    · refine ⟨_, events' ev mem, fun still sleeping => ?_⟩
      have runs := ok'.sched.currp_state
      rcases rests moves ok.sched (show φ.state .sleeping = false from still) _ with ⟨same, -⟩ | ⟨apart, -⟩
      · rw [same, sleeping] at runs
        cases runs
      · exact apart sleeping
    · exact events ev mem

/-! ## The tick handler -/

/-- The handler goes on with the callback of the timer that is due, or is done with the timers. -/
def Isr.due : Option VtId → Isr
  | none => .handler
  | some v => .tick (some v.callback)

section

variable {vt : VTList VtId Callback Systime} {out : VTList VtId Callback Systime × Option (VtId × Option Callback)}

theorem vtExpire_systime (done : vtExpire vt = some out) : out.1.vtSystime = vt.vtSystime := by
  unfold vtExpire at done
  split at done <;> split at done <;> cases done <;> rfl

theorem chVTDoTickI_systime (done : chVTDoTickI vt = some out) : out.1.vtSystime = vt.vtSystime + 1 := by
  unfold chVTDoTickI at done
  split at done
  · cases done; rfl
  · exact vtExpire_systime done

/-- The loop of `chVTDoTickI` goes on to the callback of the timer that it found. -/
theorem Clocked.loop (c : Core) (isr : List Isr) (func : ∀ v fn, out.2 = some (v, fn) → fn = some v.callback)
    (timers : ∃ e, Represents (TimerSys.loop h out).vt (TimerSys.loop h out).hist e ∧
      ((TimerSys.loop h out).running = none → due (TimerSys.loop h out).vt.vtNext = 0))
    (systime : out.1.vtSystime = UInt32.ofNat (ticks h)) :
    ∃ v : Option VtId, Clocked (c.tickLoop isr out) ((v.map .fire).toList ++ h) ∧ (c.tickLoop isr out).isr = .due v :: isr := by
  obtain ⟨vt, found⟩ := out
  obtain ⟨e, represents, between⟩ := timers
  cases found with
  | none => exact ⟨none, ⟨⟨e, represents⟩, fun _ => between rfl, systime⟩, rfl⟩
  | some found =>
    obtain ⟨v, fn⟩ := found
    obtain rfl := func v fn rfl
    exact ⟨some v, ⟨⟨e, represents⟩, fun not => absurd ⟨_, .head _⟩ not, systime⟩, rfl⟩

end

theorem next_tick_clocked (ok : CoreOk s.toCore) (taken : next .tick s = some s') (clocked : Clocked s.toCore h) :
    ∃ v : Option VtId, Clocked s'.toCore ((v.map .fire).toList ++ .tick :: h) ∧ s'.isr = .due v :: s.isr := by
  simp only [next, Option.ite_none_right_eq_some, Option.map_eq_some_iff] at taken
  obtain ⟨⟨-, handlers⟩, c, ticked, rfl⟩ := taken
  obtain ⟨out, done, rfl⟩ := Option.map_eq_some_iff.1 ticked
  obtain ⟨⟨e, represents⟩, between, systime⟩ := clocked
  have notTicking : ¬ s.Ticking := by
    rintro ⟨fn, mem⟩
    simpa using List.all_eq_true.1 handlers _ mem
  refine Clocked.loop _ _ (fun v fn is => ?_) (represents.tick (between notTicking) done) ?_
  · obtain ⟨vt', -, func, rfl | ⟨w, f, armed, found, -, -⟩⟩ := ok.timed.vt.tick done
    · cases is
    · obtain ⟨rfl, rfl⟩ := Prod.mk.inj (Option.some.inj (found.symm.trans is))
      rw [ok.timed.func w f (func ▸ armed)]
  · rw [chVTDoTickI_systime done, show s.vt.vtSystime = _ from systime]
    simp [ticks]

theorem next_tickLoop_clocked (ok : CoreOk s.toCore) (taken : next .tickLoop s = some s') (clocked : Clocked s.toCore h) :
    ∃ v : Option VtId, ∃ isr, Clocked s'.toCore ((v.map .fire).toList ++ h) ∧ s.isr = .tick none :: isr ∧ s'.isr = .due v :: isr := by
  obtain ⟨isr, out, is, done, rfl⟩ := next_tickLoop taken
  obtain ⟨⟨e, represents⟩, between, systime⟩ := clocked
  obtain ⟨v, clocked', isr'⟩ := Clocked.loop s.toCore isr (fun v fn found => by
    obtain rfl | ⟨w, f, armed, found', -, -⟩ := ok.timed.vt.expire done
    · cases found
    · obtain ⟨rfl, rfl⟩ := Prod.mk.inj (Option.some.inj (found'.symm.trans found))
      rw [ok.timed.func w f armed]) (represents.expire done) ((vtExpire_systime done).trans systime)
  exact ⟨v, isr, clocked', is, isr'⟩

/-- A tick does not interrupt `chVTDoTickI`. -/
theorem Core.Ticking.not_tick (ticking : s.Ticking) (taken : next l s = some s') : l ≠ .tick := by
  rintro rfl
  simp only [next, Option.ite_none_right_eq_some] at taken
  obtain ⟨fn, mem⟩ := ticking
  simpa using List.all_eq_true.1 taken.1.2 _ mem

/-! ## Steps -/

/-- Why an event of the timers comes with a step. -/
inductive TimerCause (l : Label) (s : Sys) : TimerEvent VtId → Prop
  | tick : l = .tick → TimerCause l s .tick
  | own {ev : TimerEvent VtId} (t : Tid) : StackEvent t ev → s.pState t ≠ .sleeping → TimerCause l s ev
  | set (n : Nat) (d : Systime) : l = .icall (.vtSetI n d) → TimerCause l s (.set (.app n) d)
  | reset (n : Nat) : l = .icall (.vtResetI n) → TimerCause l s (.reset (.app n))

/-- A step goes on with the history: by `since`, and by the callback of a timer that is due. -/
structure Advances (l : Label) (s s' : Sys) (h since : List (TimerEvent VtId)) (fired : Option VtId) : Prop where
  clocked : Clocked s'.toCore ((fired.map .fire).toList ++ since ++ h)
  ticks : ticks since = if l = .tick then 1 else 0
  causes : ∀ ev ∈ since, TimerCause l s ev
  fires : ∀ v, fired = some v → ∃ isr, s'.isr = .tick (some v.callback) :: isr
  /-- The callback of a timer that has been found due is called until it returns. -/
  calls : ∀ fn, s'.Calls fn ↔
    s.Calls fn ∧ (l = .callback → s.isr.head? ≠ some (.tick (some fn))) ∨ ∃ v, fired = some v ∧ v.callback = fn

/-- Another timer fires. -/
theorem not_about_fired {newer : List (TimerEvent VtId)} {fired : Option VtId} (other : fired ≠ some v)
    (quiet : ∀ ev ∈ newer, ¬ About v ev) : ∀ ev ∈ (fired.map .fire).toList ++ newer, ¬ About v ev := by
  intro ev mem
  rcases List.mem_append.1 mem with mem | mem
  · obtain ⟨w, rfl, rfl⟩ := Option.map_eq_some_iff.1 (Option.mem_toList.1 mem)
    rintro rfl
    exact other rfl
  · exact quiet ev mem

theorem ticks_fired (newer : List (TimerEvent VtId)) (fired : Option VtId) :
    ticks ((fired.map .fire).toList ++ newer) = ticks newer := by
  cases fired <;> rfl

theorem ticks_stackEvents : ∀ {since : List (TimerEvent VtId)}, (∀ ev ∈ since, ∃ t, StackEvent t ev) → ticks since = 0
  | [], _ => rfl
  | ev :: since, events => by
    obtain ⟨⟨t, event⟩, rest⟩ := List.forall_mem_cons.1 events
    cases event <;> exact @ticks_stackEvents since rest

/-- `chThdSleepUntil` is `chThdSleep` for what is left, if anything is. -/
theorem Sys.chThdSleepUntil_later {time : Systime} (later : time ≠ s.vt.vtSystime) :
    s.chThdSleepUntil time = s.chThdSleep (time - s.vt.vtSystime) ∧ time - s.vt.vtSystime ≠ timeImmediate := by
  have differs : time - s.vt.vtSystime ≠ timeImmediate := fun same => later (by grind [timeImmediate])
  exact ⟨if_pos (UInt32.pos_iff_ne_zero.2 differs), differs⟩

theorem Sys.chThdSleepUntil_now : s.chThdSleepUntil s.vt.vtSystime = s.enter := if_neg (by
  show ¬ 0 < s.vt.vtSystime - s.vt.vtSystime
  rw [UInt32.sub_self]
  nofun)

theorem calls_of_same (notBack : l ≠ .callback) (same : ∀ fn, .tick fn ∈ c'.isr ↔ .tick fn ∈ c.isr)
    (fn : Callback) : c'.Calls fn ↔ c.Calls fn ∧ (l = .callback → c.isr.head? ≠ some (.tick (some fn))) ∨
      ∃ v : VtId, none = some v ∧ v.callback = fn := by
  rw [Core.Calls, same]
  exact ⟨fun calls => .inl ⟨calls, fun bad => absurd bad notBack⟩, fun is => is.elim And.left nofun⟩

theorem calls_of_due {v : Option VtId} {isr : List Isr} (notBack : l ≠ .callback)
    (is : c'.isr = .due v :: isr) (same : ∀ fn, .tick (some fn) ∈ isr ↔ c.Calls fn) (fn : Callback) :
    c'.Calls fn ↔ c.Calls fn ∧ (l = .callback → c.isr.head? ≠ some (.tick (some fn))) ∨ ∃ w, v = some w ∧ w.callback = fn := by
  rw [Core.Calls, is, List.mem_cons, same]
  cases v with
  | none => simp [Isr.due, notBack]
  | some w =>
    simp only [Isr.due, Isr.tick.injEq, Option.some.injEq, notBack, false_imp_iff, and_true, exists_eq_left']
    rw [or_comm, eq_comm]

/-- The callback returns. -/
theorem calls_of_return {fn₀ : Callback} {isr : List Isr} (tok : TimedOk c)
    (is : c.isr = .tick (some fn₀) :: isr) (is' : c'.isr = .tick none :: isr) (fn : Callback) : c'.Calls fn ↔
      c.Calls fn ∧ (Label.callback = .callback → c.isr.head? ≠ some (.tick (some fn))) ∨ ∃ v : VtId, none = some v ∧ v.callback = fn := by
  have alone : ∀ fn, .tick (some fn) ∉ isr := fun fn mem => by
    have apart := tok.ticks
    rw [is] at apart
    simpa using (List.pairwise_cons.1 apart).1 _ mem
  rw [Core.Calls, Core.Calls, is, is']
  simp [alone]
  exact fun same => same.symm

theorem next_vtSetI {n : Nat} {time : Systime} (ok : KernelOk False s) (taken : next (.icall (.vtSetI n time)) s = some s') :
    ∃ vt, chVTIsArmedI (.app n) s.vt = false ∧ time ≠ timeImmediate ∧ chVTSetI (.app n) time (.app n) s.vt = some vt ∧
      s' = { s with vt := vt } := by
  obtain ⟨-, allowed, rfl⟩ := next_icall taken
  obtain ⟨unarmed, later⟩ := of_decide_eq_true allowed
  obtain ⟨vt, set⟩ := ok.core.timed.vt.set_isSome (.app n) time (.app n)
  exact ⟨vt, unarmed, later, set, by simp only [ICall.body, set]⟩

/-- Every step of the kernel goes on with the history. -/
theorem next_clocked (ok : KernelOk False s) (taken : next l s = some s') (clocked : Clocked s.toCore h) :
    ∃ since fired, Advances l s s' h since fired := by
  have effect := (next_step ok nofun taken).1
  have quiet (notTick : l ≠ .tick) (clk : (l.foot s).clk = false) (slp : (l.foot s).slp = false) :
      ∃ since fired, Advances l s s' h since fired := by
    obtain ⟨since, clocked', events⟩ := effect.moves.clocked clk ok.core clocked
    refine ⟨since, none, clocked', ?_, fun ev mem => ?_, nofun, calls_of_same (by rintro rfl; cases clk) (effect.moves.tick_mem clk)⟩
    · rw [if_neg notTick]
      exact ticks_stackEvents fun ev mem => (events ev mem).imp fun t event => event.1
    · obtain ⟨t, event, awake⟩ := events ev mem
      exact .own t event (awake slp)
  -- The running thread goes to sleep for a time.
  have sleeps {c : Core} {time : Systime} (notTick : l ≠ .tick) (clk : (l.foot s).clk = false) (empty : s.pCtx s.currp = [])
      (later : time ≠ timeImmediate) (currp : c.currp = s.currp) (vt : c.vt = s.vt) (isr : c.isr = s.isr)
      (is : s'.toCore = c.chSchGoSleepTimeoutS .sleeping time) :
      ∃ since fired, Advances l s s' h since fired := by
    have unarmed : chVTIsArmedI (.stack c.currp) c.vt = false := by
      rw [currp, vt]
      exact ok.core.timed.unarmed (by rw [empty]; nofun)
    have slept := (clocked.congr vt (ticking_congr isr)).goSleepTimeoutS unarmed (vt ▸ ok.core.timed.vt) later .sleeping
    refine ⟨if time = timeInfinite then [] else [.set (.stack c.currp) time], none, is ▸ slept, ?_, fun ev mem => ?_, nofun,
      calls_of_same (by rintro rfl; cases clk) (effect.moves.tick_mem clk)⟩
    · rw [if_neg notTick]
      split <;> rfl
    · split at mem
      · cases mem
      · rw [List.mem_singleton.1 mem, currp]
        exact .own s.currp (.set time) (by rw [ok.core.sched.currp_state]; nofun)
  cases l with
  | call f =>
    cases f with
    | thdSleep time =>
      obtain ⟨-, empty, allowed, rfl⟩ := next_call taken
      exact sleeps (c := s.enter.toCore) nofun rfl empty (of_decide_eq_true allowed) rfl rfl rfl rfl
    | thdSleepUntil time =>
      obtain ⟨-, empty, -, rfl⟩ := next_call taken
      by_cases now : time = s.vt.vtSystime
      · subst now
        have stays : (ApiCall.thdSleepUntil s.vt.vtSystime).body s = s.enter := Sys.chThdSleepUntil_now
        rw [stays]
        exact ⟨[], none, clocked.congr rfl .rfl, rfl, nofun, nofun, calls_of_same nofun fun _ => .rfl⟩
      · obtain ⟨same, later⟩ := Sys.chThdSleepUntil_later now
        exact sleeps (c := s.enter.toCore) nofun rfl empty later rfl rfl rfl (congrArg Sys.toCore same)
    | _ => exact quiet nofun rfl rfl
  | scall f =>
    cases f with
    | thdSleepS time =>
      obtain ⟨-, empty, allowed, rfl⟩ := next_scall taken
      exact sleeps nofun rfl empty (of_decide_eq_true allowed) rfl rfl rfl rfl
    | _ => exact quiet nofun rfl rfl
  | icall f =>
    cases f with
    | vtSetI n time =>
      obtain ⟨vt, unarmed, later, set, rfl⟩ := next_vtSetI ok taken
      exact ⟨[.set (.app n) time], none, clocked.set unarmed set later rfl .rfl, rfl,
        List.forall_mem_singleton.2 (.set n time rfl), nofun, calls_of_same nofun fun _ => .rfl⟩
    | vtResetI n =>
      obtain ⟨-, allowed, rfl⟩ := next_icall taken
      exact ⟨[.reset (.app n)], none, clocked.reset allowed rfl .rfl, rfl,
        List.forall_mem_singleton.2 (.reset n rfl), nofun, calls_of_same nofun fun _ => .rfl⟩
    | _ => exact quiet nofun rfl rfl
  | run =>
    obtain ⟨f, fs, -, top, -⟩ := next_run taken
    exact quiet nofun (by rw [Label.foot_run top]; cases f <;> rfl) (by rw [Label.foot_run top]; cases f <;> rfl)
  | tick =>
    obtain ⟨v, clocked', isr⟩ := next_tick_clocked ok.core taken clocked
    refine ⟨[.tick], v, by simpa using clocked', rfl, List.forall_mem_singleton.2 (.tick rfl), ?_,
      calls_of_due nofun isr fun _ => .rfl⟩
    rintro w rfl
    exact ⟨_, isr⟩
  | tickLoop =>
    obtain ⟨v, isr, clocked', was, is⟩ := next_tickLoop_clocked ok.core taken clocked
    refine ⟨[], v, by simpa using clocked', rfl, nofun, ?_, calls_of_due nofun is fun fn => ?_⟩
    · rintro w rfl
      exact ⟨_, is⟩
    · simp [Core.Calls, was]
  | callback =>
    obtain ⟨isr, ⟨tp, is, rfl⟩ | ⟨n, is, rfl⟩⟩ := next_callback taken
    · refine ⟨[], none, clocked.congr ?_ ⟨fun _ => ⟨_, is ▸ List.mem_cons_self⟩, fun _ => ⟨none, List.mem_cons_self⟩⟩,
        rfl, nofun, nofun, calls_of_return ok.core.timed is rfl⟩
      unfold Sys.wakeup
      split
      · rfl
      · split <;> rfl
      · rfl
      · rfl
      · rfl
    · exact ⟨[], none, clocked.congr rfl ⟨fun _ => ⟨_, is ▸ List.mem_cons_self⟩, fun _ => ⟨none, List.mem_cons_self⟩⟩,
        rfl, nofun, nofun, calls_of_return ok.core.timed is rfl⟩
  | _ => exact quiet nofun rfl rfl

theorem Clocked.init : Clocked Core.init [] :=
  ⟨⟨_, ⟨.init, by simp [Core.init, vtInit, span], .nil, by simp [Core.init, vtInit, remaining]⟩⟩, fun _ => rfl, rfl⟩

theorem reach_clocked {cfg : Config} (reached : (kernelLts cfg).Reach (fun _ _ => True) s) : ∃ h, Clocked s.toCore h := by
  refine (reached.invariant (I := fun s => KernelOk False s ∧ ∃ h, Clocked s.toCore h) ?_ fun s l s' inv _ taken => ?_).2
  · exact ⟨.init False cfg, [], .init⟩
  · obtain ⟨ok, h, clocked⟩ := inv
    obtain ⟨since, fired, advances⟩ := next_clocked ok taken clocked
    exact ⟨(next_step ok nofun taken).2, _, advances.clocked⟩

/-- The kernel, `t` ticks after its start. -/
structure Ticked (s : Sys) (t : Nat) : Prop where
  ok : KernelOk False s
  clocked : ∃ h, Clocked s.toCore h ∧ ticks h = t

theorem Ticked.init (cfg : Config) : Ticked (chSysInit cfg) 0 := ⟨.init False cfg, [], .init, rfl⟩

theorem Ticked.step {t : Nat} (ticked : Ticked s t) (taken : next l s = some s') :
    Ticked s' (t + if l = .tick then 1 else 0) := by
  obtain ⟨ok, h, clocked, count⟩ := ticked
  obtain ⟨since, fired, advances⟩ := next_clocked ok taken clocked
  refine ⟨(next_step ok nofun taken).2, _, advances.clocked, ?_⟩
  rw [TimerEvent.ticks_append, ticks_fired, advances.ticks, count, add_comm]

theorem Ticked.systime {t : Nat} (ticked : Ticked s t) : s.vt.vtSystime = UInt32.ofNat t := by
  obtain ⟨-, h, clocked, rfl⟩ := ticked
  exact clocked.systime

/-! ## Single timers -/

theorem Expiries.Runs.unique {e' : Expiries VtId} (runs : Expiries.Runs h e) (runs' : Expiries.Runs h e') : e = e' := by
  induction runs generalizing e' with
  | nil =>
    cases runs'
    rfl
  | cons _ step ih =>
    cases runs' with
    | cons runs' step' =>
      obtain rfl := ih runs'
      cases step <;> cases step' <;> rfl

/-- Events about other timers leave the expiry alone. -/
theorem Expiries.Runs.quiet : ∀ {since : List (TimerEvent VtId)} {e' : Expiries VtId},
    Expiries.Runs h e → Expiries.Runs (since ++ h) e' → (∀ ev ∈ since, ¬ About v ev) → e'.expiry v = e.expiry v
  | [], e', runs, runs', _ => by rw [runs.unique runs']
  | ev :: since, e', runs, .cons runs' step, others => by
    obtain ⟨other, others⟩ := List.forall_mem_cons.1 others
    rw [step.frame other]
    exact quiet runs runs' others

theorem Represents.armed_iff {vt : VTList VtId Callback Systime} (represents : Represents vt h e) :
    chVTIsArmedI v vt = true ↔ e.expiry v ≠ none := by
  rw [represents.repr, Ne, Option.map_eq_none_iff, remaining_eq_none, not_not]
  exact represents.armed v

/-- A timer that no event is about is armed as before. -/
theorem Clocked.armed_iff (clocked : Clocked c h) (clocked' : Clocked c' (since ++ h))
    (others : ∀ ev ∈ since, ¬ About v ev) : chVTIsArmedI v c'.vt = true ↔ chVTIsArmedI v c.vt = true := by
  obtain ⟨e, represents⟩ := clocked.timers
  obtain ⟨e', represents'⟩ := clocked'.timers
  rw [represents.armed_iff, represents'.armed_iff, represents.runs.quiet represents'.runs others]

/-- The timer is armed while nothing has happened to it. -/
theorem Clocked.armed {d : Systime} {older : List (TimerEvent VtId)}
    (clocked : Clocked c (since ++ .set v d :: older)) (others : ∀ ev ∈ since, ¬ About v ev) : chVTIsArmedI v c.vt = true := by
  obtain ⟨e, represents⟩ := clocked.timers
  rw [represents.armed_iff, represents.runs.expiry_of_set since others]
  nofun

/-- Only an armed timer fires. -/
theorem Clocked.fired_armed (clocked : Clocked c h) (clocked' : Clocked c' (.fire v :: (since ++ h)))
    (others : ∀ ev ∈ since, ¬ About v ev) : chVTIsArmedI v c.vt = true := by
  obtain ⟨e, represents⟩ := clocked.timers
  obtain ⟨e', represents'⟩ := clocked'.timers
  cases represents'.runs with
  | cons runs step =>
    cases step with
    | fire due =>
      rw [represents.armed_iff, ← represents.runs.quiet runs others, due]
      nofun

/-- A timer is off once it has fired or has been reset. -/
theorem Clocked.unarmed {ev : TimerEvent VtId} (clocked : Clocked c (ev :: h)) (off : ev = .fire v ∨ ev = .reset v) :
    chVTIsArmedI v c.vt = false := by
  obtain ⟨e, represents⟩ := clocked.timers
  refine eq_false_of_ne_true fun armed => represents.armed_iff.1 armed ?_
  cases represents.runs with
  | cons _ step => rcases off with rfl | rfl <;> cases step <;> exact update_self ..

/-- The timers of the kernel as they are on their own. -/
theorem Clocked.exactExpiry (clocked : Clocked c h) (running : Option VtId) (is : running = none → ¬ c.Ticking) :
    ExactExpiry ⟨c.vt, running, h⟩ := by
  obtain ⟨e, represents⟩ := clocked.timers
  exact TimerInv.exactExpiry ⟨e, represents, fun none => clocked.between (is none)⟩

end ChibiOS.Kernel
