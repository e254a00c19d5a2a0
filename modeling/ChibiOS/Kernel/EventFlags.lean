import ChibiOS.Kernel.EventWaits

/-!
# Event flags are neither lost nor counted twice

Over whole runs: a flag of a thread stays pending from the signal that sets it until
that thread returns it from a wait or a clear, so it is returned once for each time
that it goes from clear to set.
-/

namespace ChibiOS.Kernel

open Function (update update_self update_of_ne update_eq_self)
open Lib

/-! ## Steps -/

/-- What a step does to the events. -/
structure EvtStep (l : Label) (s s' : Sys) : Prop where
  evtOk : EvtOk s'
  flags : FlagStep (evtReturned l s s') s s'

variable {s s' : Sys} {l : Label} {t : Tid}

/-- A new thread has no events, and did not have any. -/
theorem EvtOk.create {φ : Foot} (evt : EvtOk s) (ok : CoreOk s.toCore) (moves : Moves φ s.toCore s'.toCore) (off : φ.evt = false)
    (pending : s'.pEpending = update s.pEpending s.nthd 0) (listener : s'.elListener = s.elListener) :
    EvtOk s' ∧ FlagStep 0 s s' := by
  have same : s'.pEpending = s.pEpending := by
    rw [pending, ← evt.fresh s.nthd le_rfl, update_eq_self]
  refine ⟨evt.of_moves ok moves off same fun el => ?_, .same same⟩
  rw [listener]
  exact (evt.listener el).trans_le moves.nthd_le

theorem ICall.evtStep (f : ICall) (evt : EvtOk s) (ok : CoreOk s.toCore) (tellable : Tellable s) (allowed : f.allowed s = true)
    (on : f.foot.evt = true) : EvtOk (f.body s) ∧ FlagStep 0 s (f.body s) := by
  cases f with
  | evtSignalI tp mask =>
    have signals := chEvtSignalI_signals evt ok (of_decide_eq_true allowed) mask
    exact ⟨signals.evtOk, signals.flagStep⟩
  | evtBroadcastFlagsI es flags =>
    have signals := broadcastLoop_signals flags (s.esNext es) evt ok
    exact ⟨signals.evtOk, signals.flagStep⟩
  | evtGetAndClearFlagsI el =>
    have told : IEffect {} s (s.ret (.mask (s.elFlags el))) := .tell tellable _
    exact ⟨evt.of_moves ok told.moves rfl rfl evt.listener, .same rfl⟩
  | thdCreateI prio =>
    obtain ⟨le, ge⟩ := of_decide_eq_true allowed
    obtain ⟨moves, -⟩ : Moves { mtx := true, reg := true } s.toCore (s.chThdCreateI prio .static).toCore ∧ _ :=
      chThdCreateI_moves rfl rfl ok tellable le ge
    exact evt.create ok moves rfl rfl rfl
  | _ => cases on

theorem ApiCall.evtStep (f : ApiCall) (evt : EvtOk s) (ok : CoreOk s.toCore) (outside : Outside s) (quiet : s.due = false)
    (allowed : f.allowed s = true) (on : f.foot.evt = true) : EvtStep (.call f) s (f.body s) := by
  obtain ⟨entered, ok', zone, plain⟩ : AtWork {} s s.enter := outside.enter ok
  have told : ∀ r, Moves {} s.toCore (s.enter.toCore.ret r) := fun r => entered.moves.trans (zone.ret r).1
  cases f with
  | evtRegisterMask es el mask =>
    refine ⟨evt.of_moves ok (told .void) rfl rfl fun el' => ?_, .same rfl⟩
    change update s.elListener el s.currp el' < s.nthd
    by_cases same : el' = el
    · rw [same, update_self]
      exact ok.sched.currp_lt
    · rw [update_of_ne same]
      exact evt.listener el'
  | evtUnregister es el => exact ⟨evt.of_moves ok (told .void) rfl rfl evt.listener, .same rfl⟩
  | evtGetAndClearFlags el => exact ⟨evt.of_moves ok (told _) rfl rfl evt.listener, .same rfl⟩
  | evtGetAndClearEvents mask =>
    have returned : evtReturned (.call (.evtGetAndClearEvents mask)) s (s.chEvtGetAndClearEvents mask) = s.pEpending s.currp &&& mask := by
      refine evtReturned_told rfl (any_of_plain kind_isEvt plain) ?_
      simp [Sys.chEvtGetAndClearEvents, Sys.zone, Sys.ret, Sys.onCore, Core.ret, Core.caller, Core.push, Sys.setPending, outside.thread]
    refine ⟨(entered.evtOk rfl ok evt).tell (entered.coreOk ok) plain _ _, ?_⟩
    rw [show (ApiCall.evtGetAndClearEvents mask).body s = s.chEvtGetAndClearEvents mask from rfl, returned]
    refine .take rfl (fun b => ?_) fun b has => ?_
    · change hasFlag (s.pEpending s.currp &&& ~~~mask) b = _
      rw [hasFlag_clear, hasFlag_and]
      cases hasFlag (s.pEpending s.currp) b <;> rfl
    · rw [hasFlag_and, Bool.and_eq_true] at has
      exact has.1
  | evtAddEvents mask =>
    refine ⟨(entered.evtOk rfl ok evt).tell (entered.coreOk ok) plain _ _, fun t b has => .inl ?_, fun b has => ?_⟩
    swap
    · exact absurd has (by simp [evtReturned, Label.takesEvents, Label.evtWait])
    change hasFlag (update s.pEpending s.currp (s.pEpending s.currp ||| mask) t) b = true
    by_cases mine : t = s.currp
    · rw [mine] at has ⊢
      rw [update_self, hasFlag_or, has, Bool.true_or]
    · rwa [update_of_ne mine]
  | evtSignal tp mask =>
    have signals := chEvtSignal_signals ok evt outside (of_decide_eq_true allowed) mask
    exact ⟨signals.evtOk, signals.flagStep⟩
  | evtBroadcastFlags es flags =>
    have signals := chEvtBroadcastFlags_signals ok evt outside es flags
    exact ⟨signals.evtOk, signals.flagStep⟩
  | evtWait w mask =>
    obtain ⟨evt', step⟩ : EvtOk (s.chEvtWait w mask) ∧ _ := chEvtWait_evt evt ok outside
    exact ⟨evt', step.flagStep rfl⟩
  | evtWaitTimeout w mask time =>
    obtain ⟨evt', step⟩ : EvtOk (s.chEvtWaitTimeout w mask time) ∧ _ := chEvtWaitTimeout_evt evt ok outside
    exact ⟨evt', step.flagStep rfl⟩
  | thdCreate prio mode =>
    obtain ⟨le, ge⟩ := of_decide_eq_true allowed
    have moves : Moves { mtx := true, reg := true } s.toCore (s.chThdCreate prio mode).toCore :=
      chThdCreate_moves rfl rfl ok outside quiet le ge
    obtain ⟨evt', flags⟩ := evt.create ok moves rfl rfl rfl
    exact ⟨evt', flags⟩
  | _ => cases on

theorem next_evt (ok : KernelOk False s) (evt : EvtOk s) (taken : next l s = some s') : EvtStep l s s' := by
  have effect := (next_step ok nofun taken).1
  cases on : (l.foot s).evt with
  | false =>
    refine ⟨effect.evtOk on ok.core evt, ?_⟩
    rw [evtReturned_off on]
    exact .same (congrArg Events.pEpending (effect.objs.evt on))
  | true =>
    cases l with
    | call f =>
      obtain ⟨outside, -, allowed, rfl⟩ := next_call taken
      exact f.evtStep evt ok.core outside (ok.due.of_unlocked outside.thread outside.unlocked) allowed on
    | icall f =>
      obtain ⟨mode, allowed, rfl⟩ := next_icall taken
      obtain ⟨evt', flags⟩ := f.evtStep evt ok.core (tellable_of_mode ok.core mode) allowed on
      exact ⟨evt', flags⟩
    | scall f => cases f <;> cases on
    | run =>
      obtain ⟨f, fs, thread, top, -, rfl⟩ := next_run taken
      rw [Label.foot_run top] at on
      cases f with
      | evtWait w mask timed =>
        obtain ⟨evt', step⟩ := evtWaitResume_evt evt ok.core thread top
        exact ⟨evt', step.flagStep (by simp [Label.takesEvents, Label.evtWait, top])⟩
      | _ => cases on
    | callback =>
      obtain ⟨isr, ⟨tp, is, rfl⟩ | ⟨n, -, rfl⟩⟩ := next_callback taken
      · obtain ⟨evt', events⟩ := wakeup_evt evt ok.core is
        exact ⟨evt', .same (congrArg Events.pEpending events)⟩
      · exact ⟨⟨fun t => (evt.threads t).undisturbed (.congr rfl rfl rfl) rfl, evt.listener, evt.fresh⟩, .same rfl⟩
    | _ => cases on

theorem EvtOk.chSysInit (cfg : Config) : EvtOk (chSysInit cfg) := by
  have none : ∀ t, (Kernel.chSysInit cfg).waits Frame.isEvt t = none := fun t => kind_isEvt.waits_none (by
    simp only [Kernel.chSysInit, Core.init]
    split <;> simp [Plain, Frame.asks])
  refine ⟨fun t => ⟨fun w state => ?_, fun w m timed frame => ?_, fun w m timed msg frame => ?_⟩, fun el => Nat.two_pos,
    fun t _ => rfl⟩
  · simp only [Kernel.chSysInit, Core.init] at state
    split at state
    · cases w <;> cases state
    · split at state <;> cases w <;> cases state
  · rw [none] at frame
    cases frame
  · rw [none] at frame
    cases frame

theorem trace_ok {cfg : Config} {steps : List (Sys × Label × Sys)} (trace : (kernelLts cfg).Trace steps s) :
    KernelOk False s ∧ EvtOk s := by
  induction trace with
  | init => exact ⟨.init False cfg, .chSysInit cfg⟩
  | step _ taken ih => exact ⟨(next_step ih.1 nofun taken).2, (next_evt ih.1 ih.2 taken).evtOk⟩

/-! ## Runs -/

/-- The times a flag of a thread goes from clear to set. -/
def timesSet (t : Tid) (b : Nat) (steps : List (Sys × Label × Sys)) : Nat :=
  steps.countP fun (s, _, s') => !hasFlag (s.pEpending t) b && hasFlag (s'.pEpending t) b

/-- The times the thread returns the flag from a wait or a clear. -/
def timesReturned (t : Tid) (b : Nat) (steps : List (Sys × Label × Sys)) : Nat :=
  steps.countP fun (s, l, s') => decide (s.currp = t) && hasFlag (evtReturned l s s') b

theorem FlagStep.count {ret : EventMask} (flags : FlagStep ret s s') (t : Tid) (b : Nat) :
    (if (!hasFlag (s.pEpending t) b && hasFlag (s'.pEpending t) b) = true then 1 else 0) +
    (if hasFlag (s.pEpending t) b then 1 else 0) =
      (if (decide (s.currp = t) && hasFlag ret b) = true then 1 else 0) + if hasFlag (s'.pEpending t) b then 1 else 0 := by
  by_cases returned : s.currp = t ∧ hasFlag ret b = true
  · obtain ⟨rfl, has⟩ := returned
    obtain ⟨before, after⟩ := flags.taken b has
    simp [before, after, has]
  · have not : (decide (s.currp = t) && hasFlag ret b) = false := by simpa using returned
    rw [not]
    cases before : hasFlag (s.pEpending t) b with
    | false => simp
    | true =>
      rcases flags.kept t b before with after | ⟨mine, has⟩
      · simp [after]
      · exact absurd ⟨mine.symm, has⟩ returned

/-- A flag is returned once for each time it is set. -/
theorem flags_counted {cfg : Config} {steps : List (Sys × Label × Sys)} (trace : (kernelLts cfg).Trace steps s) (t : Tid)
    (b : Nat) :
    timesSet t b steps = timesReturned t b steps + if hasFlag (s.pEpending t) b then 1 else 0 := by
  induction trace with
  | init =>
    have none : hasFlag ((kernelLts cfg).init.pEpending t) b = false := hasFlag_zero b
    rw [none]
    rfl
  | step before taken ih =>
    obtain ⟨ok, evt⟩ := trace_ok before
    have count := (next_evt ok evt taken).flags.count t b
    simp only [timesSet, timesReturned, List.countP_cons] at ih ⊢
    omega

/-! ## The theorem -/

/-- A broadcast on the event source `es`. -/
def Label.evtBroadcasts (es : EsId) : Label → Prop
  | call (.evtBroadcastFlags es' _) | icall (.evtBroadcastFlagsI es' _) => es' = es
  | _ => False

theorem next_evtWait {w : EvtWait} {mask : EventMask} (ok : KernelOk False s) (evt : EvtOk s) (taken : next l s = some s')
    (wait : l.evtWait s = some (w, mask)) : EvtWaitStep l w mask s s' := by
  cases l with
  | call f =>
    obtain ⟨outside, -, -, rfl⟩ := next_call taken
    cases f with
    | evtWait w' mask' =>
      cases wait
      exact (chEvtWait_evt evt ok.core outside).2
    | evtWaitTimeout w' mask' time =>
      cases wait
      exact (chEvtWaitTimeout_evt evt ok.core outside).2
    | _ => cases wait
  | run =>
    obtain ⟨f, fs, thread, top, -, rfl⟩ := next_run taken
    simp only [Label.evtWait, top] at wait
    cases f with
    | evtWait w' mask' timed =>
      cases wait
      exact (evtWaitResume_evt evt ok.core thread top).2
    | _ => cases wait
  | _ => cases wait

theorem next_broadcast {es : EsId} (ok : KernelOk False s) (evt : EvtOk s) (taken : next l s = some s')
    (broadcast : l.evtBroadcasts es)
    (t : Tid) : WokenOnce t s.toCore s'.toCore := by
  cases l with
  | call f =>
    obtain ⟨outside, -, -, rfl⟩ := next_call taken
    cases f with
    | evtBroadcastFlags es' flags => exact (chEvtBroadcastFlags_signals ok.core evt outside es' flags).once t
    | _ => cases broadcast
  | icall f =>
    obtain ⟨-, -, rfl⟩ := next_icall taken
    cases f with
    | evtBroadcastFlagsI es' flags => exact (broadcastLoop_signals flags (s.esNext es') evt ok.core).once t
    | _ => cases broadcast
  | _ => cases broadcast

/-- What the events give their users, at the end `s` of a run. -/
structure EventFlagsOk (steps : List (Sys × Label × Sys)) (s : Sys) : Prop where
  orWait : ∀ t, s.pState t = .wtorevt → ∃ m, s.pU t = .ewmask m ∧ s.pEpending t &&& m = 0
  andWait : ∀ t, s.pState t = .wtandevt → ∃ m, s.pU t = .ewmask m ∧ s.pEpending t &&& m ≠ m
  kept : ∀ l s', next l s = some s' → ∀ t b, hasFlag (s.pEpending t) b = true →
    hasFlag (s'.pEpending t) b = true ∨ t = s.currp ∧ hasFlag (evtReturned l s s') b = true
  counted : ∀ t b, timesSet t b steps = timesReturned t b steps + if hasFlag (s.pEpending t) b then 1 else 0
  waits : ∀ l s' w mask, next l s = some s' → l.evtWait s = some (w, mask) → EvtWaitStep l w mask s s'
  broadcast : ∀ es l s', l.evtBroadcasts es → next l s = some s' →
    (∀ t, WokenOnce t s.toCore s'.toCore) ∧ (s'.queue .rQueue).Nodup

theorem event_flags {cfg : Config} {steps : List (Sys × Label × Sys)} (trace : (kernelLts cfg).Trace steps s) :
    EventFlagsOk steps s := by
  obtain ⟨ok, evt⟩ := trace_ok trace
  refine ⟨fun t state => ?_, fun t state => ?_, fun l s' taken => (next_evt ok evt taken).flags.kept, flags_counted trace,
    fun l s' w mask taken => next_evtWait ok evt taken, fun es l s' broadcast taken => ?_⟩
  · obtain ⟨m, u, unmet⟩ := (evt.threads t).unmet .any state
    exact ⟨m, u, by simpa [Sys.evtMet] using unmet⟩
  · obtain ⟨m, u, unmet⟩ := (evt.threads t).unmet .all state
    exact ⟨m, u, by simpa [Sys.evtMet] using unmet⟩
  · exact ⟨next_broadcast ok evt taken broadcast, (next_step ok False.elim taken).2.core.sched.nodup _⟩

/-- The main thread waits for both flags of two listeners on one source; a broadcast in an
interrupt handler wakes it, and it returns them. -/
def broadcastRun : List Label :=
  [.call (.evtRegisterMask 0 0 1), .run, .call (.evtRegisterMask 0 1 4), .run, .call (.evtWait .all 5), .run, .isrEnter,
    .icall (.evtBroadcastFlagsI 0 0), .isrExit, .run, .run]

theorem event_flags_broadcast : ∃ s steps,
    (kernelLts smallConfig).trace broadcastRun [] (chSysInit smallConfig) = some (steps, s) ∧
    s.pRet (some 0) = .mask 5 ∧ timesSet 0 2 steps = 1 ∧ timesReturned 0 2 steps = 1 ∧ s.pEpending 0 = 0 ∧ EventFlagsOk steps s := by
  have trace := @Lts.Trace.of_trace _ _ (kernelLts smallConfig) broadcastRun _ _ _ _ .init rfl
  exact ⟨_, _, rfl, rfl, by decide, by decide, by decide, event_flags trace⟩

end ChibiOS.Kernel
