import ChibiOS.Kernel.CondWaits

/-!
# Waits for events

A thread that waits for events keeps its mask in `p_u` until it is woken, by a signal
that leaves it satisfied or by its timer. What satisfied it stays pending until the
thread itself goes on and takes it.
-/

namespace ChibiOS.Kernel

open Function
open Lib Kernel.Core Sys
open Option (map_eq_some_iff)
open Events (pEpending)

/-! ## Masks -/

/-- The flag `b` is in the mask. -/
def hasFlag (m : EventMask) (b : Nat) : Bool := m.toBitVec.getLsbD b

section

variable (x y : EventMask) (b : Nat)

@[simp] theorem hasFlag_and : hasFlag (x &&& y) b = (hasFlag x b && hasFlag y b) := by simp [hasFlag]

@[simp] theorem hasFlag_or : hasFlag (x ||| y) b = (hasFlag x b || hasFlag y b) := by simp [hasFlag]

@[simp] theorem hasFlag_zero : hasFlag 0 b = false := by simp [hasFlag]

/-- Flags above the width of a mask are never there, so the complement does no harm. -/
@[simp] theorem hasFlag_clear : hasFlag (x &&& ~~~y) b = (hasFlag x b && !hasFlag y b) := by
  simp only [hasFlag, UInt32.toBitVec_and, UInt32.toBitVec_not, BitVec.getLsbD_and, BitVec.getLsbD_not]
  by_cases lt : b < 32
  · simp [lt]
  · simp [BitVec.getLsbD_of_ge _ _ (Nat.le_of_not_lt lt)]

variable {x y}

theorem hasFlag_ext (same : ∀ b, hasFlag x b = hasFlag y b) : x = y :=
  UInt32.toBitVec_inj.1 (BitVec.eq_of_getLsbD_eq fun i _ => same i)

/-- `m & -m` is the lowest flag of `m`. -/
theorem hasFlag_lowest {b : Nat} : hasFlag (x &&& -x) b = true ↔ hasFlag x b = true ∧ ∀ i < b, hasFlag x i = false := by
  simp only [hasFlag, UInt32.toBitVec_and, UInt32.toBitVec_neg, BitVec.getLsbD_and, BitVec.getLsbD_neg]
  by_cases has : x.toBitVec.getLsbD b = true
  · have lt : b < 32 := BitVec.lt_of_getLsbD has
    simp only [has, lt, decide_true, Bool.true_and, Bool.true_xor, Bool.not_eq_true', decide_eq_false_iff_not, true_and]
    simp
  · simp only [has, false_and, Bool.false_eq_true, Bool.false_and]

end

/-! ## What a wait goes by -/

/-- A function that waits for events. -/
def Frame.isEvt : Frame → Bool
  | evtWait .. => true
  | _ => false

open Kernel.Frame (isEvt)

theorem kind_isEvt : Kind isEvt := by
  intro f is
  cases f <;> first | (cases is; done) | exact Option.some_ne_none _

theorem Foot.off_isEvt {φ : Foot} (off : φ.evt = false) : φ.Off isEvt := by
  refine ⟨fun f is => ?_, fun f is st asks => ?_⟩
  · cases f <;> first | exact off | cases is
  · cases f with
    | evtWait w => cases w <;> (cases asks; exact off)
    | _ => cases is

/-- The thread `t`, with the events `pending`, waits or goes on as its mask says. -/
structure EvtAt (t : Tid) (pending : EventMask) (c : Core) : Prop where
  unmet : ∀ w : EvtWait, c.pState t = w.tstate → ∃ m, c.pU t = .ewmask m ∧ evtMet w m pending = false
  asleep : ∀ w m timed, c.waits isEvt t = some (.evtWait w m timed, none) → c.pU t = .ewmask m
  woken : ∀ w m timed msg, c.waits isEvt t = some (.evtWait w m timed, some msg) →
    msg = rdyOk ∧ evtMet w m pending = true ∨ msg = rdyTimeout ∧ timed = true

structure EvtOk (s : Sys) : Prop where
  threads : ∀ t, EvtAt t (s.pEpending t) s.toCore
  listener : ∀ el, s.elListener el < s.nthd
  fresh : ∀ t, s.nthd ≤ t → s.pEpending t = 0

variable {φ : Foot} {c c' c'' : Core} {s s' : Sys} {t tp : Tid} {pending m : EventMask} {w w' : EvtWait}
  {mask : EventMask} {timed : Bool} {l : Label} {fs : List Frame} {msg : Option Msg}

theorem evtMet_mono (met : evtMet w m pending = true) (more : EventMask) : evtMet w m (pending ||| more) = true := by
  have any : pending &&& m ≠ 0 → (pending ||| more) &&& m ≠ 0 := fun some_ zero => some_ (hasFlag_ext fun b => by
    have none : hasFlag ((pending ||| more) &&& m) b = false := by rw [zero, hasFlag_zero]
    simp only [hasFlag_and, hasFlag_or, hasFlag_zero] at none ⊢
    cases has : hasFlag m b
    · rw [Bool.and_false]
    · rw [has, Bool.and_true, Bool.or_eq_false_iff] at none
      rw [none.1, Bool.false_and])
  cases w with
  | one => exact decide_eq_true (any (of_decide_eq_true met))
  | any => exact decide_eq_true (any (of_decide_eq_true met))
  | all =>
    have all : pending &&& m = m := of_decide_eq_true met
    refine decide_eq_true (hasFlag_ext fun b => ?_)
    have here : hasFlag (pending &&& m) b = hasFlag m b := by rw [all]
    simp only [hasFlag_and, hasFlag_or] at here ⊢
    cases has : hasFlag m b
    · rw [Bool.and_false]
    · rw [has, Bool.and_true] at here
      rw [here, Bool.true_or, Bool.true_and]

/-- Waits with the same state are waits for the same. -/
theorem evtMet_tstate (w w' : EvtWait) (same : w.tstate = w'.tstate) : evtMet w m pending = evtMet w' m pending := by
  cases w <;> cases w' <;> first | rfl | cases same

theorem EvtWait.tstate_waits (w : EvtWait) : w.tstate.waits = true := by cases w <;> rfl

/-- The thread that waits, and those pending satisfy it. -/
theorem evtSatisfied_iff : s.evtSatisfied tp = true ↔
    ∃ w m, s.pState tp = EvtWait.tstate w ∧ s.pU tp = .ewmask m ∧ evtMet w m (s.pEpending tp) = true := by
  constructor
  · intro satisfied
    unfold evtSatisfied at satisfied
    split at satisfied
    next m state u =>
      exact ⟨.any, m, state, u, satisfied⟩
    next m state u =>
      exact ⟨.all, m, state, u, satisfied⟩
    · cases satisfied
  · rintro ⟨w, m, state, u, met⟩
    cases w <;> simpa [evtSatisfied, state, u, EvtWait.tstate, evtMet] using met

/-! ## Threads -/

/-- The frame of a thread that sleeps says how. -/
theorem AskOk.evtState (ask : AskOk c) (waits : (c.pState t).waits = true)
    (frame : c.waits isEvt t = some (.evtWait w m timed, msg)) : c.pState t = w.tstate := by
  obtain ⟨f, found, ⟨⟩⟩ := map_eq_some_iff.1 frame
  obtain bad | bad | ⟨same, -⟩ := ask t
  · exact absurd bad (TState.waits_ne_ready waits)
  · exact absurd bad (TState.waits_ne_current waits)
  · exact same _ (List.mem_of_find?_eq_some found) _ rfl

theorem EvtAt.undisturbed (evt : EvtAt t pending c) (same : Undisturbed t c c')
    (waits : c'.waits isEvt t = c.waits isEvt t) : EvtAt t pending c' := by
  refine ⟨fun w state => ?_, fun w m timed frame => ?_, fun w m timed msg frame => ?_⟩
  · rw [same.u]
    rcases same.state with is | ⟨-, awake⟩
    · exact evt.unmet w (is ▸ state)
    · rw [Core.awake, state] at awake
      cases w <;> exact absurd awake (by simp [EvtWait.tstate])
  · rw [same.u]
    exact evt.asleep w m timed (waits ▸ frame)
  · exact evt.woken w m timed msg (waits ▸ frame)

/-- Moves away from the events. -/
theorem Moves.evtAt (moves : Moves φ c c') (off : φ.evt = false) (ok : CoreOk c) (evt : EvtAt t pending c) :
    EvtAt t pending c' := by
  have waits : c'.waits isEvt = c.waits isEvt := moves.waits_eq ok (Foot.off_isEvt off)
  have rests : ∀ w : EvtWait, Rests w.tstate t c c' := fun w => moves.rests ok.sched (by cases w <;> exact off) t
  have sleeps : ∀ w : EvtWait, c'.pState t = w.tstate → c.pState t = w.tstate ∧ c'.pU t = c.pU t := fun w state => by
    rcases rests w with ⟨is, u⟩ | ⟨-, other⟩
    · exact ⟨is ▸ state, u⟩
    · exact absurd state other
  refine ⟨fun w state => ?_, fun w m timed frame => ?_, fun w m timed msg frame => ?_⟩
  · obtain ⟨state, u⟩ := sleeps w state
    rw [u]
    exact evt.unmet w state
  · obtain ⟨f, -, is⟩ := map_eq_some_iff.1 frame
    have asleep : (c'.pState t).waits = true := by
      by_contra awake
      simp [awake] at is
    rw [(sleeps w ((moves.coreOk ok).ask.evtState asleep frame)).2]
    exact evt.asleep w m timed (waits ▸ frame)
  · exact evt.woken w m timed msg (waits ▸ frame)

/-- A thread that is awake and in no wait for events. -/
theorem EvtAt.idle (awake : (c.pState t).waits = false) (none : c.waits isEvt t = none) : EvtAt t pending c := by
  refine ⟨fun w state => ?_, fun w m timed frame => ?_, fun w m timed msg frame => ?_⟩
  · rw [state, w.tstate_waits] at awake
    cases awake
  · cases none.symm.trans frame
  · cases none.symm.trans frame

/-- More events are pending, and the thread is still not satisfied. -/
theorem EvtAt.more (evt : EvtAt t (s.pEpending t) s.toCore) {s' : Sys} (core : s'.toCore = s.toCore)
    (grown : s'.pEpending t = s.pEpending t ||| m) (unmet : s'.evtSatisfied t = false) : EvtAt t (s'.pEpending t) s'.toCore := by
  refine ⟨fun w state => ?_, fun w m timed frame => ?_, fun w m timed msg frame => ?_⟩
  · obtain ⟨mask, u, -⟩ := evt.unmet w (core ▸ state)
    refine ⟨mask, core ▸ u, ?_⟩
    rw [← Bool.not_eq_true]
    intro met
    rw [evtSatisfied_iff.2 ⟨w, mask, state, core ▸ u, met⟩] at unmet
    cases unmet
  · rw [core] at frame ⊢
    exact evt.asleep w m timed frame
  · rw [core] at frame
    refine (evt.woken w m timed msg frame).imp_left fun ⟨isOk, met⟩ => ⟨isOk, ?_⟩
    rw [grown]
    exact evtMet_mono met _

/-- The thread is woken: by a signal that satisfies it, or by its timer. -/
theorem EvtAt.wake {msg : Msg} (evt : EvtAt t pending c) (ask : AskOk c) (asleep : (c.pState t).waits = true)
    (awake : (c'.pState t).waits = false)
    (waits : c'.waits isEvt t = (c.waits isEvt t).map fun w => (w.1, some msg))
    (reason : ∀ w mask timed, c.waits isEvt t = some (.evtWait w mask timed, none) → c.pState t = w.tstate → c.pU t = .ewmask mask →
      msg = rdyOk ∧ evtMet w mask m = true ∨ msg = rdyTimeout ∧ timed = true) : EvtAt t m c' := by
  refine ⟨fun w state => ?_, fun w m timed frame => ?_, fun w mask timed msg' frame => ?_⟩
  · rw [state, w.tstate_waits] at awake
    cases awake
  · obtain ⟨f, -, is⟩ := map_eq_some_iff.1 frame
    simp [awake] at is
  · rw [waits] at frame
    obtain ⟨⟨f, old⟩, before, ⟨⟩⟩ := map_eq_some_iff.1 frame
    obtain ⟨g, -, is⟩ := map_eq_some_iff.1 before
    rw [if_pos asleep] at is
    cases is
    exact reason w mask timed before (ask.evtState asleep before) (evt.asleep w mask timed before)

/-! ## Signals -/

/-- The thread is woken once, or not at all. -/
def WokenOnce (t : Tid) (c c' : Core) : Prop := Undisturbed t c c' ∨ Woken t rdyOk c c'

theorem Woken.not_again {msg msg' : Msg} (first : Woken t msg c c') : ¬ Woken t msg' c' c'' := fun again => by
  have waits := again.waited
  rcases first.awake with ready | running
  · rw [ready] at waits; cases waits
  · rw [running] at waits; cases waits

theorem WokenOnce.trans (left : WokenOnce t c c') (right : WokenOnce t c' c'') : WokenOnce t c c'' := by
  rcases left with same | woken
  · rcases right with same' | woken
    · exact .inl (same.trans same')
    · exact .inr (woken.before same)
  · rcases right with same | again
    · exact .inr (woken.after same)
    · exact absurd again woken.not_again

/-- Events are signalled to some threads. -/
structure Signals (s s' : Sys) : Prop where
  evtOk : EvtOk s'
  once : ∀ t, WokenOnce t s.toCore s'.toCore
  grows : ∀ t, ∃ m, s'.pEpending t = s.pEpending t ||| m

theorem Signals.trans {s'' : Sys} (left : Signals s s') (right : Signals s' s'') : Signals s s'' := by
  refine ⟨right.evtOk, fun t => (left.once t).trans (right.once t), fun t => ?_⟩
  obtain ⟨m, grown⟩ := left.grows t
  obtain ⟨m', grown'⟩ := right.grows t
  exact ⟨m ||| m', by rw [grown', grown, UInt32.or_assoc]⟩

/-- Events and threads are as they were. -/
theorem EvtOk.of_moves (evt : EvtOk s) (ok : CoreOk s.toCore) (moves : Moves φ s.toCore s'.toCore) (off : φ.evt = false)
    (same : s'.pEpending = s.pEpending) (listener : ∀ el, s'.elListener el < s'.nthd) : EvtOk s' := by
  refine ⟨fun t => ?_, listener, fun t le => ?_⟩
  · rw [same]
    exact moves.evtAt off ok (evt.threads t)
  · rw [same]
    exact evt.fresh t (moves.nthd_le.trans le)

theorem Effect.evtOk (effect : Effect φ s s') (off : φ.evt = false) (ok : CoreOk s.toCore) (evt : EvtOk s) : EvtOk s' := by
  have events := effect.objs.evt off
  refine evt.of_moves ok effect.moves off (congrArg pEpending events) fun el => ?_
  rw [show s'.elListener = s.elListener from congrArg Events.elListener events]
  exact (evt.listener el).trans_le effect.moves.nthd_le

theorem chEvtSignalI_signals (evt : EvtOk s) (ok : CoreOk s.toCore) (lt : tp < s.nthd) (mask : EventMask) :
    Signals s (s.chEvtSignalI tp mask) := by
  rw [chEvtSignalI]
  generalize is : s.setPending tp (s.pEpending tp ||| mask) = s₁
  have core : s₁.toCore = s.toCore := by rw [← is]; rfl
  have here : s₁.pEpending tp = s.pEpending tp ||| mask := by rw [← is]; exact update_self ..
  have others : ∀ t, t ≠ tp → s₁.pEpending t = s.pEpending t := fun t other => by
    rw [← is]; exact update_of_ne other ..
  have listener : s₁.elListener = s.elListener := by rw [← is]; rfl
  have grows : ∀ t, ∃ m, s₁.pEpending t = s.pEpending t ||| m := fun t => by
    by_cases same : t = tp
    · subst same; exact ⟨mask, here⟩
    · exact ⟨0, by rw [others t same, UInt32.or_zero]⟩
  have fresh : ∀ t, s.nthd ≤ t → s₁.pEpending t = 0 := fun t le => by
    rw [others t (lt.trans_le le).ne']
    exact evt.fresh t le
  split
  next satisfied =>
    obtain ⟨w, m, state, u, met⟩ := evtSatisfied_iff.1 satisfied
    have asleep : (s.pState tp).waits = true := by
      rw [← show s₁.pState tp = s.pState tp by rw [core], state]
      exact w.tstate_waits
    have waits : (s.readyMsg tp rdyOk).waits isEvt = _ := waits_readyMsg ok.ask asleep
    obtain ⟨woken, rest⟩ := WakesAll.readyMsg rdyOk asleep
    have readied : (s₁.onCore (.readyMsg tp rdyOk)).toCore = s.readyMsg tp rdyOk := by
      rw [onCore_toCore, core]
    refine ⟨⟨fun t => ?_, fun el => ?_, fun t le => fresh t (by rw [readied] at le; exact le)⟩, fun t => ?_, grows⟩
    · rw [readied]
      change EvtAt t (s₁.pEpending t) _
      by_cases same : t = tp
      · subst same
        refine (evt.threads t).wake ok.ask asleep ?_ ?_ fun w' mask' timed frame state' u' => .inl ⟨rfl, ?_⟩
        · rcases (woken t (.head _)).awake with ready | running
          · rw [ready]; rfl
          · rw [running]; rfl
        · rw [waits, update_self]
        · rw [core] at state u
          cases u.symm.trans u'
          rwa [evtMet_tstate _ w (state'.symm.trans state)]
      · rw [others t same]
        exact (evt.threads t).undisturbed (rest t (by simpa using same)) (by rw [waits, update_of_ne same])
    · rw [readied, show (s₁.onCore (.readyMsg tp rdyOk)).elListener = s.elListener from listener]
      exact evt.listener el
    · rw [readied]
      by_cases same : t = tp
      · exact .inr (woken t (by simpa using same))
      · exact .inl (rest t (by simpa using same))
  next unmet =>
    refine ⟨⟨fun t => ?_, fun el => ?_, fun t le => ?_⟩, fun t => .inl ?_, grows⟩
    · by_cases same : t = tp
      · subst same
        exact (evt.threads t).more core here (by simpa using unmet)
      · rw [core, others t same]
        exact evt.threads t
    · rw [core, listener]
      exact evt.listener el
    · rw [core] at le
      exact fresh t le
    · rw [core]
      exact .refl t s.toCore

/-- The loop of a broadcast. -/
theorem broadcastLoop_signals (flags : EventMask) : ∀ (els : List ElId) {s : Sys}, EvtOk s → CoreOk s.toCore →
    Signals s (s.broadcastLoop flags els)
  | [], s, evt, _ => ⟨evt, fun t => .inl (.refl t s.toCore), fun t => ⟨0, UInt32.or_zero.symm⟩⟩
  | el :: els, s, evt, ok => by
    have ok₁ : CoreOk { s with elFlags := update s.elFlags el (s.elFlags el ||| flags) }.toCore := ok
    have flagged : Signals s { s with elFlags := update s.elFlags el (s.elFlags el ||| flags) } :=
      ⟨⟨evt.threads, evt.listener, evt.fresh⟩, fun t => .inl (.refl t s.toCore), fun t => ⟨0, UInt32.or_zero.symm⟩⟩
    have effect := chEvtSignalI_effect (φ := { evt := true }) rfl ok₁ (s.elListener el) (s.elMask el)
    have signalled := chEvtSignalI_signals flagged.evtOk ok₁ (evt.listener el) (s.elMask el)
    exact (flagged.trans signalled).trans (broadcastLoop_signals flags els signalled.evtOk (effect.coreOk ok₁))

section

variable (ok : CoreOk s.toCore) (evt : EvtOk s)
include ok evt

theorem Signals.of_effect (effect : Effect {} s s') (same : ∀ t, Undisturbed t s.toCore s'.toCore) : Signals s s' :=
  ⟨effect.evtOk rfl ok evt, fun t => .inl (same t), fun t => ⟨0, by
    rw [show s'.pEpending = s.pEpending from congrArg pEpending (effect.objs.evt rfl), UInt32.or_zero]⟩⟩

/-- Signals in a lock zone, and a change of the running thread at its end. -/
theorem Signals.zone {s₁ : Sys} (outside : Outside s)
    (body : EvtOk s.enter → CoreOk s.enter.toCore → Signals s.enter s₁ ∧ IEffect { evt := true } s.enter s₁) :
    Signals s (s₁.onCore .chSchRescheduleS) := by
  obtain ⟨entered, ok', zone, -⟩ : AtWork {} s s.enter := outside.enter ok
  have enter : Signals s s.enter := .of_effect ok evt entered fun t => .congr rfl rfl rfl
  obtain ⟨signals, effect⟩ := body enter.evtOk ok'
  have ok₁ := effect.coreOk ok'
  have switched : Effect {} s₁ (s₁.onCore .chSchRescheduleS) :=
    .onCore (chSchRescheduleS_moves ok₁ (effect.still.isr.trans zone.thread) (effect.still.locked.trans zone.locked))
  exact (enter.trans signals).trans (.of_effect ok₁ signals.evtOk switched fun t => .rescheduleS ok₁.sched t)

theorem chEvtSignal_signals (outside : Outside s) (lt : tp < s.nthd) (mask : EventMask) :
    Signals s (s.chEvtSignal tp mask) :=
  .zone ok evt outside fun evt ok => ⟨chEvtSignalI_signals evt ok lt mask, chEvtSignalI_effect rfl ok tp mask⟩

theorem chEvtBroadcastFlags_signals (outside : Outside s) (es : EsId) (flags : EventMask) :
    Signals s (s.chEvtBroadcastFlags es flags) :=
  .zone ok evt outside fun evt ok => ⟨broadcastLoop_signals flags _ evt ok, broadcastLoop_effect rfl flags _ ok⟩

end

/-! ## The running thread -/

/-- What one step does to the pending events when it returns `ret` to the running
thread: flags are cleared as they are returned, and not otherwise. -/
structure FlagStep (ret : EventMask) (s s' : Sys) : Prop where
  kept : ∀ t b, hasFlag (s.pEpending t) b = true → hasFlag (s'.pEpending t) b = true ∨ t = s.currp ∧ hasFlag ret b = true
  taken : ∀ b, hasFlag ret b = true → hasFlag (s.pEpending s.currp) b = true ∧ hasFlag (s'.pEpending s.currp) b = false

theorem Signals.flagStep (signals : Signals s s') : FlagStep 0 s s' := by
  refine ⟨fun t b has => .inl ?_, fun b has => ?_⟩
  · obtain ⟨m, grown⟩ := signals.grows t
    rw [grown, hasFlag_or, has, Bool.true_or]
  · rw [hasFlag_zero] at has
    cases has

theorem FlagStep.same (same : s'.pEpending = s.pEpending) : FlagStep 0 s s' := by
  refine ⟨fun t b has => .inl (same ▸ has), fun b has => ?_⟩
  rw [hasFlag_zero] at has
  cases has

/-- The running thread takes some of its events. -/
theorem FlagStep.take {ret left : EventMask} (after : s'.pEpending = update s.pEpending s.currp left)
    (split : ∀ b, hasFlag left b = (hasFlag (s.pEpending s.currp) b && !hasFlag ret b))
    (pending : ∀ b, hasFlag ret b = true → hasFlag (s.pEpending s.currp) b = true) : FlagStep ret s s' := by
  refine ⟨fun t b has => ?_, fun b has => ⟨pending b has, ?_⟩⟩
  · rw [after]
    by_cases mine : t = s.currp
    · subst mine
      rw [update_self, split, has, Bool.true_and]
      cases taken : hasFlag ret b
      · exact .inl rfl
      · exact .inr ⟨rfl, rfl⟩
    · rw [update_of_ne mine]
      exact .inl has
  · rw [after, update_self, split, has]
    simp

/-- Only the running thread's wait and its own events change. -/
theorem EvtOk.own (evt : EvtOk s) (ok : CoreOk s.toCore) (nthd : s'.nthd = s.nthd) (listener : s'.elListener = s.elListener)
    (pending : ∀ t, t ≠ s.currp → s'.pEpending t = s.pEpending t)
    (others : ∀ t, t ≠ s.currp → Undisturbed t s.toCore s'.toCore ∧ s'.waits isEvt t = s.waits isEvt t)
    (mine : EvtAt s.currp (s'.pEpending s.currp) s'.toCore) : EvtOk s' := by
  refine ⟨fun t => ?_, fun el => ?_, fun t le => ?_⟩
  · by_cases same : t = s.currp
    · subst same
      exact mine
    · obtain ⟨undisturbed, waits⟩ := others t same
      rw [pending t same]
      exact (evt.threads t).undisturbed undisturbed waits
  · rw [listener, nthd]
    exact evt.listener el
  · rw [nthd] at le
    rw [pending t (ok.sched.currp_lt.trans_le le).ne']
    exact evt.fresh t le

/-- The running thread's own events change, and it is told something. -/
theorem EvtOk.tell (evt : EvtOk s) (ok : CoreOk s.toCore) (plain : Plain (s.pCtx s.currp)) (left : EventMask) (r : Ret) :
    EvtOk ((s.setPending s.currp left).ret r) := by
  have waits : (s.toCore.ret r).waits isEvt = s.waits isEvt := waits_ret kind_isEvt (fun _ => plain) r
  refine evt.own ok rfl rfl (fun t other => update_of_ne other ..)
    (fun t _ => ⟨.congr rfl rfl rfl, congrFun waits t⟩) (.idle ?_ ((congrFun waits s.currp).trans (kind_isEvt.waits_none plain)))
  change (s.pState s.currp).waits = false
  rw [ok.sched.currp_state]
  rfl

/-- What a wait for `mask` may return when `pending` are pending. -/
inductive EvtDelivers (mask pending : EventMask) : EvtWait → EventMask → Prop
  | one (b : Nat) (m : EventMask) : hasFlag (pending &&& mask) b = true → (∀ i < b, hasFlag (pending &&& mask) i = false) →
      (∀ i, hasFlag m i = decide (i = b)) → EvtDelivers mask pending .one m
  | any : pending &&& mask ≠ 0 → EvtDelivers mask pending .any (pending &&& mask)
  | all : pending &&& mask = mask → EvtDelivers mask pending .all mask

theorem exists_lowest {x : EventMask} (some_ : x ≠ 0) : ∃ b, hasFlag x b = true ∧ ∀ i < b, hasFlag x i = false := by
  have has : ∃ b, hasFlag x b = true := by
    by_contra none
    exact some_ (hasFlag_ext fun b => by rw [hasFlag_zero, ← Bool.not_eq_true]; exact fun has => none ⟨b, has⟩)
  refine ⟨Nat.find has, Nat.find_spec has, fun i lt => ?_⟩
  rw [← Bool.not_eq_true]
  exact Nat.find_min has lt

/-- The end of a wait: the flags that it returns are those that it clears. -/
theorem evtDeliver_delivers (thread : s.isr = []) (met : evtMet w mask (s.pEpending s.currp) = true) :
    ∃ m, EvtDelivers mask (s.pEpending s.currp) w m ∧ (s.evtDeliver w mask).pRet (some s.currp) = .mask m ∧
      FlagStep m s (s.evtDeliver w mask) := by
  have told : ∀ left m, ((s.setPending s.currp left).ret (.mask m)).pRet (some s.currp) = .mask m := fun left m => by
    simp [Sys.ret, Core.ret, Core.caller, Sys.setPending, thread]
  have taken : ∀ m, (∀ b, hasFlag m b = true → hasFlag (s.pEpending s.currp) b = true) →
      FlagStep m s ((s.setPending s.currp (s.pEpending s.currp &&& ~~~m)).ret (.mask m)) := fun m pending =>
    .take rfl (fun b => hasFlag_clear ..) pending
  cases w with
  | one =>
    have some_ : s.pEpending s.currp &&& mask ≠ 0 := of_decide_eq_true met
    obtain ⟨b, has, least⟩ := exists_lowest some_
    refine ⟨_, .one b _ has least fun i => ?_, told _ _, taken _ fun i has => ?_⟩
    · rw [Bool.eq_iff_iff, hasFlag_lowest, decide_eq_true_iff]
      constructor
      · rintro ⟨has', least'⟩
        rcases Nat.lt_trichotomy i b with lt | same | gt
        · cases (least i lt).symm.trans has'
        · exact same
        · rw [least' b gt] at has; cases has
      · rintro rfl
        exact ⟨has, least⟩
    · simp only [hasFlag_and, Bool.and_eq_true] at has
      exact has.1.1
  | any =>
    refine ⟨_, .any (of_decide_eq_true met), told _ _, taken _ fun i has => ?_⟩
    simp only [hasFlag_and, Bool.and_eq_true] at has
    exact has.1
  | all =>
    have all : s.pEpending s.currp &&& mask = mask := of_decide_eq_true met
    refine ⟨_, .all all, told _ _, taken _ fun i has => ?_⟩
    rw [← all] at has
    simp only [hasFlag_and, Bool.and_eq_true] at has
    exact has.1

/-! ## Going to sleep -/

theorem Core.chSchGoSleepS_u (c : Core) (st : TState) : (c.chSchGoSleepS st).pU = c.pU := by
  cases first : c.queue .rQueue with
  | nil => simp [chSchGoSleepS, runFirst, fifoRemove, first]
  | cons h l =>
    rw [chSchGoSleepS_eq first]
    rfl

theorem Core.chSchGoSleepTimeoutS_u (c : Core) (st : TState) (time : Systime) : (c.chSchGoSleepTimeoutS st time).pU = c.pU := by
  rw [chSchGoSleepTimeoutS]
  split
  · split
    · rfl
    · exact chSchGoSleepS_u ..
  · exact chSchGoSleepS_u ..

section

variable (evt : EvtOk s) (ok : CoreOk s.toCore) (unmet : evtMet w mask (s.pEpending s.currp) = false)

include evt ok unmet

/-- The running thread sleeps for events that are not there. -/
theorem EvtOk.sleep (timed : Bool) (ask : AskOk s'.toCore)
    (events : s'.toEvents = s.toEvents) (nthd : s'.nthd = s.nthd) (u : s'.pU s.currp = .ewmask mask)
    (waits : s'.waits isEvt = update (s.waits isEvt) s.currp (some (.evtWait w mask timed, none)))
    (others : ∀ t, t ≠ s.currp → Undisturbed t s.toCore s'.toCore) : EvtOk s' := by
  have pending : s'.pEpending = s.pEpending := congrArg pEpending events
  have mine : s'.waits isEvt s.currp = some (.evtWait w mask timed, none) := by rw [waits, update_self]
  refine evt.own ok nthd (congrArg Events.elListener events) (fun t _ => congrFun pending t)
    (fun t other => ⟨others t other, by rw [waits, update_of_ne other]⟩) ⟨fun w' state => ?_, fun w' m timed' frame => ?_,
      fun w' m timed' msg frame => ?_⟩
  · refine ⟨mask, u, ?_⟩
    have is := ask.evtState (by rw [state]; exact w'.tstate_waits) mine
    rwa [pending, evtMet_tstate _ w (state.symm.trans is)]
  · cases mine.symm.trans frame
    exact u
  · rw [mine] at frame
    cases frame

/-- The wait functions go to sleep by `go`. -/
theorem EvtOk.goSleep {go : Core → Core} (outside : Outside s) (effect : Effect { evt := true } s s')
    (is : s' = s.enter.onCore fun c => go ((c.setU c.currp (.ewmask mask)).push (.evtWait w mask timed)))
    (nthd : ∀ c, (go c).nthd = c.nthd) (u : ∀ c, (go c).pU = c.pU)
    (waits : s'.waits isEvt = update (s.enter.waits isEvt) s.currp (some (.evtWait w mask timed, none)))
    (others : ∀ {t c}, (∀ h ∈ c.queue .rQueue, c.pState h = .ready) → c.pState c.currp = .current → t ≠ c.currp →
      Undisturbed t c (go c)) :
    EvtOk s' ∧ s'.toEvents = s.toEvents ∧ s'.waits isEvt s.currp = some (.evtWait w mask timed, none) := by
  have ask := (effect.coreOk ok).ask
  obtain ⟨entered, ok', -, -⟩ : AtWork {} s s.enter := outside.enter ok
  subst is
  refine ⟨?_, rfl, (congrFun waits s.currp).trans (update_self ..)⟩
  refine (entered.evtOk rfl ok evt).sleep ok' unmet timed ask rfl (nthd _) ?_ waits fun t other => ?_
  · exact (congrFun (u _) _).trans (update_self ..)
  · have prepared : Undisturbed t s.enter.toCore ((s.enter.toCore.setU s.enter.currp (.ewmask mask)).push (.evtWait w mask timed)) :=
      .congr rfl (update_of_ne other ..) rfl
    exact prepared.trans (others ok'.sched.ready_of_mem ok'.sched.currp_state other)

theorem chEvtWait_sleeps (outside : Outside s) :
    EvtOk (s.chEvtWait w mask) ∧ (s.chEvtWait w mask).toEvents = s.toEvents ∧
      (s.chEvtWait w mask).waits isEvt s.currp = some (.evtWait w mask false, none) := by
  have ok' := (outside.enter (φ := {}) ok).ok
  have is : s.chEvtWait w mask = _ := if_neg fun met => Bool.false_ne_true (unmet.symm.trans met)
  refine evt.goSleep ok unmet outside (chEvtWait_effect rfl ok outside w) is (chSchGoSleepS_nthd · _) (chSchGoSleepS_u · _)
    ?_ (.goSleepS w.tstate)
  rw [is]
  refine (((Prepares.refl s.enter.toCore).setU (.ewmask mask)).push (.evtWait w mask false)).waits_sleep w.tstate ok'.sched
    w.tstate_waits |>.trans (congrArg (update _ _) ?_)
  simp [push, setU, isEvt]

theorem chEvtWaitTimeout_sleeps {time : Systime} (outside : Outside s) (waits : time ≠ timeImmediate) :
    EvtOk (s.chEvtWaitTimeout w mask time) ∧ (s.chEvtWaitTimeout w mask time).toEvents = s.toEvents ∧
      (s.chEvtWaitTimeout w mask time).waits isEvt s.currp = some (.evtWait w mask true, none) := by
  have ok' := (outside.enter (φ := {}) ok).ok
  have is : s.chEvtWaitTimeout w mask time = _ :=
    (if_neg fun met => Bool.false_ne_true (unmet.symm.trans met)).trans (if_neg waits)
  refine evt.goSleep ok unmet outside (chEvtWaitTimeout_effect rfl ok outside w time) is (chSchGoSleepTimeoutS_nthd · _ _)
    (chSchGoSleepTimeoutS_u · _ _) ?_ (.goSleepTimeoutS w.tstate time)
  rw [is]
  refine (((Prepares.refl s.enter.toCore).setU (.ewmask mask)).push (.evtWait w mask true)).waits_sleepTimeout w.tstate
    ok'.sched w.tstate_waits kind_isEvt ok'.timed.vt time |>.trans (congrArg (update _ _) ?_)
  simp [push, setU, isEvt]

end

/-! ## Steps -/

/-- The wait in which the running thread is when it takes the step. -/
def Label.evtWait (s : Sys) : Label → Option (EvtWait × EventMask)
  | call (.evtWait w mask) | call (.evtWaitTimeout w mask _) => some (w, mask)
  | run =>
    match s.pCtx s.currp with
    | .evtWait w mask _ :: _ => some (w, mask)
    | _ => none
  | _ => none

/-- The step is one of a wait or a clear. -/
def Label.takesEvents (s : Sys) : Label → Bool
  | call (.evtGetAndClearEvents _) => true
  | l => (l.evtWait s).isSome

/-- The mask that a wait or a clear returns to the running thread in the step. -/
def evtReturned (l : Label) (s s' : Sys) : EventMask :=
  if l.takesEvents s = true ∧ (s'.pCtx s.currp).any isEvt = false then
    match s'.pRet (some s.currp) with
    | .mask m => m
    | _ => 0
  else 0

theorem evtReturned_off (off : (l.foot s).evt = false) : evtReturned l s s' = 0 := by
  have other : l.takesEvents s = false := by
    cases l with
    | call f => cases f <;> first | rfl | cases off
    | run =>
      change (Label.run.evtWait s).isSome = false
      cases top : s.pCtx s.currp with
      | nil => simp only [Label.evtWait, top, Option.isSome_none]
      | cons f fs =>
        rw [Label.foot_run top] at off
        simp only [Label.evtWait, top]
        cases f <;> first | rfl | cases off
    | _ => rfl
  rw [evtReturned, if_neg (by simp [other])]

theorem evtReturned_told {r : EventMask} (takes : l.takesEvents s = true)
    (outside : (s'.pCtx s.currp).any isEvt = false) (told : s'.pRet (some s.currp) = .mask r) : evtReturned l s s' = r := by
  rw [evtReturned, if_pos ⟨takes, outside⟩, told]

/-- Who sleeps with a timer is in a wait with a timeout. -/
theorem CoreOk.evt_timed (ok : CoreOk c) (pending : c.Pending t)
    (frame : c.waits isEvt t = some (.evtWait w mask timed, msg)) : timed = true := by
  obtain ⟨p, -, phase⟩ := ok.timed.thread t
  obtain ⟨f, found, ⟨⟩⟩ := map_eq_some_iff.1 frame
  have ctx : ∃ locked, CtxOk locked (c.pCtx t) := by
    by_cases mine : t = c.currp
    · subst mine
      exact ⟨_, ok.ctl.current⟩
    · exact ⟨_, ok.ctl.others t mine⟩
  obtain ⟨locked, ctx⟩ := ctx
  cases top : c.pCtx t with
  | nil =>
    rw [top] at found
    cases found
  | cons f fs =>
    have sleeps : f = .goSleepTimeout := by
      have inSleep := phase.inSleep pending
      rw [InSleep, top] at inSleep
      exact Option.some.inj inSleep
    subst sleeps
    rw [top] at found ctx
    have below := ctx.indirect_below _ (List.mem_of_find?_eq_some (show fs.find? isEvt = some _ from found))
    cases timed
    · cases below
    · rfl

/-- A timer wakes the thread, if it still waits. -/
theorem wakeup_evt {isr : List Isr} (evt : EvtOk s) (ok : CoreOk s.toCore) (is : s.isr = .tick (some (.wakeup tp)) :: isr) :
    EvtOk { s.wakeup tp with isr := .tick none :: isr } ∧ (s.wakeup tp).toEvents = s.toEvents := by
  rcases (ok.called_back is).symm with timed | ready
  · have asleep := TState.timed_waits timed
    have core := wakeup_toCore ok.sched timed
    have waits : (s.wakeup tp).waits isEvt =
        update (s.waits isEvt) tp ((s.waits isEvt tp).map fun w => (w.1, some rdyTimeout)) := by
      rw [core]
      exact waits_readyMsg ok.ask asleep
    have events : (s.wakeup tp).toEvents = s.toEvents := by
      rcases wakeup_timed ok.sched timed with ⟨sp, -, woken⟩ | ⟨-, woken⟩ <;> rw [woken] <;> rfl
    refine ⟨⟨fun t => ?_, fun el => ?_, fun t le => ?_⟩, events⟩
    · change EvtAt t ((s.wakeup tp).toEvents.pEpending t) _
      rw [events]
      by_cases same : t = tp
      · subst same
        refine (evt.threads t).wake ok.ask asleep ?_ ((congrFun waits t).trans (update_self ..)) fun w mask timed frame _ _ =>
          .inr ⟨rfl, ?_⟩
        · change ((s.wakeup t).toCore.pState t).waits = false
          rw [core]
          simp [readyTimeout, readyMsg, setU, chSchReadyI, TState.waits]
        · refine ok.evt_timed (?_ : _ ∈ s.isr) frame
          rw [is]
          exact .head _
      · obtain ⟨state, u, wakes⟩ := wakeup_undisturbed same
        refine (evt.threads t).undisturbed ⟨state, u, wakes⟩ ?_
        exact (congrFun waits t).trans (update_of_ne same ..)
    · change (s.wakeup tp).toEvents.elListener el < (s.wakeup tp).toCore.nthd
      rw [events, core]
      exact evt.listener el
    · change (s.wakeup tp).toEvents.pEpending t = 0
      change (s.wakeup tp).toCore.nthd ≤ t at le
      rw [core] at le
      rw [events]
      exact evt.fresh t le
  · simp only [wakeup, ready, and_true]
    exact ⟨fun t => (evt.threads t).undisturbed (.congr rfl rfl rfl) rfl, evt.listener, evt.fresh⟩

/-- The wait ends because its time is over. -/
def Label.evtTimesOut (s : Sys) : Label → Bool
  | call (.evtWaitTimeout w mask time) => time = timeImmediate && !evtMet w mask (s.pEpending s.currp)
  | run =>
    match s.pCtx s.currp with
    | .evtWait _ _ timed :: _ => timed && s.lastMsg = rdyTimeout
    | _ => false
  | _ => false

/-- A step of a wait: the thread sleeps, is late or gets its events. -/
inductive EvtWaitStep (l : Label) (w : EvtWait) (mask : EventMask) (s s' : Sys) : Prop
  | sleeps : (s'.pCtx s.currp).any isEvt = true → s'.toEvents = s.toEvents → EvtWaitStep l w mask s s'
  | timesOut : l.evtTimesOut s = true → (s'.pCtx s.currp).any isEvt = false →
      s'.pRet (some s.currp) = .mask 0 → s'.toEvents = s.toEvents → EvtWaitStep l w mask s s'
  | returns (m : EventMask) : l.evtTimesOut s = false → (s'.pCtx s.currp).any isEvt = false →
      s'.pRet (some s.currp) = .mask m → EvtDelivers mask (s.pEpending s.currp) w m → FlagStep m s s' → EvtWaitStep l w mask s s'

theorem any_of_waits {p : Frame → Bool} {f : Frame} (frame : c.waits p t = some (f, msg)) :
    (c.pCtx t).any p = true := by
  obtain ⟨g, found, -⟩ := map_eq_some_iff.1 frame
  exact List.any_eq_true.2 ⟨g, List.mem_of_find?_eq_some found, List.find?_some found⟩

theorem any_of_plain {p : Frame → Bool} (kind : Kind p) (plain : Plain fs) : fs.any p = false := by
  rw [List.any_eq_false]
  exact fun f mem is => kind f is (plain f mem)

section

variable (evt : EvtOk s) (ok : CoreOk s.toCore)
include evt ok

/-- The caller finds its events there. -/
theorem evtDeliver_call (outside : Outside s) (met : evtMet w mask (s.pEpending s.currp) = true)
    (inTime : l.evtTimesOut s = false) :
    EvtOk (s.enter.evtDeliver w mask) ∧ EvtWaitStep l w mask s (s.enter.evtDeliver w mask) := by
  obtain ⟨entered, ok', zone, plain⟩ : AtWork {} s s.enter := outside.enter ok
  obtain ⟨m, delivers, told, ⟨kept, taken⟩⟩ := evtDeliver_delivers zone.thread met
  exact ⟨(entered.evtOk rfl ok evt).tell ok' plain _ _,
    .returns m inTime (any_of_plain kind_isEvt plain) told delivers ⟨kept, taken⟩⟩

theorem chEvtWait_evt (outside : Outside s) :
    EvtOk (s.chEvtWait w mask) ∧ EvtWaitStep (.call (.evtWait w mask)) w mask s (s.chEvtWait w mask) := by
  cases met : evtMet w mask (s.pEpending s.currp) with
  | true =>
    rw [show s.chEvtWait w mask = s.enter.evtDeliver w mask from if_pos met]
    exact evtDeliver_call evt ok outside met rfl
  | false =>
    obtain ⟨evt', events, frame⟩ := chEvtWait_sleeps evt ok met outside
    exact ⟨evt', .sleeps (any_of_waits frame) events⟩

theorem chEvtWaitTimeout_evt {time : Systime} (outside : Outside s) : EvtOk (s.chEvtWaitTimeout w mask time) ∧
      EvtWaitStep (.call (.evtWaitTimeout w mask time)) w mask s (s.chEvtWaitTimeout w mask time) := by
  cases met : evtMet w mask (s.pEpending s.currp) with
  | true =>
    rw [show s.chEvtWaitTimeout w mask time = s.enter.evtDeliver w mask from if_pos met]
    exact evtDeliver_call evt ok outside met (by simp [Label.evtTimesOut, met])
  | false =>
    by_cases immediate : time = timeImmediate
    · obtain ⟨entered, ok', -, plain⟩ : AtWork {} s s.enter := outside.enter ok
      rw [show s.chEvtWaitTimeout w mask time = s.enter.ret (.mask 0) from
        (if_neg fun is => Bool.false_ne_true (met.symm.trans is)).trans (if_pos immediate)]
      have told : IEffect {} s.enter (s.enter.ret (.mask 0)) := .tell (fun _ => plain) _
      refine ⟨told.toEffect.evtOk rfl ok' (entered.evtOk rfl ok evt),
        .timesOut (by simp [Label.evtTimesOut, met, immediate]) (any_of_plain kind_isEvt plain) ?_ rfl⟩
      simp [Sys.ret, Core.ret, Core.caller, Sys.enter, Sys.onCore, Core.push, outside.thread]
    · obtain ⟨evt', events, frame⟩ := chEvtWaitTimeout_sleeps evt ok met outside immediate
      exact ⟨evt', .sleeps (any_of_waits frame) events⟩

/-- The frame of a wait is taken off. -/
theorem EvtOk.pop (top : s.pCtx s.currp = .evtWait w mask timed :: fs) (plain : Plain fs) : EvtOk s.pop := by
  have waits := kind_isEvt.waits_pop top plain
  refine evt.own ok rfl rfl (fun _ _ => rfl)
    (fun t other => ⟨.congr rfl rfl rfl, by rw [waits, update_of_ne other]⟩) (.idle ?_ (by rw [waits, update_self]))
  change (s.pState s.currp).waits = false
  rw [ok.sched.currp_state]
  rfl

/-- The running thread has been told what its wait came to. -/
theorem EvtOk.told (top : s.pCtx s.currp = .evtWait w mask timed :: fs) : timed = true ∧ s.lastMsg = rdyTimeout ∨
      (timed = true → s.lastMsg = rdyOk) ∧ evtMet w mask (s.pEpending s.currp) = true := by
  have answer : s.waits isEvt s.currp = some (.evtWait w mask timed, some (s.answer s.currp)) := by
    simp [waits, waitOf, top, isEvt, ok.sched.currp_state, TState.waits]
  have reads : timed = true → s.answer s.currp = s.lastMsg := by
    rintro rfl
    simp [Core.answer, top, Frame.asks, Frame.direct]
    rfl
  rcases (evt.threads s.currp).woken w mask timed _ answer with ⟨isOk, met⟩ | ⟨late, isTimed⟩
  · exact .inr ⟨fun isTimed => (reads isTimed).symm.trans isOk, met⟩
  · exact .inl ⟨isTimed, (reads isTimed).symm.trans late⟩

theorem evtWaitResume_evt (thread : s.isr = []) (top : s.pCtx s.currp = .evtWait w mask timed :: fs) :
    EvtOk ((Frame.evtWait w mask timed).run s.pop) ∧ EvtWaitStep .run w mask s ((Frame.evtWait w mask timed).run s.pop) := by
  have popped : Popped { evt := true } (.evtWait w mask timed) fs s := popped ok thread top rfl nofun rfl rfl
  have plain : Plain (s.pop.pCtx s.pop.currp) := popped.ctx.symm ▸ popped.plain
  have evt' := evt.pop ok top popped.plain
  have ok' := popped.coreOk ok
  have ends : Label.evtTimesOut s .run = (timed && decide (s.lastMsg = rdyTimeout)) := by rw [Label.evtTimesOut, top]
  change EvtOk (s.pop.evtWaitResume w mask timed s.lastMsg) ∧ EvtWaitStep _ w mask s (s.pop.evtWaitResume w mask timed s.lastMsg)
  rw [evtWaitResume]
  rcases evt.told ok top with ⟨rfl, late⟩ | ⟨inTime, met⟩
  · rw [if_pos ⟨rfl, by rw [late]; decide⟩]
    have told : IEffect {} s.pop (s.pop.ret (.mask 0)) := .tell (fun _ => plain) _
    refine ⟨told.toEffect.evtOk rfl ok' evt', .timesOut (by simp [ends, late]) (any_of_plain kind_isEvt plain) ?_ rfl⟩
    simp [Sys.ret, Core.ret, Core.caller, Sys.pop, thread]
  · rw [if_neg]
    · obtain ⟨m, delivers, told, ⟨kept, taken⟩⟩ := evtDeliver_delivers thread met
      refine ⟨evt'.tell ok' plain _ _, .returns m ?_ (any_of_plain kind_isEvt plain) told delivers ⟨kept, taken⟩⟩
      rw [ends]
      cases timed
      · rfl
      · rw [inTime rfl]; rfl
    · rintro ⟨isTimed, low⟩
      rw [inTime isTimed] at low
      exact absurd low (by decide)

end

theorem EvtWaitStep.flagStep (step : EvtWaitStep l w mask s s') (wait : l.takesEvents s = true) : FlagStep (evtReturned l s s') s s' := by
  cases step with
  | sleeps inside events =>
    rw [evtReturned, if_neg (by simp [inside])]
    exact .same (congrArg pEpending events)
  | timesOut _ outside told events =>
    rw [evtReturned_told wait outside told]
    exact .same (congrArg pEpending events)
  | returns m _ outside told _ flags =>
    rwa [evtReturned_told wait outside told]

end ChibiOS.Kernel
