import ChibiOS.Kernel.Clock

/-!
# Event timers

An `EvTimer` is a virtual timer that sets itself again from its callback and broadcasts an
event source. It runs here on the kernel with all else that the kernel does: other timers,
threads, nested interrupts. Its history says when it was started and stopped and when it has
broadcast; `NoDrift` is what every such history is like.
-/

namespace ChibiOS.Various

open Kernel Lib
open TimerEvent (ticks About ticks_append)
open Option (bind_eq_some_iff ite_none_right_eq_some map_eq_some_iff)

structure EvTimer where
  /-- The virtual timer, by its number. -/
  etVt : Nat
  etEs : EsId
  etInterval : Systime

namespace EvTimer

variable (etp : EvTimer)

/-- The callback, up to its return. -/
def tmrcb (s : Sys) : Option Sys := do
  let s ← next (.icall (.evtBroadcastFlagsI etp.etEs 0)) s
  let s ← next (.icall (.vtSetI etp.etVt etp.etInterval)) s
  next .callback s

def evtStart (s : Sys) : Option Sys := do
  let s ← next .sysLock s
  let s ← if chVTIsArmedI (.app etp.etVt) s.vt then some s else next (.icall (.vtSetI etp.etVt etp.etInterval)) s
  next .sysUnlock s

/-- This is `chVTReset`. -/
def evtStop (s : Sys) : Option Sys := do
  let s ← next .sysLock s
  let s ← if chVTIsArmedI (.app etp.etVt) s.vt then next (.icall (.vtResetI etp.etVt)) s else some s
  next .sysUnlock s

/-- The handler is in the callback of the timer. -/
def inCallback (s : Sys) : Bool := s.isr.head? = some (.tick (some (.app etp.etVt)))

/-- Only the functions above touch the timer, and only `tmrcb` runs as its callback; it can be
interrupted. -/
def leaves (s : Sys) : Label → Bool
  | .icall (.vtSetI n _) | .icall (.vtResetI n) => n ≠ etp.etVt ∧ etp.inCallback s = false
  | .icall _ | .callback => etp.inCallback s = false
  | _ => true

end EvTimer

/-- What happens to an event timer, with the ticks since the kernel was started. -/
inductive EvEvent
  | start (time : Nat)
  | stop (time : Nat)
  | broadcast (time : Nat)

/-- The kernel with an event timer, and its history, newest first. -/
structure EvSys where
  sys : Sys
  now : Nat
  log : List EvEvent

inductive EvLabel
  | kernel (l : Label)
  | evtStart
  | evtStop
  | tmrcb

def EvTimer.step (etp : EvTimer) : EvLabel → EvSys → Option EvSys
  | .kernel l, e =>
    if etp.leaves e.sys l then
      (next l e.sys).map fun s => { e with sys := s, now := e.now + if l = .tick then 1 else 0 }
    else none
  | .evtStart, e => (etp.evtStart e.sys).map fun s => { e with sys := s, log := .start e.now :: e.log }
  | .evtStop, e => (etp.evtStop e.sys).map fun s => { e with sys := s, log := .stop e.now :: e.log }
  | .tmrcb, e => if etp.inCallback e.sys then
      (etp.tmrcb e.sys).map fun s => { e with sys := s, log := .broadcast e.now :: e.log }
    else none

def evTimers (cfg : Config) (etp : EvTimer) : Lts EvSys EvLabel where
  init := ⟨chSysInit cfg, 0, []⟩
  next := etp.step

/-! ## Histories -/

/-- The time from which the timer runs, and its broadcasts since then. A start of a running
timer changes nothing. -/
def since : List EvEvent → Option (Nat × Nat)
  | [] => none
  | .start time :: h => (since h).or (some (time, 0))
  | .stop _ :: _ => none
  | .broadcast _ :: h => (since h).map fun (start, k) => (start, k + 1)

/-- Every broadcast in the history is the next one of its timer. -/
def Periodic (interval : Nat) : List EvEvent → Prop
  | [] => True
  | .broadcast time :: h => (∃ start k, since h = some (start, k) ∧ time = start + (k + 1) * interval) ∧ Periodic interval h
  | _ :: h => Periodic interval h

/-- An event timer broadcasts at its start plus the multiples of its interval, until it is stopped. -/
structure NoDrift (etp : EvTimer) (e : EvSys) : Prop where
  onTime : Periodic etp.etInterval.toNat e.log
  /-- No broadcast is missing but that of a tick in progress. -/
  notLate : ∀ start k, since e.log = some (start, k) → start + k * etp.etInterval.toNat ≤ e.now ∧
    e.now ≤ start + (k + 1) * etp.etInterval.toNat ∧ (¬ e.sys.Ticking → e.now < start + (k + 1) * etp.etInterval.toNat)
  /-- The callback of the timer is called only while it runs, and can do its work. -/
  callback : etp.inCallback e.sys = true → since e.log ≠ none ∧ etp.step .tmrcb e ≠ none
  /-- Starting a running timer changes nothing. -/
  restart : ∀ e', etp.step .evtStart e = some e' → since e.log ≠ none → e'.sys = e.sys ∧ since e'.log = since e.log

/-! ## The functions of the timer -/

variable {etp : EvTimer} {s s' : Sys} {e e' : EvSys} {h : List (TimerEvent VtId)} {c : Core} {l : Label}

theorem broadcastLoop_clock (flags : EventMask) : ∀ (els : List ElId) (s : Sys),
    (s.broadcastLoop flags els).vt = s.vt ∧ (s.broadcastLoop flags els).isr = s.isr
  | [], s => ⟨rfl, rfl⟩
  | el :: els, s => by
    obtain ⟨vt, isr⟩ := broadcastLoop_clock flags els
      ({ s with elFlags := Function.update s.elFlags el (s.elFlags el ||| flags) }.chEvtSignalI (s.elListener el) (s.elMask el))
    rw [Sys.broadcastLoop, vt, isr, Sys.chEvtSignalI]
    split <;> exact ⟨rfl, rfl⟩

/-- The timer is set by a function of its own. -/
structure Sets (etp : EvTimer) (s s' : Sys) : Prop where
  unarmed : chVTIsArmedI (.app etp.etVt) s.vt = false
  later : etp.etInterval ≠ timeImmediate
  set : chVTSetI (.app etp.etVt) etp.etInterval (.app etp.etVt) s.vt = some s'.vt

theorem next_sets (ok : KernelOk False s) (taken : next (.icall (.vtSetI etp.etVt etp.etInterval)) s = some s') :
    Sets etp s s' ∧ s' = { s with vt := s'.vt } := by
  obtain ⟨vt, unarmed, later, set, rfl⟩ := next_vtSetI ok taken
  exact ⟨⟨unarmed, later, set⟩, rfl⟩

theorem EvTimer.tmrcb_spec (ok : KernelOk False s) (done : etp.tmrcb s = some s') (inCallback : etp.inCallback s = true) :
    KernelOk False s' ∧ Sets etp s s' ∧ ∃ isr, s.isr = .tick (some (.app etp.etVt)) :: isr ∧ s'.isr = .tick none :: isr := by
  simp only [tmrcb, Option.bind_eq_bind, bind_eq_some_iff] at done
  obtain ⟨s₁, broadcast, s₂, set, returned⟩ := done
  have ok₁ := (next_step ok nofun broadcast).2
  have ok₂ := (next_step ok₁ nofun set).2
  obtain ⟨sets, is₂⟩ := next_sets ok₁ set
  obtain ⟨-, -, rfl⟩ := next_icall broadcast
  obtain ⟨vt, isr⟩ := broadcastLoop_clock 0 (s.esNext etp.etEs) s
  obtain ⟨isr', top⟩ := List.head?_eq_some_iff.1 (of_decide_eq_true inCallback)
  have top₂ : s₂.isr = .tick (some (.app etp.etVt)) :: isr' := by rw [is₂]; exact isr.trans top
  refine ⟨(next_step ok₂ nofun returned).2, ?_⟩
  obtain ⟨isr'', ⟨tp, is, -⟩ | ⟨n, is, rfl⟩⟩ := next_callback returned
  · cases top₂.symm.trans is
  · cases top₂.symm.trans is
    refine ⟨⟨?_, sets.later, ?_⟩, isr', top, rfl⟩
    · rw [← vt]; exact sets.unarmed
    · rw [← vt]; exact sets.set

/-- The callback does its work. -/
theorem EvTimer.tmrcb_isSome (ok : KernelOk False s) (inCallback : etp.inCallback s = true)
    (unarmed : chVTIsArmedI (.app etp.etVt) s.vt = false) (later : etp.etInterval ≠ timeImmediate) : etp.tmrcb s ≠ none := by
  obtain ⟨vt, isr⟩ := broadcastLoop_clock 0 (s.esNext etp.etEs) s
  obtain ⟨isr', top⟩ := List.head?_eq_some_iff.1 (of_decide_eq_true inCallback)
  have broadcast : next (.icall (.evtBroadcastFlagsI etp.etEs 0)) s = some (s.chEvtBroadcastFlagsI etp.etEs 0) :=
    if_pos ⟨.inl (by rw [Sys.isrMode, top]), rfl⟩
  have ok₁ := (next_step ok False.elim broadcast).2
  have set : next (.icall (.vtSetI etp.etVt etp.etInterval)) (s.chEvtBroadcastFlagsI etp.etEs 0) =
      some ((ICall.vtSetI etp.etVt etp.etInterval).body (s.chEvtBroadcastFlagsI etp.etEs 0)) := by
    refine if_pos ⟨.inl ?_, decide_eq_true ⟨?_, later⟩⟩
    · rw [Sys.isrMode, show (s.chEvtBroadcastFlagsI etp.etEs 0).isr = _ from isr, top]
    · rwa [show (s.chEvtBroadcastFlagsI etp.etEs 0).vt = _ from vt]
  have is := (next_sets ok₁ set).2
  have top₂ : ((ICall.vtSetI etp.etVt etp.etInterval).body (s.chEvtBroadcastFlagsI etp.etEs 0)).isr =
      .tick (some (.app etp.etVt)) :: isr' := by rw [is]; exact isr.trans top
  simp only [tmrcb, broadcast, set, Option.bind_eq_bind, Option.bind_some]
  simp [next, top₂]

theorem next_sysLock (taken : next .sysLock s = some s') : s.isr = [] ∧ s.locked = false ∧ s' = { s with locked := true } := by
  simp only [next, ite_none_right_eq_some, Option.some.injEq, Sys.threadMode, Bool.decide_and, Bool.and_eq_true,
    decide_eq_true_eq] at taken
  exact ⟨taken.1.1.1, taken.1.2, taken.2.symm⟩

theorem next_sysUnlock (taken : next .sysUnlock s = some s') : s' = { s with locked := false } := by
  obtain ⟨-, ⟨⟩⟩ := ite_none_right_eq_some.1 taken
  rfl

/-- `evtStart` leaves a timer that is armed alone, and sets one that is not. -/
theorem EvTimer.evtStart_spec (ok : KernelOk False s) (done : etp.evtStart s = some s') : KernelOk False s' ∧ s.isr =
    [] ∧ s'.isr = [] ∧
    (chVTIsArmedI (.app etp.etVt) s.vt = true ∧ s' = s ∨ Sets etp s s') := by
  obtain ⟨s₁, locked, rest⟩ := bind_eq_some_iff.1 done
  have ok₁ := (next_step ok nofun locked).2
  obtain ⟨thread, was, rfl⟩ := next_sysLock locked
  split at rest
  next armed =>
    have same : s' = s := by
      rw [next_sysUnlock rest]
      rw [← was]
    exact ⟨same ▸ ok, thread, same ▸ thread, .inl ⟨armed, same⟩⟩
  · obtain ⟨s₂, set, unlocked⟩ := bind_eq_some_iff.1 rest
    have ok₂ := (next_step ok₁ nofun set).2
    obtain ⟨sets, is⟩ := next_sets ok₁ set
    refine ⟨(next_step ok₂ nofun unlocked).2, thread, ?_⟩
    rw [next_sysUnlock unlocked, is]
    exact ⟨thread, .inr ⟨sets.unarmed, sets.later, sets.set⟩⟩

/-- `evtStop` resets a timer that is armed. -/
theorem EvTimer.evtStop_spec (ok : KernelOk False s) (done : etp.evtStop s = some s') : KernelOk False s' ∧ s.isr =
    [] ∧ s'.isr = [] ∧
    (chVTIsArmedI (.app etp.etVt) s.vt = true ∧ s'.vt = chVTResetI (.app etp.etVt) s.vt ∨
      chVTIsArmedI (.app etp.etVt) s.vt = false ∧ s'.vt = s.vt) := by
  obtain ⟨s₁, locked, rest⟩ := bind_eq_some_iff.1 done
  have ok₁ := (next_step ok nofun locked).2
  obtain ⟨thread, was, rfl⟩ := next_sysLock locked
  split at rest
  next armed =>
    obtain ⟨s₂, reset, unlocked⟩ := bind_eq_some_iff.1 rest
    have ok₂ := (next_step ok₁ nofun reset).2
    obtain ⟨-, -, rfl⟩ := next_icall reset
    refine ⟨(next_step ok₂ nofun unlocked).2, thread, ?_⟩
    rw [next_sysUnlock unlocked]
    exact ⟨thread, .inl ⟨armed, rfl⟩⟩
  next unarmed =>
    change next .sysUnlock _ = some s' at rest
    refine ⟨(next_step ok₁ nofun rest).2, thread, ?_⟩
    rw [next_sysUnlock rest]
    exact ⟨thread, .inr ⟨eq_false_of_ne_true unarmed, rfl⟩⟩

/-! ## Every run -/

/-- Where an event timer is, with the history `h` of all timers. -/
inductive EvAt (etp : EvTimer) (e : EvSys) (h : List (TimerEvent VtId)) : Prop
  | stopped : since e.log = none → chVTIsArmedI (.app etp.etVt) e.sys.vt = false → ¬ e.sys.Calls (.app etp.etVt) → EvAt etp e h
  | armed (start k : Nat) (newer older : List (TimerEvent VtId)) : since e.log = some (start, k) →
      h = newer ++ .set (.app etp.etVt) etp.etInterval :: older → (∀ ev ∈ newer, ¬ About (.app etp.etVt) ev) →
      ticks older = start + k * etp.etInterval.toNat → ¬ e.sys.Calls (.app etp.etVt) → EvAt etp e h
  | calls (start k : Nat) : since e.log = some (start, k) → chVTIsArmedI (.app etp.etVt) e.sys.vt = false →
      e.sys.Calls (.app etp.etVt) → e.now = start + (k + 1) * etp.etInterval.toNat → EvAt etp e h

structure EvOk (etp : EvTimer) (e : EvSys) : Prop where
  ok : KernelOk False e.sys
  timers : ∃ h, Clocked e.sys.toCore h ∧ ticks h = e.now ∧ EvAt etp e h
  periodic : Periodic etp.etInterval.toNat e.log

/-- The timer is set, now, by a function of its own. -/
theorem Sets.clocked (sets : Sets etp s s') (clocked : Clocked c h) (vt : c.vt = s.vt)
    (ticking : s'.Ticking ↔ c.Ticking) : Clocked s'.toCore (.set (.app etp.etVt) etp.etInterval :: h) :=
  clocked.set (vt ▸ sets.unarmed) (vt ▸ sets.set) sets.later rfl ticking

theorem EvTimer.leaves_not_about {ev : TimerEvent VtId} (cause : TimerCause l s ev) (leaves : etp.leaves s l = true) :
    ¬ About (.app etp.etVt) ev := by
  cases cause with
  | tick => exact nofun
  | own _ event => cases event <;> exact nofun
  | set n d is =>
    subst is
    rintro about
    exact (of_decide_eq_true leaves).1 (VtId.app.inj about)
  | reset n is =>
    subst is
    rintro about
    exact (of_decide_eq_true leaves).1 (VtId.app.inj about)

/-- The function of the timer is left alone. -/
theorem EvTimer.leaves_callback (leaves : etp.leaves s l = true) (is : l = .callback) :
    s.isr.head? ≠ some (.tick (some (.app etp.etVt))) := by
  subst is
  exact of_decide_eq_false (of_decide_eq_true leaves)

/-- The kernel takes a step of its own. -/
theorem EvAt.kernel {newer : List (TimerEvent VtId)} {fired : Option VtId} (place : EvAt etp e h)
    (clocked : Clocked e.sys.toCore h) (count : ticks h = e.now) (leaves : etp.leaves e.sys l = true)
    (taken : next l e.sys = some s') (advances : Advances l e.sys s' h newer fired) :
    EvAt etp { e with sys := s', now := e.now + if l = .tick then 1 else 0 } ((fired.map .fire).toList ++ newer ++ h) := by
  have quiet : ∀ ev ∈ newer, ¬ About (.app etp.etVt) ev := fun ev mem => EvTimer.leaves_not_about (advances.causes ev mem) leaves
  have calls (own : fired ≠ some (.app etp.etVt)) : s'.Calls (.app etp.etVt) ↔ e.sys.Calls (.app etp.etVt) := by
    rw [advances.calls]
    refine ⟨fun is => ?_, fun calls => .inl ⟨calls, EvTimer.leaves_callback leaves⟩⟩
    rcases is with ⟨calls, -⟩ | ⟨v, found, same⟩
    · exact calls
    · cases v with
      | stack t => cases same
      | app n => cases same; exact absurd found own
  -- While the timer is off, nothing happens to it.
  have off (unarmed : chVTIsArmedI (.app etp.etVt) e.sys.vt = false) :
      chVTIsArmedI (.app etp.etVt) s'.vt = false ∧ (s'.Calls (.app etp.etVt) ↔ e.sys.Calls (.app etp.etVt)) := by
    have own : fired ≠ some (.app etp.etVt) := by
      rintro rfl
      exact absurd (clocked.fired_armed (by simpa using advances.clocked) quiet) (by rw [unarmed]; nofun)
    refine ⟨?_, calls own⟩
    rw [← unarmed, Bool.eq_iff_iff]
    exact clocked.armed_iff advances.clocked (not_about_fired own quiet)
  cases place with
  | stopped idle unarmed notCalls => exact .stopped idle (off unarmed).1 fun calls => notCalls ((off unarmed).2.1 calls)
  | calls start k runs unarmed calls now =>
    refine .calls start k runs (off unarmed).1 ((off unarmed).2.2 calls) ?_
    have notTick : l ≠ .tick := Core.Ticking.not_tick ⟨_, calls⟩ taken
    rwa [if_neg notTick]
  | armed start k since older runs is others begun notCalls =>
    subst is
    by_cases own : fired = some (.app etp.etVt)
    · subst own
      have fired : Clocked s'.toCore (.fire (.app etp.etVt) ::
          ((newer ++ since) ++ .set (.app etp.etVt) etp.etInterval :: older)) := by simpa using advances.clocked
      have elapsed := (fired.exactExpiry (some (.app etp.etVt)) nofun).onTime (.app etp.etVt) etp.etInterval [] (newer ++ since)
        older rfl fun ev mem => (List.mem_append.1 mem).elim (quiet ev) (others ev)
      refine .calls start k runs (fired.unarmed (.inl rfl)) ((advances.calls _).2 (.inr ⟨_, rfl, rfl⟩)) ?_
      rw [ticks_append, advances.ticks] at elapsed
      rw [ticks_append] at count
      simp only [ticks] at count
      show e.now + _ = _
      rw [Nat.add_mul, Nat.one_mul]
      omega
    · refine .armed start k ((fired.map .fire).toList ++ newer ++ since) older runs (by simp) (fun ev mem => ?_) begun fun bad =>
        notCalls ((calls own).1 bad)
      exact (List.mem_append.1 mem).elim (not_about_fired own quiet ev) (others ev)

/-- In a thread no callback is called. -/
theorem not_calls_of_thread {fn : Callback} (thread : c.isr = []) : ¬ c.Calls fn := by
  simp [Core.Calls, thread]

theorem ticking_of_thread {c' : Core} (thread : c.isr = []) (thread' : c'.isr = []) : c'.Ticking ↔ c.Ticking :=
  ticking_congr (thread'.trans thread.symm)

section

variable (inv : EvOk etp e)
include inv

theorem EvOk.start (done : etp.evtStart e.sys = some s') :
    EvOk etp { e with sys := s', log := .start e.now :: e.log } := by
  obtain ⟨h, clocked, count, place⟩ := inv.timers
  obtain ⟨ok', thread, thread', ⟨armed, rfl⟩ | sets⟩ := EvTimer.evtStart_spec inv.ok done
  · refine ⟨ok', ⟨h, clocked, count, ?_⟩, inv.periodic⟩
    cases place with
    | stopped _ unarmed => exact absurd armed (by rw [unarmed]; nofun)
    | armed start k newer older runs is others begun notCalls =>
      exact .armed start k newer older (by simp [since, runs]) is others begun notCalls
    | calls _ _ _ unarmed => exact absurd armed (by rw [unarmed]; nofun)
  · have set := sets.clocked clocked rfl (ticking_of_thread thread thread')
    refine ⟨ok', ⟨_, set, count, ?_⟩, inv.periodic⟩
    cases place with
    | stopped idle =>
      exact .armed e.now 0 [] h (by simp [since, idle]) rfl nofun (by simp [count]) (not_calls_of_thread thread')
    | armed start k newer older runs is others =>
      subst is
      exact absurd (clocked.armed others) (by rw [sets.unarmed]; nofun)
    | calls _ _ _ _ calls => exact absurd calls (not_calls_of_thread thread)

theorem EvOk.stop (done : etp.evtStop e.sys = some s') :
    EvOk etp { e with sys := s', log := .stop e.now :: e.log } := by
  obtain ⟨h, clocked, count, place⟩ := inv.timers
  obtain ⟨ok', thread, thread', ⟨armed, is⟩ | ⟨unarmed, is⟩⟩ := EvTimer.evtStop_spec inv.ok done
  · have reset := clocked.reset armed is (ticking_of_thread thread thread')
    exact ⟨ok', ⟨_, reset, count, .stopped rfl (reset.unarmed (.inr rfl)) (not_calls_of_thread thread')⟩, inv.periodic⟩
  · have same := clocked.congr is (ticking_of_thread thread thread')
    exact ⟨ok', ⟨h, same, count, .stopped rfl (is ▸ unarmed) (not_calls_of_thread thread')⟩, inv.periodic⟩

theorem EvOk.tmrcb (inCallback : etp.inCallback e.sys = true) (done : etp.tmrcb e.sys = some s') :
    EvOk etp { e with sys := s', log := .broadcast e.now :: e.log } := by
  obtain ⟨h, clocked, count, place⟩ := inv.timers
  obtain ⟨ok', sets, isr, is, is'⟩ := EvTimer.tmrcb_spec inv.ok done inCallback
  have called : e.sys.Calls (.app etp.etVt) := (is ▸ .head _ : _ ∈ e.sys.isr)
  have set := sets.clocked clocked rfl
    ⟨fun _ => ⟨_, is ▸ List.mem_cons_self⟩, fun _ => ⟨none, is' ▸ List.mem_cons_self⟩⟩
  cases place with
  | stopped _ _ notCalls => exact absurd called notCalls
  | armed _ _ _ _ _ _ _ _ notCalls => exact absurd called notCalls
  | calls start k runs _ _ now =>
    refine ⟨ok', ⟨_, set, count, ?_⟩, ⟨start, k, runs, now⟩, inv.periodic⟩
    refine .armed start (k + 1) [] h (by simp [since, runs]) rfl nofun (count.trans now) fun bad => ?_
    rcases (calls_of_return inv.ok.core.timed is is' _).1 bad with ⟨-, notTop⟩ | ⟨v, found, -⟩
    · exact notTop rfl (by rw [is]; rfl)
    · cases found

theorem EvOk.step {l : EvLabel} (taken : etp.step l e = some e') : EvOk etp e' := by
  cases l with
  | kernel l =>
    simp only [EvTimer.step, ite_none_right_eq_some, map_eq_some_iff] at taken
    obtain ⟨leaves, s', taken, rfl⟩ := taken
    obtain ⟨h, clocked, count, place⟩ := inv.timers
    obtain ⟨newer, fired, advances⟩ := next_clocked inv.ok taken clocked
    refine ⟨(next_step inv.ok nofun taken).2, ⟨_, advances.clocked, ?_, place.kernel clocked count leaves taken advances⟩,
      inv.periodic⟩
    rw [ticks_append, ticks_fired, advances.ticks, count, add_comm]
  | evtStart =>
    obtain ⟨s', done, rfl⟩ := map_eq_some_iff.1 taken
    exact inv.start done
  | evtStop =>
    obtain ⟨s', done, rfl⟩ := map_eq_some_iff.1 taken
    exact inv.stop done
  | tmrcb =>
    simp only [EvTimer.step, ite_none_right_eq_some, map_eq_some_iff] at taken
    obtain ⟨inCallback, s', done, rfl⟩ := taken
    exact inv.tmrcb inCallback done

theorem EvOk.notLate {start k : Nat} (runs : since e.log = some (start, k)) :
    start + k * etp.etInterval.toNat ≤ e.now ∧ e.now ≤ start + (k + 1) * etp.etInterval.toNat ∧
      (¬ e.sys.Ticking → e.now < start + (k + 1) * etp.etInterval.toNat) := by
  obtain ⟨h, clocked, count, place⟩ := inv.timers
  rw [Nat.add_mul, Nat.one_mul]
  cases place with
  | stopped idle => cases runs.symm.trans idle
  | calls start' k' runs' _ calls now =>
    obtain ⟨rfl, rfl⟩ := Prod.mk.inj (Option.some.inj (runs.symm.trans runs'))
    rw [Nat.add_mul, Nat.one_mul] at now
    exact ⟨by omega, by omega, fun notTicking => absurd ⟨_, calls⟩ notTicking⟩
  | armed start' k' newer older runs' is others begun =>
    obtain ⟨rfl, rfl⟩ := Prod.mk.inj (Option.some.inj (runs.symm.trans runs'))
    subst is
    rw [ticks_append] at count
    simp only [ticks] at count
    have notLate {running : Option VtId} (is : running = none → ¬ e.sys.Ticking) :=
      (clocked.exactExpiry running is).notLate (.app etp.etVt) etp.etInterval newer older rfl others
    have before := (notLate fun bad => absurd bad (Option.some_ne_none (VtId.app etp.etVt))).1
    exact ⟨by omega, by omega, fun notTicking => by have := (notLate fun _ => notTicking).2 rfl; omega⟩

theorem EvOk.noDrift (interval : etp.etInterval ≠ 0) : NoDrift etp e where
  onTime := inv.periodic
  notLate _ _ := inv.notLate
  callback inCallback := by
    obtain ⟨h, -, -, place⟩ := inv.timers
    obtain ⟨isr, top⟩ := List.head?_eq_some_iff.1 (of_decide_eq_true inCallback)
    have called : e.sys.Calls (.app etp.etVt) := (top ▸ .head _ : _ ∈ e.sys.isr)
    cases place with
    | stopped _ _ notCalls => exact absurd called notCalls
    | armed _ _ _ _ _ _ _ _ notCalls => exact absurd called notCalls
    | calls start k runs unarmed =>
      refine ⟨by rw [runs]; nofun, ?_⟩
      rw [EvTimer.step, if_pos inCallback, Ne, Option.map_eq_none_iff]
      exact EvTimer.tmrcb_isSome inv.ok inCallback unarmed interval
  restart e' taken runs := by
    obtain ⟨s', done, rfl⟩ := map_eq_some_iff.1 taken
    obtain ⟨h, clocked, -, place⟩ := inv.timers
    obtain ⟨start, runs⟩ := Option.ne_none_iff_exists'.1 runs
    refine ⟨?_, by simp [since, runs]⟩
    obtain ⟨-, thread, -, ⟨-, same⟩ | sets⟩ := EvTimer.evtStart_spec inv.ok done
    · exact same
    · cases place with
      | stopped idle => cases runs.symm.trans idle
      | armed _ _ _ _ _ is others =>
        subst is
        exact absurd (clocked.armed others) (by rw [sets.unarmed]; nofun)
      | calls _ _ _ _ calls => exact absurd calls (not_calls_of_thread thread)

end

/-- Whatever else the kernel does, an event timer broadcasts on time. -/
theorem event_timer_no_drift {cfg : Config} (interval : etp.etInterval ≠ 0)
    (reached : (evTimers cfg etp).Reach (fun _ _ => True) e) : NoDrift etp e := by
  refine EvOk.noDrift (reached.invariant ⟨.init False cfg, ⟨[], .init, rfl, ?_⟩, trivial⟩ fun e l e' inv _ taken => inv.step taken)
    interval
  exact .stopped rfl rfl nofun

/-- Started, started again at the first tick, and run for two intervals, with an interrupt in the second callback. -/
def restartedRun : List EvLabel :=
  [.evtStart, .kernel .tick, .kernel .isrExit, .evtStart, .kernel .tick, .tmrcb, .kernel .tickLoop, .kernel .isrExit,
    .kernel .tick, .kernel .isrExit, .kernel .tick, .kernel .isrEnter, .kernel .isrExit, .tmrcb]

theorem event_timer_no_drift_twice : ∃ e,
    (evTimers smallConfig ⟨0, 0, 2⟩).run restartedRun (evTimers smallConfig ⟨0, 0, 2⟩).init = some e ∧
      e.log = [.broadcast 4, .broadcast 2, .start 1, .start 0] ∧ NoDrift ⟨0, 0, 2⟩ e :=
  Lts.exists_run (by rfl) rfl fun reached => ⟨rfl, event_timer_no_drift (by decide) reached⟩

end ChibiOS.Various
