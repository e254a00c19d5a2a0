import ChibiOS.Kernel.Clock
import ChibiOS.Kernel.Wakes
import Mathlib.Algebra.Order.Floor.Div

/-!
# Sleeping for a time

`naps tp s` watches a thread from the state `s` in which it has gone to sleep: the ticks
since then, and the first time it is not `SLEEPING` any more. Nothing but the timer on its
stack ends such a sleep, so it lasts for exactly the ticks that the timer was set to.
-/

namespace ChibiOS.Kernel

open Function
open Lib
open TimerEvent (ticks About ticks_append)

structure Nap where
  sys : Sys
  /-- Since the thread went to sleep. -/
  ticks : Nat
  /-- The ticks and the system time when the thread was not `SLEEPING` for the first time. -/
  woken : Option (Nat × Systime)

def Nap.after (tp : Tid) (l : Label) (s : Sys) (n : Nap) : Nap :=
  let ticks := n.ticks + if l = .tick then 1 else 0
  { sys := s
    ticks := ticks
    woken := if n.woken = none ∧ s.pState tp ≠ .sleeping then some (ticks, s.vt.vtSystime) else n.woken }

/-- The kernel from `start` on. -/
def naps (tp : Tid) (start : Sys) : Lts Nap Label where
  init := ⟨start, 0, none⟩
  next l n := (next l n.sys).map fun s => n.after tp l s

/-- The thread sleeps for `d` ticks: it is woken on the `d`-th one, by its timer. -/
structure SleepsFor (tp : Tid) (d : Nat) (n : Nap) : Prop where
  onTime : ∀ k time, n.woken = some (k, time) → k = d
  asleep : n.woken = none → n.sys.pState tp = .sleeping ∧ (n.sys.Armed tp ∨ n.sys.Pending tp)
  notLate : n.woken = none → n.ticks ≤ d ∧ (¬ n.sys.Ticking → n.ticks < d)

variable {s s' : Sys} {l : Label} {t tp : Tid} {n : Nap} {d : Systime} {h older : List (TimerEvent VtId)} {c : Core}

theorem Sys.wakeup_state (other : t ≠ tp) : (s.wakeup tp).pState t = s.pState t := by
  unfold Sys.wakeup
  split
  · rfl
  · split
    · exact update_of_ne other ..
    · rfl
  · exact update_of_ne other ..
  · exact update_of_ne other ..
  · exact update_of_ne other ..

/-- A sleep for a time is ended by its timer only. -/
theorem next_sleeping (ok : KernelOk False s) (taken : next l s = some s') (sleeping : s.pState t = .sleeping) :
    s'.pState t = .sleeping ∨ s'.pState t = .ready ∧ ∃ isr, s.isr = .tick (some (.wakeup t)) :: isr := by
  have sched := ok.core.sched
  have quiet (slp : (l.foot s).slp = false) : s'.pState t = .sleeping := by
    rcases (next_step ok nofun taken).1.moves.rests sched (show (l.foot s).state .sleeping = false from slp) t with
      ⟨same, -⟩ | ⟨apart, -⟩
    · exact same.trans sleeping
    · exact absurd sleeping apart
  have other : t ≠ s.currp := by
    rintro rfl
    cases sched.currp_state.symm.trans sleeping
  have stays {c : Core} (same : Undisturbed t s.toCore c) : c.pState t = .sleeping := by
    rcases same.state with same | ⟨awake, -⟩
    · exact same.trans sleeping
    · simp [Core.awake, sleeping] at awake
  have entered : Undisturbed t s.toCore s.enter.toCore := .congr rfl rfl rfl
  have slept (time : Systime) : Undisturbed t s.toCore (s.enter.chThdSleepS time).toCore :=
    entered.trans (.goSleepTimeoutS .sleeping time sched.ready_of_mem sched.currp_state other)
  cases l with
  | call f =>
    cases f with
    | thdSleep time =>
      obtain ⟨-, -, -, rfl⟩ := next_call taken
      exact .inl (stays (slept time))
    | thdSleepUntil time =>
      obtain ⟨-, -, -, rfl⟩ := next_call taken
      show (s.chThdSleepUntil time).pState t = .sleeping ∨ _
      by_cases now : time = s.vt.vtSystime
      · rw [now, Sys.chThdSleepUntil_now]
        exact .inl (stays entered)
      · rw [(Sys.chThdSleepUntil_later now).1]
        exact .inl (stays (slept _))
    | _ => exact .inl (quiet rfl)
  | scall f =>
    cases f with
    | thdSleepS time =>
      obtain ⟨-, -, -, rfl⟩ := next_scall taken
      exact .inl (stays (.goSleepTimeoutS .sleeping time sched.ready_of_mem sched.currp_state other))
    | _ => exact .inl (quiet rfl)
  | icall f => exact .inl (quiet (by cases f <;> rfl))
  | run =>
    obtain ⟨f, fs, -, top, -⟩ := next_run taken
    exact .inl (quiet (by rw [Label.foot_run top]; cases f <;> rfl))
  | callback =>
    obtain ⟨isr, ⟨tp, is, rfl⟩ | ⟨n, is, rfl⟩⟩ := next_callback taken
    · by_cases same : t = tp
      · subst same
        refine .inr ⟨?_, isr, is⟩
        rw [Sys.wakeup, sleeping]
        exact update_self ..
      · exact .inl ((Sys.wakeup_state same).trans sleeping)
    · exact .inl sleeping
  | _ => exact .inl (quiet rfl)

theorem next_sleeping_ctx (ok : KernelOk False s) (taken : next l s = some s') (sleeping : s.pState t = .sleeping) :
    s'.pCtx t = s.pCtx t := by
  refine next_ctx ok taken t ?_ (ok.core.sched.lt_of_ne_suspended (by rw [sleeping]; nofun))
  rintro rfl
  cases ok.core.sched.currp_state.symm.trans sleeping

/-- In a timed sleep the timer is armed until its callback is on its way. -/
theorem TimedOk.armed_iff (tok : TimedOk c) (inSleep : InSleep (c.pCtx t)) (timed : (c.pState t).timed = true) :
    c.Armed t ↔ ¬ c.Pending t := by
  obtain ⟨p, -, phase⟩ := tok.thread t
  cases phase with
  | awake notIn => exact absurd inSleep notIn
  | asleep _ _ iff => exact iff
  | woken m _ is =>
    rcases is with ready | ⟨current, -⟩
    · rw [ready] at timed; cases timed
    · rw [current] at timed; cases timed

theorem Core.Pending.ticking (pending : c.Pending t) : c.Ticking := ⟨_, pending⟩

/-- What a thread asleep does not do is not about its timer. -/
theorem TimerCause.not_about {ev : TimerEvent VtId} (cause : TimerCause l s ev) (sleeping : s.pState t = .sleeping) :
    ¬ About (.stack t) ev := by
  cases cause with
  | tick => exact nofun
  | own x event awake =>
    rintro about
    have same : x = t := by cases event <;> exact VtId.stack.inj about
    exact awake (same ▸ sleeping)
  | set => exact nofun
  | reset => exact nofun

/-- Where the nap of `tp` is, with the timer set to `d` after the history `older`. -/
structure NapOk (tp : Tid) (d : Systime) (older : List (TimerEvent VtId)) (n : Nap) : Prop where
  ok : KernelOk False n.sys
  since : ∃ since, Clocked n.sys.toCore (since ++ .set (.stack tp) d :: older) ∧ ticks since = n.ticks ∧
    (n.woken = none → n.sys.pState tp = .sleeping ∧ InSleep (n.sys.pCtx tp) ∧
      ((∀ ev ∈ since, ¬ About (.stack tp) ev) ∨ ¬ n.sys.Armed tp ∧ n.ticks = d.toNat))
  woken : ∀ k time, n.woken = some (k, time) → k = d.toNat ∧ time = UInt32.ofNat (ticks older) + d

/-- One step of a thread that is still asleep. -/
theorem NapOk.asleep_step {since newer : List (TimerEvent VtId)} {fired : Option VtId} (ok : KernelOk False s)
    (ok' : KernelOk False s') (taken : next l s = some s') (sleeping : s.pState tp = .sleeping)
    (sleeping' : s'.pState tp = .sleeping)
    (inSleep : InSleep (s.pCtx tp)) (inSleep' : InSleep (s'.pCtx tp))
    (clocked : Clocked s.toCore (since ++ .set (.stack tp) d :: older))
    (advances : Advances l s s' (since ++ .set (.stack tp) d :: older) newer fired)
    (is : (∀ ev ∈ since, ¬ About (.stack tp) ev) ∨ ¬ s.Armed tp ∧ ticks since = d.toNat) :
    (∀ ev ∈ (fired.map .fire).toList ++ newer ++ since, ¬ About (.stack tp) ev) ∨
      ¬ s'.Armed tp ∧ ticks newer + ticks since = d.toNat := by
  have quiet : ∀ ev ∈ newer, ¬ About (.stack tp) ev := fun ev mem => (advances.causes ev mem).not_about sleeping
  have timed : (s.pState tp).timed = true := by rw [sleeping]; rfl
  have timed' : (s'.pState tp).timed = true := by rw [sleeping']; rfl
  by_cases own : fired = some (.stack tp)
  · subst own
    have armed : s.Armed tp := clocked.fired_armed (by simpa using advances.clocked) quiet
    have unfired := is.resolve_right fun off => off.1 armed
    obtain ⟨isr, top⟩ := advances.fires _ rfl
    have pending : s'.Pending tp := by rw [Core.Pending, top]; exact .head _
    refine .inr ⟨fun armed' => (ok'.core.timed.armed_iff inSleep' timed').1 armed' pending, ?_⟩
    have onTime := (advances.clocked.exactExpiry (some (.stack tp)) (by simp)).onTime (.stack tp) d [] (newer ++ since) older
      (by simp) fun ev mem => (List.mem_append.1 mem).elim (quiet ev) (unfired ev)
    rw [← onTime, ticks_append]
  · have others := not_about_fired own quiet
    rcases is with unfired | ⟨off, late⟩
    · exact .inl fun ev mem => (List.mem_append.1 mem).elim (others ev) (unfired ev)
    · have pending : s.Pending tp := by
        by_contra not
        exact off ((ok.core.timed.armed_iff inSleep timed).2 not)
      refine .inr ⟨fun armed' => off ((clocked.armed_iff (by simpa using advances.clocked) others).1 armed'), ?_⟩
      rw [advances.ticks, if_neg (pending.ticking.not_tick taken), zero_add, late]

theorem NapOk.step (inv : NapOk tp d older n) (taken : next l n.sys = some s') : NapOk tp d older (n.after tp l s') := by
  have ok' := (next_step inv.ok nofun taken).2
  obtain ⟨since, clocked, count, nap⟩ := inv.since
  obtain ⟨newer, fired, advances⟩ := next_clocked inv.ok taken clocked
  have count' : ticks ((fired.map .fire).toList ++ newer ++ since) = n.ticks + if l = .tick then 1 else 0 := by
    rw [ticks_append, ticks_fired, advances.ticks, count, add_comm]
  have clocked' : Clocked s'.toCore ((fired.map .fire).toList ++ newer ++ since ++ .set (.stack tp) d :: older) := by
    simpa only [List.append_assoc] using advances.clocked
  cases woken : n.woken with
  | some w =>
    have after : (n.after tp l s').woken = n.woken := if_neg fun bad => by rw [woken] at bad; cases bad.1
    refine ⟨ok', ⟨_, clocked', count', fun bad => ?_⟩, fun k time is => inv.woken k time (after ▸ is)⟩
    rw [after, woken] at bad
    cases bad
  | none =>
    obtain ⟨sleeping, inSleep, is⟩ := nap woken
    have timed : (n.sys.pState tp).timed = true := by rw [sleeping]; rfl
    have inSleep' : InSleep (s'.pCtx tp) := by rwa [next_sleeping_ctx inv.ok taken sleeping]
    rcases next_sleeping inv.ok taken sleeping with sleeping' | ⟨ready, isr, top⟩
    · have after : (n.after tp l s').woken = none := (if_neg fun bad => bad.2 sleeping').trans woken
      refine ⟨ok', ⟨_, clocked', count', fun _ => ⟨sleeping', inSleep', ?_⟩⟩, fun k time bad => ?_⟩
      · have step := NapOk.asleep_step inv.ok ok' taken sleeping sleeping' inSleep inSleep' clocked advances (count ▸ is)
        rwa [advances.ticks, count, add_comm] at step
      · cases after.symm.trans bad
    · have pending : n.sys.Pending tp := by rw [Core.Pending, top]; exact .head _
      have notTick := pending.ticking.not_tick taken
      have late : n.ticks = d.toNat := (is.resolve_left fun unfired =>
        (inv.ok.core.timed.armed_iff inSleep timed).1 (clocked.armed unfired) pending).2
      have after : (n.after tp l s').woken = some (d.toNat, s'.vt.vtSystime) := by
        refine (if_pos ⟨woken, by simp [ready]⟩).trans ?_
        rw [if_neg notTick, late, add_zero]
      refine ⟨ok', ⟨_, clocked', count', fun bad => ?_⟩, fun k time is => ?_⟩
      · cases after.symm.trans bad
      · cases after.symm.trans is
        refine ⟨rfl, clocked'.systime.trans ?_⟩
        rw [ticks_append, count', if_neg notTick, late]
        show UInt32.ofNat (d.toNat + 0 + ticks older) = _
        rw [add_zero, UInt32.ofNat_add, UInt32.ofNat_toNat, UInt32.add_comm]

/-! ## Going to sleep -/

/-- A thread that has gone to sleep, with the frame that it returns to. -/
theorem Core.goSleepTimeoutS_asleep {time : Systime} (st : TState)
    (ready : ∀ h ∈ c.queue .rQueue, c.pState h = .ready) (current : c.pState c.currp = .current)
    (ok : c.vt.Ok) :
    (c.chSchGoSleepTimeoutS st time).pState c.currp = st ∧
      ((c.chSchGoSleepTimeoutS st time).pCtx c.currp).head? = some (if time = timeInfinite then .rdymsg else .goSleepTimeout) := by
  by_cases ever : time = timeInfinite
  · rw [Core.chSchGoSleepTimeoutS, if_neg (not_not.2 ever), if_pos ever]
    refine ⟨Core.chSchGoSleepS_state st ready current, ?_⟩
    rw [Core.chSchGoSleepS_ctx]
    simp [Core.push]
  · obtain ⟨vt, set⟩ := ok.set_isSome (.stack c.currp) time (.wakeup c.currp)
    rw [Core.chSchGoSleepTimeoutS, if_pos ever, if_neg ever, set]
    refine ⟨Core.chSchGoSleepS_state st
      ready current, ?_⟩
    rw [Core.chSchGoSleepS_ctx]
    simp [Core.push]

/-- The running thread has called `chThdSleep`. -/
structure GoesToSleep (d : Systime) (s s' : Sys) : Prop where
  ok : KernelOk False s
  ok' : KernelOk False s'
  empty : s.pCtx s.currp = []
  later : d ≠ timeImmediate
  is : s' = s.chThdSleep d

theorem GoesToSleep.of_sleep (ok : KernelOk False s) (taken : next (.call (.thdSleep d)) s = some s') : GoesToSleep d s s' := by
  obtain ⟨-, empty, allowed, is⟩ := next_call taken
  exact ⟨ok, (next_step ok nofun taken).2, empty, of_decide_eq_true allowed, is⟩

theorem GoesToSleep.of_sleepUntil (ok : KernelOk False s) (taken : next (.call (.thdSleepUntil d)) s = some s')
    (later : d ≠ s.vt.vtSystime) : GoesToSleep (d - s.vt.vtSystime) s s' := by
  obtain ⟨-, empty, -, is⟩ := next_call taken
  obtain ⟨same, differs⟩ := Sys.chThdSleepUntil_later later
  exact ⟨ok, (next_step ok nofun taken).2, empty, differs, is.trans same⟩

theorem GoesToSleep.asleep (goes : GoesToSleep d s s') : s'.pState s.currp = .sleeping ∧
    (s'.pCtx s.currp).head? = some (if d = timeInfinite then .rdymsg else .goSleepTimeout) := by
  obtain ⟨ok, -, -, -, rfl⟩ := goes
  exact Core.goSleepTimeoutS_asleep .sleeping ok.core.sched.ready_of_mem ok.core.sched.currp_state
    ok.core.timed.vt

/-- The nap begins. -/
theorem GoesToSleep.napOk (goes : GoesToSleep d s s') (clocked : Clocked s.toCore older) (timed : d ≠ timeInfinite) :
    NapOk s.currp d older ⟨s', 0, none⟩ := by
  obtain ⟨sleeping, top⟩ := goes.asleep
  rw [if_neg timed] at top
  refine ⟨goes.ok', ⟨[], ?_, rfl, fun _ => ⟨sleeping, top, .inl nofun⟩⟩, nofun⟩
  have entered : Clocked s.enter.toCore older := clocked.congr rfl .rfl
  have unarmed : chVTIsArmedI (.stack s.currp) s.vt = false := goes.ok.core.timed.unarmed (by rw [goes.empty]; nofun)
  have slept := entered.goSleepTimeoutS unarmed goes.ok.core.timed.vt goes.later .sleeping
  rw [if_neg timed] at slept
  rwa [goes.is]

theorem naps_invariant {start : Sys} {I : Nap → Prop} (init : I ⟨start, 0, none⟩)
    (step : ∀ n l s', I n → next l n.sys = some s' → I (n.after tp l s'))
    (reached : (naps tp start).Reach (fun _ _ => True) n) : I n := by
  refine reached.invariant init fun n l n' inv _ taken => ?_
  obtain ⟨s', stepped, rfl⟩ := Option.map_eq_some_iff.1 taken
  exact step n l s' inv stepped

theorem NapOk.sleepsFor (inv : NapOk tp d older n) : SleepsFor tp d.toNat n := by
  obtain ⟨since, clocked, count, nap⟩ := inv.since
  have asleep (woken : n.woken = none) : n.sys.Armed tp ↔ ¬ n.sys.Pending tp := by
    obtain ⟨sleeping, inSleep, -⟩ := nap woken
    exact inv.ok.core.timed.armed_iff inSleep (by rw [sleeping]; rfl)
  refine ⟨fun k time woken => (inv.woken k time woken).1, fun woken => ⟨(nap woken).1, ?_⟩, fun woken => ?_⟩
  · by_cases pending : n.sys.Pending tp
    · exact .inr pending
    · exact .inl ((asleep woken).2 pending)
  · rcases (nap woken).2.2 with unfired | ⟨off, late⟩
    · rw [← count]
      have notLate {running : Option VtId} (is : running = none → ¬ n.sys.Ticking) :=
        (clocked.exactExpiry running is).notLate (.stack tp) d since older rfl unfired
      exact ⟨(notLate (fun bad => nomatch (bad : some (VtId.stack tp) = none))).1, fun not => (notLate fun _ => not).2 rfl⟩
    · refine ⟨late.le, fun notTicking => absurd ?_ off⟩
      exact (asleep woken).2 fun pending => notTicking pending.ticking

theorem NapOk.systime (inv : NapOk tp d older n) : n.sys.vt.vtSystime = UInt32.ofNat (ticks older) + UInt32.ofNat n.ticks := by
  obtain ⟨since, clocked, count, -⟩ := inv.since
  rw [clocked.systime, ticks_append, count, UInt32.ofNat_add, UInt32.add_comm]
  rfl

/-- `chThdSleep` sleeps for its time, unless that is `TIME_INFINITE`. -/
theorem GoesToSleep.sleepsFor {cfg : Config} (goes : GoesToSleep d s s') (reached : (kernelLts cfg).Reach (fun _ _ => True) s)
    (timed : d ≠ timeInfinite) (after : (naps s.currp s').Reach (fun _ _ => True) n) :
    SleepsFor s.currp d.toNat n ∧ n.sys.vt.vtSystime = s.vt.vtSystime + UInt32.ofNat n.ticks ∧
      ∀ k time, n.woken = some (k, time) → time = s.vt.vtSystime + d := by
  obtain ⟨h, clocked⟩ := reach_clocked reached
  have inv : NapOk s.currp d h n := naps_invariant (goes.napOk clocked timed) (fun _ _ _ inv taken => inv.step taken) after
  rw [show s.vt.vtSystime = _ from clocked.systime]
  exact ⟨inv.sleepsFor, inv.systime, fun k time woken => (inv.woken k time woken).2⟩

/-- A sleep without a timer is never ended. -/
theorem GoesToSleep.forever (goes : GoesToSleep timeInfinite s s') (after : (naps s.currp s').Reach (fun _ _ => True) n) :
    n.woken = none ∧ n.sys.pState s.currp = .sleeping ∧ ¬ n.sys.Armed s.currp ∧ ¬ n.sys.Pending s.currp := by
  have inv := naps_invariant (I := fun n => KernelOk False n.sys ∧ n.woken = none ∧ n.sys.pState s.currp = .sleeping ∧
      ¬ InSleep (n.sys.pCtx s.currp)) ?_ ?_ after
  · obtain ⟨ok, woken, sleeping, notIn⟩ := inv
    exact ⟨woken, sleeping, ok.core.timed.off notIn⟩
  · obtain ⟨sleeping, top⟩ := goes.asleep
    exact ⟨goes.ok', rfl, sleeping, fun bad => by rw [InSleep, top] at bad; cases bad⟩
  · rintro n l s' ⟨ok, woken, sleeping, notIn⟩ taken
    rcases next_sleeping ok taken sleeping with sleeping' | ⟨-, isr, top⟩
    · refine ⟨(next_step ok False.elim taken).2, (if_neg fun bad => bad.2 sleeping').trans woken, sleeping', ?_⟩
      rwa [show (n.after s.currp l s').sys.pCtx _ = _ from next_sleeping_ctx ok taken sleeping]
    · refine absurd ?_ (ok.core.timed.off notIn).2
      rw [Core.Pending, top]
      exact .head _

/-! ## `chThdSleepUntil` -/

/-- A sleep from the system time `now` on ends on the tick that next makes the counter equal to `target`. -/
structure WakesAt (tp : Tid) (now target : Systime) (n : Nap) : Prop where
  systime : n.sys.vt.vtSystime = now + UInt32.ofNat n.ticks
  onTime : ∀ k time, n.woken = some (k, time) → time = target ∧ 0 < k ∧ ∀ j, 0 < j → j < k → now + UInt32.ofNat j ≠ target
  asleep : n.woken = none → n.sys.pState tp = .sleeping ∧ (n.sys.Armed tp ∨ n.sys.Pending tp)
  notLate : n.woken = none → ¬ n.sys.Ticking → ∀ j, 0 < j → j ≤ n.ticks → now + UInt32.ofNat j ≠ target

/-- The counter does not get to the target before its time. -/
theorem systime_ne_of_lt {now target : Systime} {j : Nat} (before : j < (target - now).toNat) :
    now + UInt32.ofNat j ≠ target := by
  rintro rfl
  rw [UInt32.add_comm, UInt32.add_sub_cancel, UInt32.toNat_ofNat'] at before
  exact absurd before (Nat.mod_le ..).not_gt

theorem SleepsFor.wakesAt {now target : Systime} (later : target ≠ now) (sleeps : SleepsFor tp (target - now).toNat n)
    (systime : n.sys.vt.vtSystime = now + UInt32.ofNat n.ticks) (ends : ∀ k time, n.woken = some (k, time) → time = target) :
    WakesAt tp now target n where
  systime := systime
  asleep := sleeps.asleep
  notLate woken notTicking j _ le := systime_ne_of_lt (le.trans_lt ((sleeps.notLate woken).2 notTicking))
  onTime k time woken := by
    obtain rfl := sleeps.onTime k time woken
    refine ⟨ends _ _ woken, Nat.pos_of_ne_zero fun zero => later ?_, fun j _ => systime_ne_of_lt⟩
    have same : target - now = 0 := UInt32.toNat_inj.1 zero
    grind

/-- `chThdSleepUntil` wakes the thread at its time, except for the time that has just passed: that is the
whole period of the counter but one tick away, which `chSchGoSleepTimeoutS` takes for `TIME_INFINITE`. -/
theorem sleepUntil_wakes_at_target {cfg : Config} {target : Systime} (reached : (kernelLts cfg).Reach (fun _ _ => True) s)
    (taken : next (.call (.thdSleepUntil target)) s = some s') (later : target ≠ s.vt.vtSystime) :
    (∀ n, (naps s.currp s').Reach (fun _ _ => True) n → WakesAt s.currp s.vt.vtSystime target n) ↔
      target - s.vt.vtSystime ≠ timeInfinite := by
  have goes := GoesToSleep.of_sleepUntil (reach_kernelOk (fun _ _ _ => nofun) reached) taken later
  constructor
  · intro wakes ever
    rw [ever] at goes
    obtain ⟨-, -, unarmed, notPending⟩ := goes.forever .init
    exact ((wakes _ .init).asleep rfl).2.elim unarmed notPending
  · intro timed n after
    obtain ⟨sleeps, systime, ends⟩ := goes.sleepsFor reached timed after
    refine sleeps.wakesAt later systime fun k time woken => (ends k time woken).trans ?_
    rw [UInt32.add_comm, UInt32.sub_add_cancel]

theorem sleepUntil_wakes_at_five : (0 : Systime) ≠ 5 ∧
    ∀ n, (naps mainThread ((chSysInit smallConfig).chThdSleepUntil 5)).Reach (fun _ _ => True) n → WakesAt mainThread 0 5 n :=
  ⟨by decide, (sleepUntil_wakes_at_target .init rfl (by decide)).2 (by decide)⟩

/-- At time 0 a thread that sleeps until the last value of the counter is never woken. -/
theorem sleepUntil_before_wrap : (chSysInit smallConfig).vt.vtSystime = 0 ∧
    next (.call (.thdSleepUntil 0xFFFFFFFF)) (chSysInit smallConfig) = some ((chSysInit smallConfig).chThdSleepUntil 0xFFFFFFFF) ∧
    ∀ n, (naps mainThread ((chSysInit smallConfig).chThdSleepUntil 0xFFFFFFFF)).Reach (fun _ _ => True) n →
      n.woken = none ∧ n.sys.pState mainThread = .sleeping ∧ ¬ n.sys.Armed mainThread :=
  ⟨rfl, rfl, fun n after => by
    have goes := GoesToSleep.of_sleepUntil (s := chSysInit smallConfig) (.init False smallConfig) rfl (d := 0xFFFFFFFF) (by decide)
    obtain ⟨woken, sleeping, unarmed, -⟩ := goes.forever after
    exact ⟨woken, sleeping, unarmed⟩⟩

/-! ## Seconds, milliseconds, microseconds

The conversions are in 32-bit arithmetic: `long` is 32 bits wide on the targets. -/

def chFrequency : UInt32 := 1000

def s2st (sec : UInt32) : Systime := sec * chFrequency

def ms2st (msec : UInt32) : Systime := (msec * chFrequency - 1) / 1000 + 1

def us2st (usec : UInt32) : Systime := (usec * chFrequency - 1) / 1000000 + 1

inductive TimeUnit
  | sec | msec | usec

def TimeUnit.perSecond : TimeUnit → Nat
  | .sec => 1
  | .msec => 1000
  | .usec => 1000000

def TimeUnit.st : TimeUnit → UInt32 → Systime
  | .sec => s2st
  | .msec => ms2st
  | .usec => us2st

def chThdSleepSeconds (sec : UInt32) : ApiCall := .thdSleep (s2st sec)

def chThdSleepMilliseconds (msec : UInt32) : ApiCall := .thdSleep (ms2st msec)

def chThdSleepMicroseconds (usec : UInt32) : ApiCall := .thdSleep (us2st usec)

def TimeUnit.sleep : TimeUnit → UInt32 → ApiCall
  | .sec => chThdSleepSeconds
  | .msec => chThdSleepMilliseconds
  | .usec => chThdSleepMicroseconds

/-- The duration in ticks, rounded up. -/
def TimeUnit.duration (u : TimeUnit) (d : UInt32) : Nat := (d.toNat * chFrequency.toNat) ⌈/⌉ u.perSecond

/-- The rounding of the conversions, for a product that may have wrapped. -/
theorem roundUp_toNat (x k : UInt32) (unit : 2 ≤ k.toNat) :
    ((x - 1) / k + 1).toNat = if x.toNat = 0 then 4294967295 / k.toNat + 1 else x.toNat ⌈/⌉ k.toNat := by
  have small : (x - 1).toNat / k.toNat + 1 < 2 ^ 32 := by
    have half := Nat.div_le_div_left (a := (x - 1).toNat) unit (by decide)
    have lt := (x - 1).toNat_lt
    omega
  rw [UInt32.toNat_add, UInt32.toNat_div, show (1 : UInt32).toNat = 1 from rfl, Nat.mod_eq_of_lt small]
  split
  next zero =>
    obtain rfl : x = 0 := UInt32.toNat_inj.1 zero
    rfl
  next nonzero =>
    have pos : 0 < x.toNat := Nat.pos_of_ne_zero nonzero
    rw [UInt32.toNat_sub_of_le x 1 pos, Nat.ceilDiv_eq_add_pred_div, show (1 : UInt32).toNat = 1 from rfl,
      ← Nat.add_div_right _ (by omega : 0 < k.toNat)]
    congr 1
    omega

theorem mul_chFrequency (d : UInt32) : (d * chFrequency).toNat = d.toNat * 1000 % 4294967296 := UInt32.toNat_mul ..

/-- The conversions are exact as long as the product fits in 32 bits. -/
theorem TimeUnit.st_eq (u : TimeUnit) (pos : 0 < d.toNat) (fits : d.toNat * 1000 < 4294967296) :
    (u.st d).toNat = u.duration d := by
  have same := Nat.mod_eq_of_lt fits
  have nonzero : ¬ d.toNat * 1000 = 0 := by omega
  cases u with
  | sec => exact (mul_chFrequency d).trans (same.trans (by simp [TimeUnit.duration, TimeUnit.perSecond, chFrequency]))
  | msec | usec =>
    refine (roundUp_toNat (d * chFrequency) _ (by decide)).trans ?_
    rw [mul_chFrequency, same, if_neg nonzero]
    rfl

/-- A whole unit more is rounded up to more. -/
theorem ceilDiv_lt_ceilDiv {k m n : Nat} (pos : 0 < k) (le : m + k ≤ n) : m ⌈/⌉ k < n ⌈/⌉ k := by
  rw [Nat.ceilDiv_eq_add_pred_div, Nat.ceilDiv_eq_add_pred_div]
  calc (m + k - 1) / k < (m + k - 1) / k + 1 := lt_add_one _
    _ = (m + k - 1 + k) / k := (Nat.add_div_right _ pos).symm
    _ ≤ (n + k - 1) / k := Nat.div_le_div_right (by omega)

/-- The rounding of a product that has wrapped, though not just to zero. -/
theorem ceilDiv_wrapped {k n : Nat} (pos : 0 < k) (small : k ≤ 4294967296) (wraps : 4294967296 ≤ n) (ne : n ≠ 4294967296) :
    (if n % 4294967296 = 0 then 4294967295 / k + 1 else n % 4294967296 ⌈/⌉ k) < n ⌈/⌉ k := by
  have product := Nat.div_add_mod n 4294967296
  have less := Nat.mod_lt n (show 4294967296 > 0 by decide)
  generalize n % 4294967296 = r at product less ⊢
  generalize n / 4294967296 = q at product
  split
  next whole =>
    have top : 4294967295 / k + 1 = 4294967296 ⌈/⌉ k := by
      rw [Nat.ceilDiv_eq_add_pred_div, ← Nat.add_div_right _ pos]
      congr 1
      omega
    rw [top]
    exact ceilDiv_lt_ceilDiv pos (by omega)
  · exact ceilDiv_lt_ceilDiv pos (by omega)

/-- Beyond that they give less. -/
theorem TimeUnit.st_lt (u : TimeUnit) (short : u.duration d < timeInfinite.toNat)
    (wraps : 4294967296 ≤ d.toNat * 1000) :
    (u.st d).toNat < u.duration d := by
  have freq : chFrequency.toNat = 1000 := rfl
  have ever : timeInfinite.toNat = 4294967295 := rfl
  cases u with
  | sec =>
    simp only [TimeUnit.duration, TimeUnit.perSecond, freq, ceilDiv_one] at short
    omega
  | msec | usec =>
    refine (roundUp_toNat (d * chFrequency) _ (by decide)).trans_lt ?_
    rw [mul_chFrequency, TimeUnit.duration, TimeUnit.perSecond, freq]
    exact ceilDiv_wrapped (by decide) (by decide) wraps (by omega)

theorem TimeUnit.st_ne (u : TimeUnit) (short : u.duration d < timeInfinite.toNat) (pos : 0 < d.toNat) :
    u.st d ≠ timeInfinite := by
  intro ever
  rcases lt_or_ge (d.toNat * 1000) 4294967296 with fits | wraps
  · have exact := u.st_eq pos fits
    rw [ever] at exact
    omega
  · have less := u.st_lt short wraps
    rw [ever] at less
    omega

/-- A sleep given in a unit of time lasts for the ticks that the conversion gives: for the
duration rounded up if its product with `CH_FREQUENCY` fits in 32 bits, and for less otherwise. -/
theorem sleep_rounded_up {cfg : Config} (u : TimeUnit) (d : UInt32) (reached : (kernelLts cfg).Reach (fun _ _ => True) s)
    (pos : 1 ≤ d) (short : u.duration d < timeInfinite.toNat) (taken : next (.call (u.sleep d)) s = some s') :
    (∀ n, (naps s.currp s').Reach (fun _ _ => True) n → SleepsFor s.currp (u.st d).toNat n) ∧
      (d.toNat * chFrequency.toNat < 2 ^ 32 → (u.st d).toNat = u.duration d) ∧
      (2 ^ 32 ≤ d.toNat * chFrequency.toNat → (u.st d).toNat < u.duration d) := by
  refine ⟨fun n after => ?_, u.st_eq pos, u.st_lt short⟩
  have sleep : next (.call (.thdSleep (u.st d))) s = some s' := by cases u <;> exact taken
  have goes := GoesToSleep.of_sleep (reach_kernelOk (fun _ _ _ => nofun) reached) sleep
  exact (goes.sleepsFor reached (u.st_ne short pos) after).1

theorem sleep_rounded_up_usec : TimeUnit.usec.st 1500 = 2 ∧ ∀ n, (naps mainThread ((chSysInit smallConfig).chThdSleep 2)).Reach
    (fun _ _ => True) n → SleepsFor mainThread 2 n :=
  ⟨by decide, (sleep_rounded_up .usec 1500 .init (by decide) (by decide) rfl).1⟩

/-- The product wraps from 4294968 on: so many milliseconds end with the first tick. -/
theorem sleep_msec_wraps : TimeUnit.msec.duration 4294968 < timeInfinite.toNat ∧
    ∃ s', next (.call (TimeUnit.msec.sleep 4294968)) (chSysInit smallConfig) = some s' ∧
      ∃ n, (naps mainThread s').Reach (fun _ _ => True) n ∧ n.woken = some (1, 1) ∧
        ¬ SleepsFor mainThread (TimeUnit.msec.duration 4294968) n := by
  refine ⟨by decide, _, rfl, _, (@Lts.Reach.of_run _ _ (naps mainThread ((chSysInit smallConfig).chThdSleep 1)) (fun _ _ => true)
    [.run, .tick, .callback] _ rfl rfl).mono fun _ _ _ => trivial, rfl, fun sleeps => ?_⟩
  exact absurd (sleeps.onTime 1 1 rfl) (by decide)

end ChibiOS.Kernel
