import ChibiOS.Kernel.Clock

/-!
# Waiting for a descriptor

`macWaitReceiveDescriptor` and `macWaitTransmitDescriptor` are one loop: look for a
descriptor, and wait on a semaphore for what is left of the timeout. It runs here as a thread
of the kernel, so the waits, the interrupts and the other threads are those of the kernel;
whether there is a descriptor is left open.

What is left of the timeout is the timeout less the ticks spent in the waits. The ticks that
pass between the waits are not counted, and a thread that is woken in time but runs only
after its deadline subtracts more than is left.
-/

namespace ChibiOS.Mac

open Kernel Lib
open Option (ite_none_right_eq_some bind_eq_some_iff)

/-- The semaphores of the `MACDriver`. -/
structure MACSemaphores where
  rdsem : Nat
  tdsem : Nat

/-- Where the calling thread is. -/
inductive WaitPc
  /-- Before `mac_lld_get_receive_descriptor` or its sibling. -/
  | poll
  /-- There was none, and there is time left. -/
  | lock
  /-- In `chSemWaitTimeoutS`, with the variable `now`. -/
  | wait (now : Systime)

/-- A call of one of the functions. -/
structure MacCall where
  tp : Tid
  sem : Nat
  time : Systime
  pc : WaitPc
  /-- The tick on which a finite timeout ends. -/
  deadline : Option Nat

/-- A wait on the semaphore. -/
structure MacWait where
  deadline : Option Nat
  tick : Nat
  timeout : Systime

structure MacSys where
  sys : Sys
  /-- Since the kernel was started. -/
  ticks : Nat
  call : Option MacCall
  waits : List MacWait

inductive MacLabel
  | kernel (l : Kernel.Label)
  | macWaitReceiveDescriptor (time : Systime)
  | macWaitTransmitDescriptor (time : Systime)
  /-- The search for a descriptor, with its outcome. -/
  | poll (found : Bool)
  | wait
  | resume

/-- The application's code on the running thread. -/
def ownCode (s : Sys) : Kernel.Label → Bool
  | .call _ | .scall _ | .icall _ | .sysLock | .sysUnlock | .reschedule => s.isr = []
  | _ => false

def MacCall.runs (c : MacCall) (locked : Bool) (s : Sys) : Bool :=
  s.currp = c.tp ∧ s.threadMode = true ∧ s.locked = locked

namespace MacSys

def enter (sem : Nat) (time : Systime) (m : MacSys) : Option MacSys :=
  if m.call.isNone ∧ m.sys.threadMode = true ∧ m.sys.locked = false then
    some { m with call := some {
      tp := m.sys.currp
      sem := sem
      time := time
      pc := .poll
      deadline := if time = timeInfinite then none else some (m.ticks + time.toNat) } }
  else none

/-- The loop goes on if there is no descriptor and `time > 0`. -/
def poll (found : Bool) (c : MacCall) (m : MacSys) : Option MacSys :=
  if c.runs false m.sys then
    if found = false ∧ 0 < c.time then some { m with call := some { c with pc := .lock } }
    else some { m with call := none }
  else none

def wait (c : MacCall) (m : MacSys) : Option MacSys := do
  if c.runs false m.sys then
    let s ← next .sysLock m.sys
    let now := s.vt.vtSystime
    let s ← next (.scall (.semWaitTimeoutS c.sem c.time)) s
    return { m with sys := s, call := some { c with pc := .wait now }, waits := ⟨c.deadline, m.ticks, c.time⟩ :: m.waits }
  else none

/-- `chSemWaitTimeoutS` has returned. -/
def resume (now : Systime) (c : MacCall) (m : MacSys) : Option MacSys := do
  if c.runs true m.sys then
    let s ← next .sysUnlock m.sys
    if m.sys.lastMsg = rdyTimeout then return { m with sys := s, call := none }
    let time := if c.time ≠ timeInfinite then c.time - (m.sys.vt.vtSystime - now) else c.time
    return { m with sys := s, call := some { c with time := time, pc := .poll } }
  else none

end MacSys

def macNext (macp : MACSemaphores) : MacLabel → MacSys → Option MacSys
  | .kernel l, m =>
    if (m.call.all fun c => m.sys.currp ≠ c.tp ∨ ownCode m.sys l = false) = true then
      (next l m.sys).map fun s => { m with sys := s, ticks := m.ticks + if l = .tick then 1 else 0 }
    else none
  | .macWaitReceiveDescriptor time, m => m.enter macp.rdsem time
  | .macWaitTransmitDescriptor time, m => m.enter macp.tdsem time
  | .poll found, m => m.call.bind fun c =>
    match c.pc with
    | .poll => m.poll found c
    | _ => none
  | .wait, m => m.call.bind fun c =>
    match c.pc with
    | .lock => m.wait c
    | _ => none
  | .resume, m => m.call.bind fun c =>
    match c.pc with
    | .wait now => m.resume now c
    | _ => none

def macWaits (cfg : Config) (macp : MACSemaphores) : Lts MacSys MacLabel where
  init := ⟨chSysInit cfg, 0, none, []⟩
  next := macNext macp

/-! ## Deadlines -/

/-- A wait ends by the deadline of its call, and starts before it. -/
def MacWait.InTime (w : MacWait) : Prop := ∀ d, w.deadline = some d → w.tick < d ∧ w.tick + w.timeout.toNat ≤ d

/-- Ticks come only while the call waits, and a wait that has not timed out is left by the deadline. -/
def MacSys.prompt (m : MacSys) : MacLabel → Bool
  | .kernel .tick => m.call.all fun c =>
    match c.pc with
    | .wait _ => true
    | _ => false
  | .resume => m.call.all fun c => m.sys.lastMsg = rdyTimeout ∨ c.deadline.all fun d => m.ticks ≤ d
  | _ => true

/-- What is left of the timeout of a call. -/
def MacCall.Left (ticks : Nat) (c : MacCall) : Prop :=
  ∀ d, c.deadline = some d → c.time ≠ timeInfinite ∧
    match c.pc with
    | .poll => ticks + c.time.toNat = d
    | .lock => ticks + c.time.toNat = d ∧ 0 < c.time
    | .wait now => ∃ t, now = UInt32.ofNat t ∧ t ≤ ticks ∧ t + c.time.toNat = d

structure MacOk (m : MacSys) : Prop where
  ticked : Ticked m.sys m.ticks
  call : ∀ c, m.call = some c → c.Left m.ticks
  waits : ∀ w ∈ m.waits, w.InTime

variable {m m' : MacSys} {c : MacCall} {now time : Systime} {found : Bool}

theorem MacOk.enter {sem : Nat} (inv : MacOk m) (taken : m.enter sem time = some m') : MacOk m' := by
  simp only [MacSys.enter, ite_none_right_eq_some, Option.some.injEq] at taken
  obtain ⟨-, rfl⟩ := taken
  refine ⟨inv.ticked, fun c is => ?_, inv.waits⟩
  cases is
  intro d deadline
  by_cases ever : time = timeInfinite
  · simp [ever] at deadline
  · simp only [if_neg ever, Option.some.injEq] at deadline
    exact ⟨ever, deadline⟩

theorem MacOk.poll (inv : MacOk m) (call : m.call = some c) (pc : c.pc = .poll) (taken : m.poll found c = some m') :
    MacOk m' := by
  simp only [MacSys.poll, ite_none_right_eq_some] at taken
  obtain ⟨-, taken⟩ := taken
  split at taken
  next goesOn =>
    cases taken
    refine ⟨inv.ticked, fun c' is => ?_, inv.waits⟩
    cases is
    intro d deadline
    have left := inv.call c call d deadline
    rw [pc] at left
    exact ⟨left.1, left.2, goesOn.2⟩
  · cases taken
    exact ⟨inv.ticked, nofun, inv.waits⟩

theorem MacOk.wait (inv : MacOk m) (call : m.call = some c) (pc : c.pc = .lock) (taken : m.wait c = some m') : MacOk m' := by
  simp only [MacSys.wait, ite_none_right_eq_some, Option.bind_eq_bind, bind_eq_some_iff] at taken
  obtain ⟨-, s₁, locked, s₂, waits, ⟨⟩⟩ := taken
  have ticked₁ : Ticked s₁ m.ticks := inv.ticked.step locked
  refine ⟨ticked₁.step waits, fun c' is => ?_, fun w member => ?_⟩
  · cases is
    intro d deadline
    have left := inv.call c call d deadline
    rw [pc] at left
    exact ⟨left.1, m.ticks, ticked₁.systime, le_rfl, left.2.1⟩
  · rcases List.mem_cons.1 member with rfl | member
    · intro d deadline
      have left := inv.call c call d deadline
      rw [pc] at left
      have pos : 0 < c.time.toNat := left.2.2
      exact ⟨by have := left.2.1; dsimp only; omega, left.2.1.le⟩
    · exact inv.waits w member

/-- The difference of two readings of the counter, and what it leaves of `time`. -/
theorem toNat_sub_elapsed (time : Systime) {t t' : Nat} (order : t ≤ t') (within : t' - t ≤ time.toNat) :
    (time - (UInt32.ofNat t' - UInt32.ofNat t)).toNat = time.toNat - (t' - t) := by
  have small := time.toNat_lt
  have elapsed : UInt32.ofNat t' - UInt32.ofNat t = UInt32.ofNat (t' - t) := by
    conv_lhs => rw [← Nat.sub_add_cancel order, UInt32.ofNat_add]
    rw [UInt32.add_sub_cancel]
  have exact : (UInt32.ofNat (t' - t)).toNat = t' - t := by
    rw [UInt32.toNat_ofNat']
    exact Nat.mod_eq_of_lt (by omega)
  rw [elapsed, UInt32.toNat_sub_of_le _ _ (by rw [UInt32.le_iff_toNat_le, exact]; exact within), exact]

theorem MacOk.resume (inv : MacOk m) (call : m.call = some c) (pc : c.pc = .wait now) (taken : m.resume now c = some m')
    (prompt : m.prompt .resume = true) : MacOk m' := by
  simp only [MacSys.resume, ite_none_right_eq_some, Option.bind_eq_bind, bind_eq_some_iff] at taken
  obtain ⟨-, s', unlocked, taken⟩ := taken
  have ticked' : Ticked s' m.ticks := inv.ticked.step unlocked
  split at taken
  · cases taken
    exact ⟨ticked', nofun, inv.waits⟩
  next notTimeout =>
    cases taken
    refine ⟨ticked', fun c' is => ?_, inv.waits⟩
    cases is
    intro d deadline
    obtain ⟨finite, left⟩ := inv.call c call d deadline
    rw [pc] at left
    obtain ⟨t, rfl, order, is⟩ := left
    have late : m.ticks ≤ d := by
      simpa [MacSys.prompt, call, show c.deadline = some d from deadline, notTimeout] using prompt
    have rest := toNat_sub_elapsed c.time order (by omega)
    rw [← inv.ticked.systime] at rest
    dsimp only
    rw [if_pos finite]
    refine ⟨fun ever => ?_, by rw [rest]; omega⟩
    rw [ever] at rest
    have bound := c.time.toNat_lt
    have top : timeInfinite.toNat = 4294967295 := rfl
    exact finite (UInt32.toNat_inj.1 (by omega))

theorem MacOk.kernel {l : Kernel.Label} {s' : Sys} (inv : MacOk m) (taken : next l m.sys = some s')
    (prompt : m.prompt (.kernel l) = true) :
    MacOk { m with sys := s', ticks := m.ticks + if l = .tick then 1 else 0 } := by
  refine ⟨inv.ticked.step taken, fun c call d deadline => ?_, inv.waits⟩
  obtain ⟨finite, left⟩ := inv.call c call d deadline
  refine ⟨finite, ?_⟩
  by_cases tick : l = .tick
  · subst tick
    simp only [MacSys.prompt, show m.call = some c from call, Option.all_some] at prompt
    split at prompt
    next now pc =>
      rw [pc] at left ⊢
      obtain ⟨t, is, order, rest⟩ := left
      exact ⟨t, is, order.trans (Nat.le_add_right ..), rest⟩
    · cases prompt
  · simpa [tick] using left

theorem MacOk.step {macp : MACSemaphores} {l : MacLabel} (inv : MacOk m) (taken : macNext macp l m = some m')
    (prompt : m.prompt l = true) : MacOk m' := by
  cases l with
  | kernel l =>
    simp only [macNext, ite_none_right_eq_some, Option.map_eq_some_iff] at taken
    obtain ⟨-, s', taken, rfl⟩ := taken
    exact inv.kernel taken prompt
  | macWaitReceiveDescriptor time => exact inv.enter taken
  | macWaitTransmitDescriptor time => exact inv.enter taken
  | poll found =>
    obtain ⟨c, call, taken⟩ := bind_eq_some_iff.1 taken
    split at taken
    · exact inv.poll call ‹_› taken
    · cases taken
  | wait =>
    obtain ⟨c, call, taken⟩ := bind_eq_some_iff.1 taken
    split at taken
    · exact inv.wait call ‹_› taken
    · cases taken
  | resume =>
    obtain ⟨c, call, taken⟩ := bind_eq_some_iff.1 taken
    split at taken
    · exact inv.resume call ‹_› taken prompt
    · cases taken

/-- In a run in which ticks come only while the calls wait, and no call is kept from running beyond its deadline, every
wait starts before the deadline and ends by it. -/
theorem mac_waits_in_time {cfg : Config} {macp : MACSemaphores}
    (reached : (macWaits cfg macp).Reach (fun m l => m.prompt l = true) m) : ∀ w ∈ m.waits, w.InTime :=
  (reached.invariant ⟨.init cfg, nofun, nofun⟩ fun _ _ _ inv prompt taken => MacOk.step inv taken prompt).waits

/-- A thread waits for a frame with a timeout of two ticks, is woken on the first one for nothing, and waits on. -/
def promptRun : List MacLabel :=
  [.macWaitReceiveDescriptor 2, .poll false, .wait, .kernel .run, .kernel .tick, .kernel (.icall (.semResetI 0 0)), .kernel .isrExit,
    .kernel .run, .resume, .poll false, .wait]

theorem mac_waits_in_time_prompt : ∃ m, (macWaits smallConfig ⟨0, 1⟩).run promptRun (macWaits smallConfig ⟨0, 1⟩).init = some m ∧
    m.waits = [⟨some 2, 1, 1⟩, ⟨some 2, 0, 2⟩] ∧ ∀ w ∈ m.waits, w.InTime :=
  Lts.exists_run (by rfl) rfl fun reached => ⟨rfl, mac_waits_in_time reached⟩

/-- The same with a thread of a higher priority that runs for three ticks after the wakeup. -/
def delayedRun : List MacLabel :=
  [.kernel (.call (.thdCreate 100 .heap)), .kernel .run, .kernel (.call (.semWait 2)), .kernel .run,
    .macWaitReceiveDescriptor 2, .poll false, .wait, .kernel .run, .kernel .isrEnter, .kernel (.icall (.semResetI 0 0)),
    .kernel (.icall (.semSignalI 2)), .kernel .isrExit, .kernel .run, .kernel .run, .kernel .tick, .kernel .isrExit, .kernel .tick,
    .kernel .callback, .kernel .tickLoop, .kernel .isrExit, .kernel .tick, .kernel .isrExit, .kernel (.call (.semWait 2)),
    .kernel .run, .resume, .poll false, .wait]

/-- The thread waits again after its deadline, without a timeout; and a tick before its first wait is not counted. -/
theorem mac_waits_late : (∃ m, (macWaits smallConfig ⟨0, 1⟩).run delayedRun (macWaits smallConfig ⟨0, 1⟩).init = some m ∧
      m.waits = [⟨some 2, 3, timeInfinite⟩, ⟨some 2, 0, 2⟩]) ∧
    (∃ m, (macWaits smallConfig ⟨0, 1⟩).run [.macWaitReceiveDescriptor 2, .poll false, .kernel .tick, .kernel .isrExit, .wait]
      (macWaits smallConfig ⟨0, 1⟩).init = some m ∧ m.waits = [⟨some 2, 1, 2⟩]) ∧
    ¬ MacWait.InTime ⟨some 2, 3, timeInfinite⟩ ∧ ¬ MacWait.InTime ⟨some 2, 1, 2⟩ :=
  ⟨⟨_, rfl, rfl⟩, ⟨_, rfl, rfl⟩, fun late => absurd (late 2 rfl).1 (by decide), fun late => absurd (late 2 rfl).2 (by decide)⟩

end ChibiOS.Mac
