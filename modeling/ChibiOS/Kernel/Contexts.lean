import ChibiOS.Kernel.Steps

/-!
# Contexts

A step goes on in the running thread's context only. The other threads, asleep or
preempted, keep theirs, whatever the step does to their states: a function that gives
the processor away has left its own frames before, and leaves none after.
-/

namespace ChibiOS.Kernel

open Function
open Lib Kernel.Core

/-- The contexts of the threads that do not run are the same. -/
def OwnCtx (s s' : Sys) : Prop := ∀ t, t ≠ s.currp → t < s.nthd → s'.pCtx t = s.pCtx t

/-- All contexts are the same, and so is the running thread. -/
structure SameCtx (c c' : Core) : Prop where
  ctx : c'.pCtx = c.pCtx
  currp : c'.currp = c.currp
  nthd : c'.nthd = c.nthd

variable {who : Option Tid} {c c' c'' : Core} {s s' : Sys} {q : QueueId} {t : Tid}

theorem SameCtx.refl (c : Core) : SameCtx c c := ⟨rfl, rfl, rfl⟩

theorem SameCtx.trans (left : SameCtx c c') (right : SameCtx c' c'') : SameCtx c c'' :=
  ⟨right.ctx.trans left.ctx, right.currp.trans left.currp, right.nthd.trans left.nthd⟩

theorem OwnCtx.of_eq (same : s'.pCtx = s.pCtx) : OwnCtx s s' := fun _ _ _ => by rw [same]

theorem OwnCtx.update (fs : List Frame) (same : s'.pCtx = update s.pCtx s.currp fs) : OwnCtx s s' := fun t other _ => by
  rw [same, update_of_ne other]

/-! ## The scheduler -/

theorem Core.fifoRemove_ctx (removed : c.fifoRemove q = some (t, c')) : SameCtx c c' := by
  obtain ⟨l, -, rfl⟩ := fifoRemove_some removed
  exact ⟨rfl, rfl, rfl⟩

theorem Core.chSchGoSleepS_ctx (c : Core) (st : TState) : (c.chSchGoSleepS st).pCtx = c.pCtx :=
  (runFirst_frame).1

theorem Core.chSchRescheduleS_ctx (c : Core) : c.chSchRescheduleS.pCtx = c.pCtx := by
  rw [chSchRescheduleS]
  split
  · exact runFirst_frame.1
  · rfl

theorem Core.chSchDoRescheduleBehind_ctx (c : Core) : c.chSchDoRescheduleBehind.pCtx = c.pCtx := runFirst_frame.1

theorem Core.chSchDoReschedule_ctx (c : Core) : c.chSchDoReschedule.pCtx = c.pCtx := by
  rw [chSchDoReschedule]
  split
  · exact c.chSchDoRescheduleBehind_ctx
  · exact runFirst_frame.1

theorem Core.chSchDoYieldS_ctx (c : Core) : c.chSchDoYieldS.pCtx = c.pCtx := by
  rw [chSchDoYieldS]
  split
  · exact c.chSchDoRescheduleBehind_ctx
  · rfl

/-! ## Mutexes -/

theorem SameCtx.boostLoop (prio : Nat) : ∀ (n : Nat) (t : Tid) (s : Sys), SameCtx s.toCore (s.boostLoop prio n t).toCore
  | 0, t, s => .refl _
  | n + 1, t, s => by
    have boosted : SameCtx s.toCore (s.boosted t prio) :=
      ⟨(s.boosted_frame t prio).1, (s.boosted_frame t prio).2.2.2, (s.boosted_prio t prio).2⟩
    rw [boostLoop_succ]
    split
    · split
      · exact boosted.trans (boostLoop prio n _ (s.onCore (.boosted t prio)))
      · exact boosted
    · exact .refl _

theorem chMtxLockS_ctx (s : Sys) (mp : MtxId) : (s.chMtxLockS mp).pCtx = s.pCtx := by
  unfold Sys.chMtxLockS
  split
  · exact (chSchGoSleepS_ctx ..).trans (SameCtx.boostLoop ..).ctx
  · rfl

theorem chMtxUnlockS_ctx (s : Sys) : s.chMtxUnlockS.pCtx = s.pCtx := by
  unfold Sys.chMtxUnlockS Sys.unlockWith
  split
  · rfl
  · dsimp only
    split
    · split
      · rfl
      next removed =>
        exact (fifoRemove_ctx removed).ctx
    · rfl

/-! ## Every function -/

theorem Leaves.sameCtx (leaves : Leaves t c c') : SameCtx c c' := by
  cases leaves <;> exact ⟨rfl, rfl, rfl⟩

theorem Works.ctx (works : Works c c') :
    c'.currp = c.currp ∧ c'.nthd = c.nthd ∧ ∀ t, t ≠ c.currp → c'.pCtx t = c.pCtx t := by
  induction works with
  | start => exact ⟨rfl, rfl, fun _ _ => rfl⟩
  | own _ same others ih =>
    obtain ⟨currp, nthd, ctx⟩ := ih
    simp only [standing, Prod.mk.injEq] at same
    obtain ⟨-, -, -, -, currp', -, nthd'⟩ := same
    exact ⟨currp'.trans currp, nthd'.trans nthd, fun t other => (others.ctx t (currp ▸ other)).trans (ctx t other)⟩
  | takes _ leaves ih | readies _ leaves ih | answers _ _ leaves ih =>
    obtain ⟨ctx', currp', nthd'⟩ := leaves.sameCtx
    obtain ⟨currp, nthd, ctx⟩ := ih
    exact ⟨currp'.trans currp, nthd'.trans nthd, fun t other => (congrFun ctx' t).trans (ctx t other)⟩
  | setPrio _ _ ih => exact ih

theorem Course.ctx (course : Course who c c') (t : Tid) (other : t ≠ c.currp) (lt : t < c.nthd) :
    c'.pCtx t = c.pCtx t := by
  have prepared : ∀ {c₁ c₂}, Works c c₁ → GoesOn c₁ c₂ → c₂.pCtx t = c.pCtx t := fun works same => by
    obtain ⟨currp, -, ctx⟩ := works.ctx
    exact (same.ctx t (currp ▸ other)).trans (ctx t other)
  have still : ∀ {c₁ c₂ : Core}, Works c c₁ → c₂.pCtx = c₁.pCtx → c₂.pCtx t = c.pCtx t := fun works same =>
    (congrFun same t).trans (works.ctx.2.2 t other)
  cases course with
  | stays works same => exact prepared works same
  | sleeps st works same => exact (congrFun (chSchGoSleepS_ctx _ st) t).trans (prepared works same)
  | reschedules works => exact still works (chSchRescheduleS_ctx _)
  | yields works => exact still works (chSchDoYieldS_ctx _)
  | wakes m works leaves => exact still works ((chSchWakeupS_frame _ m).1.trans leaves.sameCtx.ctx)
  | creates prio mode works threads =>
    refine (congrFun (chSchWakeupS_frame _ _).1 t).trans ((update_of_ne ?_ ..).trans (works.ctx.2.2 t other))
    rw [threads]
    exact lt.ne
  | locks mp works => exact still works (chMtxLockS_ctx _ mp)

theorem ICall.body_ctx (f : ICall) (allowed : f.allowed s = true) : OwnCtx s (f.body s) := by
  by_cases create : ∃ prio, f = .thdCreateI prio
  · obtain ⟨prio, rfl⟩ := create
    exact fun t _ lt => update_of_ne lt.ne ..
  · exact fun t other _ => (f.body_works allowed (fun prio is => create ⟨prio, is⟩)).ctx.2.2 t other

theorem SCall.body_ctx (f : SCall) (sound : Sound s) (allowed : f.allowed s = true) : OwnCtx s (f.body s) := by
  by_cases unlock : f = .mtxUnlockS
  · subst unlock
    exact .of_eq (chMtxUnlockS_ctx s)
  · exact (f.body_course sound allowed unlock).ctx

theorem wakeup_ctx (s : Sys) (tp : Tid) : (s.wakeup tp).pCtx = s.pCtx := by
  unfold Sys.wakeup
  split <;> first | rfl | (split <;> rfl)

/-- A step goes on in the running thread's context only. -/
theorem next_ctx {exact : Prop} {l : Label} (ok : KernelOk exact s) (taken : next l s = some s') : OwnCtx s s' := by
  cases l with
  | call f =>
    obtain ⟨outside, -, allowed, rfl⟩ := next_call taken
    exact (f.body_course ok.sound (ok.due.of_unlocked outside.thread outside.unlocked) allowed).ctx
  | scall f =>
    obtain ⟨-, -, allowed, rfl⟩ := next_scall taken
    exact f.body_ctx ok.sound allowed
  | icall f =>
    obtain ⟨-, allowed, rfl⟩ := next_icall taken
    exact f.body_ctx allowed
  | sysLock | sysUnlock =>
    obtain ⟨-, ⟨⟩⟩ := Option.ite_none_right_eq_some.1 taken
    exact .of_eq rfl
  | reschedule =>
    obtain ⟨-, ⟨⟩⟩ := Option.ite_none_right_eq_some.1 taken
    exact .of_eq (chSchRescheduleS_ctx _)
  | run =>
    obtain ⟨f, fs, -, -, -, rfl⟩ := next_run taken
    have popped : Works s.toCore s.pop.toCore :=
      .own .start rfl ⟨fun _ _ => rfl, fun _ other => update_of_ne other ..⟩
    exact (f.run_course popped ok.sound.pop rfl rfl id).ctx
  | notifyReturn =>
    obtain ⟨qp, fs, -, -, -, rfl⟩ := next_notifyReturn taken
    exact .update _ rfl
  | isrEnter =>
    simp only [next, Option.ite_none_left_eq_some, Option.some.injEq] at taken
    exact taken.2 ▸ .of_eq rfl
  | isrExit =>
    rcases next_isrExit taken with ⟨-, rfl⟩ | ⟨isr, -, -, rfl⟩
    · simp only [Sys.onCore, irqEpilogue]
      split
      · exact .update _ (chSchDoReschedule_ctx _)
      · exact .of_eq rfl
    · exact .of_eq rfl
  | tick =>
    simp only [next, Option.ite_none_right_eq_some] at taken
    obtain ⟨-, taken⟩ := taken
    obtain ⟨c, ticked, rfl⟩ := Option.map_eq_some_iff.1 taken
    obtain ⟨⟨vt, r⟩, -, rfl⟩ := Option.map_eq_some_iff.1 ticked
    cases r <;> exact .of_eq rfl
  | callback =>
    obtain ⟨isr, ⟨tp, -, rfl⟩ | ⟨n, -, rfl⟩⟩ := next_callback taken
    · exact .of_eq (wakeup_ctx s tp)
    · exact .of_eq rfl
  | tickLoop =>
    obtain ⟨isr, ⟨vt, r⟩, -, -, rfl⟩ := next_tickLoop taken
    cases r <;> exact .of_eq rfl

end ChibiOS.Kernel
