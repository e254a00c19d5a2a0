import ChibiOS.Kernel.Wakes
import ChibiOS.Kernel.Scheduling

/-!
# Mutexes and priorities in every run

Ownership is the same in `m_owner`, in the chains and in the queues of waiters. A
thread's priority is the highest of its own and of those of the threads that wait
for its mutexes, as long as no thread changes its own priority: also along chains
of blocked owners, and when these close to a cycle.

`chThdSetPriority` takes a thread whose priority equals its own for one that has no
boost in force, and `chMtxLockS` raises the owners along the chain of threads that wait
for each other.
-/

namespace ChibiOS.Kernel

open Function
open Lib

variable {cfg : Config} {s s' : Sys} {t : Tid} {newprio : Nat}

/-- What is recorded about owners and waiters agrees. -/
structure OwnershipOk (s : Sys) : Prop where
  chain : ∀ t, ∃ l, Chain s.toMutexes t l ∧ l.Nodup
  owned : ∀ m, s.queue (.mQueue m) ≠ [] → ∃ t, s.mOwner m = some t
  waiting : ∀ m t, t ∈ s.queue (.mQueue m) ↔ s.pState t = .wtmtx ∧ s.pU t = .wtobjp (.mQueue m)
  nodup : ∀ m, (s.queue (.mQueue m)).Nodup
  sorted : ∀ m, (s.queue (.mQueue m)).Pairwise fun a b => s.pPrio b ≤ s.pPrio a

/-- The chain of a thread has its mutexes once each, the last acquired first; the
queue of a mutex has the threads that wait for it, the highest first. -/
theorem mutex_ownership (reached : (kernelLts cfg).Reach (fun _ _ => True) s) : OwnershipOk s := by
  have ok : KernelOk False s := reach_kernelOk (fun _ _ _ => nofun) reached
  have sched := ok.core.sched
  refine ⟨fun t => ?_, ok.mtx.owned, fun m t => sched.mem_iff_obj rfl, fun m => sched.nodup _, fun m => sched.sorted _ rfl⟩
  obtain ⟨l, chain⟩ := ok.mtx.chains.chain t
  exact ⟨l, chain, chain.nodup⟩

/-- A thread above the main one waits for its mutex, and then gets it. -/
theorem mutex_ownership_handed : ∃ s,
    (kernelLts smallConfig).run [.call (.mtxLock 0), .run, .call (.thdCreate 70 .static), .run, .call (.mtxLock 1), .run,
      .call (.mtxLock 0), .run, .call .mtxUnlock] (chSysInit smallConfig) = some s ∧
    s.mOwner 0 = some 2 ∧ s.pMtxlist 2 = some 0 ∧ s.mNext 0 = some 1 ∧ OwnershipOk s :=
  Lts.exists_run (by rfl) rfl fun reached => ⟨rfl, rfl, rfl, mutex_ownership reached⟩

/-- The threads queued on mutexes that `t` owns. -/
def Sys.waitersOf (s : Sys) (t : Tid) : Set Tid := {w | ∃ m, s.mOwner m = some t ∧ w ∈ s.queue (.mQueue m)}

/-- The priority is the highest of the thread's own and of its waiters'. -/
def Sys.Inherits (s : Sys) (t : Tid) : Prop := IsGreatest (insert (s.pRealprio t) (s.pPrio '' s.waitersOf t)) (s.pPrio t)

theorem KernelOk.inherits (ok : KernelOk True s) (t : Tid) : s.Inherits t :=
  (ok.mtx.justified t nofun).isGreatest (ok.mtx.real t).2 (ok.mtx.honoured trivial)

/-- No thread sets its priority in the step. -/
def Label.steady : Label → Bool
  | call (.thdSetPriority _) => false
  | _ => true

/-- A thread's priority is the highest of its own and of its waiters'. -/
theorem priority_inheritance (reached : (kernelLts cfg).Reach (fun _ l => ∀ p, l ≠ .call (.thdSetPriority p)) s) (t : Tid) :
    IsGreatest (insert (s.pRealprio t) (s.pPrio '' {w | ∃ m, s.mOwner m = some t ∧ w ∈ s.queue (.mQueue m)})) (s.pPrio t) := by
  have ok : KernelOk True s := reach_kernelOk (fun _ _ permitted _ => permitted) reached
  exact ok.inherits t

/-- The main thread and one above it wait for each other's mutexes. -/
theorem priority_inheritance_deadlock : ∃ s,
    (kernelLts smallConfig).run [.call (.mtxLock 0), .run, .call (.thdCreate 70 .static), .run, .call (.mtxLock 1), .run,
      .call (.mtxLock 0), .run, .call (.mtxLock 1)] (chSysInit smallConfig) = some s ∧
    s.pRealprio 0 = 64 ∧ s.pPrio 0 = 70 ∧ s.currp = idleThread ∧
    IsGreatest (insert (s.pRealprio 0) (s.pPrio '' {w | ∃ m, s.mOwner m = some 0 ∧ w ∈ s.queue (.mQueue m)})) (s.pPrio 0) := by
  refine @Lts.exists_run _ _ _ (fun _ l => l.steady) _ _ _ _ rfl rfl fun reached =>
    ⟨rfl, rfl, rfl, priority_inheritance (reached.mono fun _ l steady p is => ?_) 0⟩
  subst is
  cases steady

/-! ## `chThdSetPriority` -/

/-- A boost is taken to be in force, and the new priority does not reach it. -/
def Sys.keepsBoost (newprio : Nat) (s : Sys) : Prop :=
  ¬ (s.pPrio s.currp = s.pRealprio s.currp ∨ s.pPrio s.currp < newprio)

theorem Core.chSchRescheduleS_prio (c : Core) : c.chSchRescheduleS.pPrio = c.pPrio := by
  rw [Core.chSchRescheduleS]
  split
  · exact Core.runFirst_prio.1
  · rfl

/-- What the function leaves behind of what priorities depend on. -/
structure SetsPrio (newprio : Nat) (s s' : Sys) : Prop where
  real : s'.pRealprio s.currp = newprio
  keeps : s.keepsBoost newprio → s'.pPrio s.currp = s.pPrio s.currp
  sets : ¬ s.keepsBoost newprio → s'.pPrio s.currp = newprio
  others : ∀ w, w ≠ s.currp → s'.pPrio w = s.pPrio w
  waiters : s'.waitersOf s.currp = s.waitersOf s.currp

theorem chThdSetPriority_sets (newprio : Nat) (s : Sys) : SetsPrio newprio s (s.chThdSetPriority newprio) := by
  have prio : (s.chThdSetPriority newprio).pPrio =
      if s.pPrio s.currp = s.pRealprio s.currp ∨ s.pPrio s.currp < newprio then update s.pPrio s.currp newprio else s.pPrio := by
    refine (Core.chSchRescheduleS_prio _).trans ?_
    change Threads.pPrio (Core.toThreads (Sys.toCore (ite (s.pPrio s.currp = s.pRealprio s.currp ∨ s.pPrio s.currp < newprio) _ _))) = _
    split <;> rfl
  have queue : ∀ m, (s.chThdSetPriority newprio).queue (.mQueue m) = s.queue (.mQueue m) := fun m => by
    refine (SameLists.rescheduleS _ (.mQueue m) nofun).trans ?_
    split <;> rfl
  have owner : (s.chThdSetPriority newprio).mOwner = s.mOwner := by
    change Mutexes.mOwner (Sys.toMutexes (ite _ _ _)) = _
    split <;> rfl
  refine ⟨?_, fun keeps => ?_, fun sets => ?_, fun w other => ?_, ?_⟩
  · exact update_self ..
  · rw [prio, if_neg keeps]
  · rw [prio, if_pos (not_not.1 sets), update_self]
  · rw [prio]
    split
    · exact update_of_ne other ..
    · rfl
  · simp only [Sys.waitersOf, owner, queue]

theorem SetsPrio.prios (sets : SetsPrio newprio s s') (running : ∀ m, s.currp ∉ s.queue (.mQueue m)) :
    s'.pPrio '' s'.waitersOf s.currp = s.pPrio '' s.waitersOf s.currp := by
  rw [sets.waiters]
  refine Set.image_congr fun w ⟨m, _, mem⟩ => sets.others w ?_
  rintro rfl
  exact running m mem

/-- A thread that sets its priority inherits as before, unless it takes a boost that does not
raise it for none and goes below a waiter. -/
theorem set_priority (newprio : Nat) (running : ∀ m, s.currp ∉ s.queue (.mQueue m)) (inherits : s.Inherits s.currp) :
    (s.chThdSetPriority newprio).pRealprio s.currp = newprio ∧
      ((s.chThdSetPriority newprio).Inherits s.currp ↔
        (s.pPrio s.currp ≠ s.pRealprio s.currp ∨ ∀ w ∈ s.waitersOf s.currp, s.pPrio w ≤ newprio)) := by
  have sets := chThdSetPriority_sets newprio s
  refine ⟨sets.real, ?_⟩
  rw [Sys.Inherits, sets.real, sets.prios running]
  by_cases keeps : s.keepsBoost newprio
  · obtain ⟨boosted, reached⟩ := not_or.1 keeps
    refine iff_of_true ?_ (.inl boosted)
    rw [sets.keeps keeps]
    refine ⟨.inr ?_, ?_⟩
    · exact inherits.1.resolve_left boosted
    · rintro q (rfl | waiter)
      · exact not_lt.1 reached
      · exact inherits.2 (.inr waiter)
  · rw [sets.sets keeps]
    have greatest : IsGreatest (insert newprio (s.pPrio '' s.waitersOf s.currp)) newprio ↔ ∀ w ∈ s.waitersOf s.currp, s.pPrio w ≤ newprio := by
      refine ⟨fun is w mem => is.2 (.inr ⟨w, mem, rfl⟩), fun le => ⟨.inl rfl, ?_⟩⟩
      rintro q (rfl | ⟨w, mem, rfl⟩)
      · exact le_rfl
      · exact le w mem
    rw [greatest]
    refine ⟨.inr, ?_⟩
    rintro (boosted | le)
    · -- the new priority is above the boost
      have above : s.pPrio s.currp < newprio := (not_not.1 keeps).resolve_left boosted
      exact fun w mem => (inherits.2 (.inr ⟨w, mem, rfl⟩)).trans above.le
    · exact le

/-- As long as no thread has set its priority, all inherit. -/
theorem steady_inherits {cfg : Config} (reached : (kernelLts cfg).Reach (fun _ l => l.steady = true) s) (t : Tid) :
    s.Inherits t := by
  have ok : KernelOk True s := reach_kernelOk (fun _ l steady _ p is => by rw [is] at steady; cases steady) reached
  exact ok.inherits t

/-- The main thread, boosted by thread 2, goes down to 10 and keeps the boost. -/
theorem set_priority_boosted : ∃ s, (kernelLts smallConfig).run [.call (.mtxLock 0), .run, .call (.thdCreate 70 .static), .run,
      .call (.mtxLock 0), .run] (chSysInit smallConfig) = some s ∧
    s.pPrio s.currp = 70 ∧ (s.chThdSetPriority 10).pRealprio s.currp = 10 ∧ (s.chThdSetPriority 10).pPrio s.currp = 70 ∧
    (s.chThdSetPriority 10).Inherits s.currp := by
  refine @Lts.exists_run _ _ _ (fun _ l => l.steady) _ _ _ _ rfl rfl fun reached => ?_
  have running := fun m => (reach_kernelOk (fun _ _ _ => nofun) reached : KernelOk False _).core.sched.currp_not_mem (.mQueue m)
  obtain ⟨real, inherits⟩ := set_priority 10 running (steady_inherits reached _)
  exact ⟨rfl, real, rfl, inherits.2 (.inl (by decide))⟩

/-- The main thread has a waiter of its own priority, and goes below it. -/
theorem set_priority_lost : ∃ s, (kernelLts smallConfig).run [.call (.mtxLock 0), .run, .call (.thdCreate 64 .static), .run,
      .call .thdYield, .run, .call (.mtxLock 0), .run] (chSysInit smallConfig) = some s ∧
    (∀ t, s.Inherits t) ∧ s.currp = 0 ∧ s.mOwner 0 = some 0 ∧ s.queue (.mQueue 0) = [2] ∧ s.pPrio 2 = 64 ∧
    (s.chThdSetPriority 10).pPrio 0 = 10 ∧ (s.chThdSetPriority 10).pPrio 2 = 64 ∧ ¬ (s.chThdSetPriority 10).Inherits 0 := by
  refine @Lts.exists_run _ _ _ (fun _ l => l.steady) _ _ _ _ rfl rfl fun reached =>
    ⟨steady_inherits reached, rfl, rfl, rfl, rfl, rfl, rfl, fun inherits => ?_⟩
  have le := inherits.2 (.inr ⟨2, ⟨0, rfl, by decide⟩, rfl⟩)
  exact absurd le (by decide)

/-! ## Boosting -/

/-- What the boosting loop leaves of a state when it raises the threads `os` to `prio`. -/
structure Boosted (prio : Nat) (os : List Tid) (s s' : Sys) : Prop where
  prios : ∀ t, s'.pPrio t = if t ∈ os then prio else s.pPrio t
  queues : ∀ q, (s'.queue q).Perm (s.queue q)
  sorted : ∀ q, q.byPrio = true → Descending s'.pPrio (s'.queue q)

/-- The loop raises the threads of the chain, in as many rounds. -/
theorem boostLoop_chain {prio : Nat} {f : Tid → Nat} {next : Tid → Option Tid} {os : List Tid} {tp : Tid}
    (chain : RaiseChain next prio f tp os) :
    ∀ (s : Sys), f = s.pPrio → next = s.blocker → SchedOk s.toCore → (∀ t ∈ os, t < s.nthd ∧ t ≠ s.currp) → 1 ≤ prio →
      prio ≤ highPrio → ∃ s', (∀ fuel, os.length ≤ fuel → s.boostLoop prio fuel tp = s') ∧ Boosted prio os s s' := by
  induction chain with
  | stop f tp le =>
    rintro s rfl - sched - - -
    refine ⟨s, fun fuel _ => ?_, fun t => rfl, fun q => .refl _, sched.sorted⟩
    cases fuel with
    | zero => rfl
    | succ fuel => rw [boostLoop_succ, if_neg (not_lt.2 le)]
  | last f tp lt free =>
    rintro s rfl rfl sched bound pos high
    obtain ⟨ltT, other⟩ := bound tp (.head _)
    obtain ⟨prios, -⟩ := s.toCore.boosted_prio tp prio
    refine ⟨s.onCore (.boosted tp prio), fun fuel enough => ?_, fun t => ?_, sched.boosted_perm ltT prio, ?_⟩
    · obtain ⟨fuel, rfl⟩ := Nat.exists_eq_add_of_le' enough
      rw [List.length_singleton, boostLoop_succ, if_pos lt, show s.blocker tp = none from free]
    · rw [Sys.onCore_toCore, prios, update_apply]
      simp
    · exact (sched.boost ltT other pos high).sorted
  | step f tp owner os lt waits rest ih =>
    rintro s rfl rfl sched bound pos high
    obtain ⟨⟨ltT, other⟩, boundRest⟩ := List.forall_mem_cons.1 bound
    obtain ⟨prios, nthd⟩ := s.toCore.boosted_prio tp prio
    obtain ⟨-, -, -, currp⟩ := s.toCore.boosted_frame tp prio
    obtain ⟨state, u, -, -⟩ := s.toCore.boosted_wait tp prio
    have blocker : s.blocker = (s.onCore (.boosted tp prio)).blocker := funext fun t => by
      simp only [Sys.blocker, Sys.onCore_toCore, state, u]
      rfl
    obtain ⟨s', ends, after⟩ := ih (s.onCore (.boosted tp prio)) prios.symm blocker (sched.boost ltT other pos high)
      (fun t mem => by rw [Sys.onCore_toCore, nthd, currp]; exact boundRest t mem) pos high
    refine ⟨s', fun fuel enough => ?_, fun t => ?_, fun q => (after.queues q).trans (sched.boosted_perm ltT prio q), after.sorted⟩
    · obtain ⟨fuel, rfl⟩ := Nat.exists_eq_add_of_le' enough
      rw [List.length_cons, ← add_assoc, boostLoop_succ, if_pos lt, show s.blocker tp = some owner from waits]
      exact ends _ (Nat.le_add_left ..)
    · rw [after.prios, Sys.onCore_toCore, prios, update_apply]
      by_cases same : t = tp
      · simp [same]
      · simp [same]

/-- The boosting loop of `chMtxLockS` ends whatever threads wait for each other. -/
theorem boosting_terminates {cfg : Config} {tp : Tid} (mp : MtxId) (reached : (kernelLts cfg).Reach (fun _ _ => True) s)
    (isOwner : s.mOwner mp = some tp) :
    ∃ os, RaiseChain s.blocker (s.pPrio s.currp) s.pPrio tp os ∧
      (∀ fuel, os.length ≤ fuel → s.boostLoop (s.pPrio s.currp) fuel tp = s.boostLoop (s.pPrio s.currp) s.nthd tp) ∧
      Boosted (s.pPrio s.currp) os s (s.boostLoop (s.pPrio s.currp) s.nthd tp) := by
  have ok : KernelOk False s := reach_kernelOk (fun _ _ _ => nofun) reached
  have sched := ok.core.sched
  have bound : ∀ t x, s.blocker t = some x → x < s.nthd := fun t x is => by
    obtain ⟨m, owns, _⟩ := (waits_iff_blocker sched t).2 is
    exact (ok.mtx.chains.bound m x owns).2.1
  obtain ⟨os, chain, sub⟩ := RaiseChain.exists_of_finite s.blocker (s.pPrio s.currp) (Finset.range s.nthd)
    (fun t _ u is => Finset.mem_range.2 (bound t u is)) _ s.pPrio tp (Finset.mem_range.2 (ok.mtx.chains.bound mp tp isOwner).2.1) le_rfl
  have threads : ∀ t ∈ os, t < s.nthd := fun t mem => Finset.mem_range.1 (sub t mem)
  -- no thread is raised twice, so there are no more rounds than threads
  have few : os.length ≤ s.nthd := by
    have := (List.subperm_of_subset chain.nodup fun t mem => List.mem_range.2 (threads t mem)).length_le
    rwa [List.length_range] at this
  obtain ⟨pos, high⟩ := sched.prio _ sched.currp_lt
  obtain ⟨s', ends, boosted⟩ := boostLoop_chain chain s rfl rfl sched
    (fun t mem => ⟨threads t mem, fun same => lt_irrefl _ (same ▸ chain.lower t mem)⟩) pos high
  refine ⟨os, chain, fun fuel enough => (ends fuel enough).trans (ends _ few).symm, ?_⟩
  rwa [ends _ few]

/-- The main thread and thread 3 wait for each other's mutexes, and thread 2, above both, is
about to lock the one of the main thread. -/
def cycleRun : List Label :=
  [.call (.thdCreate 100 .static), .run, .sysLock, .scall .suspendS, .run, .call (.mtxLock 0), .run,
    .call (.thdCreate 70 .static), .run, .call (.mtxLock 1), .run, .call (.mtxLock 0), .run, .call (.mtxLock 1), .run, .isrEnter,
    .icall (.thdResumeI 2), .isrExit, .sysUnlock]

theorem boosting_terminates_cycle : ∃ s os, (kernelLts smallConfig).run cycleRun (chSysInit smallConfig) = some s ∧
    s.currp = 2 ∧ s.blocker 0 = some 3 ∧ s.blocker 3 = some 0 ∧ RaiseChain s.blocker (s.pPrio s.currp) s.pPrio 0 os ∧
    Boosted (s.pPrio s.currp) os s (s.boostLoop (s.pPrio s.currp) s.nthd 0) ∧ 0 ∈ os ∧ 3 ∈ os := by
  refine @Lts.exists_run₂ _ _ _ (fun _ _ => True) _ _ _ _ _ rfl rfl fun reached => ?_
  obtain ⟨os, chain, -, boosted⟩ := boosting_terminates 0 reached rfl
  refine ⟨os, rfl, rfl, rfl, chain, boosted, ?_, ?_⟩
  · by_contra off
    exact absurd ((boosted.prios 0).trans (if_neg off)) (by decide)
  · by_contra off
    exact absurd ((boosted.prios 3).trans (if_neg off)) (by decide)

end ChibiOS.Kernel
