import ChibiOS.Kernel.CondWaits

/-!
# Condition variables in every run

The queue of a condition variable is in order of priority, and among equals in the
order in which they came to that priority: who joins goes behind, and so does who is
boosted while it waits. A signal wakes the first, a broadcast wakes all, once each; a
thread leaves the queue in no other way, but by its own timer.
-/

namespace ChibiOS.Kernel

open Function (update update_self update_of_ne)
open Lib Kernel.Core

/-! ## What a step does to a queue -/

/-- Threads leave the queue, or one comes to its place: it joins, or its priority
changes. -/
inductive CondMove (cp : CondId) (s s' : Sys) : Prop
  | leaves : (s'.queue (.cQueue cp)).Sublist (s.queue (.cQueue cp)) →
      (∀ t ∈ s'.queue (.cQueue cp), s'.pPrio t = s.pPrio t) → CondMove cp s s'
  | comes (x : Tid) : x ∉ s.queue (.cQueue cp) ∨ s'.pPrio x ≠ s.pPrio x →
      s'.queue (.cQueue cp) = insertBehind s'.pPrio x ((s.queue (.cQueue cp)).erase x) →
      (∀ t ∈ s.queue (.cQueue cp), t ≠ x → s'.pPrio t = s.pPrio t) → CondMove cp s s'

/-- The waiters and their priorities are the same. -/
structure SameWaiters (cp : CondId) (c c' : Core) : Prop where
  queue : c'.queue (.cQueue cp) = c.queue (.cQueue cp)
  prio : ∀ t ∈ c.queue (.cQueue cp), c'.pPrio t = c.pPrio t

/-- Who is on the queue of a condition variable waits for it. -/
def CondQueues (c : Core) : Prop := ∀ cp t, t ∈ c.queue (.cQueue cp) ↔ c.pState t = .wtcond ∧ c.pU t = .wtobjp (.cQueue cp)

variable {φ : Foot} {c c' : Core} {s s' s'' : Sys} {t : Tid} {mp : MtxId} {cp : CondId} {l : Label} {cp' : CondId}
  {cfg : Config} {steps : List (Sys × Label × Sys)}

theorem SchedOk.condQueues (sched : SchedOk c) : CondQueues c := fun _ _ => sched.mem_iff_obj rfl

theorem SameWaiters.refl (cp : CondId) (c : Core) : SameWaiters cp c c := ⟨rfl, fun _ _ => rfl⟩

theorem SameWaiters.condMove (same : SameWaiters cp s.toCore s'.toCore) : CondMove cp s s' :=
  .leaves (by rw [same.queue]) fun t mem => same.prio t (by rwa [← same.queue])

theorem CondMove.before (move : CondMove cp s' s'') (same : SameWaiters cp s.toCore s'.toCore) : CondMove cp s s'' := by
  cases move with
  | leaves sub prio =>
    rw [same.queue] at sub
    exact .leaves sub fun t mem => (prio t mem).trans (same.prio t (sub.subset mem))
  | comes x new queue prio =>
    rw [same.queue] at new queue prio
    by_cases mem : x ∈ s.queue (.cQueue cp)
    · exact .comes x (new.imp_right (same.prio x mem ▸ ·)) queue fun t mem other => (prio t mem other).trans (same.prio t mem)
    · exact .comes x (.inl mem) queue fun t mem other => (prio t mem other).trans (same.prio t mem)

theorem CondMove.after (move : CondMove cp s s') (queue : s''.queue (.cQueue cp) = s'.queue (.cQueue cp))
    (prio : s''.pPrio = s'.pPrio) : CondMove cp s s'' := by
  cases move with
  | leaves sub same => exact .leaves (by rwa [queue]) (by rwa [queue, prio])
  | comes x new is same => exact .comes x (by rwa [prio]) (by rwa [queue, prio]) (by rwa [prio])

/-! ### Boosting -/

/-- A round of the boosting loop for a thread that waits for no condition variable. -/
theorem SameWaiters.boosted (queues : CondQueues c) (notCond : c.pState t ≠ .wtcond) (prio : Nat) :
    SameWaiters cp c (c.boosted t prio) := by
  have off : ∀ cp, t ∉ c.queue (.cQueue cp) := fun cp mem => notCond ((queues cp t).1 mem).1
  refine ⟨?_, fun x mem => ?_⟩
  · rw [Core.boosted]
    split
    · simp [prioInsert, setQueue, dequeue, List.erase_of_not_mem (off cp)]
    next is _ =>
      exact absurd is notCond
    · simp [chSchReadyI, dequeue, List.erase_of_not_mem (off cp)]
    · rfl
  · rw [(boosted_prio t prio).1]
    exact update_of_ne (ne_of_mem_of_not_mem mem (off cp)) ..

theorem CondQueues.boosted (queues : CondQueues c) (notCond : c.pState t ≠ .wtcond) (prio : Nat) :
    CondQueues (c.boosted t prio) := fun cp x => by
  rw [(SameWaiters.boosted queues notCond prio).queue, (boosted_wait t prio).1, (boosted_wait t prio).2.1]
  exact queues cp x

/-- The round for one that does: it goes behind its new equals. -/
theorem CondMove.boosted (queues : CondQueues s.toCore) (isCond : s.pState t = .wtcond) {prio : Nat} (less : s.pPrio t < prio) :
    CondMove cp s (s.onCore (.boosted t prio)) := by
  have prios : (s.boosted t prio).pPrio = update s.pPrio t prio := (boosted_prio t prio).1
  by_cases mem : t ∈ s.queue (.cQueue cp)
  · have obj := ((queues cp t).1 mem).2
    have queue : (s.boosted t prio).queue (.cQueue cp) =
        insertBehind (update s.pPrio t prio) t ((s.queue (.cQueue cp)).erase t) := by
      simp only [Core.boosted, isCond, obj, Core.prioInsert, Core.setQueue, Core.dequeue, update_self]
    refine .comes t (.inr ?_) ?_ fun x _ other => ?_
    · rw [Sys.onCore_toCore, prios, update_self]
      exact less.ne'
    · rw [Sys.onCore_toCore, prios, queue]
    · rw [Sys.onCore_toCore, prios, update_of_ne other]
  · refine SameWaiters.condMove ⟨?_, fun x mem' => ?_⟩
    · rw [Sys.onCore_toCore, Core.boosted]
      split
      · simp [Core.prioInsert, Core.setQueue, Core.dequeue, List.erase_of_not_mem mem]
      next q _ obj =>
        have other : .cQueue cp ≠ q := by
          rintro rfl
          exact mem ((queues cp t).2 ⟨isCond, obj⟩)
        simp [Core.prioInsert, Core.setQueue, Core.dequeue, List.erase_of_not_mem mem, update_of_ne other]
      · simp [chSchReadyI, Core.dequeue, List.erase_of_not_mem mem]
      · rfl
    · rw [Sys.onCore_toCore, prios]
      exact update_of_ne (ne_of_mem_of_not_mem mem' mem) ..

theorem CondMove.boostLoop (prio : Nat) : ∀ (n : Nat) (x : Tid) (s : Sys), CondQueues s.toCore →
    CondMove cp s (s.boostLoop prio n x)
  | 0, _, s, _ => (SameWaiters.refl cp s.toCore).condMove
  | n + 1, x, s, queues => by
    rw [boostLoop_succ]
    split
    next less =>
      by_cases isCond : s.pState x = .wtcond
      · rw [show s.blocker x = none by simp only [Sys.blocker, isCond]]
        exact .boosted queues isCond less
      · have same : SameWaiters cp s.toCore (s.boosted x prio) := .boosted queues isCond prio
        split
        · exact (boostLoop prio n _ (s.onCore (.boosted x prio)) (queues.boosted isCond prio)).before same
        · exact SameWaiters.condMove same
    · exact (SameWaiters.refl cp s.toCore).condMove

theorem chMtxLockS_condMove (sched : SchedOk s.toCore) : CondMove cp s (s.chMtxLockS mp) := by
  unfold Sys.chMtxLockS
  split
  next tp _ =>
    refine (CondMove.boostLoop (s.pPrio s.currp) s.nthd tp s sched.condQueues).after ?_ ?_
    · rw [Sys.onCore_toCore, SameLists.goSleepS _ _ (.cQueue cp) nofun]
      simp [setU, prioInsert, setQueue]
    · exact runFirst_prio.1
  · exact SameWaiters.condMove (.refl cp s.toCore)

/-! ### Other functions -/

/-- Waiters of a condition variable keep their priorities in steps away from these. -/
theorem Move.waiter_prio (move : Move φ c c') (sched : SchedOk c) (off : φ.cnd = false) (is : c.pState t = .wtcond) :
    c'.pPrio t = c.pPrio t := by
  rcases move.prio_cases with ⟨same, -⟩ | ⟨-, ⟨-, -, p, created⟩ | ⟨-, x, p, changed, on | own⟩⟩
  · rw [same]
  · rw [created]
    refine update_of_ne ?_ ..
    rintro rfl
    cases ((sched.fresh _ le_rfl).1).symm.trans is
  · cases on.symm.trans off
  · rw [changed, own]
    refine update_of_ne ?_ ..
    rintro rfl
    cases sched.currp_state.symm.trans is

theorem Moves.waiter_prio (moves : Moves φ c c') (sched : SchedOk c) (off : φ.cnd = false) (is : c.pState t = .wtcond) :
    c'.pPrio t = c.pPrio t := by
  induction moves with
  | refl => rfl
  | tail before move ih =>
    have still := (state_iff before sched (show φ.state .wtcond = false from off) t).1.2 is
    exact (move.waiter_prio (schedOk sched before) off still).trans ih

theorem Effect.sameWaiters (effect : Effect φ s s') (sched : SchedOk s.toCore) (off : φ.cnd = false) :
    SameWaiters cp s.toCore s'.toCore :=
  ⟨effect.moves.queue_eq sched off, fun t mem =>
    effect.moves.waiter_prio sched off (sched.member _ t mem).2.1⟩

/-- The running thread joins a queue, whatever it leaves in its context. -/
theorem CondMove.joins (cp' : CondId) (sched : SchedOk s.toCore)
    (queue : ∀ cp, s'.queue (.cQueue cp) = (Sys.condInsert cp' s.toCore).queue (.cQueue cp)) (prio : s'.pPrio = s.pPrio) :
    CondMove cp s s' := by
  have notMem : s.currp ∉ s.queue (.cQueue cp) := sched.currp_not_mem _
  by_cases here : cp = cp'
  · subst here
    refine .comes s.currp (.inl notMem) ?_ fun t _ _ => by rw [prio]
    rw [queue, prio, List.erase_of_not_mem notMem]
    simp [Sys.condInsert, prioInsert, setQueue, setU]
  · refine SameWaiters.condMove ⟨?_, fun t _ => by rw [prio]⟩
    rw [queue]
    simp [Sys.condInsert, prioInsert, setQueue, setU, here]

theorem CondSleep.condMove {timed : Bool} {sleep : Core → Core} {f : MtxId → Frame} (sleeps : CondSleep timed sleep)
    (ok : CoreOk s.toCore) (zone : Zone { mtx := true } s.toCore) (mtx : MtxOk False s) :
    CondMove cp s (s.condWaitWith f sleep cp') := by
  unfold Sys.condWaitWith
  split
  · exact SameWaiters.condMove (.refl cp s.toCore)
  · obtain ⟨unlocked, -⟩ := chMtxUnlockS_effect rfl ok zone mtx
    refine CondMove.before ?_ (unlocked.toEffect.sameWaiters ok.sched rfl)
    exact .joins cp' (unlocked.coreOk ok).sched (fun cp => sleeps.lists _ (.cQueue cp) nofun) (sleeps.prio _)

/-- The timer of a wait. -/
theorem wakeup_condMove (tp : Tid) : CondMove cp s (s.wakeup tp) := by
  have unlinked : CondMove cp s (s.onCore fun c => (c.dequeue tp).readyTimeout tp) := by
    refine .leaves ?_ fun _ _ => rfl
    simpa [readyTimeout, readyMsg, setU, chSchReadyI, dequeue] using List.erase_sublist
  have same : CondMove cp s s := SameWaiters.condMove (.refl cp s.toCore)
  unfold Sys.wakeup
  split
  · exact same
  · split
    · exact unlinked.after rfl rfl
    · exact same
  · exact unlinked
  · exact unlinked
  · refine SameWaiters.condMove ⟨?_, fun _ _ => rfl⟩
    simp [readyTimeout, readyMsg, setU, chSchReadyI]

theorem Tells.condMove {n : Nat} {m : Msg} (tells : Tells cp' n m s s') : CondMove cp s s' := by
  refine .leaves ?_ fun t _ => by rw [tells.prio]
  rw [tells.lists (.cQueue cp) nofun]
  by_cases here : cp = cp'
  · rw [here, update_self]
    exact List.drop_sublist ..
  · rw [update_of_ne (by simpa using here)]

theorem SameSystem.sameWaiters (same : SameSystem s s') : SameWaiters cp s.toCore s'.toCore :=
  ⟨by rw [same.queue], fun _ _ => by rw [same.prio]⟩

/-! ### Every step -/

/-- What a step does to the queue of a condition variable. -/
theorem next_condMove (ok : KernelOk False s) (taken : next l s = some s') (cp : CondId) : CondMove cp s s' := by
  cases on : (l.foot s).cnd with
  | false => exact ((next_step ok nofun taken).1.sameWaiters ok.core.sched on).condMove
  | true =>
    cases next_condStep ok taken on with
    | lock s₀ mp begun is =>
      subst is
      exact (chMtxLockS_condMove begun.ok.sched).before begun.sameWaiters
    | wait cp' waits =>
      obtain ⟨s₀, f, sleep, timed, begun, zone, -, -, sleeps, -, rfl⟩ := waits
      exact (sleeps.condMove begun.ok zone begun.mtx).before begun.sameWaiters
    | tells cp' n m _ _ tells => exact tells.condMove
    | wakeup tp isr _ _ is =>
      subst is
      exact (wakeup_condMove tp).after rfl rfl
    | idle same => exact same.sameWaiters.condMove

/-- A thread leaves the queue when it is told to, or by its timer. -/
theorem next_stays (ok : KernelOk False s) (taken : next l s = some s') (mem : t ∈ s.queue (.cQueue cp)) :
    t ∈ s'.queue (.cQueue cp) ∨ l.signals cp ∨ l.broadcasts cp ∨
      l = .callback ∧ s.isr.head? = some (.tick (some (.wakeup t))) := by
  obtain ⟨effect, ok'⟩ := next_step ok nofun taken
  have sched := ok.core.sched
  obtain ⟨state, obj⟩ := (sched.condQueues cp t).1 mem
  cases on : (l.foot s).cnd with
  | false => exact .inl ((effect.sameWaiters sched on).queue ▸ mem)
  | true =>
    have other : t ≠ s.currp := ne_of_mem_of_not_mem mem (sched.currp_not_mem _)
    cases next_condWakes ok taken on other (by rw [state]; nofun) with
    | undisturbed same =>
      refine .inl ((ok'.core.sched.condQueues cp t).2 ⟨?_, same.u.trans obj⟩)
      rcases same.state with is | ⟨ready | running, -⟩
      · exact is.trans state
      · cases state.symm.trans ready
      · cases state.symm.trans running
    | told cp' m calls mem' =>
      obtain rfl : cp' = cp := by simpa using sched.unique _ _ t mem' mem
      rcases calls with signals | broadcasts
      · exact .inr (.inl signals)
      · exact .inr (.inr (.inl broadcasts))
    | timeout is pending => exact .inr (.inr (.inr ⟨is, pending⟩))

/-! ## The order of the waiters -/

/-- For how many steps of a run a thread has been on the queue with its present
priority. -/
def waitedFor (cp : CondId) (t : Tid) : List (Sys × Label × Sys) → Nat
  | [] => 0
  | (s, _, s') :: steps => if t ∈ s.queue (.cQueue cp) ∧ s.pPrio t = s'.pPrio t then waitedFor cp t steps + 1 else 0

theorem CondMove.ranked (move : CondMove cp s s') (nodup : (s.queue (.cQueue cp)).Nodup)
    (ranked : Ranked s.pPrio (waitedFor cp · steps) (s.queue (.cQueue cp))) :
    Ranked s'.pPrio (waitedFor cp · ((s, l, s') :: steps)) (s'.queue (.cQueue cp)) := by
  have older : ∀ t ∈ s.queue (.cQueue cp), s'.pPrio t = s.pPrio t →
      waitedFor cp t ((s, l, s') :: steps) = waitedFor cp t steps + 1 := fun t mem same => if_pos ⟨mem, same.symm⟩
  cases move with
  | leaves sub prio => exact ranked.sublist sub prio fun t mem => older t (sub.subset mem) (prio t mem)
  | comes x new queue prio =>
    have others : ∀ t ∈ (s.queue (.cQueue cp)).erase x, t ∈ s.queue (.cQueue cp) ∧ s'.pPrio t = s.pPrio t := fun t mem => by
      obtain ⟨other, mem⟩ := nodup.mem_erase_iff.1 mem
      exact ⟨mem, prio t mem other⟩
    rw [queue]
    refine Ranked.insertBehind (ranked.sublist List.erase_sublist (fun t mem => (others t mem).2) fun t mem =>
      older t (others t mem).1 (others t mem).2) (if_neg ?_) fun t mem => ?_
    · rintro ⟨mem, same⟩
      rcases new with notMem | changed
      · exact notMem mem
      · exact changed same.symm
    · rw [older t (others t mem).1 (others t mem).2]
      exact Nat.succ_pos _

/-- In every run the waiters are in order of priority, and among equals in the order in
which they came to that priority. -/
theorem waiters_ranked (trace : (kernelLts cfg).Trace steps s) (cp : CondId) :
    Ranked s.pPrio (waitedFor cp · steps) (s.queue (.cQueue cp)) := by
  induction trace with
  | init => exact .nil
  | step before taken ih =>
    have ok : KernelOk False _ := reach_kernelOk (fun _ _ _ => nofun) before.reach
    exact (next_condMove ok taken cp).ranked (ok.core.sched.nodup _) ih

/-! ## Every run -/

/-- What a condition variable gives its users, at the end `s` of a run. -/
structure CondVarsOk (steps : List (Sys × Label × Sys)) (s : Sys) : Prop where
  /-- A wait returns with the chain that the caller had, without its last mutex if it
  times out. -/
  returns : ∀ l cp s₁ s₂, l.waitsFor = some cp → next l s = some s₁ → Relation.ReflTransGen (InCall s.currp) s₁ s₂ →
    s₂.pCtx s.currp = [] → ∃ mp k msg, Chain s.toMutexes s.currp (mp :: k) ∧ s₂.pRet (some s.currp) = .msg msg ∧
      Chain s₂.toMutexes s.currp (if msg = rdyTimeout then k else mp :: k)
  /-- The caller gives up its last mutex and joins the queue in one step, -/
  joins : ∀ l cp s₁, l.waitsFor = some cp → next l s = some s₁ → s.currp ∈ s₁.queue (.cQueue cp) ∧
    ∃ mp, s.pMtxlist s.currp = some mp ∧ s.mOwner mp = some s.currp ∧ s₁.mOwner mp ≠ some s.currp
  /-- and is on it until it is told, or its timer expires. -/
  stays : ∀ l cp t s₁, t ∈ s.queue (.cQueue cp) → next l s = some s₁ → t ∈ s₁.queue (.cQueue cp) ∨ l.signals cp ∨
    l.broadcasts cp ∨ l = .callback ∧ s.isr.head? = some (.tick (some (.wakeup t)))
  order : ∀ cp, Ranked s.pPrio (waitedFor cp · steps) (s.queue (.cQueue cp))
  signals : ∀ l cp s₁, l.signals cp → next l s = some s₁ →
    WakesAll (s.queue (.cQueue cp)).head?.toList rdyOk s.toCore s₁.toCore ∧
      s₁.queue (.cQueue cp) = (s.queue (.cQueue cp)).tail
  broadcasts : ∀ l cp s₁, l.broadcasts cp → next l s = some s₁ →
    WakesAll (s.queue (.cQueue cp)) rdyReset s.toCore s₁.toCore ∧ s₁.queue (.cQueue cp) = []

theorem condition_variables (trace : (kernelLts cfg).Trace steps s) : CondVarsOk steps s := by
  have ok : KernelOk False s := reach_kernelOk (fun _ _ _ => nofun) trace.reach
  refine ⟨fun l cp s₁ s₂ waits taken inside returned => cond_wait_returns ok waits taken inside returned,
    fun l cp s₁ waits taken => ?_, fun l cp t s₁ mem taken => next_stays ok taken mem, waiters_ranked trace,
    fun l cp s₁ signals taken => ?_, fun l cp s₁ broadcasts taken => ?_⟩
  · obtain ⟨mp, k, rest, -, chain, -, chain', mem⟩ := InWait.starts ok waits taken
    refine ⟨mem, mp, chain.seg.1, (chain.owned mp).1 (.head _), fun owns => ?_⟩
    have notMem : mp ∉ k := (List.nodup_cons.1 chain.nodup).1
    exact notMem ((chain'.owned mp).2 owns)
  · obtain ⟨wakes, lists, -, -⟩ := next_signals ok taken signals
    rw [lists (.cQueue cp) nofun, update_self, List.drop_one, ← List.take_one]
    exact ⟨wakes, rfl⟩
  · obtain ⟨wakes, lists, -, -⟩ := next_broadcasts ok taken broadcasts
    rw [lists (.cQueue cp) nofun, update_self, List.drop_length]
    rw [List.take_length] at wakes
    exact ⟨wakes, rfl⟩

/-- The main thread waits, and with it still a mutex; a thread of a higher priority
waits behind it; a third one boosts the main thread to the same priority. -/
def boostedWaiterRun : List Label :=
  [.call (.thdCreate 70 .static), .run, .sysLock, .scall .suspendS, .run,
    .call (.thdCreate 70 .static), .run, .sysLock, .scall .suspendS, .run,
    .call (.mtxLock 1), .run, .call (.mtxLock 0), .run, .call (.condWait 0), .run,
    .isrEnter, .icall (.thdResumeI 2), .isrExit, .sysUnlock, .call (.mtxLock 0), .run, .call (.condWait 0), .run,
    .isrEnter, .icall (.thdResumeI 3), .isrExit, .sysUnlock, .call (.mtxLock 1), .run, .isrEnter]

theorem condition_variables_boosted : ∃ s steps,
    (kernelLts smallConfig).trace boostedWaiterRun [] (chSysInit smallConfig) = some (steps, s) ∧
    s.queue (.cQueue 0) = [2, 0] ∧ s.pPrio 2 = 70 ∧ s.pPrio 0 = 70 ∧ s.pMtxlist 0 = some 1 ∧ CondVarsOk steps s := by
  have trace := @Lts.Trace.of_trace _ _ (kernelLts smallConfig) boostedWaiterRun _ _ _ _ .init rfl
  exact ⟨_, _, rfl, rfl, rfl, rfl, rfl, condition_variables trace⟩

/-- For how many steps of a run a thread has been on the queue, at whatever priority. -/
def queuedFor (cp : CondId) (t : Tid) : List (Sys × Label × Sys) → Nat
  | [] => 0
  | (s, _, _) :: steps => if t ∈ s.queue (.cQueue cp) then queuedFor cp t steps + 1 else 0

/-- Of two waiters with the same priority, the second to come is woken: the first was
boosted while it waited. -/
theorem condition_variables_overtaken : ∃ s steps s',
    (kernelLts smallConfig).Trace steps s ∧ s.queue (.cQueue 0) = [2, 0] ∧ s.pPrio 2 = s.pPrio 0 ∧
    queuedFor 0 2 steps < queuedFor 0 0 steps ∧ ¬ Ranked s.pPrio (queuedFor 0 · steps) (s.queue (.cQueue 0)) ∧
    next (.icall (.condSignalI 0)) s = some s' ∧ s'.pState 2 = .ready ∧ s'.pState 0 = .wtcond := by
  have trace := @Lts.Trace.of_trace _ _ (kernelLts smallConfig) boostedWaiterRun _ _ _ _ .init rfl
  refine ⟨_, _, _, trace, rfl, rfl, by decide, ?_, rfl, rfl, rfl⟩
  intro ranked
  rcases (List.pairwise_cons.1 ranked).1 0 (.head _) with lt | ⟨-, lt⟩
  · exact absurd lt (by decide)
  · exact absurd lt (by decide)

end ChibiOS.Kernel
