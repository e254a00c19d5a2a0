import ChibiOS.Kernel.Scheduling

/-!
# Semaphores keep account

`Sys.sem` reads a counting semaphore of the library off the kernel's state: the
waits in its queue are those of the threads in `s_queue`. Every step of the kernel
is, for every semaphore, some steps of that semaphore; so what the library says of
counters, tokens and the order of waits holds of the kernel.
-/

namespace ChibiOS.Kernel

open Function
open Lib Kernel.Core Sys

/-- The semaphore `sp`. -/
def Sys.sem (sp : SemId) (s : Sys) : Sem :=
  ⟨s.sCnt sp, (s.queue (.sQueue sp)).map s.semTicket, s.semWaits sp, s.semLog sp⟩

/-- The count that a semaphore is initialised with. -/
def Config.semStart (cfg : Config) : SemId → Nat
  | .sem n => cfg.semInit n
  | .mbFullsem _ => 0
  | .mbEmptysem mb => cfg.mbSize mb

/-- Every semaphore is in order. -/
def SemsOk (init : SemId → Nat) (s : Sys) : Prop := ∀ sp, (s.sem sp).Ok (init sp)

/-- Every semaphore makes some steps. -/
def SemsStep (s s' : Sys) : Prop := ∀ sp, Sem.Steps (s.sem sp) (s'.sem sp)

variable {init : SemId → Nat} {s s' s'' : Sys} {sp : SemId} {mb : MbId} {cfg : Config}

/-! ## Steps of all semaphores -/

namespace SemsStep

theorem ok (steps : SemsStep s s') (sems : SemsOk init s) : SemsOk init s' := fun sp => (steps sp).ok (sems sp)

theorem trans (left : SemsStep s s') (right : SemsStep s' s'') : SemsStep s s'' :=
  fun sp => Relation.ReflTransGen.trans (left sp) (right sp)

/-- No semaphore is touched. -/
theorem same (sem : s'.toSemaphores = s.toSemaphores) (lists : ∀ sp, s'.queue (.sQueue sp) = s.queue (.sQueue sp)) :
    SemsStep s s' := by
  intro sp
  have eq : s'.sem sp = s.sem sp := by simp only [Sys.sem, sem, lists]
  rw [eq]
  exact .refl

theorem refl (s : Sys) : SemsStep s s := same rfl fun _ => rfl

/-- A function of the scheduler. -/
theorem onCore {f : Core → Core} (lists : SameLists s.toCore (f s.toCore)) : SemsStep s (s.onCore f) :=
  same rfl fun _ => lists _ nofun

/-- One semaphore makes a step. -/
theorem single (sp : SemId) {x : Sem} (step : (s.sem sp).Step x)
    (is : ∀ sp', s'.sem sp' = if sp' = sp then x else s.sem sp') : SemsStep s s' := by
  intro sp'
  rw [is]
  split
  next here => exact here ▸ .single step
  · exact .refl

end SemsStep

/-- Steps outside the semaphores. -/
theorem Effect.semsStep {φ : Foot} (effect : Effect φ s s') (off : φ.sem = false) (sched : SchedOk s.toCore) :
    SemsStep s s' :=
  .same (effect.objs.sem off) fun _ => effect.moves.queue_eq sched off

/-! ## Taking tokens -/

theorem chSemFastWaitI_sems (pos : 0 < s.sCnt sp) : SemsStep s (s.chSemFastWaitI sp) := by
  refine .single sp (.take pos) fun sp' => ?_
  by_cases other : sp' = sp <;> simp [sem, chSemFastWaitI, logSem, setCnt, other]

section

variable (sched : SchedOk s.toCore)
include sched

/-- The running thread is in no queue, so its new wait changes no other. -/
theorem SchedOk.map_ticket (sp : SemId) (k : Nat) :
    (s.queue (.sQueue sp)).map (update s.semTicket s.currp k) = (s.queue (.sQueue sp)).map s.semTicket := by
  refine List.map_congr_left fun t mem => update_of_ne ?_ ..
  rintro rfl
  exact sched.currp_not_mem _ mem

/-- The running thread's wait finds a token. -/
theorem SemsStep.take (pos : 0 < s.sCnt sp)
    (sem : s'.toSemaphores = (((s.setCnt sp (s.sCnt sp - 1)).startWait sp).grant sp s.currp).toSemaphores)
    (lists : SameLists s.toCore s'.toCore) : SemsStep s s' := by
  have queue : ∀ sp', s'.queue (.sQueue sp') = s.queue (.sQueue sp') := fun _ => lists _ nofun
  refine .single sp (.take pos) fun sp' => ?_
  by_cases other : sp' = sp <;> simp [Sys.sem, sem, queue, Sys.startWait, Sys.grant, Sys.logSem, Sys.setCnt, sched.map_ticket, other]

/-- The running thread's wait joins the queue. -/
theorem SemsStep.block (low : s.sCnt sp ≤ 0)
    (sem : s'.toSemaphores = ((s.setCnt sp (s.sCnt sp - 1)).startWait sp).toSemaphores)
    (lists : SameLists (Sys.semInsert sp s.toCore) s'.toCore) : SemsStep s s' := by
  have queue : ∀ sp', s'.queue (.sQueue sp') = (semInsert sp s.toCore).queue (.sQueue sp') := fun _ => lists _ nofun
  simp only [semInsert, queueInsert, setQueue, setU] at queue
  refine .single sp (.block low) fun sp' => ?_
  by_cases other : sp' = sp <;> simp [Sys.sem, sem, queue, Sys.startWait, Sys.logSem, Sys.setCnt, sched.map_ticket, other]

theorem chSemWaitS_sems : SemsStep s (s.chSemWaitS sp) := by
  have cnt : ((s.setCnt sp (s.sCnt sp - 1)).startWait sp).sCnt sp = s.sCnt sp - 1 := update_self ..
  unfold chSemWaitS
  dsimp only
  split
  next low =>
    exact .block sched (by omega) rfl (.goSleepS _ .wtsem)
  next high =>
    exact .take sched (by omega) rfl (.refl _)

theorem chSemWaitTimeoutS_sems (time : Systime) : SemsStep s (s.chSemWaitTimeoutS sp time) := by
  have cnt : (s.setCnt sp (s.sCnt sp - 1)).sCnt sp = s.sCnt sp - 1 := update_self ..
  unfold chSemWaitTimeoutS
  dsimp only
  split
  · rename_i low
    split
    · refine .same ?_ fun _ => rfl
      simp [Sys.ret, Sys.onCore, Sys.setCnt]
    · exact .block sched (by omega) rfl (.goSleepTimeoutS _ .wtsem time)
  · rename_i high
    exact .take sched (by omega) rfl (.refl _)

end

/-! ## Giving tokens -/

/-- The queue of a semaphore below zero has a first thread. -/
theorem SemsOk.first (sems : SemsOk init s) (low : s.sCnt sp < 0) : ∃ t l, s.queue (.sQueue sp) = t :: l := by
  obtain ⟨k, q, first⟩ := (sems sp).queue_eq_cons low
  obtain ⟨t, l, first, -⟩ := List.map_eq_cons_iff.1 first
  exact ⟨t, l, first⟩

/-- A signal that finds nobody. -/
theorem SemsStep.signal (high : 0 ≤ s.sCnt sp)
    (sem : s'.toSemaphores = ((s.setCnt sp (s.sCnt sp + 1)).logSem sp .signal).toSemaphores)
    (lists : SameLists s.toCore s'.toCore) : SemsStep s s' := by
  have queue : ∀ sp', s'.queue (.sQueue sp') = s.queue (.sQueue sp') := fun _ => lists _ nofun
  refine .single sp (.signal high) fun sp' => ?_
  by_cases other : sp' = sp <;> simp [Sys.sem, sem, queue, Sys.logSem, Sys.setCnt, other]

/-- A signal passes its token to the first thread. -/
theorem SemsStep.pass {t : Tid} {l : List Tid} (low : s.sCnt sp < 0) (first : s.queue (.sQueue sp) = t :: l)
    (sem : s'.toSemaphores = (((s.setCnt sp (s.sCnt sp + 1)).logSem sp .signal).grant sp t).toSemaphores)
    (lists : SameLists (s.toCore.setQueue (.sQueue sp) l) s'.toCore) : SemsStep s s' := by
  have queue : ∀ sp', s'.queue (.sQueue sp') = (s.toCore.setQueue (.sQueue sp) l).queue (.sQueue sp') :=
    fun _ => lists _ nofun
  simp only [setQueue] at queue
  refine .single sp (.pass (s.semTicket t) (l.map s.semTicket) low (by simp [Sys.sem, first])) fun sp' => ?_
  by_cases other : sp' = sp <;> simp [Sys.sem, sem, queue, Sys.grant, Sys.logSem, Sys.setCnt, other]

/-- The signal functions differ in how they wake the thread. -/
def Sys.signalBy (wake : Tid → Core → Core) (sp : SemId) (s : Sys) : Sys :=
  let s := (s.setCnt sp (s.sCnt sp + 1)).logSem sp .signal
  if s.sCnt sp ≤ 0 then
    match s.fifoRemove (.sQueue sp) with
    | none => s
    | some (tp, c) => ({ s with toCore := c }.grant sp tp).onCore (wake tp)
  else s

/-- The token goes to the first thread, or is kept. -/
theorem SemsOk.signalBy (sems : SemsOk init s) (wake : Tid → Core → Core) (sp : SemId) :
    (∃ t l, s.sCnt sp < 0 ∧ s.queue (.sQueue sp) = t :: l ∧ s.signalBy wake sp =
      ({ (s.setCnt sp (s.sCnt sp + 1)).logSem sp .signal with toCore := s.toCore.setQueue (.sQueue sp) l }.grant sp t).onCore
        (wake t)) ∨
    0 ≤ s.sCnt sp ∧ s.signalBy wake sp = (s.setCnt sp (s.sCnt sp + 1)).logSem sp .signal := by
  have cnt : ((s.setCnt sp (s.sCnt sp + 1)).logSem sp .signal).sCnt sp = s.sCnt sp + 1 := update_self ..
  rw [Sys.signalBy]
  split
  · have low : s.sCnt sp < 0 := by omega
    obtain ⟨t, l, first⟩ := sems.first low
    have removed : ((s.setCnt sp (s.sCnt sp + 1)).logSem sp .signal).fifoRemove (.sQueue sp) =
        some (t, s.toCore.setQueue (.sQueue sp) l) := by simp [fifoRemove, setCnt, Sys.logSem, first]
    rw [removed]
    exact .inl ⟨t, l, low, first, rfl⟩
  · exact .inr ⟨by omega, rfl⟩

theorem signal_sems {wake : Tid → Core → Core} (sems : SemsOk init s) (same : ∀ t c, SameLists c (wake t c)) :
    SemsStep s (s.signalBy wake sp) := by
  rcases sems.signalBy wake sp with ⟨t, l, low, first, is⟩ | ⟨kept, is⟩
  · exact is ▸ .pass low first rfl (same t _)
  · exact is ▸ .signal kept rfl (.refl _)

theorem chSemSignalI_sems (sems : SemsOk init s) : SemsStep s (s.chSemSignalI sp) :=
  signal_sems sems fun _ _ => .ready rfl

theorem chSemAddCounterI_sems : ∀ (n : Nat) {s : Sys}, SemsOk init s → SemsStep s (s.chSemAddCounterI sp n)
  | 0, s, _ => .refl s
  | n + 1, s, sems => by
    have first : SemsStep s (s.chSemSignalI sp) := chSemSignalI_sems sems
    exact first.trans (chSemAddCounterI_sems n (first.ok sems))

/-! ## Resets and timeouts -/

/-- The loop empties the queue, from its end. -/
theorem resetLoop_queue : ∀ (n : Nat) {c : Core}, (c.queue (.sQueue sp)).length = n →
    SameLists (c.setQueue (.sQueue sp) []) (Sys.resetLoop sp n c)
  | 0, c, length => by
    intro q other
    rw [← List.eq_nil_of_length_eq_zero length, setQueue, update_eq_self]
    rfl
  | n + 1, c, length => by
    have notNil : c.queue (.sQueue sp) ≠ [] := List.ne_nil_of_length_eq_add_one length
    have removed : c.lifoRemove (.sQueue sp) = some ((c.queue (.sQueue sp)).getLast notNil,
        c.setQueue (.sQueue sp) (c.queue (.sQueue sp)).dropLast) := by
      simp [lifoRemove, List.getLast?_eq_getLast_of_ne_nil notNil]
    rw [resetLoop, removed]
    refine SameLists.trans ?_ (resetLoop_queue n ?_)
    · intro q other
      by_cases here : q = .sQueue sp
      · subst here
        simp [setQueue]
      · simp [setQueue, readyMsg, chSchReadyI, setU, here, other]
    · simp [setQueue, readyMsg, chSchReadyI, setU, length]

theorem chSemResetI_sems (sems : SemsOk init s) (sp : SemId) (n : Nat) : SemsStep s (s.chSemResetI sp n) := by
  have length : (s.queue (.sQueue sp)).length = (-s.sCnt sp).toNat := by
    have := (sems sp).length
    rwa [Sys.sem, List.length_map] at this
  have queue : ∀ sp', (s.chSemResetI sp n).queue (.sQueue sp') = (s.toCore.setQueue (.sQueue sp) []).queue (.sQueue sp') :=
    fun _ => resetLoop_queue _ length _ nofun
  have sem : (s.chSemResetI sp n).toSemaphores = ((s.setCnt sp n).logSem sp (.reset n)).toSemaphores := rfl
  simp only [setQueue] at queue
  refine .single sp (.reset n) fun sp' => ?_
  by_cases other : sp' = sp <;> simp [Sys.sem, sem, queue, Sys.logSem, Sys.setCnt, other]

/-- The wait of a thread times out. -/
theorem SemsStep.expire {t : Tid} (sems : SemsOk init s) (sched : SchedOk s.toCore) (mem : t ∈ s.queue (.sQueue sp))
    (sem : s'.toSemaphores = ((s.chSemFastSignalI sp).logSem sp (.expire (s.semTicket t))).toSemaphores)
    (lists : SameLists (s.toCore.dequeue t) s'.toCore) : SemsStep s s' := by
  have queue : ∀ sp', s'.queue (.sQueue sp') = (s.queue (.sQueue sp')).erase t := fun _ => lists _ nofun
  have nodup : ((s.queue (.sQueue sp)).map s.semTicket).Nodup := (sems sp).ascending.imp ne_of_lt
  refine .single sp (.expire (s.semTicket t) (List.mem_map_of_mem mem)) fun sp' => ?_
  by_cases other : sp' = sp
  · simp [Sys.sem, sem, queue, Sys.chSemFastSignalI, Sys.logSem, Sys.setCnt, other, Sem.map_erase_of_nodup nodup mem]
  · have notMem : t ∉ s.queue (.sQueue sp') := fun mem' => other (QueueId.sQueue.inj (sched.unique _ _ _ mem' mem))
    simp [Sys.sem, sem, queue, Sys.chSemFastSignalI, Sys.logSem, Sys.setCnt, other, List.erase_of_not_mem notMem]

/-- The callback of a timed sleep. -/
theorem wakeup_sems {tp : Tid} (sched : SchedOk s.toCore) (sems : SemsOk init s) : SemsStep s (s.wakeup tp) := by
  have dequeued : (s.pState tp ≠ .wtsem) → ∀ sp, (s.queue (.sQueue sp)).erase tp = s.queue (.sQueue sp) :=
    fun other sp => sched.erase_eq other
  unfold wakeup
  split
  · exact .refl s
  next state =>
    split
    next sp obj =>
      have mem : tp ∈ s.queue (.sQueue sp) := (sched.mem_iff_obj rfl).2 ⟨state, obj⟩
      exact .expire sems sched mem rfl (.ready rfl)
    · exact .refl s
  next state =>
    exact .same rfl fun sp => dequeued (by rw [state]; nofun) sp
  next state =>
    exact .same rfl fun sp => dequeued (by rw [state]; nofun) sp
  · exact .same rfl fun sp => rfl

/-! ## Functions with lock zones -/

/-- The lock itself touches no semaphore. -/
theorem Outside.sems {body : Sys → Sys} (outside : Outside s) (ok : CoreOk s.toCore) (sems : SemsOk init s)
    (inside : SchedOk s.enter.toCore → SemsOk init s.enter → SemsStep s.enter (body s.enter)) :
    SemsStep s (s.zone body) := by
  have locked : SemsStep s s.enter := .same rfl fun _ => rfl
  exact locked.trans (inside (outside.enter (φ := {}) ok).ok.sched (locked.ok sems))

theorem SemsStep.reschedule (steps : SemsStep s s') : SemsStep s (s'.onCore .chSchRescheduleS) :=
  steps.trans (.onCore (.rescheduleS _))

theorem SemsStep.ret (steps : SemsStep s s') (r : Ret) : SemsStep s (s'.ret r) :=
  steps.trans (.same rfl fun _ => rfl)

theorem chSemSignalWait_sems {sps spw : SemId} (ok : CoreOk s.toCore) (outside : Outside s) (sems : SemsOk init s) :
    SemsStep s (s.chSemSignalWait sps spw) := by
  rw [chSemSignalWait_eq]
  refine outside.sems ok sems fun _ sems => ?_
  have work := outside.enter (φ := { sem := true }) ok
  have signalled : SemsStep s.enter (s.enter.chSemSignalI sps) := chSemSignalI_sems sems
  have sched : SchedOk (s.enter.chSemSignalI sps).toCore := (work.step (chSemSignalI_effect rfl work.ok)).ok.sched
  dsimp only
  split
  · exact signalled.trans (chSemWaitS_sems sched)
  · exact signalled.trans (.reschedule (chSemWaitS_sems sched))

/-- Storing a message or taking one touches no semaphore. -/
theorem mbThen_sems (same : s'.toSemaphores = s.toSemaphores) (lists : s'.queue = s.queue) (sems : SemsOk init s) :
    SemsStep s (s'.chSemSignalI sp) := by
  have stored : SemsStep s s' := .same same fun _ => by rw [lists]
  exact stored.trans (chSemSignalI_sems (stored.ok sems))

theorem chMBReset_sems (ok : CoreOk s.toCore) (outside : Outside s) (sems : SemsOk init s) :
    SemsStep s (s.chMBReset mb) := by
  refine outside.sems ok sems fun _ sems => .reschedule ?_
  have emptied : SemsStep s.enter ({ s.enter with
      mbWrptr := update s.mbWrptr mb 0, mbRdptr := update s.mbRdptr mb 0 }.logMb mb .reset) := .same rfl fun _ => rfl
  have slots := emptied.trans (chSemResetI_sems (emptied.ok sems) (.mbEmptysem mb) (s.mbSize mb))
  exact slots.trans (chSemResetI_sems (slots.ok sems) _ 0)

/-- A mailbox function asks for its token. -/
theorem mbAsk_sems (f : Frame) (sched : SchedOk (s.onCore (.push f)).toCore) (time : Systime) :
    SemsStep s ((s.onCore (.push f)).chSemWaitTimeoutS sp time) := by
  have pushed : SemsStep s (s.onCore (.push f)) := .same rfl fun _ => rfl
  exact pushed.trans (chSemWaitTimeoutS_sems sched time)

theorem mbPostBy_sems (sems : SemsOk init s) (o : Mailboxes) : SemsStep s (s.mbPostBy mb o) := by
  rw [mbPostBy]
  split
  · exact .same rfl fun _ => rfl
  next pos =>
    have taken : SemsStep s (s.chSemFastWaitI (.mbEmptysem mb)) := chSemFastWaitI_sems (not_le.1 pos)
    refine .ret (taken.trans ?_) _
    exact mbThen_sems rfl rfl (taken.ok sems)

theorem chMBFetchI_sems (sems : SemsOk init s) : SemsStep s (s.chMBFetchI mb) := by
  rw [chMBFetchI]
  split
  · exact .same rfl fun _ => rfl
  next pos =>
    have taken : SemsStep s (s.chSemFastWaitI (.mbFullsem mb)) := chSemFastWaitI_sems (not_le.1 pos)
    exact taken.trans (mbThen_sems rfl rfl (taken.ok sems))

/-! ## All steps -/

theorem ICall.sems (f : ICall) (effect : IEffect f.foot s (f.body s)) (sched : SchedOk s.toCore) (sems : SemsOk init s) :
    SemsStep s (f.body s) := by
  cases f with
  | semResetI sp n => exact chSemResetI_sems sems _ n
  | semSignalI sp => exact chSemSignalI_sems sems
  | semAddCounterI sp n => exact chSemAddCounterI_sems n sems
  | mbPostI mb m => exact mbPostBy_sems sems (s.mbPut mb m).toMailboxes
  | mbPostAheadI mb m => exact mbPostBy_sems sems (s.mbPutAhead mb m).toMailboxes
  | mbFetchI mb => exact chMBFetchI_sems sems
  | _ => exact effect.toEffect.semsStep rfl sched

theorem SCall.sems (f : SCall) (effect : Effect f.foot s (f.body s)) (ok : CoreOk s.toCore) (zone : ∀ φ, Zone φ s.toCore)
    (empty : s.pCtx s.currp = []) : SemsStep s (f.body s) := by
  have work : AtWork { mb := true } s s := .start ok (zone _) (by rw [empty]; nofun)
  cases f with
  | semWaitS sp => exact chSemWaitS_sems ok.sched
  | semWaitTimeoutS sp time => exact chSemWaitTimeoutS_sems ok.sched time
  | mbPostS | mbPostAheadS | mbFetchS => exact mbAsk_sems _ (work.askToken rfl (by rfl)).ok.sched _
  | _ => exact effect.semsStep rfl ok.sched

theorem ApiCall.sems (f : ApiCall) (effect : Effect f.foot s (f.body s)) (ok : CoreOk s.toCore) (outside : Outside s)
    (sems : SemsOk init s) : SemsStep s (f.body s) := by
  have work := outside.enter (φ := { mb := true }) ok
  cases f with
  | semReset sp n => exact outside.sems ok sems fun _ sems => .reschedule (chSemResetI_sems sems _ n)
  | semWait sp => exact outside.sems ok sems fun sched _ => chSemWaitS_sems sched
  | semWaitTimeout sp time => exact outside.sems ok sems fun sched _ => chSemWaitTimeoutS_sems sched time
  | semSignal sp => exact outside.sems ok sems fun _ sems => signal_sems sems fun t _ => .wakeupS _ t rdyOk
  | semSignalWait sps spw => exact chSemSignalWait_sems ok outside sems
  | mbReset mb => exact chMBReset_sems ok outside sems
  | mbPost | mbPostAhead | mbFetch => exact outside.sems ok sems fun _ _ => mbAsk_sems _ (work.askToken rfl (by rfl)).ok.sched _
  | _ => exact effect.semsStep rfl ok.sched

theorem Frame.sems (f : Frame) (effect : Effect f.foot s (f.run s.pop)) (sched : SchedOk s.toCore) (sems : SemsOk init s) :
    SemsStep s (f.run s.pop) := by
  have popped : SemsStep s s.pop := .same rfl fun _ => rfl
  have sems' := popped.ok sems
  cases f with
  | mbPost mb m =>
    simp only [run, mbPostResume]
    split
    · exact popped.trans (.reschedule (mbThen_sems rfl rfl sems'))
    · exact popped
  | mbPostAhead mb m =>
    simp only [run, mbPostAheadResume]
    split
    · exact popped.trans (.reschedule (mbThen_sems rfl rfl sems'))
    · exact popped
  | mbFetch mb =>
    simp only [run, mbFetchResume]
    split
    · exact popped.trans (.reschedule (mbThen_sems rfl rfl sems'))
    · exact popped.ret _
  | _ => exact effect.semsStep rfl sched

/-- Every step of the kernel is steps of its semaphores. -/
theorem next_sems {l : Label} (ok : KernelOk False s) (sems : SemsOk init s) (taken : next l s = some s') : SemsStep s s' := by
  have effect := (next_step ok nofun taken).1
  have sched := ok.core.sched
  cases l with
  | call f =>
    obtain ⟨outside, -, -, rfl⟩ := next_call taken
    exact f.sems effect ok.core outside sems
  | scall f =>
    obtain ⟨zone, empty, -, rfl⟩ := next_scall taken
    exact f.sems effect ok.core zone empty
  | icall f =>
    obtain ⟨mode, allowed, rfl⟩ := next_icall taken
    exact f.sems (f.effect ok.core (tellable_of_mode ok.core mode) allowed) sched sems
  | run =>
    obtain ⟨f, fs, thread, top, notNotify, rfl⟩ := next_run taken
    exact f.sems (run_step ok thread top notNotify).1 sched sems
  | callback =>
    obtain ⟨isr, ⟨tp, is, rfl⟩ | ⟨n, is, rfl⟩⟩ := next_callback taken
    · exact (wakeup_sems sched sems).trans (.same rfl fun _ => rfl)
    · exact .same rfl fun _ => rfl
  | _ => exact effect.semsStep rfl sched

/-! ## Runs -/

theorem SemsOk.chSysInit (cfg : Config) : SemsOk cfg.semStart (Kernel.chSysInit cfg) := by
  intro sp
  have start : (Kernel.chSysInit cfg).sem sp = .start (cfg.semStart sp) := by cases sp <;> rfl
  rw [start]
  exact .start _

theorem reach_semsOk (reached : (kernelLts cfg).Reach (fun _ _ => True) s) : SemsOk cfg.semStart s := by
  have both := reached.invariant (I := fun s => KernelOk False s ∧ SemsOk cfg.semStart s)
    ⟨.init False cfg, .chSysInit cfg⟩ fun s l s' ok _ taken =>
      ⟨(next_step ok.1 nofun taken).2, (next_sems ok.1 ok.2 taken).ok ok.2⟩
  exact both.2

/-- The counter, the queue and the history of a semaphore that started at `init`. -/
structure Accounts (init : Nat) (sp : SemId) (s : Sys) : Prop where
  /-- A thread is in the queue for each unit that the counter is below zero. -/
  queue : 0 ≤ s.sCnt sp ∧ s.queue (.sQueue sp) = [] ∨ ((s.queue (.sQueue sp)).length : Int) = -s.sCnt sp
  /-- The waits that got `RDY_OK` since the last reset. -/
  granted : ((grants (sinceReset (s.semLog sp))).length : Int) =
    startCount init (s.semLog sp) + signals (sinceReset (s.semLog sp)) - max (s.sCnt sp) 0
  /-- Waits are numbered in the order they started, and got `RDY_OK` in that order. -/
  started : starts (s.semLog sp) = (List.range (s.semWaits sp)).reverse
  inOrder : (grants (s.semLog sp)).Pairwise (· > ·)
  /-- Those in the queue come in that order too, after all that got `RDY_OK`. -/
  waiting : ((s.queue (.sQueue sp)).map s.semTicket).Pairwise (· < ·)
  later : ∀ k ∈ grants (s.semLog sp), ∀ t ∈ s.queue (.sQueue sp), k < s.semTicket t

/-- Every semaphore keeps account of its tokens and of its waiters. -/
theorem semaphore_accounting (reached : (kernelLts cfg).Reach (fun _ _ => True) s) (sp : SemId) :
    Accounts (cfg.semStart sp) sp s := by
  have ok := reach_semsOk reached sp
  have length : (s.queue (.sQueue sp)).length = (-s.sCnt sp).toNat := by simpa [sem] using ok.length
  have balance : ((grants (sinceReset (s.semLog sp))).length : Int) + max (s.sCnt sp) 0 =
      startCount (cfg.semStart sp) (s.semLog sp) + signals (sinceReset (s.semLog sp)) := ok.balance
  refine
    { queue := ?_
      granted := by omega
      started := ok.numbered
      inOrder := ok.ordered
      waiting := ok.ascending
      later := fun k mem t is => ok.before k mem _ (List.mem_map_of_mem is) }
  rcases Int.lt_or_le (s.sCnt sp) 0 with low | high
  · exact .inr (by omega)
  · exact .inl ⟨high, List.eq_nil_of_length_eq_zero (by omega)⟩

/-- A thread waits, and the main one signals and waits on the same semaphore. -/
theorem semaphore_accounting_signalWait : ∃ s,
    (kernelLts smallConfig).run [.call (.thdCreate 70 .static), .run, .call (.semWait 0), .run,
      .call (.semSignalWait 0 0)] (chSysInit smallConfig) = some s ∧
    s.sCnt (.sem 0) = -1 ∧ grants (s.semLog (.sem 0)) = [0] ∧ signals (s.semLog (.sem 0)) = 1 ∧
    Accounts (smallConfig.semStart (.sem 0)) (.sem 0) s :=
  Lts.exists_run (by rfl) rfl fun reached => ⟨rfl, rfl, rfl, semaphore_accounting reached (.sem 0)⟩

end ChibiOS.Kernel
