import ChibiOS.Kernel.Steps

/-!
# Whose turn it is

A step gives the processor to another thread at most once, and it does so last: before
that it readies threads, each behind those that are ready and not below it. The thread
that gives the processor away goes to sleep, goes ahead of its equals with the quantum it
has left, or goes behind them.
-/

namespace ChibiOS.Kernel

open Function
open Lib Kernel.Core

/-- The running thread is in no list, and the ready list is in order and not empty. -/
structure Tidy (c : Core) : Prop where
  sorted : Descending c.pPrio (c.queue .rQueue)
  ready : ∀ t ∈ c.queue .rQueue, c.pState t = .ready
  some_ : c.queue .rQueue ≠ []
  running : c.pState c.currp = .current
  off : ∀ q, c.currp ∉ c.queue q
  lt : ∀ q, ∀ t ∈ c.queue q, t < c.nthd
  fresh : ∀ t, c.nthd ≤ t → c.pState t = .suspended

/-- In a list of waiting threads, or in the state of one. -/
def Core.asleep (t : Tid) (c : Core) : Prop := (∃ q, q ≠ .rQueue ∧ t ∈ c.queue q) ∨ (c.pState t).waits = true

/-- The running thread goes on; threads may have been readied, behind their equals. -/
structure Goes (c c' : Core) : Prop where
  currp : c'.currp = c.currp
  isr : c'.isr = [] ↔ c.isr = []
  preempt : ∀ t, t = c.currp ∨ t ∈ c.queue .rQueue → c'.pPreempt t = c.pPreempt t
  prio : ∀ t ∈ c.queue .rQueue, c'.pPrio t = c.pPrio t
  order : (c.queue .rQueue).Sublist (c'.queue .rQueue)
  behind : ∀ t ∈ c'.queue .rQueue, t ∉ c.queue .rQueue → ∀ u ∈ c.queue .rQueue, c'.pPrio t ≤ c'.pPrio u →
    [u, t].Sublist (c'.queue .rQueue)
  u : ∀ t, c'.pU t = c.pU t ∨ t = c.currp ∨ c.asleep t

structure SameTurn (c c' : Core) : Prop extends Goes c c' where
  tidy : Tidy c'
  asleep : ∀ t, c'.asleep t → c.asleep t

/-- A ready thread is lifted, and goes behind its new equals. -/
structure Lifted (x : Tid) (c c' : Core) : Prop where
  mem : x ∈ c.queue .rQueue
  above : c.pPrio x < c'.pPrio x
  others : ∀ t, t ≠ x → c'.pPrio t = c.pPrio t
  members : ∀ t, t ∈ c'.queue .rQueue ↔ t ∈ c.queue .rQueue
  kept : (c'.queue .rQueue).filter (· ≠ x) = (c.queue .rQueue).filter (· ≠ x)
  currp : c'.currp = c.currp
  isr : c'.isr = c.isr
  preempt : c'.pPreempt = c.pPreempt
  u : c'.pU = c.pU

/-- The processor is given away: to the first of the ready list, or to a thread that was not in it. The latter is above the
running one while nobody in the list is, or is the thread `who`. -/
inductive Switch (who : Option Tid) (c c' : Core) : Prop
  | mk (rest : List Tid)
    (next : c.queue .rQueue = c'.currp :: rest ∨ c.queue .rQueue = rest ∧ c'.currp ≠ c.currp ∧
      (Top c ∧ c.pPrio c.currp < c.pPrio c'.currp ∨ who = some c'.currp))
    (kept : (c'.queue .rQueue).filter (· ≠ c.currp) = rest)
    (own : c.currp ∈ c'.queue .rQueue → c'.pPreempt c.currp = c.pPreempt c.currp ∨
      ∀ u ∈ rest, c.pPrio c.currp ≤ c.pPrio u → [u, c.currp].Sublist (c'.queue .rQueue))
    (prio : c'.pPrio = c.pPrio)
    (preempt : ∀ t, t ≠ c.currp → c'.pPreempt t = c.pPreempt t)
    (thread : c.isr = [])
    (isr : c'.isr = [])

/-- What a step does to the running thread and those that are ready. -/
inductive Turn (who : Option Tid) (c c' : Core) : Prop
  | same : Goes c c' → Turn who c c'
  | switch {c₁ : Core} : SameTurn c c₁ → Switch who c₁ c' → (∀ t, c'.pU t = c₁.pU t ∨ t = c.currp ∨ c.asleep t) → Turn who c c'
  | boost {x : Tid} {c₁ c₂ : Core} : SameTurn c c₁ → c₁.queue .rQueue = c.queue .rQueue → Lifted x c₁ c₂ → Switch who c₂ c' →
      (∀ t, c'.pU t = c₁.pU t ∨ t = c.currp ∨ c.asleep t) → Turn who c c'

variable {who : Option Tid} {c c' c'' : Core} {q : QueueId} {t : Tid} {l : List Tid} {s : Sys} {u : Tid}

theorem SchedOk.tidy (sched : SchedOk c) (mem : t ∈ c.queue .rQueue) : Tidy c where
  sorted := sched.sorted .rQueue rfl
  ready u mem := (sched.member .rQueue u mem).2.1
  some_ := List.ne_nil_of_mem mem
  running := sched.currp_state
  off := sched.currp_not_mem
  lt q u mem := (sched.member q u mem).2.2
  fresh u ge := (sched.fresh u ge).1

/-! ## The running thread goes on -/

/-- Nothing is done to the lists, the states and the priorities. -/
theorem Tidy.same (tidy : Tidy c) (queue : c'.queue = c.queue) (prio : c'.pPrio = c.pPrio) (state : c'.pState = c.pState)
    (nthd : c'.nthd = c.nthd) (preempt : c'.pPreempt = c.pPreempt) (currp : c'.currp = c.currp)
    (isr : c'.isr = [] ↔ c.isr = []) (u : ∀ t, t ≠ c.currp → c'.pU t = c.pU t) : SameTurn c c' where
  tidy := by
    obtain ⟨sorted, ready, some_, running, off, lt, fresh⟩ := tidy
    constructor <;> simp only [queue, prio, state, nthd, currp] <;> assumption
  asleep t := by
    rw [asleep, queue, state]
    exact id
  u t := by
    by_cases own : t = c.currp
    · exact .inr (.inl own)
    · exact .inl (u t own)
  currp := currp
  isr := isr
  preempt t _ := by rw [preempt]
  prio t _ := by rw [prio]
  order := by rw [queue]
  behind t mem new := by
    rw [queue] at mem
    exact absurd mem new

theorem Tidy.refl (tidy : Tidy c) : SameTurn c c := tidy.same rfl rfl rfl rfl rfl rfl .rfl fun _ _ => rfl

theorem SameTurn.trans (left : SameTurn c c') (right : SameTurn c' c'') : SameTurn c c'' where
  tidy := right.tidy
  asleep t is := left.asleep t (right.asleep t is)
  u t := by
    rcases right.u t with is | own | waits
    · exact is ▸ left.u t
    · exact .inr (.inl (own.trans left.currp))
    · exact .inr (.inr (left.asleep t waits))
  currp := right.currp.trans left.currp
  isr := right.isr.trans left.isr
  preempt t is := by
    refine (right.preempt t ?_).trans (left.preempt t is)
    rcases is with own | mem
    · exact .inl (own.trans left.currp.symm)
    · exact .inr (left.order.subset mem)
  prio t mem := (right.prio t (left.order.subset mem)).trans (left.prio t mem)
  order := left.order.trans right.order
  behind t mem new u old le := by
    by_cases then_ : t ∈ c'.queue .rQueue
    · rw [right.prio t then_, right.prio u (left.order.subset old)] at le
      exact (left.behind t then_ new u old le).trans right.order
    · exact right.behind t mem then_ u (left.order.subset old) le

theorem SameTurn.still (same : SameTurn c c') (queue : c''.queue = c'.queue) (prio : c''.pPrio = c'.pPrio)
    (state : c''.pState = c'.pState) (nthd : c''.nthd = c'.nthd) (preempt : c''.pPreempt = c'.pPreempt)
    (currp : c''.currp = c'.currp) (isr : c''.isr = c'.isr) (u : ∀ t, t ≠ c'.currp → c''.pU t = c'.pU t) : SameTurn c c'' :=
  same.trans (same.tidy.same queue prio state nthd preempt currp (by rw [isr]) u)

theorem Tidy.readyI (tidy : Tidy c) (other : t ≠ c.currp) (lt : t < c.nthd) : SameTurn c (c.chSchReadyI t) := by
  have list : (c.chSchReadyI t).queue .rQueue = insertBehind c.pPrio t (c.queue .rQueue) := by simp [chSchReadyI]
  have members {q u} (mem : u ∈ (c.chSchReadyI t).queue q) : u = t ∨ u ∈ c.queue q := by
    by_cases same : q = .rQueue
    · subst same
      simpa [list] using mem
    · exact .inr (by simpa [chSchReadyI, same] using mem)
  refine {
    tidy := {
      sorted := list ▸ tidy.sorted.insertBehind t
      ready := fun u mem => ?ready
      some_ := List.ne_nil_of_mem (a := t) (by simp [list])
      running := (update_of_ne other.symm ..).trans tidy.running
      off := fun q mem => tidy.off q ((members mem).resolve_left other.symm)
      lt := fun q u mem => (members mem).elim (· ▸ lt) (tidy.lt q u)
      fresh := fun u ge => (update_of_ne (ne_of_gt (lt.trans_le ge)) ..).trans (tidy.fresh u ge) }
    currp := rfl
    isr := .rfl
    preempt := fun _ _ => rfl
    prio := fun _ _ => rfl
    order := list ▸ sublist_insertBehind ..
    asleep := fun u => ?asleep
    u := fun _ => .inl rfl
    behind := fun u mem new v old le => ?behind }
  case ready =>
    by_cases same : u = t
    · exact same ▸ update_self ..
    · exact (update_of_ne same ..).trans (tidy.ready u ((members mem).resolve_left same))
  case asleep =>
    rintro (⟨q, notReady, mem⟩ | waits)
    · exact .inl ⟨q, notReady, by simpa [chSchReadyI, notReady] using mem⟩
    · by_cases same : u = t
      · subst same
        rw [show (c.chSchReadyI u).pState u = .ready from update_self ..] at waits
        cases waits
      · exact .inr ((congrArg TState.waits (update_of_ne same ..)).symm.trans waits)
  case behind =>
    cases (members mem).resolve_right new
    rw [list]
    exact tidy.sorted.pair_insertBehind old le

theorem SameTurn.readyI (same : SameTurn c c') (other : t ≠ c'.currp) (lt : t < c'.nthd) : SameTurn c (c'.chSchReadyI t) :=
  same.trans (same.tidy.readyI other lt)

/-- A thread that was asleep gets a message. -/
theorem SameTurn.setU (same : SameTurn c c') (waits : c.asleep t) (u : PU) : SameTurn c (c'.setU t u) := by
  obtain ⟨⟨currp, isr, preempt, prio, order, behind, us⟩, ⟨sorted, ready, some_, running, off, lt, fresh⟩, asleep⟩ := same
  refine ⟨⟨currp, isr, preempt, prio, order, behind, fun v => ?_⟩, ⟨sorted, ready, some_, running, off, lt, fresh⟩, asleep⟩
  by_cases is : v = t
  · exact .inr (.inr (is ▸ waits))
  · rw [show (c'.setU t u).pU v = c'.pU v from update_of_ne is ..]
    exact us v

theorem SameTurn.readyMsg (same : SameTurn c c') (other : t ≠ c'.currp) (lt : t < c'.nthd) (waits : c.asleep t) (m : Msg) :
    SameTurn c (c'.readyMsg t m) :=
  (same.readyI other lt).setU waits (.rdymsg m)

/-- Lists of waiting threads get shorter. -/
theorem Tidy.shrink (tidy : Tidy c) (members : ∀ q, ∀ t ∈ c'.queue q, t ∈ c.queue q)
    (list : c'.queue .rQueue = c.queue .rQueue) (prio : c'.pPrio = c.pPrio) (state : c'.pState = c.pState)
    (nthd : c'.nthd = c.nthd) (preempt : c'.pPreempt = c.pPreempt) (currp : c'.currp = c.currp) (isr : c'.isr = c.isr)
    (u : c'.pU = c.pU) : SameTurn c c' where
  asleep t := by
    rintro (⟨q, notReady, mem⟩ | waits)
    · exact .inl ⟨q, notReady, members q t mem⟩
    · exact .inr (state ▸ waits)
  u t := .inl (by rw [u])
  tidy := {
    sorted := by rw [list, prio]; exact tidy.sorted
    ready := by rw [list, state]; exact tidy.ready
    some_ := by rw [list]; exact tidy.some_
    running := by rw [state, currp]; exact tidy.running
    off := fun q mem => tidy.off q (members q _ (currp ▸ mem))
    lt := fun q t mem => nthd ▸ tidy.lt q t (members q t mem)
    fresh := by rw [nthd, state]; exact tidy.fresh }
  currp := currp
  isr := by rw [isr]
  preempt _ _ := by rw [preempt]
  prio _ _ := by rw [prio]
  order := by rw [list]
  behind t mem new := absurd (list ▸ mem) new

theorem Tidy.setQueue (tidy : Tidy c) (notReady : q ≠ .rQueue) (sub : ∀ t ∈ l, t ∈ c.queue q) :
    SameTurn c (c.setQueue q l) := by
  refine tidy.shrink (fun q' t mem => ?_) (update_of_ne notReady.symm ..) rfl rfl rfl rfl rfl rfl rfl
  by_cases same : q' = q
  · subst same
    exact sub t (by simpa [Core.setQueue] using mem)
  · simpa [Core.setQueue, same] using mem

theorem Tidy.dequeue (tidy : Tidy c) (off : t ∉ c.queue .rQueue) : SameTurn c (c.dequeue t) :=
  tidy.shrink (fun _ _ mem => List.mem_of_mem_erase mem) (List.erase_of_not_mem off) rfl rfl rfl rfl rfl rfl rfl

/-- A thread that waits leaves its list. -/
theorem Tidy.leaves (tidy : Tidy c) (leaves : Leaves t c c') :
    SameTurn c c' ∧ t ≠ c'.currp ∧ t < c'.nthd ∧ c.asleep t := by
  cases leaves with
  | listed notReady mem sub =>
    refine ⟨tidy.setQueue notReady sub, ?_, tidy.lt _ t mem, .inl ⟨_, notReady, mem⟩⟩
    rintro rfl
    exact tidy.off _ mem
  | alone waits exists_ =>
    refine ⟨tidy.refl, ?_, exists_.elim (fun new => ?_) id, .inr waits⟩
    · rintro rfl
      rw [tidy.running] at waits
      cases waits
    · exact not_le.1 fun ge => new (tidy.fresh t ge)

/-- The running thread changes its own priority. -/
theorem Tidy.ownPrio (tidy : Tidy c) (prio : Nat) (prios : c'.pPrio = update c.pPrio c.currp prio) (queue : c'.queue = c.queue)
    (state : c'.pState = c.pState) (nthd : c'.nthd = c.nthd) (preempt : c'.pPreempt = c.pPreempt) (currp : c'.currp = c.currp)
    (isr : c'.isr = c.isr) (u : c'.pU = c.pU) : SameTurn c c' := by
  have others : ∀ t ∈ c.queue .rQueue, c'.pPrio t = c.pPrio t := fun t mem => by
    rw [prios]
    exact update_of_ne (fun same => tidy.off _ (same ▸ mem)) ..
  obtain ⟨sorted, ready, some_, running, off, lt, fresh⟩ := tidy
  refine {
    tidy := ?_, currp := currp, isr := by rw [isr], preempt := fun t _ => by rw [preempt], prio := others
    order := by rw [queue]
    behind := fun t mem new => absurd (queue ▸ mem) new
    u := fun t => .inl (by rw [u])
    asleep := fun t => by
      rw [asleep, queue, state]
      exact id }
  refine ⟨?_, ?_, ?_, ?_, ?_, ?_, ?_⟩ <;> simp only [queue, state, nthd, currp] <;> try assumption
  exact sorted.congr others

/-! ## The processor is given away -/

/-- The same threads are running and ready, with the same priorities and quanta. The running thread may prepare its wait. -/
structure SameView (c c' : Core) : Prop where
  ready : c'.queue .rQueue = c.queue .rQueue
  currp : c'.currp = c.currp
  prio : c'.pPrio = c.pPrio
  preempt : c'.pPreempt = c.pPreempt
  isr : c'.isr = c.isr
  u : ∀ t, t ≠ c.currp → c'.pU t = c.pU t

theorem Goes.view (goes : Goes c c') (view : SameView c' c'') : Goes c c'' where
  currp := view.currp.trans goes.currp
  isr := by rw [view.isr, goes.isr]
  preempt t is := by rw [view.preempt, goes.preempt t is]
  prio t mem := by rw [view.prio, goes.prio t mem]
  order := by rw [view.ready]; exact goes.order
  behind := by rw [view.ready, view.prio]; exact goes.behind
  u t := by
    by_cases own : t = c.currp
    · exact .inr (.inl own)
    · rw [view.u t (goes.currp ▸ own)]
      exact goes.u t

theorem GoesOn.view (same : GoesOn c c') : SameView c c' := by
  obtain ⟨⟨u, -⟩, ready, standing⟩ := same
  simp only [Core.standing, Prod.mk.injEq] at standing
  obtain ⟨prio, preempt, currp, isr, -⟩ := standing
  exact ⟨ready, currp, prio, preempt, isr, u⟩

theorem SameTurn.idle (same : SameTurn c c') (goesOn : GoesOn c' c'') : Turn who c c'' := .same (same.view goesOn.view)

theorem Core.runFirst_u (c : Core) : c.runFirst.pU = c.pU := by
  cases first : c.queue .rQueue with
  | nil => simp [runFirst, fifoRemove, first]
  | cons h l => rw [runFirst_eq first]; rfl

theorem Tidy.first (tidy : Tidy c) : ∃ h l, c.queue .rQueue = h :: l ∧ (∀ t ∈ l, t ∈ c.queue .rQueue) ∧ c.currp ∉ l := by
  obtain ⟨h, l, first⟩ := List.exists_cons_of_ne_nil tidy.some_
  have list : ∀ t ∈ l, t ∈ c.queue .rQueue := fun t mem => by rw [first]; exact .tail _ mem
  exact ⟨h, l, first, list, fun mem => tidy.off _ (list _ mem)⟩

theorem Tidy.filter_own (tidy : Tidy c) (sub : ∀ t ∈ l, t ∈ c.queue .rQueue) : l.filter (· ≠ c.currp) = l :=
  List.filter_eq_self.2 fun t mem => by
    simpa using fun same => tidy.off _ (same ▸ sub t mem)

section

variable (thread : c.isr = [])
include thread

/-- A sleep of the running thread, which may already be in the list in which it will wait. -/
theorem Tidy.sleep (tidy : Tidy c) (view : SameView c c') (st : TState) : Switch who c (c'.chSchGoSleepS st) := by
  obtain ⟨h, l, first, list, -⟩ := tidy.first
  rw [chSchGoSleepS_eq (view.ready.trans first)]
  have ready : ({ (c'.parked st).switch h l with due := false } : Core).queue .rQueue = l := by
    simp [switch]
  refine ⟨l, .inl first, ?_, fun mem => ?_, view.prio, fun t other => ?_, thread, view.isr.trans thread⟩
  · rw [ready]
    exact tidy.filter_own list
  · rw [ready] at mem
    exact absurd (list _ mem) (tidy.off _)
  · rw [← view.currp] at other
    exact (update_of_ne other ..).trans (by rw [view.preempt])

theorem SameTurn.sleep (same : SameTurn c c') (view : SameView c' c'') (st : TState) :
    Turn who c (c''.chSchGoSleepS st) :=
  .switch same (same.tidy.sleep (same.isr.2 thread) view st) fun t => by
    by_cases own : t = c.currp
    · exact .inr (.inl own)
    · exact .inl ((congrFun (runFirst_u (c''.parked st)) t).trans (view.u t (same.currp ▸ own)))

theorem Tidy.ahead (tidy : Tidy c) : Switch who c c.chSchDoRescheduleAhead := by
  obtain ⟨h, l, first, -, own⟩ := tidy.first
  rw [chSchDoRescheduleAhead, runFirst_eq first]
  refine ⟨l, .inl first, ?_, fun _ => .inl rfl, rfl, fun _ _ => rfl, thread, thread⟩
  exact filter_insertAhead own

theorem Tidy.behind (tidy : Tidy c) : Switch who c c.chSchDoRescheduleBehind := by
  obtain ⟨h, l, first, -, own⟩ := tidy.first
  have sorted : Descending c.pPrio l := by
    have all := tidy.sorted
    rw [first] at all
    exact List.Pairwise.of_cons all
  have ready : c.chSchDoRescheduleBehind.queue .rQueue = insertBehind c.pPrio c.currp l := by
    simp only [chSchDoRescheduleBehind, runFirst_eq first, switch, chSchReadyI, update_self]
  have rest : c.chSchDoRescheduleBehind.currp = h ∧ c.chSchDoRescheduleBehind.pPrio = c.pPrio ∧
      c.chSchDoRescheduleBehind.pPreempt = update c.pPreempt c.currp chTimeQuantum ∧ c.chSchDoRescheduleBehind.isr = c.isr := by
    rw [chSchDoRescheduleBehind, runFirst_eq first]
    exact ⟨rfl, rfl, rfl, rfl⟩
  obtain ⟨currp, prio, preempt, isr⟩ := rest
  refine ⟨l, .inl (by rw [currp]; exact first), ?_, fun _ => .inr fun u mem le => ?_, prio, fun t other => ?_, thread,
    isr.trans thread⟩
  · rw [ready, filter_insertBehind own]
  · rw [ready]
    exact sorted.pair_insertBehind mem le
  · rw [preempt, update_of_ne other]

theorem SameTurn.reschedule (same : SameTurn c c') : Turn who c c'.chSchRescheduleS := by
  rw [chSchRescheduleS]
  split
  · exact .switch same (same.tidy.ahead (same.isr.2 thread)) fun t => .inl (congrFun (runFirst_u c') t)
  · exact same.idle ⟨⟨fun _ _ => rfl, fun _ _ => rfl⟩, rfl, rfl⟩

theorem SameTurn.yield (same : SameTurn c c') : Turn who c c'.chSchDoYieldS := by
  rw [chSchDoYieldS]
  split
  · exact .switch same (same.tidy.behind (same.isr.2 thread)) fun t => .inl (congrFun (runFirst_u c') t)
  · exact .same same.toGoes

/-- `chSchWakeupS`, for the thread `who` or when no ready thread is above the running one. -/
theorem SameTurn.wakeupS (same : SameTurn c c') (other : t ≠ c'.currp) (lt : t < c'.nthd)
    (waits : c.asleep t) (top : c'.pPrio c'.currp < c'.pPrio t → Top c' ∨ who = some t) (m : Msg) :
    Turn who c (c'.chSchWakeupS t m) := by
  rw [chSchWakeupS]
  split
  · have readied := (same.setU waits (.rdymsg m)).readyI other lt
    exact readied.idle ⟨⟨fun _ _ => rfl, fun _ _ => rfl⟩, rfl, rfl⟩
  next above =>
    have ready : (((c'.setU t (.rdymsg m)).chSchReadyI c'.currp).queue .rQueue) =
        insertBehind c'.pPrio c'.currp (c'.queue .rQueue) := by
      rfl
    refine .switch same ⟨c'.queue .rQueue, .inr ⟨rfl, other, ?_⟩, ?_, fun _ => .inr fun u mem le => ?_, rfl, fun _ _ => rfl,
      same.isr.2 thread, same.isr.2 thread⟩ fun v => ?_
    · exact (top (not_le.1 above)).imp_left fun top => ⟨top, not_le.1 above⟩
    · exact (congrArg (List.filter _) ready).trans (filter_insertBehind (same.tidy.off _))
    · exact ready ▸ same.tidy.sorted.pair_insertBehind mem le
    · by_cases is : v = t
      · exact .inr (.inr (is ▸ waits))
      · exact .inl (update_of_ne is ..)

end

/-! ## Functions -/

theorem Works.sameTurn {c' : Core} (works : Works c c') (tidy : Tidy c) : SameTurn c c' := by
  induction works with
  | start => exact tidy.refl
  | own _ same others ih =>
    simp only [standing, Prod.mk.injEq] at same
    obtain ⟨queue, state, prio, preempt, currp, isr, nthd⟩ := same
    exact ih.still queue prio state nthd preempt currp isr others.u
  | takes _ leaves ih => exact ih.trans (ih.tidy.leaves leaves).1
  | readies _ leaves ih =>
    obtain ⟨gone, other, lt, -⟩ := ih.tidy.leaves leaves
    exact (ih.trans gone).readyI other lt
  | answers m _ leaves ih =>
    obtain ⟨gone, other, lt, waits⟩ := ih.tidy.leaves leaves
    exact (ih.trans gone).readyMsg other lt (ih.asleep _ waits) m
  | setPrio prio _ ih => exact ih.trans (ih.tidy.ownPrio prio rfl rfl rfl rfl rfl rfl rfl rfl)

/-- A new thread is in no list. -/
theorem SameTurn.chThdCreateI (same : SameTurn c s.toCore) (prio : Nat) (mode : MemMode) :
    SameTurn c (s.chThdCreateI prio mode).toCore ∧ s.nthd ≠ (s.chThdCreateI prio mode).currp ∧
      s.nthd < (s.chThdCreateI prio mode).nthd := by
  have tidy := same.tidy
  have own : s.currp ≠ s.nthd := fun is => by
    have fresh := tidy.fresh s.currp is.ge
    rw [tidy.running] at fresh
    cases fresh
  have list : (s.chThdCreateI prio mode).queue .rQueue = s.queue .rQueue := by
    simp [Sys.chThdCreateI, Sys.regInsert, Sys.ret, ret]
  have old : ∀ t ∈ s.queue .rQueue, t ≠ s.nthd := fun t mem => (tidy.lt _ t mem).ne
  have members : ∀ q, ∀ t ∈ (s.chThdCreateI prio mode).queue q, t ∈ s.queue q := fun q t mem => by
    simp only [Sys.chThdCreateI, Sys.regInsert, Sys.ret, Sys.onCore_toCore, ret, update_apply] at mem
    split at mem
    · cases mem
    · split at mem
      · cases mem
      · exact mem
  refine ⟨same.trans ?_, own.symm, lt_add_one _⟩
  have prios : ∀ t ∈ s.queue .rQueue, (s.chThdCreateI prio mode).pPrio t = s.pPrio t := fun t mem =>
    update_of_ne (old t mem) ..
  exact {
    tidy := {
      sorted := by
        rw [list]
        exact tidy.sorted.congr prios
      ready := fun t mem => by
        rw [list] at mem
        exact (update_of_ne (old t mem) ..).trans (tidy.ready t mem)
      some_ := by
        rw [list]
        exact tidy.some_
      running := (update_of_ne own ..).trans tidy.running
      off := fun q mem => tidy.off q (members q _ mem)
      lt := fun q t mem => (tidy.lt q t (members q t mem)).trans (lt_add_one _)
      fresh := fun t ge => (update_of_ne (ne_of_gt ge) ..).trans (tidy.fresh t (Nat.le_of_succ_le ge)) }
    currp := rfl
    isr := .rfl
    preempt := fun t is => update_of_ne (is.elim (· ▸ own) (old t)) ..
    prio := prios
    order := by rw [list]
    behind := fun t mem new => absurd (list ▸ mem) new
    u := fun _ => .inl rfl
    asleep := fun t => by
      rintro (⟨q, notReady, mem⟩ | waits)
      · exact .inl ⟨q, notReady, members q t mem⟩
      · by_cases new : t = s.nthd
        · exact .inr (by rw [tidy.fresh t new.ge]; rfl)
        · rw [show (s.chThdCreateI prio mode).pState t = s.pState t from update_of_ne new ..] at waits
          exact .inr waits }

/-- A round of the boosting loop of `chMtxLockS` finds its thread in a list of waiting threads, in none, or ready. -/
theorem SchedOk.boosted_turn {t : Tid} {prio : Nat} (sched : SchedOk c) (lt : t < c.nthd)
    (other : t ≠ c.currp) (low : 1 ≤ prio) (high : prio ≤ highPrio) (less : c.pPrio t < prio)
    (mem : u ∈ c.queue .rQueue) :
    SameTurn c (c.boosted t prio) ∧ (c.boosted t prio).queue .rQueue = c.queue .rQueue ∨ Lifted t c (c.boosted t prio) := by
  obtain ⟨-, -, isr, currp⟩ := c.boosted_frame t prio
  obtain ⟨prios, nthd⟩ := c.boosted_prio t prio
  obtain ⟨state, u, -, -⟩ := c.boosted_wait t prio
  have preempt : (c.boosted t prio).pPreempt = c.pPreempt := by
    rw [boosted]
    split <;> rfl
  have still : t ∉ c.queue .rQueue → (c.boosted t prio).queue .rQueue = c.queue .rQueue →
      SameTurn c (c.boosted t prio) := fun off list => {
    tidy := (sched.boost lt other low high).tidy ((sched.mem_boosted lt _ _).2 mem)
    currp := currp
    isr := by rw [isr]
    preempt := fun _ _ => by rw [preempt]
    prio := fun v ready => by rw [prios, update_of_ne (ne_of_mem_of_not_mem ready off)]
    order := by rw [list]
    behind := fun v ready new => absurd (list ▸ ready) new
    u := fun _ => .inl (by rw [u])
    asleep := fun v => by
      rintro (⟨q, notReady, waits⟩ | waits)
      · exact .inl ⟨q, notReady, (sched.mem_boosted lt q v).1 waits⟩
      · exact .inr (state ▸ waits) }
  rcases sched.boosted_cases lt prio with ⟨q, -, notReady, waits, is⟩ | ⟨ready, is⟩ | ⟨off, is⟩
  · have off : t ∉ c.queue .rQueue := fun ready => notReady (sched.unique _ _ t waits ready)
    have list : (c.boosted t prio).queue .rQueue = c.queue .rQueue := by
      rw [is]
      exact (update_of_ne notReady.symm ..).trans (List.erase_of_not_mem off)
    exact .inl ⟨still off list, list⟩
  · refine .inr {
      mem := ready
      above := by rw [prios, update_self]; exact less
      others := fun v ne => by rw [prios, update_of_ne ne]
      members := sched.mem_boosted lt .rQueue
      kept := ?_
      currp := currp
      isr := isr
      preempt := preempt
      u := u }
    have list : (c.boosted t prio).queue .rQueue = insertBehind (update c.pPrio t prio) t ((c.queue .rQueue).erase t) := by
      rw [is]
      simp only [chSchReadyI, dequeue, update_self]
    have off : t ∉ (c.queue .rQueue).erase t := (sched.nodup .rQueue).not_mem_erase
    rw [list, filter_insertBehind off, (sched.nodup .rQueue).erase_eq_filter]
    exact List.filter_congr fun v _ => by rw [bne, beq_eq_decide, decide_not]
  · have list : (c.boosted t prio).queue .rQueue = c.queue .rQueue := by rw [is]
    exact .inl ⟨still (off .rQueue rfl) list, list⟩

/-- The loop stops behind a ready thread. -/
theorem boostLoop_turn {prio : Nat} (low : 1 ≤ prio) (high : prio ≤ highPrio) : ∀ (n : Nat) (tp : Tid) {s : Sys},
    SchedOk s.toCore → u ∈ s.queue .rQueue → tp < s.nthd → prio ≤ s.pPrio s.currp →
    (∀ t x, s.blocker t = some x → x < s.nthd) → SameTurn c s.toCore → s.queue .rQueue = c.queue .rQueue →
    Tidy (s.boostLoop prio n tp).toCore ∧
    ((SameTurn c (s.boostLoop prio n tp).toCore ∧ (s.boostLoop prio n tp).queue .rQueue = c.queue .rQueue) ∨
      ∃ x c₁, SameTurn c c₁ ∧ c₁.queue .rQueue = c.queue .rQueue ∧ Lifted x c₁ (s.boostLoop prio n tp).toCore)
  | 0, _, _, sched, mem, _, _, _, same, list => ⟨sched.tidy mem, .inl ⟨same, list⟩⟩
  | n + 1, tp, s, sched, mem, lt, le, bound, same, list => by
    rw [boostLoop_succ]
    split
    next less =>
      have other : tp ≠ s.currp := fun is => by
        subst is
        exact absurd le (Nat.not_le_of_gt less)
      have after := sched.boost lt other low high
      have still : u ∈ (s.boosted tp prio).queue .rQueue := (sched.mem_boosted lt _ _).2 mem
      rcases sched.boosted_turn lt other low high less mem with ⟨kept, sameList⟩ | lifted
      · split
        next owner isOwner =>
          obtain ⟨prios, nthd⟩ := s.toCore.boosted_prio tp prio
          obtain ⟨state, wtobjp, -, -⟩ := s.toCore.boosted_wait tp prio
          have sameBlocker : ∀ t, (s.onCore (.boosted tp prio)).blocker t = s.blocker t := fun t => by
            simp only [Sys.blocker, Sys.onCore_toCore, state, wtobjp]
            rfl
          refine boostLoop_turn low high n owner after still ?_ ?_ (fun t x is => ?_)
            (same.trans kept) (sameList.trans list)
          · exact nthd ▸ bound tp owner isOwner
          · rwa [Sys.onCore_toCore, kept.currp, prios, update_of_ne other.symm]
          · rw [sameBlocker] at is
            exact nthd ▸ bound t x is
        · exact ⟨after.tidy still, .inl ⟨same.trans kept, sameList.trans list⟩⟩
      · -- a ready thread waits for no mutex
        have ready := (sched.member _ tp lifted.mem).2.1
        have none : s.blocker tp = none := by
          unfold Sys.blocker
          rw [show s.pState tp = .ready from ready]
        rw [none]
        exact ⟨after.tidy still, .inr ⟨tp, s.toCore, same, list, lifted⟩⟩
    · exact ⟨sched.tidy mem, .inl ⟨same, list⟩⟩

/-- The running thread waits for a mutex, and lifts its owner. -/
theorem SameTurn.chMtxLockS (same : SameTurn c s.toCore) (list : s.queue .rQueue = c.queue .rQueue)
    (thread : c.isr = []) (sched : SchedOk s.toCore) (mem : u ∈ s.queue .rQueue)
    (owner : ∀ m t, s.mOwner m = some t → t < s.nthd) (mp : MtxId) : Turn who c (s.chMtxLockS mp).toCore := by
  unfold Sys.chMtxLockS
  split
  next tp owns =>
    have bound : ∀ t x, s.blocker t = some x → x < s.nthd := fun t x is => by
      unfold Sys.blocker at is
      split at is
      · exact owner _ _ is
      · cases is
    obtain ⟨low, high⟩ := sched.prio _ sched.currp_lt
    obtain ⟨tidy, turn⟩ := boostLoop_turn low high s.nthd tp sched mem (owner mp tp owns) le_rfl bound same list
    have view (c' : Core) : SameView c' ((c'.prioInsert c'.currp (.mQueue mp)).setU c'.currp (.wtobjp (.mQueue mp))) :=
      (GoesOn.setU.joins (q := .mQueue mp) nofun).view
    rcases turn with ⟨quiet, -⟩ | ⟨x, c₁, quiet, sameList, lifted⟩
    · exact quiet.sleep thread (view _) .wtmtx
    · refine .boost quiet sameList lifted (tidy.sleep ?_ (view _) .wtmtx) fun t => ?_
      · rw [lifted.isr]
        exact quiet.isr.2 thread
      · by_cases own : t = c.currp
        · exact .inr (.inl own)
        · refine .inl ((congrFun (runFirst_u (parked .wtmtx _)) t).trans ?_)
          rw [← lifted.u]
          exact (view _).u t (lifted.currp.trans quiet.currp ▸ own)
  · exact .same same.toGoes

/-- A function is one turn. -/
theorem Course.turn {c' : Core} (course : Course who c c') (sched : SchedOk c) (mem : u ∈ c.queue .rQueue) (thread : c.isr = [])
    (top : c.due = false → Top c) : Turn who c c' := by
  have tidy := sched.tidy mem
  cases course with
  | stays works same => exact (works.sameTurn tidy).idle same
  | sleeps st works same => exact (works.sameTurn tidy).sleep thread same.view st
  | reschedules works => exact (works.sameTurn tidy).reschedule thread
  | yields works => exact (works.sameTurn tidy).yield thread
  | wakes m works leaves above =>
    have same := works.sameTurn tidy
    obtain ⟨gone, other, lt, waits⟩ := same.tidy.leaves leaves
    exact (same.trans gone).wakeupS thread other lt (same.asleep _ waits) (above top other) m
  | @creates s prio mode works threads currp quiet =>
    obtain ⟨created, other, lt⟩ := (works.sameTurn tidy).chThdCreateI prio mode
    refine created.wakeupS thread other lt (.inr ?_) (fun _ => .inl fun t mem => ?_) rdyOk
    · exact congrArg TState.waits (tidy.fresh s.nthd (by rw [threads]))
    have list : (s.chThdCreateI prio mode).queue .rQueue = c.queue .rQueue := by
      simp [Sys.chThdCreateI, Sys.regInsert, Sys.ret, Core.ret, threads]
    have own : (s.chThdCreateI prio mode).pPrio s.currp = s.pPrio s.currp := update_of_ne other.symm ..
    rw [list] at mem
    rw [created.prio t mem]
    refine (top quiet t mem).trans (own.trans ?_).ge
    rw [threads, currp]
  | @locks s mp works threads currp owner =>
    have sched' : SchedOk s.toCore := by rwa [SchedOk, threads, currp]
    exact (works.sameTurn tidy).chMtxLockS (by rw [threads]) thread sched' (by rwa [threads]) owner mp

end ChibiOS.Kernel
