import ChibiOS.Kernel.Asks
import ChibiOS.Kernel.WaitPhase

/-!
# Effects

`Effect φ s s'`: the code takes `s` to `s'` by moves within the foot `φ`, and objects
outside the foot are as they were. The scheduler's functions are shown here to
be moves, for a running thread in a lock zone (`Zone`); the kernel's functions
are put together from them.
-/

namespace ChibiOS.Kernel

open Function (update update_self update_of_ne update_eq_self)
open Lib Kernel.Core
open List (forall_mem_cons)

/-- The invariants of `Core`. -/
structure CoreOk (c : Core) : Prop where
  sched : SchedOk c
  calm : Calm c
  ctl : CtlOk c
  timed : TimedOk c
  ask : AskOk c

/-- The thread for which a timer calls back waits, or is ready already. -/
theorem CoreOk.called_back {c : Core} {tp : Tid} {isr : List Isr} (ok : CoreOk c) (is : c.isr = .tick (some (.wakeup tp)) :: isr) :
    c.pState tp = .ready ∨ (c.pState tp).timed = true := by
  obtain ⟨p, -, phase⟩ := ok.timed.thread tp
  have pending : c.Pending tp := by rw [Core.Pending, is]; exact .head _
  exact (phase.of_pending pending).symm.imp id And.right

variable {φ : Foot} {c c' c'' : Core} {t : Tid} {fs : List Frame} {f : Frame} {q : QueueId} {locked : Bool}
  {qs : QueueId → List Tid} {u : PU} {s : Sys}

theorem Move.coreOk (move : Move φ c c') (ok : CoreOk c) : CoreOk c' :=
  ⟨move.schedOk ok.sched, move.keeps_calm ok.sched ok.calm, move.ctlOk ok.sched ok.ctl,
    move.timedOk ok.sched ok.ctl ok.timed, move.askOk ok.sched ok.ask⟩

/-! ## Sequences of moves -/

namespace Moves

theorem coreOk (moves : Moves φ c c') (ok : CoreOk c) : CoreOk c' := by
  induction moves with
  | refl => exact ok
  | tail _ move ih => exact move.coreOk ih

theorem refl (c : Core) : Moves φ c c := Relation.ReflTransGen.refl

theorem single (move : Move φ c c') : Moves φ c c' := Relation.ReflTransGen.single move

theorem trans (left : Moves φ c c') (right : Moves φ c' c'') : Moves φ c c'' := Relation.ReflTransGen.trans left right

section

variable (moves : Moves φ c c')
include moves

theorem queue_eq {q : QueueId} (ok : SchedOk c) (off : φ.state q.tstate = false) : c'.queue q = c.queue q := by
  induction moves with
  | refl => rfl
  | tail before move ih => exact (move.queue_eq (schedOk ok before) off).trans ih

theorem prio_eq (off : φ.mtx = false) : c'.pPrio = c.pPrio ∧ c'.nthd = c.nthd := by
  induction moves with
  | refl => exact ⟨rfl, rfl⟩
  | tail _ move ih =>
    obtain ⟨prio, nthd⟩ := move.prio_eq off
    exact ⟨prio.trans ih.1, nthd.trans ih.2⟩

theorem nthd_eq (off : φ.reg = false) : c'.nthd = c.nthd := by
  induction moves with
  | refl => rfl
  | tail _ move ih =>
    rcases move.nthd_cases with same | ⟨on, -⟩
    · exact same.trans ih
    · cases off.symm.trans on

theorem nthd_le : c.nthd ≤ c'.nthd := by
  induction moves with
  | refl => exact le_rfl
  | tail _ move ih =>
    rcases move.nthd_cases with same | ⟨-, more⟩
    · exact ih.trans_eq same.symm
    · exact ih.trans (more ▸ Nat.le_succ _)

theorem rests {st : TState} (ok : SchedOk c) (off : φ.state st = false) (t : Tid) : Rests st t c c' := by
  induction moves with
  | refl => exact .same rfl rfl
  | tail before move ih => exact ih.trans (move.rests (Moves.schedOk ok before) off t)

theorem waitOf_eq {p : Frame → Bool} (ok : CoreOk c) (off : φ.Off p) (t : Tid) : c'.waitOf p t = c.waitOf p t := by
  induction moves with
  | refl => rfl
  | tail before move ih =>
    have ok' := coreOk before ok
    exact (move.waitOf_eq ok'.sched ok'.ctl ok'.ask off t).trans ih

theorem state_iff {st : TState} (ok : SchedOk c) (off : φ.state st = false) (t : Tid) :
    (c'.pState t = st ↔ c.pState t = st) ∧ (c.pState t = st → c'.pU t = c.pU t) := by
  induction moves with
  | refl => exact ⟨.rfl, fun _ => rfl⟩
  | tail before move ih =>
    rcases move.rests (schedOk ok before) off t with ⟨state, u⟩ | ⟨apart, apart'⟩
    · rwa [state, u]
    · exact ⟨⟨fun is => absurd is apart', fun is => absurd (ih.1.2 is) apart⟩, fun is => absurd (ih.1.2 is) apart⟩

theorem kept (ok : SchedOk c) (t : Tid) : (c'.pCtx t).filter φ.keeps = (c.pCtx t).filter φ.keeps := by
  induction moves with
  | refl => rfl
  | tail before move ih => exact (move.fate (schedOk ok before) t).kept.trans ih

end

end Moves

/-! ## Contexts -/

/-- Nothing in the context has asked. -/
def Plain (fs : List Frame) : Prop := ∀ f ∈ fs, f.asks = none

theorem Plain.covered (plain : Plain fs) : ∀ f ∈ fs, φ.covers f = true :=
  fun f mem => Foot.covers_of_asks (plain f mem)

/-- Under a frame that is not a sleep nothing has asked. -/
theorem CtxOk.plain_tail (ok : CtxOk locked (f :: fs)) (notSleep : f.sleeps = false) : Plain fs := by
  cases fs with
  | nil => nofun
  | cons g fs =>
    refine forall_mem_cons.2 ⟨?_, ok.asks_below⟩
    by_contra asks
    cases ((List.isChain_cons_cons.1 ok.chain).1.token asks).symm.trans notSleep

theorem CtxOk.plain (ok : CtxOk locked (f :: fs)) (notSleep : f.sleeps = false) (notAsks : f.asks = none) :
    Plain (f :: fs) := forall_mem_cons.2 ⟨notAsks, ok.plain_tail notSleep⟩

theorem Plain.asksFor (plain : Plain fs) (st : TState) : AsksFor st fs := fun f mem st' asks => by
  cases (plain f mem).symm.trans asks

theorem Plain.direct (plain : Plain fs) : Direct fs :=
  fun f is asks => absurd (plain f (List.mem_of_head? is)) asks

theorem Frame.asks_of_direct (direct : f.direct = true) : ∃ st, f.asks = some st ∧ st ≠ .wtsem ∧ st ≠ .wtqueue := by
  cases f with
  | evtWait w => cases w <;> exact ⟨_, rfl, nofun, nofun⟩
  | _ => first | (cases direct; done) | exact ⟨_, rfl, nofun, nofun⟩

/-- Over a frame that reads `p_u` itself there is nothing. -/
theorem CtxOk.indirect_below (ok : CtxOk locked (f :: fs)) : ∀ g ∈ fs, g.direct = false := by
  cases fs with
  | nil => nofun
  | cons g fs =>
    refine forall_mem_cons.2 ⟨(List.isChain_cons_cons.1 ok.chain).1.direct, fun h mem => ?_⟩
    rw [← Bool.not_eq_true]
    intro direct
    obtain ⟨st, asks, -⟩ := Frame.asks_of_direct direct
    cases (ok.asks_below h mem).symm.trans asks

theorem Plain.indirect (plain : Plain fs) : Indirect fs := by
  intro f is
  rw [← Bool.not_eq_true]
  intro direct
  obtain ⟨st, asks, -⟩ := Frame.asks_of_direct direct
  cases (plain f (List.mem_of_head? is)).symm.trans asks

/-- Who sleeps for a token or on a queue is told by the sleep. -/
theorem AsksFor.indirect {st : TState} (asksFor : AsksFor st fs) (told : st = .wtsem ∨ st = .wtqueue) :
    Indirect fs := by
  intro f is
  rw [← Bool.not_eq_true]
  intro direct
  obtain ⟨st', asks, notSem, notQueue⟩ := Frame.asks_of_direct direct
  rw [asksFor f (List.mem_of_head? is) st' asks] at told
  exact told.elim notSem notQueue

theorem Plain.push {st : TState} (plain : Plain fs) (asks : f.asks = some st) : AsksFor st (f :: fs) := by
  intro g mem st' asks'
  rcases List.mem_cons.1 mem with rfl | mem
  · exact Option.some.inj (asks.symm.trans asks')
  · exact plain.asksFor st g mem st' asks'

/-- `chSysLock()`: the unlock goes on top. -/
theorem CtxOk.lock (ok : CtxOk false fs) : CtxOk true (.sysUnlock :: fs) := by
  refine ⟨?_, by simp [Frame.unlocked]⟩
  cases fs with
  | nil => exact .singleton _
  | cons g fs =>
    have unlocked : g.unlocked = true := ok.head g rfl
    refine List.isChain_cons_cons.2 ⟨⟨rfl, by simp [unlocked], ?_, ?_, ?_⟩, ok.chain⟩
    · cases g <;> first | rfl | cases unlocked
    · intro asks
      cases g <;> first | (cases unlocked; done) | exact absurd rfl asks
    · cases g <;> first | rfl | cases unlocked

/-- `chSysUnlock()`. -/
theorem CtxOk.unlock (ok : CtxOk locked (.sysUnlock :: fs)) : CtxOk false fs := by
  refine ⟨ok.chain.tail, fun g is => ?_⟩
  cases fs with
  | nil => cases is
  | cons g' fs =>
    cases is
    exact (List.isChain_cons_cons.1 ok.chain).1.unlocks.2 rfl

theorem Frame.last_of_unlocked (unlocked : f.unlocked = true) : f.last = true := by
  cases f <;> first | rfl | cases unlocked

theorem CtxOk.last (ok : CtxOk locked (f :: fs)) (last : f.last = true) : fs = [] := by
  cases fs with
  | nil => rfl
  | cons g fs =>
    have := (List.isChain_cons_cons.1 ok.chain).1.notLast
    cases last.symm.trans this

/-- A frame that runs locked is entered; one that nothing may lie under, on top of nothing. -/
theorem CtxOk.push (ok : CtxOk true fs) (awake : Awake fs) (locked : f.unlocked = false)
    (below : fs = [] ∨ f.last = false ∧ f ≠ .sysUnlock) (top : f.sleeps = true ∧ Indirect fs ∨ Plain fs) :
    CtxOk true (f :: fs) := by
  refine ⟨?_, by simpa using locked⟩
  cases fs with
  | nil => exact .singleton _
  | cons g fs =>
    obtain ⟨notLast, notUnlock⟩ := below.resolve_left (List.cons_ne_nil g fs)
    have := ok.head g rfl
    refine List.isChain_cons_cons.2 ⟨⟨notLast, ?_, awake g rfl, fun asks => ?_, ?_⟩, ok.chain⟩
    · simp [this, notUnlock]
    · rcases top with ⟨sleeps, -⟩ | plain
      · exact sleeps
      · exact absurd (plain g (.head _)) asks
    · rcases top with ⟨-, indirect⟩ | plain
      · exact indirect g rfl
      · exact plain.indirect g rfl

/-! ## Lock zones -/

/-- The running thread executes a kernel function in a lock zone. -/
structure Zone (φ : Foot) (c : Core) : Prop where
  thread : c.isr = []
  locked : c.locked = true
  notIdle : c.currp ≠ idleThread
  awake : Awake (c.pCtx c.currp)
  covered : ∀ f ∈ c.pCtx c.currp, φ.covers f = true

namespace Zone

theorem congr (zone : Zone φ c) (ctx : c'.pCtx c'.currp = c.pCtx c.currp) (locked : c'.locked = c.locked)
    (isr : c'.isr = c.isr) (currp : c'.currp = c.currp) : Zone φ c' :=
  ⟨isr.trans zone.thread, locked.trans zone.locked, currp ▸ zone.notIdle, ctx ▸ zone.awake, ctx ▸ zone.covered⟩

theorem ctxOk (zone : Zone φ c) (ok : CoreOk c) : CtxOk true (c.pCtx c.currp) := zone.locked ▸ ok.ctl.current

end Zone

/-- Control stays where it is. -/
structure Still (c c' : Core) : Prop where
  ctx : c'.pCtx c.currp = c.pCtx c.currp
  locked : c'.locked = c.locked
  isr : c'.isr = c.isr
  currp : c'.currp = c.currp

theorem Still.refl (c : Core) : Still c c := ⟨rfl, rfl, rfl, rfl⟩

theorem Still.trans (left : Still c c') (right : Still c' c'') : Still c c'' :=
  ⟨(left.currp ▸ right.ctx).trans left.ctx, right.locked.trans left.locked, right.isr.trans left.isr, right.currp.trans left.currp⟩

theorem Still.plain (still : Still c c') (plain : Plain (c.pCtx c.currp)) : Plain (c'.pCtx c'.currp) := by
  rwa [still.currp, still.ctx]

theorem Zone.still (zone : Zone φ c) (still : Still c c') : Zone φ c' :=
  zone.congr (by rw [still.currp, still.ctx]) still.locked still.isr still.currp

/-- A frame of the foot `φ` that a function leaves on top of the context `fs`. -/
structure Enters (φ : Foot) (f : Frame) (fs : List Frame) : Prop where
  locked : f.unlocked = false
  awake : f.sleeps = false
  below : fs = [] ∨ f.last = false ∧ f ≠ .sysUnlock
  covered : φ.covers f = true
  drops : φ.keeps f = false

/-- The running thread's context changes within the zone. -/
theorem Zone.setCtx (zone : Zone φ c) (ok : CtxOk true fs) (awake : Awake fs)
    (foot : φ.Ctx (c.pCtx c.currp) fs) : Moves φ c { c with pCtx := update c.pCtx c.currp fs } ∧
      Zone φ { c with pCtx := update c.pCtx c.currp fs } := by
  have move : Move φ c _ := .ctl fs true zone.thread zone.awake awake ok foot fun is => absurd is zone.notIdle
  rw [← zone.locked] at move
  refine ⟨.single move, zone.thread, zone.locked, zone.notIdle, ?_, ?_⟩
  · simpa using awake
  · simpa using foot.new

theorem Zone.push (zone : Zone φ c) (ok : CoreOk c) (enters : Enters φ f (c.pCtx c.currp)) (plain : Plain (c.pCtx c.currp)) :
    Moves φ c (c.push f) ∧ Zone φ (c.push f) := by
  have awake : Awake (f :: c.pCtx c.currp) := fun g is => by
    rw [← Option.some.inj is]; exact enters.awake
  refine zone.setCtx ((zone.ctxOk ok).push zone.awake enters.locked enters.below (.inr plain)) awake
    ⟨zone.covered, forall_mem_cons.2 ⟨enters.covered, zone.covered⟩, ?_⟩
  rw [List.filter_cons_of_neg (by simp [enters.drops])]

/-- The caller gets a result. -/
theorem Zone.ret (zone : Zone φ c) (r : Ret) : Moves φ c (c.ret r) ∧ Zone φ (c.ret r) :=
  ⟨.single (.ret r fun _ => zone.covered), zone.congr rfl rfl rfl rfl⟩

/-! ## Sleeping -/

/-- A sleep without a timer, with the frames `fs` left by its caller: at most the
return of the message. -/
theorem Zone.sleep (st : TState) (fs : List Frame) (zone : Zone φ c) (ok : CoreOk c)
    (asks : AsksFor st (c.pCtx c.currp)) (foot : φ.state st = true) (joins : Joins c st u qs)
    (frames : fs = [] ∧ Direct (c.pCtx c.currp) ∨ fs = [.rdymsg] ∧ Indirect (c.pCtx c.currp)) :
    Moves φ c ({ c with
      pU := update c.pU c.currp u, queue := qs
      pCtx := update c.pCtx c.currp (fs ++ c.pCtx c.currp) }.chSchGoSleepS st) := by
  have ctx := zone.ctxOk ok
  rcases frames with ⟨rfl, direct⟩ | ⟨rfl, indirect⟩
  · exact .single (.sleep st u qs [] c.vt c.hist zone.thread zone.locked zone.notIdle foot joins (.untimed [] nofun) ctx
      zone.awake ⟨zone.covered, zone.covered, rfl⟩ asks direct)
  · exact .single (.sleep st u qs [.rdymsg] c.vt c.hist zone.thread zone.locked zone.notIdle foot joins
      (.untimed [.rdymsg] (by simp)) (ctx.push zone.awake rfl (.inr ⟨rfl, nofun⟩) (.inl ⟨rfl, indirect⟩)) zone.awake
      ⟨zone.covered, forall_mem_cons.2 ⟨rfl, zone.covered⟩, rfl⟩ (forall_mem_cons.2 ⟨nofun, asks⟩)
      (by simp [Direct, Frame.asks]))

section

variable (st : TState) (zone : Zone φ c) (ok : CoreOk c) (asks : AsksFor st (c.pCtx c.currp))
include st zone ok asks

section

variable (direct : Direct (c.pCtx c.currp)) (foot : φ.state st = true)
include direct foot

/-- The same with no frame. -/
theorem Zone.sleepS (joins : Joins c st u qs) :
    Moves φ c ({ c with pU := update c.pU c.currp u, queue := qs }.chSchGoSleepS st) := by
  have sleep := zone.sleep st [] ok asks foot joins (.inl ⟨rfl, direct⟩)
  rwa [List.nil_append, update_eq_self] at sleep

/-- The same with nothing stored in the union. -/
theorem Zone.sleepKeep (joins : Joins c st (c.pU c.currp) qs) :
    Moves φ c ({ c with queue := qs }.chSchGoSleepS st) := by
  have sleep := zone.sleepS st ok asks direct foot joins
  rwa [update_eq_self] at sleep

/-- The same in no list. -/
theorem Zone.sleepPlain (notQueued : st.queued = false)
    (notCurrent : st ≠ .current) : Moves φ c (c.chSchGoSleepS st) :=
  zone.sleepKeep st ok asks direct foot (.plain notQueued notCurrent)

end

/-- `chSchGoSleepTimeoutS` by a thread that has joined a list, or waits in none. -/
theorem Zone.sleepTimeout (indirect : Indirect (c.pCtx c.currp)) (foot : φ.state st = true) (timed : st.timed = true)
    (joins : Joins c st u qs) {time : Systime} (later : time ≠ timeImmediate) :
    Moves φ c ({ c with pU := update c.pU c.currp u, queue := qs }.chSchGoSleepTimeoutS st time) := by
  rw [chSchGoSleepTimeoutS]
  split
  · obtain ⟨vt, set⟩ := ok.timed.vt.set_isSome (.stack c.currp) time (.wakeup c.currp)
    simp only [set]
    exact .single (.sleep st u qs [.goSleepTimeout] vt (.sleep c.currp :: c.hist) zone.thread zone.locked zone.notIdle
      foot joins (.timed time vt timed set later) ((zone.ctxOk ok).push zone.awake rfl (.inr ⟨rfl, nofun⟩) (.inl ⟨rfl, indirect⟩)) zone.awake
      ⟨zone.covered, forall_mem_cons.2 ⟨rfl, zone.covered⟩, rfl⟩ (forall_mem_cons.2 ⟨nofun, asks⟩) (by simp [Direct, Frame.asks]))
  · exact zone.sleep st [.rdymsg] ok asks foot joins (.inr ⟨rfl, indirect⟩)

/-- The same in no list. -/
theorem Zone.sleepTimeoutPlain (indirect : Indirect (c.pCtx c.currp)) (foot : φ.state st = true)
    (timed : st.timed = true) (notQueued : st.queued = false) (notCurrent : st ≠ .current) {time : Systime}
    (later : time ≠ timeImmediate) : Moves φ c (c.chSchGoSleepTimeoutS st time) := by
  have sleep := zone.sleepTimeout (u := c.pU c.currp) st ok asks indirect foot timed (.plain notQueued notCurrent) later
  rwa [update_eq_self] at sleep

end

/-- At the end of a first-in-first-out list. -/
theorem Joins.last (notReady : q ≠ .rQueue) (fifo : q.byPrio = false) (exists_ : q.Exists c.nthd) :
    Joins c q.tstate (.wtobjp q) (update c.queue q (c.queue q ++ [c.currp])) :=
  .queue q _ rfl notReady List.perm_append_comm (fun byPrio => by rw [fifo] at byPrio; cases byPrio) (fun _ => rfl) exists_

/-- By priority. -/
theorem Joins.byPrio (sched : SchedOk c) (notReady : q ≠ .rQueue) (exists_ : q.Exists c.nthd) :
    Joins c q.tstate (.wtobjp q) (update c.queue q (insertBehind c.pPrio c.currp (c.queue q))) :=
  .queue q _ rfl notReady (insertBehind_perm ..) (fun byPrio => (sched.sorted q byPrio).insertBehind c.currp)
    (fun _ => rfl) exists_

/-! ## Waking -/

theorem Core.setU_self : c.setU t (c.pU t) = c := by
  rw [setU, update_eq_self]

/-- A thread that is linked in no list needs no unlinking. -/
theorem SchedOk.dequeue_of_not_queued (sched : SchedOk c) (state : (c.pState t).queued = false) : c.dequeue t = c := by
  have := sched.unlinked_of_not_queued state
  exact congrArg (fun th : Threads => { c with toThreads := th }) this

/-- A state in no list, with no timer. -/
structure Unlisted (φ : Foot) (st : TState) : Prop where
  notQueued : st.queued = false
  waits : st.waits = true
  untimed : st.timed = false
  foot : φ.state st = true

/-- `chSchWakeupS` for a thread in such a state. -/
theorem Zone.wakeS {m : Msg} {st : TState} (zone : Zone φ c) (ok : CoreOk c) (state : c.pState t = st) (lt : t < c.nthd)
    (quiet : c.due = false) (unlisted : Unlisted φ st) : Moves φ c (c.chSchWakeupS t m) := by
  subst state
  have move : Move φ c _ := .wakeS t m zone.thread zone.locked unlisted.waits lt unlisted.foot
    (fun timed => by rw [unlisted.untimed] at timed; cases timed) fun r mem => Nat.le_trans (ok.calm quiet r mem) (Nat.le_max_left ..)
  rw [ok.sched.dequeue_of_not_queued unlisted.notQueued] at move
  exact .single move

/-- `chSchReadyI` for it. -/
theorem CoreOk.ready {st : TState} (ok : CoreOk c) (state : c.pState t = st) (lt : t < c.nthd)
    (unlisted : Unlisted φ st) : Moves φ c (c.chSchReadyI t) := by
  subst state
  have move : Move φ c _ := .wake t (c.pU t) unlisted.waits lt unlisted.foot
    fun timed => by cases unlisted.untimed.symm.trans timed
  rw [ok.sched.dequeue_of_not_queued unlisted.notQueued, show c.pU t = (c.chSchReadyI t).pU t from rfl, setU_self] at move
  exact .single move

/-- What `fifo_remove` and `lifo_remove` take out of a list of waiting threads. -/
structure Removed (q : QueueId) (c : Core) (t : Tid) (c' : Core) : Prop where
  eq : c' = c.dequeue t
  state : c.pState t = q.tstate
  lt : t < c.nthd

theorem SchedOk.removed {l : List Tid} (sched : SchedOk c) (mem : t ∈ c.queue q)
    (rest : (c.queue q).erase t = l) : Removed q c t (c.setQueue q l) := by
  obtain ⟨-, state, lt⟩ := sched.member q t mem
  refine ⟨?_, state, lt⟩
  have := sched.unlinked_eq mem
  rw [rest] at this
  exact congrArg (fun th : Threads => { c with toThreads := th }) this.symm

theorem Core.fifoRemove_some (removed : c.fifoRemove q = some (t, c')) : ∃ l, c.queue q = t :: l ∧ c' = c.setQueue q l := by
  unfold Core.fifoRemove at removed
  split at removed <;> cases removed
  next l first => exact ⟨l, first, rfl⟩

theorem Core.lifoRemove_some (removed : c.lifoRemove q = some (t, c')) :
    (c.queue q).getLast? = some t ∧ c' = c.setQueue q (c.queue q).dropLast := by
  unfold Core.lifoRemove at removed
  split at removed <;> cases removed
  next last => exact ⟨last, rfl⟩

theorem SchedOk.fifoRemove (sched : SchedOk c) (removed : c.fifoRemove q = some (t, c')) : Removed q c t c' := by
  obtain ⟨l, first, rfl⟩ := fifoRemove_some removed
  exact sched.removed (by rw [first]; exact .head _) (by rw [first, List.erase_cons_head])

theorem SchedOk.lifoRemove (sched : SchedOk c) (removed : c.lifoRemove q = some (t, c')) : Removed q c t c' := by
  obtain ⟨last, rfl⟩ := lifoRemove_some removed
  refine sched.removed (List.mem_of_getLast? last) ?_
  have nodup := sched.nodup q
  obtain ⟨l, is⟩ := List.getLast?_eq_some_iff.1 last
  rw [is] at nodup ⊢
  rw [List.dropLast_concat, List.erase_append_right, List.erase_cons_head, List.append_nil]
  exact fun mem => (List.nodup_append.1 nodup).2.2 _ mem _ (List.mem_singleton_self _) rfl

namespace Removed

variable {q : QueueId} {m : Msg}

section

variable (removed : Removed q c t c')
include removed

theorem waits (notReady : q ≠ .rQueue) : (c.pState t).waits = true := by
  rw [removed.state]
  cases q <;> first | rfl | exact absurd rfl notReady

/-- `chSchReadyI(…)->p_u.rdymsg = m`. -/
theorem readyMsg (notReady : q ≠ .rQueue) (foot : φ.state q.tstate = true)
    (msg : m ≠ rdyTimeout) : Moves φ c (c'.readyMsg t m) := by
  rw [removed.eq]
  exact .single (.wake t (.rdymsg m) (removed.waits notReady) removed.lt (by rwa [removed.state])
    fun _ => ⟨m, rfl, msg⟩)

/-- `chSchReadyI(…)` alone, where no timer and no message are involved. -/
theorem ready (notReady : q ≠ .rQueue) (foot : φ.state q.tstate = true)
    (untimed : q.tstate.timed = false) : Moves φ c (c'.chSchReadyI t) := by
  rw [removed.eq]
  have move : Move φ c _ := .wake t (c.pU t) (removed.waits notReady) removed.lt (by rwa [removed.state])
    fun timed => by rw [removed.state, untimed] at timed; cases timed
  rw [show c.pU t = ((c.dequeue t).chSchReadyI t).pU t from rfl, setU_self] at move
  exact .single move

theorem still : Still c c' := by
  rw [removed.eq]; exact ⟨rfl, rfl, rfl, rfl⟩

theorem wakeS (notReady : q ≠ .rQueue) (foot : φ.state q.tstate = true)
    (msg : m ≠ rdyTimeout) (thread : c.isr = []) (locked : c.locked = true)
    (below : ∀ r ∈ c.queue .rQueue, c.pPrio r ≤ max (c.pPrio c.currp) (c.pPrio t)) :
    Moves φ c (c'.chSchWakeupS t m) := by
  rw [removed.eq]
  exact .single (.wakeS t m thread locked (removed.waits notReady) removed.lt (by rwa [removed.state])
    (fun _ => msg) below)

end

end Removed

/-- Under the running thread's priority, also under a higher one. -/
theorem Top.below (top : Top c) (t : Tid) : ∀ r ∈ c.queue .rQueue, c.pPrio r ≤ max (c.pPrio c.currp) (c.pPrio t) :=
  fun r mem => le_trans (top r mem) (Nat.le_max_left ..)

/-- The loops that empty a list. -/
theorem flush_moves {ready : Tid → Core → Core}
    (step : ∀ {c t c'}, CoreOk c → Removed q c t c' → Moves φ c (ready t c') ∧ Still c (ready t c')) :
    ∀ (n : Nat) {c : Core}, CoreOk c → Moves φ c (c.flush q ready n) ∧ Still c (c.flush q ready n)
  | 0, c, _ => ⟨.refl c, .refl c⟩
  | n + 1, c, ok => by
    rw [flush]
    split
    · exact ⟨.refl c, .refl c⟩
    next t c' removed =>
      obtain ⟨first, still⟩ := step ok (ok.sched.fifoRemove removed)
      obtain ⟨rest, still'⟩ := flush_moves step n (first.coreOk ok)
      exact ⟨first.trans rest, still.trans still'⟩

theorem resetLoop_moves (sp : SemId) (foot : φ.sem = true) : ∀ (n : Nat) {c : Core}, CoreOk c →
    Moves φ c (Sys.resetLoop sp n c) ∧ Still c (Sys.resetLoop sp n c)
  | 0, c, _ => ⟨.refl c, .refl c⟩
  | n + 1, c, ok => by
    rw [Sys.resetLoop]
    split
    · exact ⟨.refl c, .refl c⟩
    next t c' removed =>
      have gone := ok.sched.lifoRemove removed
      have first : Moves φ c (c'.readyMsg t rdyReset) := gone.readyMsg nofun foot (by decide)
      obtain ⟨rest, still⟩ := resetLoop_moves sp foot n (first.coreOk ok)
      have readied : Still c' (c'.readyMsg t rdyReset) := ⟨rfl, rfl, rfl, rfl⟩
      exact ⟨first.trans rest, (gone.still.trans readied).trans still⟩

/-! ## Rescheduling -/

theorem SchedOk.le_firstprio (sched : SchedOk c) : ∀ r ∈ c.queue .rQueue, c.pPrio r ≤ c.firstprio := by
  intro r mem
  have sorted := sched.sorted .rQueue rfl
  rw [firstprio]
  cases first : c.queue .rQueue with
  | nil => rw [first] at mem; cases mem
  | cons h l => rw [first] at mem sorted; exact sorted.le_head mem

/-- Some thread is ready, and its priority is the first one. -/
theorem SchedOk.first_of_lt {n : Nat} (lt : n < c.firstprio) : ∃ h l, c.queue .rQueue = h :: l ∧ n < c.pPrio h := by
  rw [firstprio] at lt
  cases first : c.queue .rQueue with
  | nil => rw [first] at lt; exact absurd lt (Nat.not_lt_zero n)
  | cons h l => rw [first] at lt; exact ⟨h, l, rfl, lt⟩

theorem chSchRescheduleS_moves (ok : CoreOk c) (thread : c.isr = []) (locked : c.locked = true) :
    Moves φ c c.chSchRescheduleS := by
  rw [chSchRescheduleS]
  split
  next required =>
    obtain ⟨h, l, first, lt⟩ := SchedOk.first_of_lt (of_decide_eq_true required)
    exact .single (.ahead h l thread locked first lt)
  next notRequired =>
    have le : c.firstprio ≤ c.pPrio c.currp := by
      simpa [chSchIsRescRequiredI] using notRequired
    exact .single (.calm fun r mem => le_trans (ok.sched.le_firstprio r mem) le)

theorem chSchDoRescheduleBehind_moves (ok : CoreOk c) (thread : c.isr = []) (locked : c.locked = true)
    (le : c.pPrio c.currp ≤ c.firstprio) : Moves φ c c.chSchDoRescheduleBehind := by
  have pos := (ok.sched.prio _ ok.sched.currp_lt).1
  obtain ⟨h, l, first, _⟩ := SchedOk.first_of_lt (c := c) (n := 0) (by omega)
  refine .single (.behind h l thread locked first ?_)
  rwa [firstprio, first] at le

/-! ## The other lists -/

/-- All lists but the ready list are the same. -/
def SameLists (c c' : Core) : Prop := ∀ q, q ≠ .rQueue → c'.queue q = c.queue q

namespace SameLists

theorem refl (c : Core) : SameLists c c := fun _ _ => rfl

theorem trans (left : SameLists c c') (right : SameLists c' c'') : SameLists c c'' :=
  fun q other => (right q other).trans (left q other)

theorem ready {l : List Tid} (queue : c'.queue = update c.queue .rQueue l) : SameLists c c' :=
  fun q other => by rw [queue, update_of_ne other]

theorem runFirst (c : Core) : SameLists c c.runFirst := by
  cases first : c.queue .rQueue with
  | nil => simpa [Core.runFirst, fifoRemove, first] using refl c
  | cons h l =>
    rw [runFirst_eq first]
    exact ready rfl

theorem goSleepS (c : Core) (st : TState) : SameLists c (c.chSchGoSleepS st) := runFirst (c.parked st)

theorem goSleepTimeoutS (c : Core) (st : TState) (time : Systime) : SameLists c (c.chSchGoSleepTimeoutS st time) := by
  rw [chSchGoSleepTimeoutS]
  split
  · split
    · exact refl c
    · exact goSleepS _ st
  · exact goSleepS _ st

theorem wakeupS (c : Core) (t : Tid) (msg : Msg) : SameLists c (c.chSchWakeupS t msg) := by
  rw [chSchWakeupS]
  split <;> exact ready rfl

theorem rescheduleS (c : Core) : SameLists c c.chSchRescheduleS := by
  rw [chSchRescheduleS]
  split
  · exact (runFirst c).trans (ready rfl)
  · exact refl c

end SameLists

/-! ## Effects on the whole state -/

/-- The objects outside the foot are the same. -/
structure Objs (φ : Foot) (s s' : Sys) : Prop where
  sem : φ.sem = false → s'.toSemaphores = s.toSemaphores
  mtx : φ.mtx = false → s'.toMutexes = s.toMutexes
  mb : φ.mb = false → s'.toMailboxes = s.toMailboxes
  ioq : φ.ioq = false → s'.toIoQueues = s.toIoQueues
  evt : φ.evt = false → s'.toEvents = s.toEvents
  msg : φ.msg = false → s'.toMessages = s.toMessages
  reg : φ.reg = false → s'.toRegistry = s.toRegistry

theorem Objs.core : Objs φ s { s with toCore := c } := by constructor <;> exact fun _ => rfl

theorem Objs.onSem (on : φ.sem = true) {o : Semaphores} : Objs φ s { s with toCore := c, toSemaphores := o } :=
  { core (φ := φ) (c := c) with sem := fun off => nomatch on.symm.trans off }

theorem Objs.onMtx (on : φ.mtx = true) {o : Mutexes} : Objs φ s { s with toCore := c, toMutexes := o } :=
  { core (φ := φ) (c := c) with mtx := fun off => nomatch on.symm.trans off }

theorem Objs.onMb (onSem : φ.sem = true) (on : φ.mb = true) {o : Semaphores} {o' : Mailboxes} :
    Objs φ s { s with toCore := c, toSemaphores := o, toMailboxes := o' } :=
  { Objs.onSem (c := c) (o := o) onSem with mb := fun off => nomatch on.symm.trans off }

theorem Objs.onIoq (on : φ.ioq = true) {o : IoQueues} : Objs φ s { s with toCore := c, toIoQueues := o } :=
  { core (φ := φ) (c := c) with ioq := fun off => nomatch on.symm.trans off }

theorem Objs.onEvt (on : φ.evt = true) {o : Events} : Objs φ s { s with toCore := c, toEvents := o } :=
  { core (φ := φ) (c := c) with evt := fun off => nomatch on.symm.trans off }

theorem Objs.onMsg (on : φ.msg = true) {o : Messages} : Objs φ s { s with toCore := c, toMessages := o } :=
  { core (φ := φ) (c := c) with msg := fun off => nomatch on.symm.trans off }

theorem Objs.onReg (on : φ.reg = true) {o : Registry} : Objs φ s { s with toCore := c, toRegistry := o } :=
  { core (φ := φ) (c := c) with reg := fun off => nomatch on.symm.trans off }

theorem Objs.trans {φ : Foot} {s s' s'' : Sys} (left : Objs φ s s') (right : Objs φ s' s'') : Objs φ s s'' where
  sem off := (right.sem off).trans (left.sem off)
  mtx off := (right.mtx off).trans (left.mtx off)
  mb off := (right.mb off).trans (left.mb off)
  ioq off := (right.ioq off).trans (left.ioq off)
  evt off := (right.evt off).trans (left.evt off)
  msg off := (right.msg off).trans (left.msg off)
  reg off := (right.reg off).trans (left.reg off)

structure Effect (φ : Foot) (s s' : Sys) : Prop where
  moves : Moves φ s.toCore s'.toCore
  objs : Objs φ s s'

section

variable {φ : Foot} {s s' s'' : Sys} {f : Core → Core} {u : PU} {qs : QueueId → List Tid}

namespace Effect

theorem refl (s : Sys) : Effect φ s s := ⟨.refl _, .core⟩

theorem trans (left : Effect φ s s') (right : Effect φ s' s'') : Effect φ s s'' :=
  ⟨left.moves.trans right.moves, left.objs.trans right.objs⟩

/-- A function of the scheduler. -/
theorem onCore (moves : Moves φ s.toCore (f s.toCore)) : Effect φ s (s.onCore f) := ⟨moves, .core⟩

theorem coreOk (effect : Effect φ s s') (ok : CoreOk s.toCore) : CoreOk s'.toCore := effect.moves.coreOk ok

theorem ret (zone : Zone φ s.toCore) (r : Ret) : Effect φ s (s.ret r) := onCore (zone.ret r).1

end Effect

/-- The effect of a function for interrupt handlers. -/
structure IEffect (φ : Foot) (s s' : Sys) : Prop extends Effect φ s s' where
  still : Still s.toCore s'.toCore

namespace IEffect

theorem refl (s : Sys) : IEffect φ s s := ⟨.refl s, .refl _⟩

/-- Only objects change. -/
theorem of_objs (objs : Objs φ s s') (core : s'.toCore = s.toCore) : IEffect φ s s' :=
  ⟨⟨core ▸ .refl _, objs⟩, core ▸ .refl _⟩

theorem trans (left : IEffect φ s s') (right : IEffect φ s' s'') : IEffect φ s s'' :=
  ⟨left.toEffect.trans right.toEffect, left.still.trans right.still⟩

/-- A result, where the caller awaits no other. -/
theorem ret (r : Ret) (covered : s.isr = [] → ∀ f ∈ s.pCtx s.currp, φ.covers f = true) : IEffect φ s (s.ret r) :=
  ⟨.onCore (.single (.ret r covered)), ⟨rfl, rfl, rfl, rfl⟩⟩

theorem zone (effect : IEffect φ s s') (zone : Zone φ s.toCore) : Zone φ s'.toCore := zone.still effect.still

end IEffect

/-! ## Entering and leaving lock zones -/

theorem CtxOk.awake_of_unlocked {fs : List Frame} (ok : CtxOk false fs) : Awake fs := fun f is => by
  have := ok.head f is
  cases f <;> first | rfl | cases this

theorem CtxOk.plain_of_unlocked {fs : List Frame} (ok : CtxOk false fs) : Plain fs := by
  cases fs with
  | nil => nofun
  | cons f fs =>
    have unlocked := ok.head f rfl
    exact ok.plain (ok.awake_of_unlocked f rfl) (by cases f <;> first | rfl | cases unlocked)

/-- `chSysLock()` at the begin of a function. -/
def Sys.enter (s : Sys) : Sys := { s with locked := true }.onCore (.push .sysUnlock)

/-- The running thread is outside the kernel's lock, in its own code or at the
begin of a kernel function. -/
structure Outside (s : Sys) : Prop where
  thread : s.isr = []
  unlocked : s.locked = false
  notIdle : s.currp ≠ idleThread

/-- What has been put on top. -/
theorem Core.push_top (f : Frame) (c : Core) : (c.push f).pCtx (c.push f).currp = f :: c.pCtx c.currp := update_self ..

/-- The running thread at work in a lock zone: since `s` there has been an effect, and the thread has asked for nothing. -/
structure AtWork (φ : Foot) (s s' : Sys) : Prop where
  effect : Effect φ s s'
  ok : CoreOk s'.toCore
  zone : Zone φ s'.toCore
  plain : Plain (s'.pCtx s'.currp)

namespace AtWork

theorem start (ok : CoreOk s.toCore) (zone : Zone φ s.toCore) (plain : Plain (s.pCtx s.currp)) : AtWork φ s s :=
  ⟨.refl s, ok, zone, plain⟩

section

variable (work : AtWork φ s s')
include work

theorem step (next : IEffect φ s' s'') : AtWork φ s s'' :=
  ⟨work.effect.trans next.toEffect, next.coreOk work.ok, next.zone work.zone, next.still.plain work.plain⟩

theorem tell (r : Ret) : AtWork φ s (s'.ret r) := work.step (.ret r fun _ => work.zone.covered)

/-- The last thing that it does. -/
theorem moves (moves : Moves φ s'.toCore s''.toCore) (objs : Objs φ s' s'') : Effect φ s s'' :=
  work.effect.trans ⟨moves, objs⟩

theorem push (f : Frame) (notAsks : f.asks = none) (enters : Enters φ f (s'.pCtx s'.currp)) :
    AtWork φ s (s'.onCore (.push f)) := by
  obtain ⟨pushed, zone⟩ := work.zone.push work.ok enters work.plain
  refine ⟨work.moves pushed .core, pushed.coreOk work.ok, zone, ?_⟩
  rw [Sys.onCore_toCore, push_top]
  exact forall_mem_cons.2 ⟨notAsks, work.plain⟩

/-- A sleep whose message is the result. -/
theorem sleep (st : TState) (foot : φ.state st = true) (joins : Joins s'.toCore st u qs) :
    Moves φ s'.toCore ({ s'.toCore with
      pU := update s'.pU s'.currp u, queue := qs
      pCtx := update s'.pCtx s'.currp (.rdymsg :: s'.pCtx s'.currp) }.chSchGoSleepS st) :=
  work.zone.sleep st [.rdymsg] work.ok (work.plain.asksFor _) foot joins (.inr ⟨rfl, work.plain.indirect⟩)

theorem reschedule : Effect φ s (s'.onCore .chSchRescheduleS) :=
  work.moves (chSchRescheduleS_moves work.ok work.zone.thread work.zone.locked) .core

end

end AtWork

/-- The same while it may have asked for the state `st`. -/
structure Asking (φ : Foot) (st : TState) (s s' : Sys) : Prop where
  effect : Effect φ s s'
  ok : CoreOk s'.toCore
  zone : Zone φ s'.toCore
  asks : AsksFor st (s'.pCtx s'.currp)

section

variable {st : TState}

theorem Asking.moves (asking : Asking φ st s s') (moves : Moves φ s'.toCore s''.toCore)
    (objs : Objs φ s' s'') : Effect φ s s'' := asking.effect.trans ⟨moves, objs⟩

theorem AtWork.asking (work : AtWork φ s s') : Asking φ st s s' := ⟨work.effect, work.ok, work.zone, work.plain.asksFor st⟩

/-- A frame asks. -/
theorem AtWork.ask (work : AtWork φ s s') (f : Frame) (asks : f.asks = some st)
    (enters : Enters φ f (s'.pCtx s'.currp)) : Asking φ st s (s'.onCore (.push f)) := by
  obtain ⟨pushed, zone⟩ := work.zone.push work.ok enters work.plain
  refine ⟨work.moves pushed .core, pushed.coreOk work.ok, zone, ?_⟩
  rw [Sys.onCore_toCore, push_top]
  exact work.plain.push asks

end

/-- `chSysLock()` at the begin of a function. -/
theorem Outside.enter (outside : Outside s) (ok : CoreOk s.toCore) : AtWork φ s s.enter := by
  have ctx : CtxOk false (s.pCtx s.currp) := outside.unlocked ▸ ok.ctl.current
  have awake : Awake (.sysUnlock :: s.pCtx s.currp) := fun f is => by rw [← Option.some.inj is]; rfl
  have plain := ctx.plain_of_unlocked
  have plain' : Plain (s.enter.pCtx s.enter.currp) := by
    simpa [Sys.enter, Sys.onCore, push, Plain, Frame.asks] using plain
  have entered : Effect φ s s.enter := ⟨.single (.ctl (.sysUnlock :: s.pCtx s.currp) true outside.thread
    ctx.awake_of_unlocked awake ctx.lock ⟨plain.covered, forall_mem_cons.2 ⟨rfl, plain.covered⟩, rfl⟩
    fun is => absurd is outside.notIdle), .core⟩
  refine ⟨entered, entered.coreOk ok, ⟨outside.thread, rfl, outside.notIdle, ?_, plain'.covered⟩, plain'⟩
  simpa [Sys.enter, Sys.onCore, push] using awake

end

end ChibiOS.Kernel
