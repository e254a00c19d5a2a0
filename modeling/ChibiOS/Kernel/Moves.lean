import ChibiOS.Kernel.Machine
import ChibiOS.Kernel.SchedInv

/-!
# Moves

What the kernel does to `Core` is a sequence of moves: a thread is woken, goes to
sleep, gives the processor up, a frame is left or entered, a handler is entered,
a timer expires. `Move` lists them all, each under the condition that makes it
safe, and every invariant of `Core` is proved move by move.

A step of the machine may also change a kernel object. `Foot` says which kinds
it touches; the moves of a step stay within it, so an invariant about other
objects needs to know no more of the step than its foot.
-/

namespace ChibiOS.Kernel

open Function (update update_self update_of_ne update_comm update_eq_self update_eq_self_iff)
open Lib Kernel.Core

/-- The states that a timer can end. -/
def TState.timed : TState → Bool
  | .wtsem | .wtcond | .wtqueue | .sleeping | .wtorevt | .wtandevt => true
  | _ => false

/-! ## Contexts -/

namespace Frame

/-- The frames that the scheduler's own sleeps leave on top. -/
def sleeps : Frame → Bool
  | rdymsg | goSleepTimeout => true
  | _ => false

/-- A mailbox function that has asked for its token. -/
def isMb : Frame → Bool
  | mbPost .. | mbPostAhead .. | mbFetch _ => true
  | _ => false

/-- The frame of a function that has asked for something and sleeps for it: the
state in which it sleeps. -/
def asks : Frame → Option TState
  | mbPost .. | mbPostAhead .. | mbFetch _ => some .wtsem
  | iqGetWait .. | iqReadWait .. | oqPutWait .. | oqWriteWait .. => some .wtqueue
  | evtWait w _ _ => some w.tstate
  | msgWait => some .wtmsg
  | condWait _ | condWaitTimeout _ => some .wtcond
  | _ => none

/-- The frame reads `p_u` itself: no sleep of the scheduler is above it. -/
def direct : Frame → Bool
  | condWait _ | evtWait _ _ false | msgWait => true
  | _ => false

/-- A frame with nothing under it: one that runs unlocked, or that ends by
unlocking the kernel itself. -/
def last : Frame → Bool
  | thdRelease _ | thdReleaseCheck .. | regRemove .. | iqRead .. | iqReadWait .. | iqReadNext .. => true
  | oqWrite .. | oqWriteWait .. | oqWriteNext .. => true
  | _ => false

/-- What may be on top of `g`. A frame that runs unlocked is entered through
`chSysUnlock()`; a frame that has asked for something is under the sleep for it, if
that has not returned, and does not read `p_u` itself. -/
structure Over (f g : Frame) : Prop where
  notLast : f.last = false
  unlocks : g.unlocked = true ↔ f = .sysUnlock
  inner : g.sleeps = false
  token : g.asks ≠ none → f.sleeps = true
  direct : g.direct = false

end Frame

/-- A context that can go on with the kernel locked, or unlocked. -/
structure CtxOk (locked : Bool) (fs : List Frame) : Prop where
  chain : fs.IsChain Frame.Over
  head : ∀ f ∈ fs.head?, f.unlocked = !locked

/-- No sleep of the scheduler is on top. -/
def Awake (fs : List Frame) : Prop := ∀ f ∈ fs.head?, f.sleeps = false

/-- What has asked sleeps in the state `st`. -/
def AsksFor (st : TState) (fs : List Frame) : Prop := ∀ f ∈ fs, ∀ st', f.asks = some st' → st = st'

/-- What has asked is under a sleep of the scheduler, or reads `p_u` itself. -/
def Direct (fs : List Frame) : Prop := ∀ f ∈ fs.head?, f.asks ≠ none → f.direct = true

/-- What is on top does not read `p_u` itself, so a sleep may go over it. -/
def Indirect (fs : List Frame) : Prop := ∀ f ∈ fs.head?, f.direct = false

/-! ## Feet -/

/-- The kinds of object that a step touches. -/
structure Foot where
  sem : Bool := false
  mtx : Bool := false
  cnd : Bool := false
  mb : Bool := false
  ioq : Bool := false
  evt : Bool := false
  msg : Bool := false
  reg : Bool := false
  /-- The registry, outside the lock. -/
  rel : Bool := false
  /-- Threads that only wait for their time. -/
  slp : Bool := false
  /-- The system time, the timers that are due and their callbacks, and the timers of the application. -/
  clk : Bool := false

namespace Foot

/-- Threads may enter or leave the state. -/
def state (φ : Foot) : TState → Bool
  | .wtsem => φ.sem
  | .wtmtx => φ.mtx
  | .wtcond => φ.cnd
  | .wtqueue => φ.ioq
  | .wtorevt | .wtandevt => φ.evt
  | .sndmsgq | .sndmsg | .wtmsg => φ.msg
  | .final => φ.reg
  | .sleeping => φ.slp
  | _ => true

/-- The frames that have asked nothing, or something of a kind that the step touches. -/
def covers (φ : Foot) : Frame → Bool
  | .mbPost .. | .mbPostAhead .. | .mbFetch _ => φ.mb
  | .iqGetWait .. | .iqReadWait .. | .oqPutWait .. | .oqWriteWait .. => φ.ioq
  | .evtWait .. => φ.evt
  | .msgWait => φ.msg
  | .condWait _ | .condWaitTimeout _ => φ.cnd
  | _ => true

/-- The frames that stay where they are: a wait for a condition variable that has to
get its mutex back, a release of a thread reference that has to be made or
finished. A new thread has none. -/
def keeps (φ : Foot) : Frame → Bool
  | .condWait _ | .condWaitTimeout _ => !φ.mtx
  | .thdRelease _ | .thdReleaseCheck .. => !φ.reg
  | .regRemove .. => !(φ.reg && (φ.rel || φ.mtx))
  | _ => false

/-- The running thread's context may change so. -/
structure Ctx (φ : Foot) (fs fs' : List Frame) : Prop where
  old : ∀ f ∈ fs, φ.covers f = true
  new : ∀ f ∈ fs', φ.covers f = true
  kept : fs'.filter φ.keeps = fs.filter φ.keeps

end Foot

/-! ## The moves -/

/-- Where the running thread waits: in no list, or at some place in one. -/
inductive Joins (c : Core) (st : TState) (u : PU) : (QueueId → List Tid) → Prop
  | plain : st.queued = false → st ≠ .current → Joins c st u c.queue
  | queue (q : QueueId) (l : List Tid) : st = q.tstate → q ≠ .rQueue → l.Perm (c.currp :: c.queue q) →
      (q.byPrio = true → Descending c.pPrio l) → (q.isObj = true → u = .wtobjp q) → q.Exists c.nthd →
      Joins c st u (update c.queue q l)

/-- Whether a timer will end its sleep. -/
inductive Arms (c : Core) (st : TState) : List Frame → VTList VtId Callback Systime → List WaitEvent → Prop
  | untimed (fs : List Frame) : (∀ f ∈ fs, f ≠ .goSleepTimeout) → Arms c st fs c.vt c.hist
  | timed (time : Systime) (vt : VTList VtId Callback Systime) : st.timed = true →
      chVTSetI (.stack c.currp) time (.wakeup c.currp) c.vt = some vt → time ≠ timeImmediate →
      Arms c st [.goSleepTimeout] vt (.sleep c.currp :: c.hist)

/-- One round of the boosting loop of `chMtxLockS`. -/
def Core.boosted (tp : Tid) (prio : Nat) (c : Core) : Core :=
  let c := { c with pPrio := update c.pPrio tp prio }
  match c.pState tp, c.pU tp with
  | .wtmtx, .wtobjp (.mQueue mp) => (c.dequeue tp).prioInsert tp (.mQueue mp)
  | .wtcond, .wtobjp q => (c.dequeue tp).prioInsert tp q
  | .ready, _ => (c.dequeue tp).chSchReadyI tp
  | _, _ => c

inductive Move (φ : Foot) (c : Core) : Core → Prop
  | wake (t : Tid) (u : PU) : (c.pState t).waits = true → t < c.nthd → φ.state (c.pState t) = true →
      ((c.pState t).timed = true → ∃ m, u = .rdymsg m ∧ m ≠ rdyTimeout) →
      Move φ c (((c.dequeue t).chSchReadyI t).setU t u)
  | wakeS (t : Tid) (m : Msg) : c.isr = [] → c.locked = true →
      (c.pState t).waits = true → t < c.nthd → φ.state (c.pState t) = true →
      ((c.pState t).timed = true → m ≠ rdyTimeout) →
      (∀ r ∈ c.queue .rQueue, c.pPrio r ≤ max (c.pPrio c.currp) (c.pPrio t)) →
      Move φ c ((c.dequeue t).chSchWakeupS t m)
  /-- The timer of a sleep finds the thread asleep. -/
  | timeout (t : Tid) (isr : List Isr) : c.isr = .tick (some (.wakeup t)) :: isr → t < c.nthd →
      (c.pState t).timed = true → φ.state (c.pState t) = true → φ.clk = true →
      Move φ c { (c.dequeue t).readyTimeout t with isr := .tick none :: isr }
  /-- It finds it awake, or the timer is the application's. -/
  | callback (fn : Callback) (isr : List Isr) : c.isr = .tick (some fn) :: isr →
      (∀ t, fn = .wakeup t → c.pState t = .ready) → φ.clk = true → Move φ c { c with isr := .tick none :: isr }
  | sleep (st : TState) (u : PU) (qs : QueueId → List Tid) (fs : List Frame) (vt : VTList VtId Callback Systime)
      (hist : List WaitEvent) : c.isr = [] → c.locked = true → c.currp ≠ idleThread →
      φ.state st = true → Joins c st u qs → Arms c st fs vt hist →
      CtxOk true (fs ++ c.pCtx c.currp) → Awake (c.pCtx c.currp) →
      φ.Ctx (c.pCtx c.currp) (fs ++ c.pCtx c.currp) →
      AsksFor st (fs ++ c.pCtx c.currp) → Direct (fs ++ c.pCtx c.currp) →
      Move φ c ({ c with
        pU := update c.pU c.currp u, queue := qs, vt := vt, hist := hist
        pCtx := update c.pCtx c.currp (fs ++ c.pCtx c.currp) }.chSchGoSleepS st)
  | ahead (h : Tid) (l : List Tid) : c.isr = [] → c.locked = true → c.queue .rQueue = h :: l →
      c.pPrio c.currp < c.pPrio h → Move φ c c.chSchDoRescheduleAhead
  | behind (h : Tid) (l : List Tid) : c.isr = [] → c.locked = true → c.queue .rQueue = h :: l →
      c.pPrio c.currp ≤ c.pPrio h → Move φ c c.chSchDoRescheduleBehind
  /-- The running thread is found to be the right one. -/
  | calm : Top c → Move φ c { c with due := false }
  /-- The running thread enters or leaves frames, locks or unlocks. -/
  | ctl (fs : List Frame) (locked : Bool) : c.isr = [] → Awake (c.pCtx c.currp) → Awake fs → CtxOk locked fs →
      φ.Ctx (c.pCtx c.currp) fs → (c.currp = idleThread → ∀ f ∈ fs, f = .sysUnlock) →
      Move φ c { c with pCtx := update c.pCtx c.currp fs, locked := locked }
  | ret (r : Ret) : (c.isr = [] → ∀ f ∈ c.pCtx c.currp, φ.covers f = true) → Move φ c (c.ret r)
  | rdymsg (fs : List Frame) : c.isr = [] → c.locked = true → c.pCtx c.currp = .rdymsg :: fs →
      Move φ c ({ c with pCtx := update c.pCtx c.currp fs }.ret (.msg (c.rdymsg c.currp)))
  | sleepReturn (fs : List Frame) : c.isr = [] → c.locked = true → c.pCtx c.currp = .goSleepTimeout :: fs →
      Move φ c { c with pCtx := update c.pCtx c.currp fs }.sleepReturn
  | setU (u : PU) : Awake (c.pCtx c.currp) → (∀ f ∈ c.pCtx c.currp, φ.covers f = true) → Move φ c (c.setU c.currp u)
  /-- A message is received: its sender has been queued, and waits for the answer. -/
  | take (t : Tid) (l : List Tid) : φ.msg = true → c.queue (.pMsgqueue c.currp) = t :: l →
      Move φ c { c with
        queue := update c.queue (.pMsgqueue c.currp) l, pState := update c.pState t .sndmsg }
  | create (prio : Nat) : φ.mtx = true → φ.reg = true → 1 ≤ prio → prio ≤ highPrio →
      Move φ c { c with
        nthd := c.nthd + 1
        pPrio := update c.pPrio c.nthd prio
        pState := update c.pState c.nthd .suspended
        pPreempt := update c.pPreempt c.nthd chTimeQuantum
        pCtx := update c.pCtx c.nthd [.sysUnlock]
        queue := update (update c.queue (.pWaiting c.nthd) []) (.pMsgqueue c.nthd) [] }
  | boost (t : Tid) (prio : Nat) : φ.mtx = true → φ.cnd = true → t ≠ c.currp → t < c.nthd → c.pPrio t < prio → prio ≤ highPrio →
      Move φ c (c.boosted t prio)
  | ownPrio (prio : Nat) : φ.mtx = true → 1 ≤ prio → prio ≤ highPrio →
      Move φ c { c with pPrio := update c.pPrio c.currp prio, due := true }
  | isrEnter : c.locked = false → Move φ c { c with isr := .handler :: c.isr }
  | isrExit (isr : List Isr) : c.isr = .handler :: isr → Move φ c { c with isr := isr }
  | tick (c' : Core) : c.locked = false → c.isr.all (· = .handler) = true → c.chSysTimerHandlerI = some c' →
      φ.clk = true → Move φ c c'
  | tickLoop (isr : List Isr) (r : VTList VtId Callback Systime × Option (VtId × Option Callback)) :
      c.isr = .tick none :: isr → vtExpire c.vt = some r → φ.clk = true → Move φ c (c.tickLoop isr r)
  | vtSet (n : Nat) (time : Systime) (vt : VTList VtId Callback Systime) : chVTIsArmedI (.app n) c.vt = false →
      chVTSetI (.app n) time (.app n) c.vt = some vt → φ.clk = true → Move φ c { c with vt := vt }
  | vtReset (n : Nat) : φ.clk = true → Move φ c { c with vt := chVTResetI (.app n) c.vt }

/-- A sequence of moves. -/
def Moves (φ : Foot) : Core → Core → Prop := Relation.ReflTransGen (Move φ)

/-! ## The lists and the running thread -/

variable {φ : Foot} {c c' : Core} {t : Tid} {l : List Tid} {st : TState} {h : Tid} {q : QueueId} {fs : List Frame}

theorem TState.waits_ne_current (waits : st.waits = true) : st ≠ .current := by
  rintro rfl; cases waits

theorem TState.waits_ne_ready (waits : st.waits = true) : st ≠ .ready := by
  rintro rfl; cases waits

theorem TState.timed_waits (timed : st.timed = true) : st.waits = true := by
  cases st <;> first | rfl | cases timed

theorem SchedOk.lt_of_ne_suspended (ok : SchedOk c) (state : c.pState t ≠ .suspended) : t < c.nthd := by
  by_contra ge
  exact state (ok.fresh t (not_lt.1 ge)).1

theorem QueueId.isObj_of_tstate {q' : QueueId} (isObj : q.isObj = true) (same : q'.tstate = q.tstate) :
    q'.isObj = true := by
  cases q <;> cases q' <;> simp_all [QueueId.isObj, tstate]

section

variable (ok : SchedOk c)
include ok

/-- The members of a list are the threads whose state and `wtobjp` say so. -/
theorem SchedOk.mem_iff_obj (isObj : q.isObj = true) :
    t ∈ c.queue q ↔ c.pState t = q.tstate ∧ c.pU t = .wtobjp q := by
  constructor
  · intro mem
    exact ⟨(ok.member q t mem).2.1, ok.obj q t mem isObj⟩
  · rintro ⟨state, obj⟩
    have lt : t < c.nthd := ok.lt_of_ne_suspended (by rw [state]; cases q <;> nofun)
    obtain ⟨q', mem⟩ := ok.queued t lt nofun (by rw [state]; exact q.tstate_queued)
    have same : q'.tstate = q.tstate := (ok.member q' t mem).2.1.symm.trans state
    have obj' := ok.obj q' t mem (QueueId.isObj_of_tstate isObj same)
    cases obj.symm.trans obj'
    exact mem

theorem SchedOk.waits_ne_currp (waits : (c.pState t).waits = true) : t ≠ c.currp := by
  rintro rfl
  exact TState.waits_ne_current waits ((ok.current _ (by simp)).2 rfl)

theorem SchedOk.waits_ne_idle (waits : (c.pState t).waits = true) : t ≠ idleThread := by
  rintro rfl
  rcases ok.idle.2 with is | is | is
  · cases is
  · exact TState.waits_ne_ready waits is
  · exact ok.waits_ne_currp waits (Option.some.inj is).symm

theorem SchedOk.currp_lt : c.currp < c.nthd := (ok.curLt _ rfl).1

theorem SchedOk.currp_state : c.pState c.currp = .current := (ok.current _ (by simp)).2 rfl

theorem SchedOk.currp_not_mem (q : QueueId) : c.currp ∉ c.queue q :=
  ok.not_mem (by rw [ok.currp_state]; rfl) q

theorem SchedOk.waits_not_ready (waits : (c.pState t).waits = true) : t ∉ c.queue .rQueue :=
  fun mem => TState.waits_ne_ready waits (ok.member _ _ mem).2.1

theorem SchedOk.ready_first (first : c.queue .rQueue = h :: l) : c.pState h = .ready ∧ h ≠ c.currp := by
  have mem : h ∈ c.queue .rQueue := by rw [first]; exact .head _
  refine ⟨(ok.member .rQueue h mem).2.1, ?_⟩
  rintro rfl
  exact ok.currp_not_mem .rQueue mem

/-- Unlinking a waiting thread leaves the ready list alone. -/
theorem SchedOk.dequeue_ready (waits : (c.pState t).waits = true) : (c.dequeue t).queue .rQueue = c.queue .rQueue :=
  List.erase_of_not_mem (ok.waits_not_ready waits)

theorem SchedOk.wake (waits : (c.pState t).waits = true) (lt : t < c.nthd) (u : PU) :
    SchedOk (((c.dequeue t).chSchReadyI t).setU t u) := by
  have floats := ok.unlink lt fun same => ok.waits_ne_currp waits (Option.some.inj same).symm
  exact (floats.setU fun q _ => floats.float_not_mem q).ready

/-- The running thread is ready and the processor is free. -/
theorem SchedOk.release :
    SchedAt none none (c.toThreads.enqueued c.currp .rQueue (insertBehind c.pPrio c.currp (c.queue .rQueue))) :=
  ok.preempted.ready

theorem SchedOk.wakeS (waits : (c.pState t).waits = true) (lt : t < c.nthd) (m : Msg) :
    SchedOk ((c.dequeue t).chSchWakeupS t m) := by
  have other := ok.waits_ne_currp waits
  rw [chSchWakeupS]
  split
  · have floats := ok.unlink lt fun same => other (Option.some.inj same).symm
    exact (floats.setU fun q _ => floats.float_not_mem q).ready
  · -- the running thread goes first, so that one thread at a time is in no list
    have floats := ok.release.unlink lt (by simp)
    have runs := (floats.setU (u := .rdymsg m) fun q _ => floats.float_not_mem q).dispatch
    have notReady := ok.waits_not_ready waits
    have sameQueue : (fun q => (update c.queue .rQueue (insertBehind c.pPrio c.currp (c.queue .rQueue)) q).erase t) =
        update (c.dequeue t).queue .rQueue (insertBehind c.pPrio c.currp ((c.dequeue t).queue .rQueue)) := by
      funext q
      by_cases same : q = .rQueue
      · subst same
        rw [update_self, update_self, ok.dequeue_ready waits]
        exact List.erase_of_not_mem (by simp [other, notReady])
      · rw [update_of_ne same, update_of_ne same]; rfl
    simp only [Threads.unlinked, Threads.enqueued, sameQueue] at runs
    exact runs

end

/-- The first ready thread runs. -/
def Core.switch (h : Tid) (l : List Tid) (c : Core) : Core :=
  { c with
    currp := h
    queue := update c.queue .rQueue l
    pState := update c.pState h .current }

theorem Core.runFirst_eq (first : c.queue .rQueue = h :: l) : c.runFirst = c.switch h l := by
  simp only [runFirst, fifoRemove, first]
  rfl

/-- With the processor free, the idle thread is ready. -/
theorem SchedAt.ready_ne_nil {c : Threads} (ok : SchedAt none none c) : ∃ h l, c.queue .rQueue = h :: l := by
  rcases ok.idle.2 with is | is | is
  · cases is
  · exact List.exists_cons_of_ne_nil (List.ne_nil_of_mem (ok.mem_ready ok.idle.1 (by simp) is))
  · cases is

/-- The running thread has joined those who wait. -/
theorem SchedOk.joins {u : PU} {qs : QueueId → List Tid} (ok : SchedOk c) (notIdle : c.currp ≠ idleThread)
    (joins : Joins c st u qs) :
    SchedAt none none
      { c with pU := update c.pU c.currp u, queue := qs, pState := update c.pState c.currp st } := by
  have floats := ok.preempted.setU (u := u) fun q _ => ok.preempted.float_not_mem q
  cases joins with
  | plain notQueued notCurrent => exact floats.park notQueued notCurrent notIdle
  | queue q l isTstate notReady perm sorted obj exists_ =>
    subst isTstate
    exact floats.enqueue perm sorted (fun isObj => by simp [obj isObj]) exists_ fun bad => absurd bad notIdle

/-- The first half of `chSchGoSleepS`. -/
def Core.parked (st : TState) (c : Core) : Core :=
  { c with
    pState := update c.pState c.currp st
    pPreempt := update c.pPreempt c.currp chTimeQuantum }

theorem Core.chSchGoSleepS_eq (first : c.queue .rQueue = h :: l) :
    c.chSchGoSleepS st = { (c.parked st).switch h l with due := false } := by
  rw [← runFirst_eq (c := c.parked st) first]
  rfl

/-- The running thread as it goes to sleep. -/
abbrev Core.joined (u : PU) (qs : QueueId → List Tid) (fs : List Frame) (vt : VTList VtId Callback Systime)
    (hist : List WaitEvent) (c : Core) : Core :=
  { c with
    pU := update c.pU c.currp u, queue := qs, vt := vt, hist := hist
    pCtx := update c.pCtx c.currp (fs ++ c.pCtx c.currp) }

section

variable (ok : SchedOk c)
include ok

theorem SchedOk.sleep {u : PU} {qs : QueueId → List Tid} (notIdle : c.currp ≠ idleThread)
    (joins : Joins c st u qs) (fs : List Frame) (vt : VTList VtId Callback Systime) (hist : List WaitEvent) :
    ∃ h l, c.queue .rQueue = h :: l ∧
      (c.joined u qs fs vt hist).chSchGoSleepS st = { ((c.joined u qs fs vt hist).parked st).switch h l with due := false } ∧
      SchedOk ((c.joined u qs fs vt hist).chSchGoSleepS st) ∧ Top ((c.joined u qs fs vt hist).chSchGoSleepS st) := by
  have parked : SchedAt none none ((c.joined u qs fs vt hist).parked st).toThreads := ok.joins notIdle joins
  obtain ⟨h, l, first⟩ := parked.ready_ne_nil
  have ready : c.queue .rQueue = h :: l := by
    cases joins with
    | plain => exact first
    | queue q l' _ notReady => exact (update_of_ne notReady.symm ..).symm.trans first
  have is : (c.joined u qs fs vt hist).chSchGoSleepS st = _ := chSchGoSleepS_eq first
  refine ⟨h, l, ready, is, ?_⟩
  rw [is]
  refine ⟨parked.run first, fun r mem => ?_⟩
  have sorted := parked.sorted .rQueue rfl
  rw [first] at sorted
  exact sorted.le_head (List.mem_cons_of_mem h (by simpa [switch] using mem))

/-- The running thread has gone back among the ready ones, behind the first. -/
theorem SchedOk.yields {l' : List Tid} (first : c.queue .rQueue = h :: l)
    (perm : l'.Perm (c.currp :: l)) (sorted : Descending c.pPrio (h :: l')) (currp : c'.currp = h)
    (threads : c'.toThreads = { c with queue := update c.queue .rQueue l', pState := update (update c.pState h .current) c.currp .ready }) :
    SchedOk c' := by
  have queued := ok.preempted.enqueue (q := .rQueue) (l := h :: l')
    (by rw [first]; exact (perm.cons h).trans (.swap ..)) (fun _ => sorted) nofun trivial fun _ => rfl
  have runs := queued.run (h := h) (l := l') (by simp [Threads.enqueued])
  have other : h ≠ c.currp := by
    rintro rfl
    exact ok.currp_not_mem .rQueue (by rw [first]; exact .head _)
  rw [SchedOk, threads, currp, update_comm other]
  simpa [Threads.enqueued, QueueId.tstate] using runs

theorem SchedOk.behind (first : c.queue .rQueue = h :: l)
    (le : c.pPrio c.currp ≤ c.pPrio h) : SchedOk c.chSchDoRescheduleBehind := by
  have sorted := (ok.sorted .rQueue rfl).insertBehind c.currp
  rw [first, insertBehind, if_pos le] at sorted
  refine ok.yields first (insertBehind_perm ..) sorted ?_ ?_ <;>
    simp [chSchDoRescheduleBehind, runFirst_eq first, switch, chSchReadyI]

theorem SchedOk.ahead (first : c.queue .rQueue = h :: l) (lt : c.pPrio c.currp < c.pPrio h) : SchedOk c.chSchDoRescheduleAhead := by
  have sorted := (ok.sorted .rQueue rfl).insertAhead c.currp
  rw [first, insertAhead, if_pos lt] at sorted
  refine ok.yields first (insertAhead_perm ..) sorted ?_ ?_ <;>
    simp [chSchDoRescheduleAhead, runFirst_eq first, switch]

/-- The cases of `boosted`: back into the list the thread is in, or in no list
that depends on its priority. -/
theorem SchedOk.boosted_cases (lt : t < c.nthd) (prio : Nat) : (∃ q, q.byPrio = true ∧ q ≠ .rQueue ∧ t ∈ c.queue q ∧
      c.boosted t prio = ({ c with pPrio := update c.pPrio t prio }.dequeue t).prioInsert t q) ∨
    (t ∈ c.queue .rQueue ∧ c.boosted t prio = ({ c with pPrio := update c.pPrio t prio }.dequeue t).chSchReadyI t) ∨
    ((∀ q, q.byPrio = true → t ∉ c.queue q) ∧ c.boosted t prio = { c with pPrio := update c.pPrio t prio }) := by
  have inList : (c.pState t).queued = true → ∃ q, t ∈ c.queue q ∧ c.pState t = q.tstate := fun queued => by
    obtain ⟨q, mem⟩ := ok.queued t lt (by simp) queued
    exact ⟨q, mem, (ok.member q t mem).2.1⟩
  rw [boosted]
  split
  next mp state obj =>
    obtain ⟨q, mem, is⟩ := inList (state ▸ rfl)
    cases q <;> cases state.symm.trans is
    cases (ok.obj _ t mem rfl).symm.trans obj
    exact .inl ⟨_, rfl, by simp, mem, rfl⟩
  next q' state obj =>
    obtain ⟨q, mem, is⟩ := inList (state ▸ rfl)
    cases q <;> cases state.symm.trans is
    cases (ok.obj _ t mem rfl).symm.trans obj
    exact .inl ⟨_, rfl, by simp, mem, rfl⟩
  next state =>
    exact .inr (.inl ⟨ok.mem_ready lt (by simp) state, rfl⟩)
  next notReady notMtx notCond =>
    refine .inr (.inr ⟨fun q byPrio mem => ?_, rfl⟩)
    have state := (ok.member q t mem).2.1
    have obj := ok.obj q t mem
    cases q <;> simp only [QueueId.byPrio, reduceCtorEq] at byPrio
    · exact notReady state
    · exact notMtx _ state (obj rfl)
    · exact notCond _ state (obj rfl)

theorem SchedOk.boost {prio : Nat} (lt : t < c.nthd) (other : t ≠ c.currp) (le : 1 ≤ prio)
    (ge : prio ≤ highPrio) : SchedOk (c.boosted t prio) := by
  have floats := ok.unlink lt fun same => other (Option.some.inj same).symm
  have raised := floats.setPrio le ge fun q _ => floats.float_not_mem q
  rcases ok.boosted_cases lt prio with ⟨q, byPrio, notReady, mem, eq⟩ | ⟨_, eq⟩ | ⟨free, eq⟩ <;> rw [eq]
  · have member := ok.member q t mem
    have back := raised.enqueue (insertBehind_perm ..) (fun byPrio => (raised.sorted q byPrio).insertBehind t)
      (fun isObj => ok.obj q t mem isObj) (by cases q <;> trivial)
      fun isIdle => absurd isIdle (ok.waits_ne_idle (by rw [member.2.1]; cases q <;> first | rfl | cases notReady rfl))
    rwa [Threads.enqueued, show update _ t q.tstate = c.pState from member.2.1 ▸ update_eq_self _ _] at back
  · exact raised.ready
  · exact ok.setPrio le ge free

theorem SchedOk.take (first : c.queue (.pMsgqueue c.currp) = t :: l) :
    SchedOk { c with queue := update c.queue (.pMsgqueue c.currp) l, pState := update c.pState t .sndmsg } := by
  have mem : t ∈ c.queue (.pMsgqueue c.currp) := by rw [first]; exact .head _
  have member := ok.member _ t mem
  have waits : (c.pState t).waits = true := by rw [member.2.1]; rfl
  have floats := ok.unlink member.2.2 fun same => ok.waits_ne_currp waits (Option.some.inj same).symm
  rw [ok.unlinked_eq mem, first, List.erase_cons_head] at floats
  exact floats.park rfl nofun (ok.waits_ne_idle waits)

/-- Every move keeps the threads where their states say. -/
theorem Move.schedOk (move : Move φ c c') : SchedOk c' := by
  cases move with
  | wake t u waits lt => exact ok.wake waits lt u
  | wakeS t m _ _ waits lt => exact ok.wakeS waits lt m
  | timeout t _ _ lt timed => exact ok.wake (TState.timed_waits timed) lt (.rdymsg rdyTimeout)
  | sleep st u qs fs vt hist _ _ notIdle _ joins =>
    obtain ⟨_, _, _, _, ok', _⟩ := ok.sleep notIdle joins fs vt hist
    exact ok'
  | ahead h l _ _ first lt => exact ok.ahead first lt
  | behind h l _ _ first le => exact ok.behind first le
  | setU u => exact SchedAt.setU ok fun q _ => ok.currp_not_mem q
  | take t l _ first => exact ok.take first
  | create prio _ _ le ge => exact SchedAt.create ok le ge
  | boost t prio _ _ other lt less ge =>
    exact ok.boost lt other (lt_of_le_of_lt (ok.prio t lt).1 less).le ge
  | ownPrio prio _ le ge => exact SchedAt.setPrio ok le ge fun q _ => ok.currp_not_mem q
  | sleepReturn fs =>
    rw [Core.sleepReturn]
    split <;> exact ok
  | tick c' _ _ ticked =>
    obtain ⟨⟨vt, r⟩, _, rfl⟩ := Option.map_eq_some_iff.1 ticked
    cases r <;> exact ok
  | tickLoop isr r =>
    obtain ⟨vt, r⟩ := r
    cases r <;> exact ok
  | callback | calm | ctl | ret | rdymsg | isrEnter | isrExit | vtSet | vtReset => exact ok

theorem Moves.schedOk (moves : Moves φ c c') : SchedOk c' := by
  induction moves with
  | refl => exact ok
  | tail _ move ih => exact move.schedOk ih

end

/-! ## The choice of the running thread -/

/-- Unless a choice is due, the running thread is the right one. -/
def Calm (c : Core) : Prop := c.due = false → Top c

/-- What is first in the ready list may run. -/
theorem SchedOk.le_first (ok : SchedOk c) (first : c.queue .rQueue = h :: l) : ∀ r ∈ l, c.pPrio r ≤ c.pPrio h := by
  have sorted := ok.sorted .rQueue rfl
  rw [first] at sorted
  exact fun r mem => sorted.le_head (List.mem_cons_of_mem h mem)

theorem SchedOk.top_wakeS (ok : SchedOk c) (waits : (c.pState t).waits = true) (m : Msg)
    (below : ∀ r ∈ c.queue .rQueue, c.pPrio r ≤ max (c.pPrio c.currp) (c.pPrio t)) :
    Top ((c.dequeue t).chSchWakeupS t m) := by
  rw [chSchWakeupS]
  split
  next le =>
    replace le : c.pPrio t ≤ c.pPrio c.currp := le
    intro r mem
    simp only [chSchReadyI, setU, update_self, mem_insertBehind, ok.dequeue_ready waits] at mem
    change c.pPrio r ≤ c.pPrio c.currp
    rcases mem with rfl | mem
    · exact le
    · have := below r mem; omega
  next lt =>
    replace lt : ¬ c.pPrio t ≤ c.pPrio c.currp := lt
    intro r mem
    simp only [chSchReadyI, setU, update_self, mem_insertBehind, ok.dequeue_ready waits] at mem
    change c.pPrio r ≤ c.pPrio t
    rcases mem with rfl | mem
    · change c.pPrio c.currp ≤ c.pPrio t; omega
    · have := below r mem; omega

theorem SchedOk.top_boost {prio : Nat} (ok : SchedOk c) (calm : Calm c) (lt : t < c.nthd) (other : t ≠ c.currp) :
    Calm (c.boosted t prio) := by
  have currp : update c.pPrio t prio c.currp = c.pPrio c.currp := update_of_ne other.symm _ _
  rcases ok.boosted_cases lt prio with ⟨q, byPrio, notReady, mem, eq⟩ | ⟨_, eq⟩ | ⟨free, eq⟩ <;> rw [eq]
  · have notMem : t ∉ c.queue .rQueue := fun mem' => notReady (ok.unique _ _ _ mem mem')
    intro due r memR
    have inReady : r ∈ c.queue .rQueue := by
      have := update_of_ne (f := fun q => (c.queue q).erase t) (Ne.symm notReady)
        (insertBehind (update c.pPrio t prio) t ((c.queue q).erase t))
      simp only [prioInsert, setQueue, dequeue, this] at memR
      exact List.mem_of_mem_erase memR
    change update c.pPrio t prio r ≤ update c.pPrio t prio c.currp
    rw [currp, update_of_ne (ne_of_mem_of_not_mem inReady notMem)]
    exact calm due r inReady
  · intro due; cases due
  · intro due r memR
    change update c.pPrio t prio r ≤ update c.pPrio t prio c.currp
    rw [currp, update_of_ne (ne_of_mem_of_not_mem memR (free .rQueue rfl))]
    exact calm due r memR

theorem Move.keeps_calm (move : Move φ c c') (ok : SchedOk c) (calm : Calm c) : Calm c' := by
  cases move with
  | wake | timeout | ownPrio => intro due; cases due
  | wakeS t m _ _ waits _ _ _ below => exact fun _ => ok.top_wakeS waits m below
  | sleep st u qs fs vt hist _ _ notIdle _ joins =>
    obtain ⟨_, _, _, _, _, top⟩ := ok.sleep notIdle joins fs vt hist
    exact fun _ => top
  | ahead h l _ _ first lt =>
    intro _ r mem
    rw [chSchDoRescheduleAhead, runFirst_eq first] at mem ⊢
    simp only [update_self, mem_insertAhead] at mem
    rcases mem with rfl | mem
    · exact le_of_lt lt
    · exact ok.le_first first r mem
  | behind h l _ _ first le =>
    intro _ r mem
    rw [chSchDoRescheduleBehind, runFirst_eq first] at mem ⊢
    simp only [chSchReadyI, update_self, mem_insertBehind] at mem
    rcases mem with rfl | mem
    · exact le
    · exact ok.le_first first r mem
  | calm top => exact fun _ => top
  | take t l _ first => exact fun due r mem => calm due r (by simpa using mem)
  | create prio =>
    intro due r mem
    have mem : r ∈ c.queue .rQueue := by simpa using mem
    have newer := (ok.member _ r mem).2.2
    simp only [update_of_ne (Nat.ne_of_lt newer), update_of_ne (Nat.ne_of_lt ok.currp_lt)]
    exact calm due r mem
  | boost t prio _ _ other lt => exact ok.top_boost calm lt other
  | sleepReturn fs =>
    rw [Core.sleepReturn]
    split <;> exact calm
  | tick c' _ _ ticked =>
    obtain ⟨⟨vt, r⟩, _, rfl⟩ := Option.map_eq_some_iff.1 ticked
    cases r <;> exact calm
  | tickLoop isr r =>
    obtain ⟨vt, r⟩ := r
    cases r <;> exact calm
  | setU | callback | ctl | ret | rdymsg | isrEnter | isrExit | vtSet | vtReset => exact calm

/-! ## What a move leaves alone -/

theorem SchedOk.erase_eq (ok : SchedOk c) (other : c.pState t ≠ q.tstate) : (c.queue q).erase t = c.queue q :=
  List.erase_of_not_mem fun mem => other (ok.member q t mem).2.1

/-- The lists of a state outside the foot. -/
theorem Move.queue_eq (move : Move φ c c') (ok : SchedOk c) (off : φ.state q.tstate = false) :
    c'.queue q = c.queue q := by
  have notReady : q ≠ .rQueue := by rintro rfl; cases off
  have notState : ∀ {st : TState}, φ.state st = true → st ≠ q.tstate := by
    rintro _ on rfl
    cases on.symm.trans off
  cases move with
  | wake t u _ _ on | timeout t _ _ _ _ on => exact (update_of_ne notReady ..).trans (ok.erase_eq (notState on))
  | wakeS t m _ _ _ _ on =>
    rw [chSchWakeupS]
    split <;> exact (update_of_ne notReady ..).trans (ok.erase_eq (notState on))
  | sleep st u qs fs vt hist _ _ notIdle on joins =>
    obtain ⟨h, l, _, is, _⟩ := ok.sleep notIdle joins fs vt hist
    rw [is]
    refine (update_of_ne notReady ..).trans ?_
    cases joins with
    | plain => rfl
    | queue q' l isTstate =>
      refine update_of_ne ?_ ..
      rintro rfl
      exact notState on isTstate
  | ahead h l _ _ first | behind h l _ _ first =>
    simp only [chSchDoRescheduleAhead, chSchDoRescheduleBehind, runFirst_eq first]
    exact (update_of_ne notReady ..).trans (update_of_ne notReady ..)
  | take t l on =>
    refine update_of_ne ?_ ..
    rintro rfl
    exact notState (show φ.state .sndmsgq = true from on) rfl
  | create prio =>
    obtain ⟨-, waiting, msgs⟩ := ok.fresh c.nthd le_rfl
    have empty : update c.queue (.pWaiting c.nthd) [] = c.queue := update_eq_self_iff.2 waiting.symm
    dsimp only
    rw [empty, update_eq_self_iff.2 msgs.symm]
  | boost t prio on onCnd other lt =>
    rcases ok.boosted_cases lt prio with ⟨q', byPrio, notReady', mem, eq⟩ | ⟨mem, eq⟩ | ⟨_, eq⟩ <;> rw [eq]
    · have on' : φ.state q'.tstate = true := by cases q' <;> first | exact on | exact onCnd | rfl | cases byPrio
      have apart : q ≠ q' := by
        rintro rfl
        exact notState on' rfl
      refine (update_of_ne apart ..).trans (ok.erase_eq ?_)
      rw [(ok.member q' t mem).2.1]
      exact notState on'
    · refine (update_of_ne notReady ..).trans (ok.erase_eq ?_)
      rw [(ok.member _ t mem).2.1]
      exact notState rfl
  | sleepReturn fs =>
    rw [Core.sleepReturn]
    split <;> rfl
  | tick c' _ _ ticked =>
    obtain ⟨⟨vt, r⟩, _, rfl⟩ := Option.map_eq_some_iff.1 ticked
    cases r <;> rfl
  | tickLoop isr r =>
    obtain ⟨vt, r⟩ := r
    cases r <;> rfl
  | callback | calm | ctl | ret | rdymsg | setU | ownPrio | isrEnter | isrExit | vtSet | vtReset => rfl

theorem Core.runFirst_prio : c.runFirst.pPrio = c.pPrio ∧ c.runFirst.nthd = c.nthd := by
  cases first : c.queue .rQueue with
  | nil => simp [runFirst, fifoRemove, first]
  | cons h l => rw [runFirst_eq first]; exact ⟨rfl, rfl⟩

theorem Core.boosted_prio (t : Tid) (n : Nat) : (c.boosted t n).pPrio = update c.pPrio t n ∧ (c.boosted t n).nthd = c.nthd := by
  rw [boosted]
  split <;> exact ⟨rfl, rfl⟩

/-- Priorities change, and threads are created, with the mutexes: a new thread gets its priority, or a
thread that may wait for a condition variable, or the running one, gets another. -/
theorem Move.prio_cases (move : Move φ c c') : (c'.pPrio = c.pPrio ∧ c'.nthd = c.nthd) ∨ φ.mtx = true ∧
    ((φ.reg = true ∧ c'.nthd = c.nthd + 1 ∧ ∃ p, c'.pPrio = update c.pPrio c.nthd p) ∨
      (c'.nthd = c.nthd ∧ ∃ t p, c'.pPrio = update c.pPrio t p ∧ (φ.cnd = true ∨ t = c.currp))) := by
  cases move with
  | create prio on reg => exact .inr ⟨on, .inl ⟨reg, rfl, prio, rfl⟩⟩
  | boost t prio on cnd =>
    obtain ⟨prios, same⟩ := boosted_prio t prio
    exact .inr ⟨on, .inr ⟨same, t, prio, prios, .inl cnd⟩⟩
  | ownPrio prio on => exact .inr ⟨on, .inr ⟨rfl, c.currp, prio, rfl, .inr rfl⟩⟩
  | wakeS t m =>
    rw [chSchWakeupS]
    split <;> exact .inl ⟨rfl, rfl⟩
  | sleep => exact .inl runFirst_prio
  | ahead | behind => exact .inl runFirst_prio
  | sleepReturn fs =>
    rw [Core.sleepReturn]
    split <;> exact .inl ⟨rfl, rfl⟩
  | tick c' _ _ ticked =>
    obtain ⟨⟨vt, r⟩, _, rfl⟩ := Option.map_eq_some_iff.1 ticked
    cases r <;> exact .inl ⟨rfl, rfl⟩
  | tickLoop isr r =>
    obtain ⟨vt, r⟩ := r
    cases r <;> exact .inl ⟨rfl, rfl⟩
  | wake | timeout | callback | calm | ctl | ret | rdymsg | setU | take | isrEnter | isrExit | vtSet | vtReset =>
    exact .inl ⟨rfl, rfl⟩

theorem Move.prio_eq (move : Move φ c c') (off : φ.mtx = false) : c'.pPrio = c.pPrio ∧ c'.nthd = c.nthd := by
  rcases move.prio_cases with same | ⟨on, -⟩
  · exact same
  · cases on.symm.trans off

/-- Threads are created one by one. -/
theorem Move.nthd_cases (move : Move φ c c') : c'.nthd = c.nthd ∨ φ.reg = true ∧ c'.nthd = c.nthd + 1 := by
  rcases move.prio_cases with ⟨-, same⟩ | ⟨-, ⟨on, more, -⟩ | ⟨same, -⟩⟩
  · exact .inl same
  · exact .inr ⟨on, more⟩
  · exact .inl same

/-! ## Control -/

/-- Every thread can go on where it stopped. -/
structure CtlOk (c : Core) : Prop where
  others : ∀ t, t ≠ c.currp → CtxOk true (c.pCtx t)
  current : CtxOk c.locked (c.pCtx c.currp)
  isr : c.isr ≠ [] → c.locked = false
  idle : ∀ f ∈ c.pCtx idleThread, f = .sysUnlock

theorem CtxOk.nil (locked : Bool) : CtxOk locked [] := ⟨.nil, nofun⟩

/-- What is under a frame that did not unlock goes on with the kernel locked. -/
theorem CtxOk.tail {f : Frame} (ok : CtxOk true (f :: fs)) (notUnlock : f ≠ .sysUnlock) : CtxOk true fs := by
  refine ⟨ok.chain.tail, fun g is => ?_⟩
  cases fs with
  | nil => cases is
  | cons g' fs =>
    cases is
    have link := (List.isChain_cons_cons.1 ok.chain).1
    rw [Bool.not_true, ← Bool.not_eq_true]
    exact fun unlocked => notUnlock (link.unlocks.1 unlocked)

theorem CtxOk.awake_tail {f : Frame} {locked : Bool} (ok : CtxOk locked (f :: fs)) : Awake fs := by
  intro g is
  cases fs with
  | nil => cases is
  | cons g' fs =>
    cases is
    exact (List.isChain_cons_cons.1 ok.chain).1.inner

namespace CtlOk

theorem congr (ctl : CtlOk c) (sameCtx : c'.pCtx = c.pCtx) (sameLocked : c'.locked = c.locked)
    (sameIsr : c'.isr = c.isr) (sameCurrp : c'.currp = c.currp) : CtlOk c' := by
  obtain ⟨others, current, isr, idle⟩ := ctl
  refine ⟨?_, ?_, ?_, ?_⟩
  · rwa [sameCtx, sameCurrp]
  · rwa [sameCtx, sameCurrp, sameLocked]
  · rwa [sameIsr, sameLocked]
  · rwa [sameCtx]

/-- With the kernel locked the processor can go to any thread. -/
theorem switch (ctl : CtlOk c) (locked : c.locked = true) (thread : c.isr = []) (sameCtx : c'.pCtx = c.pCtx)
    (sameLocked : c'.locked = c.locked) (sameIsr : c'.isr = c.isr) : CtlOk c' := by
  have all : ∀ t, CtxOk true (c.pCtx t) := fun t => by
    by_cases same : t = c.currp
    · rw [same, ← locked]; exact ctl.current
    · exact ctl.others t same
  refine ⟨fun t _ => ?_, ?_, fun inIsr => ?_, ?_⟩
  · rw [sameCtx]; exact all t
  · rw [sameCtx, sameLocked, locked]; exact all _
  · exact absurd (sameIsr.trans thread) inIsr
  · rw [sameCtx]; exact ctl.idle

/-- The running thread's context changes. -/
theorem setCtx {fs : List Frame} {locked : Bool} (ctl : CtlOk c) (thread : c.isr = []) (ok : CtxOk locked fs)
    (idle : c.currp = idleThread → ∀ f ∈ fs, f = .sysUnlock) :
    CtlOk { c with pCtx := update c.pCtx c.currp fs, locked := locked } := by
  refine ⟨fun t other => ?_, ?_, fun inIsr => absurd thread inIsr, ?_⟩ <;> dsimp only
  · rw [update_of_ne other]; exact ctl.others t other
  · rw [update_self]; exact ok
  · by_cases same : c.currp = idleThread
    · rw [← same, update_self]; exact idle same
    · rw [update_of_ne (Ne.symm same)]; exact ctl.idle

/-- The idle thread never sleeps in the kernel. -/
theorem ne_idle {f : Frame} (ctl : CtlOk c) (mem : f ∈ c.pCtx t) (notUnlock : f ≠ .sysUnlock) : t ≠ idleThread := by
  rintro rfl
  exact notUnlock (ctl.idle f mem)

/-- The running thread leaves its innermost frame. -/
theorem leave {f : Frame} {fs : List Frame} (ctl : CtlOk c) (thread : c.isr = []) (locked : c.locked = true)
    (top : c.pCtx c.currp = f :: fs) (notUnlock : f ≠ .sysUnlock) :
    CtlOk { c with pCtx := update c.pCtx c.currp fs } := by
  have current := ctl.current
  rw [top, locked] at current
  have notIdle : c.currp ≠ idleThread := ctl.ne_idle (by rw [top]; exact .head _) notUnlock
  have := ctl.setCtx thread (current.tail notUnlock) fun is => absurd is notIdle
  rwa [← locked] at this

end CtlOk

theorem Core.chSchWakeupS_frame (t : Tid) (m : Msg) : (c.chSchWakeupS t m).pCtx = c.pCtx ∧
    (c.chSchWakeupS t m).locked = c.locked ∧ (c.chSchWakeupS t m).isr = c.isr := by
  rw [chSchWakeupS]
  split <;> exact ⟨rfl, rfl, rfl⟩

theorem Core.runFirst_frame : c.runFirst.pCtx = c.pCtx ∧ c.runFirst.locked = c.locked ∧ c.runFirst.isr = c.isr := by
  cases first : c.queue .rQueue with
  | nil => simp [runFirst, fifoRemove, first]
  | cons h l => rw [runFirst_eq first]; exact ⟨rfl, rfl, rfl⟩

theorem Core.boosted_frame (t : Tid) (prio : Nat) : (c.boosted t prio).pCtx = c.pCtx ∧
    (c.boosted t prio).locked = c.locked ∧ (c.boosted t prio).isr = c.isr ∧ (c.boosted t prio).currp = c.currp := by
  rw [boosted]
  split <;> exact ⟨rfl, rfl, rfl, rfl⟩

/-- Boosting moves a thread within its list. -/
theorem Core.boosted_wait (t : Tid) (prio : Nat) : (c.boosted t prio).pState = c.pState ∧
    (c.boosted t prio).pU = c.pU ∧ (c.boosted t prio).vt = c.vt ∧ (c.boosted t prio).hist = c.hist := by
  rw [boosted]
  split
  · exact ⟨rfl, rfl, rfl, rfl⟩
  · exact ⟨rfl, rfl, rfl, rfl⟩
  next state =>
    replace state : c.pState t = .ready := state
    refine ⟨?_, rfl, rfl, if_neg ?_⟩
    · change update c.pState t .ready = c.pState
      rw [← state, update_eq_self]
    · change ¬ (c.pState t).waits = true
      rw [state]
      nofun
  · exact ⟨rfl, rfl, rfl, rfl⟩

theorem Move.ctlOk (move : Move φ c c') (ok : SchedOk c) (ctl : CtlOk c) : CtlOk c' := by
  cases move with
  | wakeS t m thread locked =>
    obtain ⟨sameCtx, sameLocked, sameIsr⟩ := (c.dequeue t).chSchWakeupS_frame t m
    exact ctl.switch locked thread sameCtx sameLocked sameIsr
  | sleep st u qs fs vt hist thread locked notIdle _ _ _ ctx =>
    have pushed := ctl.setCtx thread ctx fun is => absurd is notIdle
    obtain ⟨sameCtx, sameLocked, sameIsr⟩ := runFirst_frame
    exact pushed.switch rfl thread sameCtx (sameLocked.trans locked) sameIsr
  | ahead _ _ thread locked | behind _ _ thread locked =>
    obtain ⟨sameCtx, sameLocked, sameIsr⟩ := runFirst_frame
    exact ctl.switch locked thread sameCtx sameLocked sameIsr
  | ctl fs locked thread _ _ ctx _ idle => exact ctl.setCtx thread ctx idle
  | rdymsg fs thread locked top => exact (ctl.leave thread locked top nofun).congr rfl rfl rfl rfl
  | sleepReturn fs thread locked top =>
    rw [Core.sleepReturn]
    split <;> exact (ctl.leave thread locked top nofun).congr rfl rfl rfl rfl
  | create prio =>
    have newer := ne_of_lt ok.currp_lt
    refine ⟨fun t other => ?_, ?_, ctl.isr, ?_⟩
    · by_cases same : t = c.nthd
      · subst same; simp only [update_self]; exact ⟨.singleton _, by simp [Frame.unlocked]⟩
      · simp only [update_of_ne same]; exact ctl.others t other
    · simp only [update_of_ne newer]; exact ctl.current
    · simp only [update_of_ne (ne_of_lt ok.idle.1)]; exact ctl.idle
  | boost t prio =>
    obtain ⟨sameCtx, sameLocked, sameIsr, sameCurrp⟩ := c.boosted_frame t prio
    exact ctl.congr sameCtx sameLocked sameIsr sameCurrp
  | isrEnter unlocked => exact ⟨ctl.others, ctl.current, fun _ => unlocked, ctl.idle⟩
  | isrExit isr is | timeout t isr is | callback fn isr is =>
    exact ⟨ctl.others, ctl.current, fun _ => ctl.isr (by simp [is]), ctl.idle⟩
  | tick c' unlocked _ ticked =>
    obtain ⟨⟨vt, r⟩, _, rfl⟩ := Option.map_eq_some_iff.1 ticked
    cases r <;> exact ⟨ctl.others, ctl.current, fun _ => unlocked, ctl.idle⟩
  | tickLoop isr r is =>
    have unlocked : c.locked = false := ctl.isr (by simp [is])
    obtain ⟨vt, r⟩ := r
    cases r <;> exact ⟨ctl.others, ctl.current, fun _ => unlocked, ctl.idle⟩
  | wake | calm | ret | setU | take | ownPrio | vtSet | vtReset => exact ctl.congr rfl rfl rfl rfl

/-! ## What becomes of a thread -/

/-- What the thread `t` is and has been told is the same. -/
structure Unseen (t : Tid) (c c' : Core) : Prop where
  u : c'.pU t = c.pU t
  ctx : c'.pCtx t = c.pCtx t
  ret : c'.pRet (some t) = c.pRet (some t)

/-- What a move does to the thread `t`. -/
inductive Fate (φ : Foot) (t : Tid) (c c' : Core) : Prop
  | rests : c'.pState t = c.pState t → Unseen t c c' → Fate φ t c c'
  | wakes : (c.pState t).waits = true → φ.state (c.pState t) = true → c'.pState t = .ready ∨ c'.pState t = .current →
      c'.pCtx t = c.pCtx t → Fate φ t c c'
  /-- It gets the processor, or loses it. -/
  | switches : c.pState t = .ready ∧ c'.pState t = .current ∨ c.pState t = .current ∧ c'.pState t = .ready →
      Unseen t c c' → Fate φ t c c'
  /-- It runs, and may go to sleep. -/
  | runs (st : TState) (fs : List Frame) : c.pState t = .current → c'.pState t = st → c'.pCtx t = fs → φ.state st = true →
      φ.Ctx (c.pCtx t) fs → st = .current ∨ AsksFor st fs ∧ Direct fs → Fate φ t c c'
  /-- The scheduler's sleep returns its message. -/
  | returns (f : Frame) (fs : List Frame) : f.sleeps = true → t = c.currp → c.pCtx t = f :: fs → c'.pCtx t = fs →
      c'.pState t = c.pState t → c'.pU t = c.pU t → c'.pRet (some t) = .msg (c.rdymsg t) → Fate φ t c c'
  /-- Its message is taken. -/
  | taken : φ.msg = true → c.pState t = .sndmsgq → c'.pState t = .sndmsg → Unseen t c c' → Fate φ t c c'
  | created : φ.mtx = true → φ.reg = true → c.pState t = .suspended → c'.pState t = .suspended → c'.pCtx t = [.sysUnlock] →
      Fate φ t c c'

/-- The first ready thread comes to run, and the running one is `st`. -/
theorem Fate.switch (sched : SchedOk c) (first : c.queue .rQueue = h :: l) (other : t ≠ c.currp)
    (state : c'.pState = update (update c.pState c.currp st) h .current) (unseen : Unseen t c c') : Fate φ t c c' := by
  by_cases same : t = h
  · subst same
    exact .switches (.inl ⟨(sched.ready_first first).1, by rw [state, update_self]⟩) unseen
  · exact .rests (by rw [state, update_of_ne same, update_of_ne other]) unseen

theorem Fate.woken {s : Tid} (waits : (c.pState s).waits = true) (on : φ.state (c.pState s) = true)
    (state : c'.pState = update c.pState s .ready) (ctx : c'.pCtx = c.pCtx) (u : t ≠ s → c'.pU t = c.pU t)
    (ret : c'.pRet = c.pRet) : Fate φ t c c' := by
  by_cases same : t = s
  · subst same
    exact .wakes waits on (.inl (by rw [state, update_self])) (by rw [ctx])
  · exact .rests (by rw [state, update_of_ne same]) ⟨u same, by rw [ctx], by rw [ret]⟩

theorem Fate.returned {f : Frame} (sleeps : f.sleeps = true) (top : c.pCtx c.currp = f :: fs)
    (ctx : c'.pCtx = update c.pCtx c.currp fs) (state : c'.pState = c.pState) (u : c'.pU = c.pU)
    (ret : c'.pRet = update c.pRet (some c.currp) (.msg (c.rdymsg c.currp))) : Fate φ t c c' := by
  by_cases mine : t = c.currp
  · subst mine
    exact .returns f fs sleeps rfl top (by rw [ctx, update_self]) (by rw [state]) (by rw [u]) (by rw [ret, update_self])
  · exact .rests (by rw [state]) ⟨by rw [u], by rw [ctx, update_of_ne mine], by rw [ret, update_of_ne (by simpa using mine)]⟩

theorem Move.fate (move : Move φ c c') (sched : SchedOk c) (t : Tid) : Fate φ t c c' := by
  have current := sched.currp_state
  cases move with
  | wake s u waits _ on => exact .woken waits on rfl rfl (update_of_ne · ..) rfl
  | timeout s isr _ _ timed on => exact .woken (TState.timed_waits timed) on rfl rfl (update_of_ne · ..) rfl
  | wakeS s m _ _ waits _ on =>
    rw [chSchWakeupS]
    split
    · exact .woken waits on rfl rfl (update_of_ne · ..) rfl
    · dsimp only
      by_cases same : t = s
      · subst same
        exact .wakes waits on (.inr (update_self ..)) rfl
      · have unseen : update c.pU s (.rdymsg m) t = c.pU t := update_of_ne same ..
        by_cases mine : t = c.currp
        · subst mine
          exact .switches (.inr ⟨current, (update_of_ne same ..).trans (update_self ..)⟩) ⟨unseen, rfl, rfl⟩
        · exact .rests ((update_of_ne same ..).trans (update_of_ne mine ..)) ⟨unseen, rfl, rfl⟩
  | sleep st u qs fs vt hist _ _ notIdle on joins _ _ _ foot asks direct =>
    obtain ⟨h, l, first, is, -⟩ := sched.sleep notIdle joins fs vt hist
    rw [is]
    by_cases mine : t = c.currp
    · subst mine
      exact .runs st (fs ++ c.pCtx c.currp) current
        ((update_of_ne (sched.ready_first first).2.symm ..).trans (update_self ..)) (update_self ..) on foot (.inr ⟨asks, direct⟩)
    · exact .switch sched first mine rfl ⟨update_of_ne mine .., update_of_ne mine .., rfl⟩
  | ahead h l _ _ first | behind h l _ _ first =>
    simp only [chSchDoRescheduleAhead, chSchDoRescheduleBehind, runFirst_eq first]
    by_cases mine : t = c.currp
    · subst mine
      exact .switches (.inr ⟨current, update_self ..⟩) ⟨rfl, rfl, rfl⟩
    · exact .switch sched first mine (update_comm (sched.ready_first first).2 ..) ⟨rfl, rfl, rfl⟩
  | ctl fs locked _ _ _ _ foot =>
    by_cases mine : t = c.currp
    · subst mine
      exact .runs .current fs current current (update_self ..) rfl foot (.inl rfl)
    · exact .rests rfl ⟨rfl, update_of_ne mine .., rfl⟩
  | ret r covered =>
    by_cases mine : c.isr = [] ∧ t = c.currp
    · obtain ⟨thread, rfl⟩ := mine
      exact .runs .current _ current current rfl rfl ⟨covered thread, covered thread, rfl⟩ (.inl rfl)
    · refine .rests rfl ⟨rfl, rfl, update_of_ne ?_ ..⟩
      rw [Core.caller]
      split
      next thread =>
        simpa [thread] using mine
      · simp
  | rdymsg fs thread _ top =>
    refine .returned rfl top rfl rfl rfl ?_
    simp only [Core.ret, Core.caller, thread, if_true]
  | sleepReturn fs thread _ top =>
    refine .returned rfl top ?_ ?_ ?_ ?_ <;> rw [Core.sleepReturn] <;> split
    all_goals first | rfl | (simp only [Core.ret, Core.caller, thread, if_true]; rfl)
  | setU u _ covered =>
    by_cases mine : t = c.currp
    · subst mine
      exact .runs .current _ current current rfl rfl ⟨covered, covered, rfl⟩ (.inl rfl)
    · exact .rests rfl ⟨update_of_ne mine .., rfl, rfl⟩
  | take s l on first =>
    by_cases same : t = s
    · subst same
      have mem : t ∈ c.queue (.pMsgqueue c.currp) := by rw [first]; exact .head _
      exact .taken on (sched.member _ t mem).2.1 (update_self ..) ⟨rfl, rfl, rfl⟩
    · exact .rests (update_of_ne same ..) ⟨rfl, rfl, rfl⟩
  | create prio onMtx onReg =>
    by_cases new : t = c.nthd
    · subst new
      exact .created onMtx onReg (sched.fresh c.nthd le_rfl).1 (update_self ..) (update_self ..)
    · exact .rests (update_of_ne new ..) ⟨rfl, update_of_ne new .., rfl⟩
  | boost s prio =>
    obtain ⟨state, u, -, -⟩ := c.boosted_wait s prio
    refine .rests (by rw [state]) ⟨by rw [u], by rw [(c.boosted_frame s prio).1], ?_⟩
    rw [boosted]
    split <;> rfl
  | tick c' _ _ ticked =>
    obtain ⟨⟨vt, r⟩, _, rfl⟩ := Option.map_eq_some_iff.1 ticked
    cases r <;> exact .rests rfl ⟨rfl, rfl, rfl⟩
  | tickLoop isr r =>
    obtain ⟨vt, r⟩ := r
    cases r <;> exact .rests rfl ⟨rfl, rfl, rfl⟩
  | callback | calm | ownPrio | isrEnter | isrExit | vtSet | vtReset => exact .rests rfl ⟨rfl, rfl, rfl⟩

theorem Fate.kept (fate : Fate φ t c c') : (c'.pCtx t).filter φ.keeps = (c.pCtx t).filter φ.keeps := by
  cases fate with
  | rests _ unseen | switches _ unseen | taken _ _ _ unseen => rw [unseen.ctx]
  | wakes _ _ _ ctx => rw [ctx]
  | runs st fs _ _ ctx _ foot => rw [ctx, foot.kept]
  | returns f fs sleeps _ top ctx =>
    rw [top, ctx]
    cases f <;> first | rfl | cases sleeps
  | created onMtx onReg =>
    have none : φ.keeps = fun _ => false := by
      funext f
      cases f <;> simp [Foot.keeps, onMtx, onReg]
    simp [none]

end ChibiOS.Kernel
