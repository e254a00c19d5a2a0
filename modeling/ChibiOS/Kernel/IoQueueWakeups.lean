import ChibiOS.Kernel.Answers
import ChibiOS.Kernel.IoQueueFifo

/-!
# No lost wakeups on I/O queues

A byte put into an input queue wakes one of the threads that wait on it, and a cell
made free in an output queue does the same. A woken thread tests the counter again.
As long as a thread waits, what the counter counts has been promised to threads that
have been woken and have not made their test.
-/

namespace ChibiOS.Kernel

open Function (update update_self update_of_ne)
open Lib Kernel.Core IoQueues Sys

namespace Frame

/-- A function that waits on a queue. A block write waits with a byte to write. -/
def qWaits : Frame → Option IoQueue
  | iqGetWait n _ | iqReadWait n _ _ _ => some (.iq n)
  | oqPutWait n _ _ | oqWriteWait n _ (_ :: _) _ => some (.oq n)
  | _ => none

def isQ (f : Frame) : Bool := f.qWaits.isSome

/-- A function at the test of its waiting loop. -/
def qTests : Frame → Option IoQueue
  | iqGet n _ | iqRead n _ _ _ => some (.iq n)
  | oqPut n _ _ | oqWrite n _ (_ :: _) _ => some (.oq n)
  | _ => none

end Frame

open Kernel.Frame (isQ)

/-- The function at `f` has been woken with `Q_OK`. -/
def wokenOn (qp : IoQueue) (f : Frame) (m : Msg) : Bool := decide (f.qWaits = some qp ∧ m = rdyOk)

/-- The threads that have been woken with `Q_OK` on `qp` and have not gone on. -/
def Core.promised (qp : IoQueue) (c : Core) : Nat := c.answered isQ (wokenOn qp)

/-- The running thread is about to test the counter of `qp`. -/
def Core.testing (qp : IoQueue) (c : Core) : Nat := if (c.pCtx c.currp).head?.bind Frame.qTests = some qp then 1 else 0

/-- The threads on a queue are in a function that waits on it. -/
def QQueues (c : Core) : Prop :=
  ∀ qp t, t ∈ c.queue (.qWaiting qp) → ∃ f, c.waits isQ t = some (f, none) ∧ f.qWaits = some qp

theorem kind_isQ : Kind isQ := by
  intro f is
  cases f <;> first | (cases is; done) | exact Option.some_ne_none _

theorem Frame.isQ_asks {f : Frame} (is : f.isQ = true) : f.asks = some .wtqueue := by
  cases f <;> first | rfl | cases is

theorem Foot.off_isQ {φ : Foot} (off : φ.ioq = false) : φ.Off isQ := by
  constructor
  · intro f is
    cases f <;> first | exact off | cases is
  · intro f is st asks
    cases (Frame.isQ_asks is).symm.trans asks
    exact off

variable {c c' : Core} {t : Tid} {m : Msg} {qp : IoQueue} {f : Frame} {fs : List Frame} {φ : Foot} {s s' : Sys}
  {g : Frame}

/-! ## Waking -/

theorem SchedOk.onQueue (sched : SchedOk c) (mem : t ∈ c.queue (.qWaiting qp)) :
    (c.pState t).waits = true ∧ c.pState t = .wtqueue ∧ t < c.nthd := by
  obtain ⟨-, state, lt⟩ := sched.member _ t mem
  exact ⟨by rw [state]; rfl, state, lt⟩

/-- A thread that waits is woken with the message `m` and taken off its list. -/
structure WokenOff (t : Tid) (m : Msg) (c c' : Core) : Prop where
  waiting : (c.pState t).waits = true
  lt : t < c.nthd
  waits : c'.waits isQ = update (c.waits isQ) t ((c.waits isQ t).map fun w => (w.1, some m))
  nthd : c'.nthd = c.nthd
  lists : ∀ qp, c'.queue (.qWaiting qp) = (c.queue (.qWaiting qp)).erase t

/-- What the thread waited on. -/
theorem QQueues.waits_cases (queues : QQueues c) (ok : CoreOk c) (waiting : (c.pState t).waits = true) (lt : t < c.nthd) :
    (c.waits isQ t = none ∧ ∀ qp, t ∉ c.queue (.qWaiting qp)) ∨
      ∃ f qp, c.waits isQ t = some (f, none) ∧ f.qWaits = some qp ∧ ∀ qp', t ∈ c.queue (.qWaiting qp') ↔ qp' = qp := by
  by_cases on : c.pState t = .wtqueue
  · obtain ⟨q, mem⟩ := ok.sched.queued t lt nofun (by rw [on]; rfl)
    have state := (ok.sched.member q t mem).2.1
    rw [on] at state
    cases q with
    | qWaiting qp =>
      obtain ⟨f, is, waits⟩ := queues qp t mem
      refine .inr ⟨f, qp, is, waits, fun qp' => ⟨fun mem' => ?_, fun same => same ▸ mem⟩⟩
      obtain ⟨f', is', waits'⟩ := queues qp' t mem'
      cases is.symm.trans is'
      exact Option.some.inj (waits'.symm.trans waits)
    | rQueue | sQueue | mQueue | cQueue | pMsgqueue | pWaiting => cases state
  · refine .inl ⟨waitOf_eq_none.2 fun f mem => ?_, fun qp mem => on (ok.sched.onQueue mem).2.1⟩
    rw [← Bool.not_eq_true]
    intro is
    obtain bad | bad | ⟨same, -⟩ := ok.ask t
    · exact TState.waits_ne_ready waiting bad
    · exact TState.waits_ne_current waiting bad
    · exact on (same f mem _ (Frame.isQ_asks is))

theorem WokenOff.queues (woken : WokenOff t m c c') (sched : SchedOk c) (queues : QQueues c) : QQueues c' := by
  intro qp t' mem
  rw [woken.lists, (sched.nodup _).mem_erase_iff] at mem
  rw [woken.waits, update_of_ne mem.1]
  exact queues qp t' mem.2

/-- Only `Q_OK` is a promise. -/
theorem WokenOff.promised (woken : WokenOff t m c c') (ok : CoreOk c) (queues : QQueues c) (qp : IoQueue) :
    c'.promised qp = c.promised qp + if m = rdyOk ∧ t ∈ c.queue (.qWaiting qp) then 1 else 0 := by
  have changes := answered_update (q := wokenOn qp) woken.lt woken.nthd woken.waits
  rw [Core.promised, Core.promised]
  rcases queues.waits_cases ok woken.waiting woken.lt with ⟨none, off⟩ | ⟨f, qp', is, waits, mem⟩
  · simpa [none, answeredAs, off qp] using changes
  · have iff : (qp' = qp ∧ m = rdyOk) ↔ m = rdyOk ∧ qp = qp' := ⟨fun h => ⟨h.2, h.1.symm⟩, fun h => ⟨h.2.symm, h.1⟩⟩
    simpa [is, answeredAs, wokenOn, waits, mem qp, iff] using changes

theorem WokenOff.readyFirst {l : List Tid} (ok : CoreOk c) (first : c.queue (.qWaiting qp) = t :: l) :
    WokenOff t m c ((c.setQueue (.qWaiting qp) l).readyMsg t m) := by
  have mem : t ∈ c.queue (.qWaiting qp) := by
    rw [first]
    exact .head _
  obtain ⟨waiting, state, lt⟩ := ok.sched.onQueue mem
  refine ⟨waiting, lt, waits_readyMsg ok.ask waiting, rfl, fun qp' => ?_⟩
  by_cases same : qp' = qp
  · subst same
    simp [readyMsg, setU, chSchReadyI, setQueue, first]
  · have off : t ∉ c.queue (.qWaiting qp') := fun mem' => by
      have obj := ok.sched.obj _ t mem rfl
      cases (ok.sched.obj _ t mem' rfl).symm.trans obj
      exact same rfl
    simp [readyMsg, setU, chSchReadyI, setQueue, same, List.erase_of_not_mem off]

/-- The loop of a reset. -/
theorem flush_wakes (qp : IoQueue) : ∀ (n : Nat) {c : Core}, CoreOk c → QQueues c →
    QQueues (c.flush (.qWaiting qp) (.readyMsg · rdyReset) n) ∧
      ∀ qp', (c.flush (.qWaiting qp) (.readyMsg · rdyReset) n).promised qp' = c.promised qp' ∧
        (c.flush (.qWaiting qp) (.readyMsg · rdyReset) n).queue (.qWaiting qp') =
          if qp' = qp then (c.queue (.qWaiting qp)).drop n else c.queue (.qWaiting qp')
  | 0, c, _, queues => ⟨queues, fun qp' => ⟨rfl, by split <;> simp_all [flush]⟩⟩
  | n + 1, c, ok, queues => by
    rw [flush]
    cases first : c.queue (.qWaiting qp) with
    | nil =>
      simp only [fifoRemove, first]
      exact ⟨queues, fun qp' => ⟨trivial, by split <;> simp_all⟩⟩
    | cons t l =>
      have removed : c.fifoRemove (.qWaiting qp) = some (t, c.setQueue (.qWaiting qp) l) := by simp [fifoRemove, first]
      have moved : Moves { ioq := true } c ((c.setQueue (.qWaiting qp) l).readyMsg t rdyReset) :=
        (ok.sched.fifoRemove removed).readyMsg (by simp) rfl (by decide)
      have woken : WokenOff t rdyReset c ((c.setQueue (.qWaiting qp) l).readyMsg t rdyReset) := .readyFirst ok first
      obtain ⟨queues', rest⟩ := flush_wakes qp n (moved.coreOk ok) (woken.queues ok.sched queues)
      rw [removed]
      refine ⟨queues', fun qp' => ?_⟩
      obtain ⟨promised, lists⟩ := rest qp'
      refine ⟨?_, ?_⟩
      · rw [promised, woken.promised ok queues, if_neg (by simp [rdyReset, rdyOk]), add_zero]
      · rw [lists]
        by_cases same : qp' = qp
        · simp [same, readyMsg, setU, chSchReadyI, setQueue]
        · simp [same, readyMsg, setU, chSchReadyI, setQueue]

/-! ## Steps -/

/-- What a step does to the threads on the queues and to the promises: on a queue that
still has threads on it, the counter is zero or has not grown faster than the promises. -/
structure QWakes (s s' : Sys) : Prop where
  queues : QQueues s'.toCore
  wakes : ∀ qp, s'.queue (.qWaiting qp) ≠ [] → s'.qCounter qp = 0 ∨ s.queue (.qWaiting qp) ≠ [] ∧
    s'.qCounter qp + (s.promised qp + s.testing qp) ≤ s.qCounter qp + (s'.promised qp + s'.testing qp)

theorem testing_top (top : s.pCtx s.currp = f :: fs) : s.testing qp = if f.qTests = some qp then 1 else 0 := by
  rw [testing, top]
  rfl

theorem testing_empty (empty : s.pCtx s.currp = []) : s.testing qp = 0 := by
  rw [testing, empty]
  rfl

/-- Nothing happens before the running thread has made its test. -/
theorem next_testing {l : Label} (ok : CoreOk s.toCore) (taken : next l s = some s') (notRun : l ≠ .run) (qp : IoQueue) :
    s.testing qp = 0 := by
  by_contra some_
  cases top : s.pCtx s.currp with
  | nil => exact some_ (testing_empty top)
  | cons f fs =>
    have tests : f.qTests ≠ none := fun none => some_ (by rw [testing_top top, none]; rfl)
    have locks : f.unlocked = false := by cases f <;> first | rfl | exact absurd rfl tests
    exact notRun (next_eq_run ok taken top locks fun qp is => tests (by rw [is]; rfl))

/-- Moves away from the queues. -/
theorem Moves.quiet {c c' : Core} (moves : Moves φ c c') (off : φ.ioq = false) (ok : CoreOk c) (queues : QQueues c) : QQueues c' ∧
    ∀ qp, c'.promised qp = c.promised qp ∧ c'.queue (.qWaiting qp) = c.queue (.qWaiting qp) := by
  have waits : c'.waits isQ = c.waits isQ := moves.waits_eq ok (Foot.off_isQ off)
  have lists : ∀ qp, c'.queue (.qWaiting qp) = c.queue (.qWaiting qp) := fun qp =>
    moves.queue_eq ok.sched off
  refine ⟨fun qp t mem => ?_, fun qp => ⟨answered_congr kind_isQ ok (moves.coreOk ok) waits, lists qp⟩⟩
  rw [lists] at mem
  rw [waits]
  exact queues qp t mem

theorem Effect.qWakes (effect : Effect φ s s') (off : φ.ioq = false) (ok : CoreOk s.toCore) (queues : QQueues s.toCore)
    (calm : ∀ qp, s.testing qp = 0) : QWakes s s' := by
  obtain ⟨queues', same⟩ := effect.moves.quiet off ok queues
  refine ⟨queues', fun qp some_ => .inr ⟨(same qp).2 ▸ some_, ?_⟩⟩
  rw [calm, (same qp).1, congrArg qCounter (effect.objs.ioq off)]
  omega

/-- The first thread on the queue, if there is one, is woken with `Q_OK`. -/
theorem qReadyFirst_wakes (qp : IoQueue) (ok : CoreOk s.toCore) (queues : QQueues s.toCore) : QQueues (s.qReadyFirst qp).toCore ∧
    ∀ qp', (s.qReadyFirst qp).queue (.qWaiting qp') ≠ [] → s.queue (.qWaiting qp') ≠ [] ∧
      (s.qReadyFirst qp).promised qp' = s.promised qp' + if qp' = qp then 1 else 0 := by
  cases first : s.queue (.qWaiting qp) with
  | nil =>
    have same : s.qReadyFirst qp = s := by simp [qReadyFirst, fifoRemove, first]
    rw [same]
    refine ⟨queues, fun qp' some_ => ⟨some_, ?_⟩⟩
    rw [if_neg, add_zero]
    rintro rfl
    exact some_ first
  | cons t l =>
    have core : (s.qReadyFirst qp).toCore = (s.toCore.setQueue (.qWaiting qp) l).readyMsg t rdyOk := by
      simp [qReadyFirst, fifoRemove, first]
    have woken : WokenOff t rdyOk s.toCore (s.qReadyFirst qp).toCore := core ▸ .readyFirst ok first
    have mem : t ∈ s.queue (.qWaiting qp) := by
      rw [first]
      exact .head _
    refine ⟨woken.queues ok.sched queues, fun qp' some_ => ⟨fun none => some_ (by rw [woken.lists, none]; rfl), ?_⟩⟩
    rw [woken.promised ok queues]
    congr 1
    by_cases same : qp' = qp
    · subst same
      simp [mem]
    · have off : t ∉ s.queue (.qWaiting qp') := fun mem' => by
        have obj := ok.sched.obj _ t mem rfl
        rw [ok.sched.obj _ t mem' rfl] at obj
        cases obj
        exact same rfl
      simp [same, off]

/-- The counter goes up by one and a thread is woken. -/
theorem QWakes.provide (s₁ : Sys) (ok : CoreOk s.toCore) (queues : QQueues s.toCore) (calm : ∀ qp, s.testing qp = 0)
    (before : Moves {} s.toCore s₁.toCore) (after : Moves {} (s₁.qReadyFirst qp).toCore s'.toCore)
    (counter : s'.qCounter = update s.qCounter qp (s.qCounter qp + 1)) : QWakes s s' := by
  have ok₁ := before.coreOk ok
  obtain ⟨queues₁, same₁⟩ := before.quiet rfl ok queues
  obtain ⟨queues₂, woken⟩ := qReadyFirst_wakes qp ok₁ queues₁
  have readied : IEffect { ioq := true } s₁ (s₁.qReadyFirst qp) := qReadyFirst_effect rfl ok₁ qp
  obtain ⟨queues₃, same₃⟩ := after.quiet rfl (readied.coreOk ok₁) queues₂
  refine ⟨queues₃, fun qp' some_ => .inr ?_⟩
  rw [(same₃ qp').2] at some_
  obtain ⟨some₁, promised⟩ := woken qp' some_
  rw [(same₁ qp').2] at some₁
  refine ⟨some₁, ?_⟩
  rw [calm, (same₃ qp').1, promised, (same₁ qp').1, counter]
  by_cases here : qp' = qp
  · subst here
    rw [update_self, if_pos rfl]
    omega
  · rw [update_of_ne here, if_neg here]
    omega

section

variable (ok : CoreOk s.toCore) (queues : QQueues s.toCore) (calm : ∀ qp, s.testing qp = 0)
include ok queues calm

theorem chIQPutI_wakes {n : Nat} (tellable : Tellable s) (b : UInt8) : QWakes s (s.chIQPutI n b) := by
  rw [chIQPutI]
  split
  · have told : IEffect {} s (s.ret (.msg qFull)) := .tell tellable _
    exact told.toEffect.qWakes rfl ok queues calm
  · have readied : IEffect { ioq := true } _ _ :=
      qReadyFirst_effect (s := (s.qCount (.iq n) (s.qCounter (.iq n) + 1)).qStore (.iq n) b) rfl ok (.iq n)
    have told : IEffect {} _ (ret (.msg rdyOk) _) := .tell (Tellable.still tellable readied.still) _
    exact .provide ((s.qCount (.iq n) (s.qCounter (.iq n) + 1)).qStore (.iq n) b) ok queues calm (.refl _)
      told.moves (congrArg qCounter (qReadyFirst_toIoQueues ..))

theorem chOQGetI_wakes {n : Nat} (tellable : Tellable s) : QWakes s (s.chOQGetI n) := by
  rw [chOQGetI]
  split
  · have told : IEffect {} s (s.ret (.msg qEmpty)) := .tell tellable _
    exact told.toEffect.qWakes rfl ok queues calm
  · have told : IEffect {} s (s.ret (.bytes [s.qFirst (.oq n)])) := .tell tellable _
    exact .provide (((s.ret (.bytes [s.qFirst (.oq n)])).qCount (.oq n) (s.qCounter (.oq n) + 1)).qSkip (.oq n)) ok queues
      calm told.moves (.refl _) (congrArg qCounter (qReadyFirst_toIoQueues ..))

/-- A reset leaves nobody on the queue. -/
theorem reset_wakes {o : IoQueues} (others : ∀ qp', qp' ≠ qp → o.qCounter qp' = s.qCounter qp') :
    QWakes s ({ s with toIoQueues := o }.qReadyAll qp) := by
  obtain ⟨queues', rest⟩ := flush_wakes qp (s.queue (.qWaiting qp)).length ok queues
  refine ⟨queues', fun qp' some_ => ?_⟩
  obtain ⟨promised, lists⟩ := rest qp'
  have some' : (if qp' = qp then (s.queue (.qWaiting qp)).drop (s.queue (.qWaiting qp)).length else s.queue (.qWaiting qp')) ≠ [] :=
    fun none => some_ (lists.trans none)
  by_cases here : qp' = qp
  · subst here
    simp at some'
  · rw [if_neg here] at some'
    refine .inr ⟨some', ?_⟩
    have same : (qReadyAll qp { s with toIoQueues := o }).promised qp' = s.promised qp' := promised
    have counter : (qReadyAll qp { s with toIoQueues := o }).qCounter qp' = s.qCounter qp' := others qp' here
    rw [calm, same, counter]
    omega

end

/-! ## Frames -/

/-- The frames of the waiting loops. -/
def Frame.loops : Frame → Bool
  | iqGet .. | iqGetWait .. | iqRead .. | iqReadWait .. => true
  | oqPut .. | oqPutWait .. | oqWrite .. | oqWriteWait .. => true
  | _ => false

/-- A frame of a queue function is taken off: what the thread has been promised is gone. -/
structure QPopped (f : Frame) (fs : List Frame) (s : Sys) : Prop where
  work : AtWork {} s.pop s.pop
  last : f.last = true → s.pop.pCtx s.pop.currp = []
  queues : QQueues s.pop.toCore
  promised : ∀ qp, s.pop.promised qp + (if answeredAs (wokenOn qp) (s.waits isQ s.currp) then 1 else 0) = s.promised qp

theorem qPopped (ok : CoreOk s.toCore) (queues : QQueues s.toCore) (thread : s.isr = []) (top : s.pCtx s.currp = f :: fs)
    (is : f.loops = true) : QPopped f fs s := by
  have needsLock : f.unlocked = false := by cases f <;> first | rfl | cases is
  have locked : s.locked = true := by simpa [needsLock] using ok.ctl.current.head f (by rw [top]; rfl)
  have taken : Popped { ioq := true } f fs s := popped ok thread top (by cases f <;> first | rfl | cases is)
    (by rintro rfl; cases is) (by cases f <;> first | rfl | cases is) (by cases f <;> first | rfl | cases is)
  have waits := kind_isQ.waits_pop top taken.plain
  have work := taken.work ok thread locked
  refine ⟨.start work.ok { work.zone with covered := work.plain.covered } work.plain,
    fun last => taken.ctx.trans (taken.last last), fun qp t mem => ?_, fun qp => ?_⟩
  · have other : t ≠ s.currp := by
      rintro rfl
      exact ok.sched.currp_not_mem _ mem
    rw [waits, update_of_ne other]
    exact queues qp t mem
  · have changes := answered_update (q := wokenOn qp) ok.sched.currp_lt (rfl : s.pop.nthd = s.nthd) waits
    exact changes

theorem testing_push (pushed : s' = s.onCore (.push f)) (tests : f.qTests = some qp) : s'.testing qp = 1 := by
  have top : s'.pCtx s'.currp = f :: s.pCtx s.currp := pushed ▸ push_top f s.toCore
  rw [testing_top top, if_pos tests]

/-- A function that was promised nothing goes on. -/
theorem Effect.qWakes_pop (effect : Effect {} s.pop s') (popped : QPopped f fs s) (nothing : s.waits isQ s.currp = none)
    (calm : ∀ qp, s.testing qp = 0) : QWakes s s' := by
  obtain ⟨queues', same⟩ := effect.moves.quiet rfl popped.work.ok popped.queues
  refine ⟨queues', fun qp some_ => .inr ⟨(same qp).2 ▸ some_, ?_⟩⟩
  have promised : s.pop.promised qp = s.promised qp := by
    have := popped.promised qp
    rwa [nothing] at this
  have counter : s'.qCounter = s.qCounter := congrArg qCounter (effect.objs.ioq rfl)
  rw [calm, (same qp).1, promised, counter]
  omega

/-- A function goes on behind its wait. If it was promised something, it tests again. -/
theorem resume_wakes (ok : CoreOk s.toCore) (queues : QQueues s.toCore) (thread : s.isr = [])
    (top : s.pCtx s.currp = f :: fs) (waits : f.qWaits = some qp) (effect : Effect {} s.pop s')
    (tests : s.lastMsg = rdyOk → s'.testing qp = 1) : QWakes s s' := by
  have popped := qPopped ok queues thread top (by cases f <;> first | rfl | cases waits)
  have inQ : f.isQ = true := by simp [isQ, waits]
  obtain ⟨queues', same⟩ := effect.moves.quiet rfl popped.work.ok popped.queues
  refine ⟨queues', fun qp' some_ => .inr ⟨(same qp').2 ▸ some_, ?_⟩⟩
  have calm : s.testing qp' = 0 := by
    rw [testing_top top]
    cases f <;> first | rfl | cases waits
  have before : s.waits isQ s.currp = some (f, some s.lastMsg) :=
    waits_top top inQ (kind_isQ f inQ) (by cases f <;> first | rfl | cases waits) ok.sched.currp_state
  have promised := popped.promised qp'
  rw [before] at promised
  have counter : s'.qCounter = s.qCounter := congrArg qCounter (effect.objs.ioq rfl)
  rw [(same qp').1, calm, counter]
  by_cases got : qp' = qp ∧ s.lastMsg = rdyOk
  · obtain ⟨rfl, isOk⟩ := got
    rw [tests isOk]
    simp only [answeredAs, wokenOn, waits, isOk, and_self, decide_true, if_true] at promised
    omega
  · have neither : answeredAs (wokenOn qp') (some (f, some s.lastMsg)) = false := by
      simp only [answeredAs, wokenOn, waits, Option.some.injEq, decide_eq_false_iff_not]
      exact fun is => got ⟨is.1.symm, is.2⟩
    rw [neither] at promised
    simp only [Bool.false_eq_true, if_false, Nat.add_zero] at promised
    omega

/-- A round of a waiting loop: the counter is zero and the function gives up or sleeps, or it
is not, and the function takes its share. -/
inductive QRound (qp : IoQueue) (s s' : Sys) : Prop
  | stops : s.qCounter qp = 0 → Moves {} s.toCore s'.toCore → s'.qCounter = s.qCounter → QRound qp s s'
  | sleeps (g : Frame) (time : Systime) : s.qCounter qp = 0 → g.qWaits = some qp →
      s' = (s.onCore (.push g)).qwait qp time → QRound qp s s'
  | takes : s.qCounter qp ≠ 0 → Moves {} s.toCore s'.toCore →
      s'.qCounter = update s.qCounter qp (s.qCounter qp - 1) → QRound qp s s'

theorem QRound.wakes (round : QRound qp s.pop s') (ok : CoreOk s.toCore) (queues : QQueues s.toCore) (thread : s.isr = [])
    (top : s.pCtx s.currp = f :: fs) (tests : f.qTests = some qp) : QWakes s s' := by
  have popped := qPopped ok queues thread top (by cases f <;> first | rfl | cases tests)
  have plain : Plain (s.pCtx s.currp) := by
    have ctx : CtxOk s.locked (f :: fs) := top ▸ ok.ctl.current
    rw [top]
    exact ctx.plain (by cases f <;> first | rfl | cases tests) (by cases f <;> first | rfl | cases tests)
  have promised : ∀ qp, s.pop.promised qp = s.promised qp := fun qp => by
    have := popped.promised qp
    rwa [kind_isQ.waits_none plain] at this
  have testing : ∀ qp', s.testing qp' = if qp' = qp then 1 else 0 := fun qp' => by
    rw [testing_top top, tests]
    simp only [Option.some.injEq, eq_comm]
  have counter : s.pop.qCounter = s.qCounter := rfl
  cases round with
  | stops zero moves same =>
    obtain ⟨queues', quiet⟩ := moves.quiet rfl popped.work.ok popped.queues
    refine ⟨queues', fun qp' some_ => ?_⟩
    rw [same]
    by_cases here : qp' = qp
    · exact .inl (here ▸ zero)
    · refine .inr ⟨(quiet qp').2 ▸ some_, ?_⟩
      rw [testing, if_neg here, (quiet qp').1, promised, counter]
      omega
  | takes pos moves taken =>
    obtain ⟨queues', quiet⟩ := moves.quiet rfl popped.work.ok popped.queues
    refine ⟨queues', fun qp' some_ => .inr ⟨(quiet qp').2 ▸ some_, ?_⟩⟩
    rw [taken, testing, (quiet qp').1, promised, counter]
    by_cases here : qp' = qp
    · subst here
      rw [update_self, if_pos rfl]
      rw [counter] at pos
      omega
    · rw [update_of_ne here, if_neg here]
      omega
  | sleeps g time zero waits slept =>
    have inQ : g.isQ = true := by simp [isQ, waits]
    have sched := popped.work.ok.sched
    have prepares := (((Prepares.refl s.pop.toCore).push g).setU (.wtobjp (.qWaiting qp))).setQueue (q := .qWaiting qp) nofun
      (s.queue (.qWaiting qp) ++ [s.currp])
    have asleep : s'.waits isQ = update (s.pop.waits isQ) s.currp (some (g, none)) := by
      rw [slept]
      refine (prepares.waits_sleepTimeout .wtqueue sched rfl kind_isQ popped.work.ok.timed.vt time).trans ?_
      simp [setQueue, setU, push, inQ]
      rfl
    have lists (qp') : s'.queue (.qWaiting qp') =
        update s.queue (.qWaiting qp) (s.queue (.qWaiting qp) ++ [s.currp]) (.qWaiting qp') :=
      slept ▸ SameLists.goSleepTimeoutS _ .wtqueue time (.qWaiting qp') nofun
    have nthd : s'.nthd = s.pop.nthd := slept ▸ chSchGoSleepTimeoutS_nthd ..
    have kept : s'.qCounter = s.qCounter := slept ▸ rfl
    refine ⟨fun qp' t mem => ?_, fun qp' some_ => ?_⟩
    · rw [asleep]
      rw [lists] at mem
      by_cases mine : t = s.currp
      · subst mine
        have here : qp' = qp := by
          by_contra other
          rw [update_of_ne (by simpa using other)] at mem
          exact ok.sched.currp_not_mem _ mem
        exact ⟨g, update_self .., here ▸ waits⟩
      · rw [update_of_ne mine]
        refine popped.queues qp' t ?_
        change t ∈ s.queue (.qWaiting qp')
        by_cases here : qp' = qp
        · subst here
          simpa [mine] using mem
        · rwa [update_of_ne (by simpa using here)] at mem
    · by_cases here : qp' = qp
      · exact .inl (here ▸ kept ▸ zero)
      · have changes := answered_update (q := wokenOn qp') sched.currp_lt nthd asleep
        rw [kind_isQ.waits_none popped.work.plain] at changes
        have same : s'.promised qp' = s.promised qp' := by rwa [← promised qp']
        rw [lists, update_of_ne (by simpa using here)] at some_
        refine .inr ⟨some_, ?_⟩
        rw [testing, if_neg here, same, kept]
        omega

section Rounds

variable {n : Nat} {s : Sys}

theorem iqEmpty (empty : s.chIQIsEmptyI n = true) : s.qCounter (.iq n) = 0 := Nat.le_zero.1 (of_decide_eq_true empty)

theorem iqNonempty (some_ : ¬ s.chIQIsEmptyI n = true) : s.qCounter (.iq n) ≠ 0 :=
  fun zero => some_ (decide_eq_true (le_of_eq zero))

theorem oqFull (full : s.chOQIsFullI n = true) : s.qCounter (.oq n) = 0 := Nat.le_zero.1 (of_decide_eq_true full)

theorem oqRoom (room : ¬ s.chOQIsFullI n = true) : s.qCounter (.oq n) ≠ 0 :=
  fun zero => room (decide_eq_true (le_of_eq zero))

section

variable (work : AtWork {} s s) (time : Systime)
include work time

theorem iqGetLoop_round : QRound (.iq n) s (s.iqGetLoop n time) := by
  rw [iqGetLoop]
  split
  next empty =>
    split
    · exact .stops (iqEmpty empty) (work.zone.ret _).1 rfl
    · exact .sleeps (.iqGetWait n time) time (iqEmpty empty) rfl rfl
  next some_ =>
    exact .takes (iqNonempty some_) (work.zone.ret _).1 rfl

theorem iqReadLoop_round (empty : s.pCtx s.currp = []) (want : Nat)
    (got : List UInt8) : QRound (.iq n) s (s.iqReadLoop n time want got) := by
  rw [iqReadLoop]
  split
  next none =>
    split
    · exact .stops (iqEmpty none) (work.finish empty _).effect.moves rfl
    · exact .sleeps (.iqReadWait n time want got) time (iqEmpty none) rfl rfl
  next some_ =>
    have taken : AtWork {} (s.iqTake n) (s.iqTake n) := .start work.ok work.zone work.plain
    split
    · exact .takes (iqNonempty some_) (taken.finish empty _).effect.moves rfl
    · exact .takes (iqNonempty some_) (taken.nextByte empty rfl rfl rfl).effect.moves rfl

theorem oqPutLoop_round (b : UInt8) : QRound (.oq n) s (s.oqPutLoop n b time) := by
  rw [oqPutLoop]
  split
  next full =>
    split
    · exact .stops (oqFull full) (work.zone.ret _).1 rfl
    · exact .sleeps (.oqPutWait n b time) time (oqFull full) rfl rfl
  next room =>
    have put : AtWork {} (s.oqPutByte n b) (s.oqPutByte n b) := .start work.ok work.zone work.plain
    exact .takes (oqRoom room) ((put.tell _).qCallNotify (.oq n)).moves (congrArg qCounter (qCallNotify_toIoQueues ..))

theorem oqWriteLoop_round (empty : s.pCtx s.currp = []) (b : UInt8) (todo done : List UInt8) :
    QRound (.oq n) s (s.oqWriteLoop n time (b :: todo) done) := by
  rw [oqWriteLoop]
  split
  next full =>
    split
    · exact .stops (oqFull full) (work.finish empty _).effect.moves rfl
    · exact .sleeps (.oqWriteWait n time (b :: todo) done) time (oqFull full) rfl rfl
  next room =>
    have put : AtWork {} (s.oqPutByte n b) (s.oqPutByte n b) := .start work.ok work.zone work.plain
    refine .takes (oqRoom room) (put.oqWritten empty time todo (done ++ [b])).moves ?_
    rw [congrArg qCounter (qCallNotify_toIoQueues ..)]
    split <;> rfl

end

end Rounds

/-- The timer of a sleep promises nothing. -/
theorem wakeup_wakes {tp : Tid} {isr : List Isr} (ok : CoreOk s.toCore) (queues : QQueues s.toCore)
    (calm : ∀ qp, s.testing qp = 0) (state : s.pState tp = .ready ∨ (s.pState tp).timed = true) :
    QWakes s { s.wakeup tp with isr := isr } := by
  have same : (s.wakeup tp).qCounter = s.qCounter := congrArg qCounter (wakeup_toIoQueues s tp)
  rcases state with ready | timed
  · have core : s.wakeup tp = s := by simp only [wakeup, ready]
    rw [core]
    exact ⟨queues, fun qp some_ => .inr ⟨some_, by rw [calm]; exact Nat.add_le_add_left (Nat.add_le_add_left (Nat.zero_le _) _) _⟩⟩
  · have waiting := TState.timed_waits timed
    have lt : tp < s.nthd := ok.sched.lt_of_ne_suspended fun is => by
      rw [is] at timed
      cases timed
    have woken : WokenOff tp rdyTimeout s.toCore (s.wakeup tp).toCore := by
      rw [wakeup_toCore ok.sched timed]
      exact ⟨waiting, lt, waits_readyMsg ok.ask waiting, rfl,
        fun _ => rfl⟩
    refine ⟨woken.queues ok.sched queues, fun qp some_ => .inr ⟨fun none => some_ ?_, ?_⟩⟩
    · rw [show _ = _ from woken.lists qp, none]
      rfl
    · have promised : promised qp { s.wakeup tp with isr := isr }.toCore = _ := woken.promised ok queues qp
      rw [if_neg (by simp [rdyTimeout, rdyOk])] at promised
      rw [calm, promised]
      rw [same]
      omega

theorem next_qWakes {l : Label} (ok : KernelOk False s) (queues : QQueues s.toCore) (taken : next l s = some s') :
    QWakes s s' := by
  have effect := (next_step ok nofun taken).1
  by_cases isRun : l = .run
  · subst isRun
    obtain ⟨f, fs, thread, top, -, rfl⟩ := next_run taken
    rw [Label.foot_run top] at effect
    have loop := qPopped ok.core queues thread top
    have resume : ∀ {qp : IoQueue} {s' : Sys}, f.qWaits = some qp → Effect {} s.pop s' →
        (s.lastMsg = rdyOk → s'.testing qp = 1) → QWakes s s' := resume_wakes ok.core queues thread top
    have calm : f.qTests = none → ∀ qp, s.testing qp = 0 := fun notTest qp => by
      rw [testing_top top, notTest]
      rfl
    cases f with
    | iqGet n time => exact (iqGetLoop_round (loop rfl).work time).wakes ok.core queues thread top rfl
    | iqRead n time want got =>
      exact (iqReadLoop_round (loop rfl).work time ((loop rfl).last rfl) want got).wakes ok.core queues thread top rfl
    | oqPut n b time =>
      exact (oqPutLoop_round (loop rfl).work time b).wakes ok.core queues thread top rfl
    | oqWrite n time todo done =>
      cases todo with
      | nil =>
        have taken : Popped {} (.oqWrite n time [] done) fs s := popped ok.core thread top rfl nofun rfl rfl
        have finished := (loop rfl).work.finish ((loop rfl).last rfl) (.bytes done)
        exact (taken.toEffect.trans finished.effect).qWakes rfl ok.core queues (calm rfl)
      | cons b todo =>
        exact (oqWriteLoop_round (loop rfl).work time ((loop rfl).last rfl) b todo done).wakes ok.core queues
          thread top rfl
    | iqGetWait n time =>
      refine resume rfl ((loop rfl).work.iqGetResume s.lastMsg) fun isOk => ?_
      have again : s.pop.iqGetResume n time s.lastMsg = s.pop.onCore (.push (.iqGet n time)) := if_neg (by rw [isOk]; decide)
      exact testing_push again rfl
    | iqReadWait n time want got =>
      refine resume rfl ((loop rfl).work.iqReadResume ((loop rfl).last rfl) want got s.lastMsg) fun isOk => ?_
      have again : s.pop.iqReadResume n time want got s.lastMsg = s.pop.onCore (.push (.iqRead n time want got)) :=
        if_neg (by rw [isOk]; decide)
      exact testing_push again rfl
    | oqPutWait n b time =>
      refine resume rfl ((loop rfl).work.oqPutResume b s.lastMsg) fun isOk => ?_
      have again : s.pop.oqPutResume n b time s.lastMsg = s.pop.onCore (.push (.oqPut n b time)) := if_neg (by rw [isOk]; decide)
      exact testing_push again rfl
    | oqWriteWait n time todo done =>
      cases todo with
      | nil =>
        have ended : Effect {} s.pop (s.pop.oqWriteResume n time [] done s.lastMsg) :=
          (loop rfl).work.oqWriteResume ((loop rfl).last rfl) [] done s.lastMsg
        exact ended.qWakes_pop (loop rfl) (waitOf_eq_none.2 fun g mem => by
          rw [top, List.mem_cons] at mem
          rcases mem with rfl | mem
          · rfl
          · have plain : Plain fs := (top ▸ ok.core.ctl.current).plain_tail rfl
            exact kind_isQ.of_asks (plain g mem)) (calm rfl)
      | cons b todo =>
        refine resume rfl ((loop rfl).work.oqWriteResume ((loop rfl).last rfl) (b :: todo) done s.lastMsg) fun isOk => ?_
        have again : s.pop.oqWriteResume n time (b :: todo) done s.lastMsg =
            s.pop.onCore (.push (.oqWrite n time (b :: todo) done)) := if_neg (by rw [isOk]; decide)
        exact testing_push again rfl
    | _ => exact effect.qWakes rfl ok.core queues (calm rfl)
  · have calm := next_testing ok.core taken isRun
    cases l with
    | call f => cases f <;> exact effect.qWakes rfl ok.core queues calm
    | scall f => cases f <;> exact effect.qWakes rfl ok.core queues calm
    | icall f =>
      obtain ⟨mode, -, rfl⟩ := next_icall taken
      have tellable := tellable_of_mode ok.core mode
      cases f with
      | iqResetI n => exact reset_wakes ok.core queues calm fun qp' other => update_of_ne other ..
      | oqResetI n => exact reset_wakes ok.core queues calm fun qp' other => update_of_ne other ..
      | iqPutI n b => exact chIQPutI_wakes ok.core queues calm tellable b
      | oqGetI n => exact chOQGetI_wakes ok.core queues calm tellable
      | _ => exact effect.qWakes rfl ok.core queues calm
    | callback =>
      obtain ⟨isr, ⟨tp, is, rfl⟩ | ⟨k, is, rfl⟩⟩ := next_callback taken
      · exact wakeup_wakes ok.core queues calm (ok.core.called_back is)
      · exact ⟨queues, fun qp some_ => .inr ⟨some_, by rw [calm]; exact Nat.add_le_add_left (Nat.le_add_right ..) _⟩⟩
    | run => exact absurd rfl isRun
    | _ => exact effect.qWakes rfl ok.core queues calm

/-! ## Runs -/

theorem QQueues.chSysInit (cfg : Config) : QQueues (Kernel.chSysInit cfg).toCore := by
  intro qp t mem
  simp [Kernel.chSysInit, init] at mem

/-- The queue `qp` of `n` cells stores `l`. As long as a thread waits on it, every byte that
it stores, or every free cell of an output queue, has been promised. -/
structure NoLostWakeup (n : Nat) (qp : IoQueue) (l : List UInt8) (s : Sys) : Prop where
  stored : QHolds n qp l s.toIoQueues
  /-- The promises are made to threads that have been woken with `Q_OK` and have not resumed. -/
  promised : s.testing qp = 0 → s.queue (.qWaiting qp) ≠ [] → qp.counts n l.length ≤ s.promised qp
  /-- When the running thread has resumed, one more may be meant for the test that it is about
  to make; nothing else can happen before it. -/
  resumed : s.testing qp = 1 → s.queue (.qWaiting qp) ≠ [] → qp.counts n l.length ≤ s.promised qp + 1
  tested : s.testing qp = 1 → ∀ label s', next label s = some s' → label = .run

theorem io_queue_no_lost_wakeup {cfg : Config} (reached : (kernelLts cfg).Reach (fun _ _ => True) s) (qp : IoQueue) :
    ∃ l, NoLostWakeup (cfg.qSize qp) qp l s := by
  obtain ⟨ok, -, ⟨l, holds⟩, bound⟩ := reached.invariant
    (I := fun s => KernelOk False s ∧ QQueues s.toCore ∧ (∃ l, QHolds (cfg.qSize qp) qp l s.toIoQueues) ∧
      (s.queue (.qWaiting qp) ≠ [] → s.qCounter qp ≤ s.promised qp + s.testing qp))
    ⟨.init False cfg, .chSysInit cfg, ⟨[], .chSysInit cfg qp⟩, fun some_ => absurd rfl some_⟩ fun s l s' inv _ taken => by
      obtain ⟨ok, queues, ⟨l, holds⟩, bound⟩ := inv
      have step := next_qWakes ok queues taken
      refine ⟨(next_step ok nofun taken).2, step.queues, (next_qMove ok taken).holds holds, fun some_ => ?_⟩
      rcases step.wakes qp some_ with zero | ⟨before, balance⟩
      · rw [zero]
        exact Nat.zero_le _
      · have := bound before
        omega
  refine ⟨l, holds, fun zero some_ => ?_, fun one some_ => ?_, fun one label s' taken => ?_⟩
  · rw [← holds.counter]
    have := bound some_
    omega
  · rw [← holds.counter]
    have := bound some_
    omega
  · by_contra notRun
    cases (next_testing ok.core taken notRun qp).symm.trans one

/-- Two threads wait for a byte; one is woken when it comes. -/
theorem io_queue_no_lost_wakeup_two : ∃ s l,
    (kernelLts smallConfig).run [.call (.thdCreate 70 .static), .run, .call (.iqGetTimeout 0 timeInfinite), .run, .run,
      .call (.thdCreate 70 .static), .run, .call (.iqGetTimeout 0 timeInfinite), .run, .run, .isrEnter,
      .icall (.iqPutI 0 5)] (chSysInit smallConfig) = some s ∧
    s.queue (.qWaiting (.iq 0)) = [3] ∧ s.promised (.iq 0) = 1 ∧ s.qCounter (.iq 0) = 1 ∧
    NoLostWakeup (smallConfig.qSize (.iq 0)) (.iq 0) l s := by
  exact Lts.exists_run₂ (by rfl) rfl fun reached => (io_queue_no_lost_wakeup reached (.iq 0)).imp fun _ ok => ⟨rfl, rfl, rfl, ok⟩

end ChibiOS.Kernel
