import ChibiOS.Kernel.Scheduling
import ChibiOS.Lib.Ring

/-!
# I/O queues as bounded FIFOs

A queue holds the bytes that it has accepted since its last reset and that have not
been removed. The buffer is a ring of them; `q_counter` counts them in an input queue
and the free cells in an output queue. When the pointers meet, the counter tells a
full queue from an empty one.
-/

namespace ChibiOS.Kernel

open Function
open Lib IoQueues Sys

/-- The bytes accepted since the last reset. -/
def accepted : List QEvent → List UInt8
  | [] | .reset :: _ => []
  | .put b :: log => accepted log ++ [b]
  | .get _ :: log => accepted log

/-- The bytes removed since the last reset. -/
def removed : List QEvent → List UInt8
  | [] | .reset :: _ => []
  | .put _ :: log => removed log
  | .get b :: log => removed log ++ [b]

namespace IoQueues

def isEmpty (o : IoQueues) : IoQueue → Bool
  | .iq n => o.qCounter (.iq n) ≤ 0
  | .oq n => o.qWrptr (.oq n) = o.qRdptr (.oq n) ∧ o.qCounter (.oq n) ≠ 0

def isFull (o : IoQueues) : IoQueue → Bool
  | .iq n => o.qWrptr (.iq n) = o.qRdptr (.iq n) ∧ o.qCounter (.iq n) ≠ 0
  | .oq n => o.qCounter (.oq n) ≤ 0

/-- A byte is stored. -/
def put (qp : IoQueue) (b : UInt8) (o : IoQueues) : IoQueues :=
  { o with
    qCounter := update o.qCounter qp (match qp with
      | .iq _ => o.qCounter qp + 1
      | .oq _ => o.qCounter qp - 1)
    qBuffer := update o.qBuffer qp (update (o.qBuffer qp) (o.qWrptr qp) b)
    qWrptr := update o.qWrptr qp (ringNext (o.qSize qp) (o.qWrptr qp))
    qLog := update o.qLog qp (.put b :: o.qLog qp) }

/-- A byte is taken out. -/
def get (qp : IoQueue) (o : IoQueues) : IoQueues :=
  { o with
    qCounter := update o.qCounter qp (match qp with
      | .iq _ => o.qCounter qp - 1
      | .oq _ => o.qCounter qp + 1)
    qRdptr := update o.qRdptr qp (ringNext (o.qSize qp) (o.qRdptr qp))
    qLog := update o.qLog qp (.get (o.qBuffer qp (o.qRdptr qp)) :: o.qLog qp) }

def reset (qp : IoQueue) (o : IoQueues) : IoQueues :=
  { o with
    qCounter := update o.qCounter qp (match qp with
      | .iq _ => 0
      | .oq _ => o.qSize qp)
    qRdptr := update o.qRdptr qp 0
    qWrptr := update o.qWrptr qp 0
    qLog := update o.qLog qp (.reset :: o.qLog qp) }

end IoQueues

/-- The byte `b` is given to the caller: it is the last of those returned, or of those
that a block read has got so far. -/
def Delivers (b : UInt8) (s s' : Sys) : Prop :=
  ∃ bs, s'.pRet s.caller = .bytes (bs ++ [b]) ∨ ∃ n time want, .iqReadNext n time want (bs ++ [b]) ∈ s'.pCtx s.currp

/-- What a step does to the queues. -/
inductive QMove (s s' : Sys) : Prop
  | idle : s'.toIoQueues = s.toIoQueues → QMove s s'
  | put (qp : IoQueue) (b : UInt8) : s.isFull qp = false → s'.toIoQueues = s.put qp b → QMove s s'
  | get (qp : IoQueue) : s.isEmpty qp = false → s'.toIoQueues = s.toIoQueues.get qp → Delivers (s.qFirst qp) s s' → QMove s s'
  | reset (qp : IoQueue) : s'.toIoQueues = s.toIoQueues.reset qp → QMove s s'

/-- What `q_counter` says of `k` bytes in `n` cells. -/
def IoQueue.counts (n k : Nat) : IoQueue → Nat
  | .iq _ => k
  | .oq _ => n - k

open IoQueue (counts)

/-- The queue `qp` of `n` cells holds `l`. -/
structure QHolds (n : Nat) (qp : IoQueue) (l : List UInt8) (o : IoQueues) : Prop where
  size : o.qSize qp = n
  log : accepted (o.qLog qp) = removed (o.qLog qp) ++ l
  ring : Ring n (o.qBuffer qp) (o.qRdptr qp) (o.qWrptr qp) l
  counter : o.qCounter qp = qp.counts n l.length

variable {n : Nat} {qp : IoQueue} {l : List UInt8} {o o' : IoQueues} {s s' : Sys}

section

variable (holds : QHolds n qp l o)
include holds

theorem QHolds.isFull_iff : o.isFull qp = true ↔ l.length = n := by
  have pos := holds.ring.pos
  have le := holds.ring.length
  have counter := holds.counter
  cases qp with
  | iq k =>
    have meet := holds.ring.meet
    rw [← List.length_eq_zero_iff] at meet
    simp only [isFull, meet, counter, counts, decide_eq_true_eq]
    omega
  | oq k =>
    simp only [isFull, counter, counts, decide_eq_true_eq]
    omega

theorem QHolds.isEmpty_iff : o.isEmpty qp = true ↔ l = [] := by
  have pos := holds.ring.pos
  have le := holds.ring.length
  have counter := holds.counter
  rw [← List.length_eq_zero_iff]
  cases qp with
  | iq k =>
    simp only [isEmpty, counter, counts, decide_eq_true_eq]
    omega
  | oq k =>
    have meet := holds.ring.meet
    rw [← List.length_eq_zero_iff] at meet
    simp only [isEmpty, meet, counter, counts, decide_eq_true_eq]
    omega

/-- What another queue does is of no account. -/
theorem QHolds.congr (size : o'.qSize qp = o.qSize qp) (log : o'.qLog qp = o.qLog qp)
    (buffer : o'.qBuffer qp = o.qBuffer qp) (rdptr : o'.qRdptr qp = o.qRdptr qp) (wrptr : o'.qWrptr qp = o.qWrptr qp)
    (counter : o'.qCounter qp = o.qCounter qp) : QHolds n qp l o' :=
  ⟨size.trans holds.size, by rw [log, holds.log], by rw [buffer, rdptr, wrptr]; exact holds.ring,
    counter.trans holds.counter⟩

theorem QHolds.put (room : o.isFull qp = false) (b : UInt8) : QHolds n qp (l ++ [b]) (o.put qp b) := by
  have lt : l.length < n := by
    refine Nat.lt_of_le_of_ne holds.ring.length fun full => ?_
    cases (holds.isFull_iff.2 full).symm.trans room
  have counter := holds.counter
  refine ⟨holds.size, ?_, ?_, ?_⟩
  · simp [IoQueues.put, accepted, removed, holds.log]
  · simpa [IoQueues.put, holds.size] using holds.ring.pushBack lt b
  · cases qp <;> simp only [IoQueues.put, update_self, counter, counts, List.length_append, List.length_singleton]
    omega

theorem QHolds.get (some_ : o.isEmpty qp = false) : ∃ b l', l = b :: l' ∧
    o.qBuffer qp (o.qRdptr qp) = b ∧ QHolds n qp l' (o.get qp) := by
  cases l with
  | nil =>
    cases (holds.isEmpty_iff.2 rfl).symm.trans some_
  | cons b l' =>
    obtain ⟨first, ring⟩ := holds.ring.popFront
    have counter := holds.counter
    have le := holds.ring.length
    refine ⟨b, l', rfl, first, holds.size, ?_, ?_, ?_⟩
    · simp [IoQueues.get, accepted, removed, holds.log, first]
    · simpa [IoQueues.get, holds.size] using ring
    · cases qp <;> simp only [IoQueues.get, update_self, counter, counts, List.length_cons] at le ⊢ <;> omega

theorem QHolds.reset : QHolds n qp [] (o.reset qp) := by
  refine ⟨holds.size, ?_, ?_, ?_⟩
  · simp [IoQueues.reset, accepted, removed]
  · simpa [IoQueues.reset] using Ring.empty holds.ring.pos (o.qBuffer qp)
  · cases qp <;> simp [IoQueues.reset, counts, holds.size]

end

theorem QMove.holds {s s' : Sys} (move : QMove s s') (holds : QHolds n qp l s.toIoQueues) :
    ∃ l', QHolds n qp l' s'.toIoQueues := by
  cases move with
  | idle same => exact ⟨l, same ▸ holds⟩
  | put qp' b room stored =>
    rw [stored]
    by_cases same : qp = qp'
    · subst same
      exact ⟨_, holds.put room b⟩
    · exact ⟨l, by apply holds.congr <;> simp [IoQueues.put, same]⟩
  | get qp' some_ taken =>
    rw [taken]
    by_cases same : qp = qp'
    · subst same
      obtain ⟨b, l', -, -, holds'⟩ := holds.get some_
      exact ⟨l', holds'⟩
    · exact ⟨l, by apply holds.congr <;> simp [IoQueues.get, same]⟩
  | reset qp' cleared =>
    rw [cleared]
    by_cases same : qp = qp'
    · subst same
      exact ⟨_, holds.reset⟩
    · exact ⟨l, by apply holds.congr <;> simp [IoQueues.reset, same]⟩

/-! ## Steps -/

theorem qReadyFirst_toIoQueues (s : Sys) (qp : IoQueue) : (s.qReadyFirst qp).toIoQueues = s.toIoQueues := by
  rw [qReadyFirst]
  split <;> rfl

theorem qReadyFirst_pRet (s : Sys) (qp : IoQueue) : (s.qReadyFirst qp).pRet = s.pRet := by
  rw [qReadyFirst, Core.fifoRemove]
  cases s.queue (.qWaiting qp) <;> rfl

theorem qCallNotify_toIoQueues (s : Sys) (qp : IoQueue) : (s.qCallNotify qp).toIoQueues = s.toIoQueues := by
  rw [qCallNotify]
  split <;> rfl

theorem chIQPutI_qMove (b : UInt8) : QMove s (s.chIQPutI n b) := by
  rw [chIQPutI]
  split
  · exact .idle rfl
  next room =>
    exact .put (.iq n) b (Bool.eq_false_iff.2 room) (qReadyFirst_toIoQueues ..)

theorem chOQGetI_qMove : QMove s (s.chOQGetI n) := by
  rw [chOQGetI]
  split
  · exact .idle rfl
  next some_ =>
    refine .get (.oq n) (Bool.eq_false_iff.2 some_) (qReadyFirst_toIoQueues ..) ⟨[], .inl ?_⟩
    rw [qReadyFirst_pRet]
    exact update_self ..

theorem iqGetLoop_qMove (time : Systime) : QMove s (s.iqGetLoop n time) := by
  rw [iqGetLoop]
  split
  · split <;> exact .idle rfl
  next some_ =>
    exact .get (.iq n) (Bool.eq_false_iff.2 some_) rfl ⟨[], .inl (update_self ..)⟩

theorem iqReadLoop_qMove (time : Systime) (want : Nat) (got : List UInt8) : QMove s (s.iqReadLoop n time want got) := by
  rw [iqReadLoop]
  split
  · split <;> exact .idle rfl
  next some_ =>
    split
    · exact .get (.iq n) (Bool.eq_false_iff.2 some_) rfl ⟨got, .inl (update_self ..)⟩
    · refine .get (.iq n) (Bool.eq_false_iff.2 some_) rfl ⟨got, .inr ⟨n, time, want - 1, ?_⟩⟩
      simp [Core.push, iqTake, qCount, qSkip]

theorem oqPutLoop_qMove (b : UInt8) (time : Systime) : QMove s (s.oqPutLoop n b time) := by
  rw [oqPutLoop]
  split
  · split <;> exact .idle rfl
  next room =>
    exact .put (.oq n) b (Bool.eq_false_iff.2 room) (qCallNotify_toIoQueues ..)

theorem oqWriteLoop_qMove (time : Systime) (todo done : List UInt8) : QMove s (s.oqWriteLoop n time todo done) := by
  cases todo with
  | nil => exact .idle rfl
  | cons b todo =>
    rw [oqWriteLoop]
    split
    · split <;> exact .idle rfl
    next room =>
      refine .put (.oq n) b (Bool.eq_false_iff.2 room) ((qCallNotify_toIoQueues ..).trans ?_)
      split <;> rfl

theorem wakeup_toIoQueues (s : Sys) (tp : Tid) : (s.wakeup tp).toIoQueues = s.toIoQueues := by
  rw [wakeup]
  split
  · rfl
  · split <;> rfl
  · rfl
  · rfl
  · rfl

theorem next_qMove {l : Label} (ok : KernelOk False s) (taken : next l s = some s') : QMove s s' := by
  have effect := (next_step ok nofun taken).1
  cases l with
  | icall f =>
    obtain ⟨-, -, rfl⟩ := next_icall taken
    cases f with
    | iqResetI n => exact .reset (.iq n) rfl
    | oqResetI n => exact .reset (.oq n) rfl
    | iqPutI n b => exact chIQPutI_qMove b
    | oqGetI n => exact chOQGetI_qMove
    | _ => exact .idle (effect.objs.ioq rfl)
  | call f => cases f <;> exact .idle (effect.objs.ioq rfl)
  | scall f => cases f <;> exact .idle (effect.objs.ioq rfl)
  | run =>
    obtain ⟨f, fs, thread, top, -, rfl⟩ := next_run taken
    rw [Label.foot_run top] at effect
    -- a loop goes round with its frame taken off
    have popped : ∀ {s' : Sys}, QMove s.pop s' → QMove s s' := fun move => by
      cases move with
      | idle same => exact .idle same
      | put qp b room stored => exact .put qp b room stored
      | get qp some_ taken delivers => exact .get qp some_ taken delivers
      | reset qp cleared => exact .reset qp cleared
    cases f with
    | iqGet n time => exact popped (iqGetLoop_qMove time)
    | iqRead n time want got => exact popped (iqReadLoop_qMove time want got)
    | oqPut n b time => exact popped (oqPutLoop_qMove b time)
    | oqWrite n time todo done => exact popped (oqWriteLoop_qMove time todo done)
    | iqGetWait | iqReadWait | oqPutWait | oqWriteWait =>
      simp only [Frame.run, iqGetResume, iqReadResume, oqPutResume, oqWriteResume]
      split <;> exact .idle rfl
    | _ => exact .idle (effect.objs.ioq rfl)
  | callback =>
    obtain ⟨isr, ⟨tp, -, rfl⟩ | ⟨k, -, rfl⟩⟩ := next_callback taken
    · exact .idle (wakeup_toIoQueues s tp)
    · exact .idle rfl
  | _ => exact .idle (effect.objs.ioq rfl)

/-- A step that takes a byte out of a queue delivers it. -/
theorem QMove.delivers {b : UInt8} (move : QMove s s') (logged : s'.qLog qp = .get b :: s.qLog qp) : Delivers b s s' := by
  have other : ∀ {qp' : IoQueue} {e : QEvent}, s'.qLog = update s.qLog qp' (e :: s.qLog qp') → e = .get b ∧ qp' = qp :=
    fun {qp' e} log => by
      by_cases same : qp = qp'
      · subst same
        rw [log, update_self, List.cons.injEq] at logged
        exact ⟨logged.1, rfl⟩
      · rw [log, update_of_ne same] at logged
        exact absurd logged.symm (List.cons_ne_self _ _)
  cases move with
  | idle same =>
    rw [show s'.qLog = s.qLog from congrArg qLog same] at logged
    exact absurd logged.symm (List.cons_ne_self _ _)
  | put qp' b' _ stored => cases (other (congrArg qLog stored)).1
  | get qp' _ taken delivers =>
    obtain ⟨first, -⟩ := other (congrArg qLog taken)
    cases first
    exact delivers
  | reset qp' cleared => cases (other (congrArg qLog cleared)).1

theorem QHolds.chSysInit (cfg : Config) (qp : IoQueue) : QHolds (cfg.qSize qp) qp [] (Kernel.chSysInit cfg).toIoQueues := by
  refine ⟨rfl, rfl, .empty (cfg.qSize_pos qp) _, ?_⟩
  cases qp <;> rfl

/-- The tests of a queue. -/
def Sys.chQIsEmptyI (s : Sys) : IoQueue → Bool
  | .iq n => s.chIQIsEmptyI n
  | .oq n => s.chOQIsEmptyI n

def Sys.chQIsFullI (s : Sys) : IoQueue → Bool
  | .iq n => s.chIQIsFullI n
  | .oq n => s.chOQIsFullI n

/-- The queue `qp` of `n` cells is a FIFO: `l` are the bytes stored. -/
structure FifoOk (n : Nat) (qp : IoQueue) (l : List UInt8) (s : Sys) : Prop where
  /-- What has been removed is a prefix of what has been accepted, and `l` is the rest. -/
  order : accepted (s.qLog qp) = removed (s.qLog qp) ++ l
  bound : l.length ≤ n
  buffer : ∀ i (lt : i < l.length), s.qBuffer qp ((s.qRdptr qp + i) % n) = l[i]
  counter : s.qCounter qp = qp.counts n l.length
  empty : s.chQIsEmptyI qp = true ↔ l = []
  full : s.chQIsFullI qp = true ↔ l.length = n
  /-- Whoever takes a byte out gets it. -/
  delivered : ∀ label s' b, next label s = some s' → s'.qLog qp = .get b :: s.qLog qp → Delivers b s s'

/-- I/O queues are bounded FIFOs of bytes, whatever else happens. -/
theorem io_queue_fifo {cfg : Config} (reached : (kernelLts cfg).Reach (fun _ _ => True) s) (qp : IoQueue) :
    ∃ l, FifoOk (cfg.qSize qp) qp l s := by
  obtain ⟨ok, l, holds⟩ := reached.invariant
    (I := fun s => KernelOk False s ∧ ∃ l, QHolds (cfg.qSize qp) qp l s.toIoQueues)
    ⟨.init False cfg, [], .chSysInit cfg qp⟩ fun s l s' inv _ taken =>
      ⟨(next_step inv.1 nofun taken).2, inv.2.elim fun _ holds => (next_qMove inv.1 taken).holds holds⟩
  refine ⟨l, holds.log, holds.ring.length, holds.ring.cell, holds.counter, ?_, ?_,
    fun label s' b taken logged => (next_qMove ok taken).delivers logged⟩
  · rw [← holds.isEmpty_iff]
    cases qp <;> rfl
  · rw [← holds.isFull_iff]
    cases qp <;> rfl

/-- An input queue of four cells gets five bytes; the last one is refused. One is read. -/
theorem io_queue_fifo_full : ∃ s l,
    (kernelLts smallConfig).run [.isrEnter, .icall (.iqPutI 0 1), .icall (.iqPutI 0 2), .icall (.iqPutI 0 3),
      .icall (.iqPutI 0 4), .icall (.iqPutI 0 5), .isrExit, .call (.iqGetTimeout 0 timeInfinite), .run]
      (chSysInit smallConfig) = some s ∧
    s.pRet none = .msg qFull ∧ s.pRet (some 0) = .bytes [1] ∧ accepted (s.qLog (.iq 0)) = [1, 2, 3, 4] ∧
    removed (s.qLog (.iq 0)) = [1] ∧ FifoOk (smallConfig.qSize (.iq 0)) (.iq 0) l s :=
  Lts.exists_run₂ (by rfl) rfl fun reached => (io_queue_fifo reached (.iq 0)).imp fun _ fifo => ⟨rfl, rfl, rfl, rfl, fifo⟩

end ChibiOS.Kernel
