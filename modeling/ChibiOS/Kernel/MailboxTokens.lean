import ChibiOS.Kernel.Answers
import ChibiOS.Kernel.SemAccounting

/-!
# The tokens of mailboxes

A mailbox counts its free slots and its messages with two semaphores. A token that a
semaphore has given is in flight until the thread that got it goes on. `Sys.avail`
counts the tokens of a semaphore and those in flight: waiting for a token, getting
one and giving up leave it as it is; what changes it is that a token is given, that
a thread with a token goes on, and a reset.
-/

namespace ChibiOS.Kernel

open Function
open Lib Kernel.Core Sys
open Kernel.Frame (isMb)

/-- The semaphore that a mailbox function waits for. -/
def Frame.mbSem : Frame → Option SemId
  | mbPost mb _ | mbPostAhead mb _ => some (.mbEmptysem mb)
  | mbFetch mb => some (.mbFullsem mb)
  | _ => none

/-- A semaphore of a mailbox. -/
def SemId.mailbox : SemId → Bool
  | sem _ => false
  | mbEmptysem _ | mbFullsem _ => true

/-- The semaphore whose token a thread in a mailbox function has asked for. -/
def Core.asked (t : Tid) (c : Core) : Option SemId := (c.waits isMb t).bind (·.1.mbSem)

/-- The function at `f` has been given a token of `sp`. -/
def gotToken (sp : SemId) (f : Frame) (m : Msg) : Bool := decide (f.mbSem = some sp ∧ m = rdyOk)

/-- The tokens of `sp` that a wait holds. -/
def holds (sp : SemId) (w : Option (Frame × Option Msg)) : Nat := if answeredAs (gotToken sp) w then 1 else 0

/-- The threads that have been given a token of `sp` and have not gone on. -/
def Core.inFlight (sp : SemId) (c : Core) : Nat := c.answered isMb (gotToken sp)

/-- The tokens of `sp` and those in flight. -/
def Sys.avail (sp : SemId) (s : Sys) : Int := max (s.sCnt sp) 0 + s.inFlight sp

/-- The threads in the queue of a semaphore of a mailbox are in a function that asked
for its token; those in other queues are in none. -/
def MbQueues (c : Core) : Prop :=
  ∀ sp t, t ∈ c.queue (.sQueue sp) → c.asked t = if sp.mailbox then some sp else none

/-- The tokens of mailboxes change as `d` says. -/
structure MbTokens (d : SemId → Int) (s s' : Sys) : Prop where
  avail : ∀ sp, sp.mailbox = true → s'.avail sp = s.avail sp + d sp
  queues : MbQueues s'.toCore

theorem kind_isMb : Kind isMb := by
  intro f is
  cases f <;> first | cases is; done | exact Option.some_ne_none _

theorem Foot.off_isMb {φ : Foot} (offSem : φ.sem = false) (offMb : φ.mb = false) : φ.Off isMb := by
  constructor
  · intro f is
    cases f <;> first | exact offMb | cases is
  · intro f is st asks
    cases f <;> first | (cases asks; exact offSem) | cases is

theorem Frame.mbSem_ne_none {f : Frame} (mb : f.isMb = true) : f.mbSem ≠ none := by
  cases f <;> first | cases mb; done | exact Option.some_ne_none _

variable {d d' : SemId → Int} {s s' s'' : Sys} {c c' : Core} {sp : SemId} {t : Tid} {m : Msg} {f : Frame}
  {init : SemId → Nat} {n : Nat} {o : Option Frame} {s₁ : Sys}

theorem MbTokens.trans (left : MbTokens d s s') (right : MbTokens d' s' s'') : MbTokens (d + d') s s'' :=
  ⟨fun sp is => by rw [right.avail sp is, left.avail sp is, Pi.add_apply, Int.add_assoc], right.queues⟩

theorem MbTokens.zero_trans (left : MbTokens 0 s s') (right : MbTokens d s' s'') : MbTokens d s s'' := by
  simpa using left.trans right

theorem MbTokens.trans_zero (left : MbTokens d s s') (right : MbTokens 0 s' s'') : MbTokens d s s'' := by
  simpa using left.trans right

/-- Neither the waits nor the semaphores change. -/
theorem MbTokens.same (queues : MbQueues s.toCore) (inFlight : ∀ sp, s'.inFlight sp = s.inFlight sp)
    (waits : s'.waits isMb = s.waits isMb) (cnt : s'.sCnt = s.sCnt)
    (lists : ∀ sp, s'.queue (.sQueue sp) = s.queue (.sQueue sp)) : MbTokens 0 s s' := by
  refine ⟨fun sp _ => ?_, fun sp t mem => ?_⟩
  · rw [Sys.avail, Sys.avail, cnt, inFlight, Pi.zero_apply, Int.add_zero]
  · rw [lists] at mem
    rw [← queues sp t mem, asked, asked, waits]

theorem Core.inFlight_congr (nthd : c'.nthd = c.nthd) (waits : c'.waits isMb = c.waits isMb) (sp : SemId) :
    c'.inFlight sp = c.inFlight sp := by
  rw [inFlight, inFlight, answered, answered, nthd, waits]

/-- Only mailboxes change. -/
theorem MbTokens.onMailboxes {o : Mailboxes} (queues : MbQueues s.toCore) : MbTokens 0 s { s with toMailboxes := o } :=
  .same queues (fun _ => rfl) rfl rfl fun _ => rfl

theorem MbTokens.reschedule (tokens : MbTokens d s s') (sched : SchedOk s'.toCore) :
    MbTokens d s (s'.onCore .chSchRescheduleS) := by
  refine tokens.trans_zero (.same tokens.queues ?_ (waits_chSchRescheduleS sched) rfl fun sp => SameLists.rescheduleS _ _ nofun)
  refine inFlight_congr ?_ (waits_chSchRescheduleS sched)
  change s'.chSchRescheduleS.nthd = s'.nthd
  rw [chSchRescheduleS]
  split
  · exact runFirst_prio.2
  · rfl

theorem MbTokens.tell (tokens : MbTokens d s s') (tellable : Tellable s') (r : Ret) : MbTokens d s (s'.ret r) := by
  have waits : (s'.ret r).waits isMb = s'.waits isMb := waits_ret kind_isMb tellable r
  exact tokens.trans_zero (.same tokens.queues (inFlight_congr rfl waits) waits rfl fun _ => rfl)

/-- Steps away from semaphores and mailboxes. -/
theorem Effect.mbTokens {φ : Foot} (effect : Effect φ s s') (offSem : φ.sem = false) (offMb : φ.mb = false)
    (ok : CoreOk s.toCore) (queues : MbQueues s.toCore) : MbTokens 0 s s' := by
  have waits : s'.waits isMb = s.waits isMb := effect.moves.waits_eq ok (Foot.off_isMb offSem offMb)
  exact .same queues (fun _ => answered_congr kind_isMb ok (effect.coreOk ok) waits) waits
    (congrArg Semaphores.sCnt (effect.objs.sem offSem)) fun sp => effect.moves.queue_eq ok.sched offSem

/-! ## Threads in queues -/

/-- A thread in the queue of a semaphore has no answer yet. -/
theorem SchedOk.waiting (sched : SchedOk c) (mem : t ∈ c.queue (.sQueue sp)) : (c.pState t).waits = true := by
  rw [(sched.member _ t mem).2.1]
  rfl

theorem Core.waits_of_waiting {p : Frame → Bool} {w : Frame × Option Msg} (waiting : (c.pState t).waits = true)
    (is : c.waits p t = some w) : p w.1 = true ∧ w.2 = none := by
  simp only [waits, waitOf, waiting, if_true, Option.map_eq_some_iff] at is
  obtain ⟨f, found, rfl⟩ := is
  exact ⟨List.find?_some found, rfl⟩

/-- The thread `t` is answered. -/
def Answers (t : Tid) (m : Msg) (c c' : Core) : Prop :=
  c'.waits isMb = update (c.waits isMb) t ((c.waits isMb t).map fun w => (w.1, some m)) ∧ c'.nthd = c.nthd

/-- A thread in a queue is answered. -/
theorem Answers.inFlight (answers : Answers t m c c') (sched : SchedOk c) (queues : MbQueues c)
    (mem : t ∈ c.queue (.sQueue sp)) (sp' : SemId) :
    c'.inFlight sp' = c.inFlight sp' + if m = rdyOk ∧ sp.mailbox = true ∧ sp' = sp then 1 else 0 := by
  have lt : t < c.nthd := (sched.member _ t mem).2.2
  have changes := answered_update (q := gotToken sp') lt answers.2 answers.1
  have asks := queues sp t mem
  rw [asked] at asks
  rw [Core.inFlight, Core.inFlight]
  cases is : c.waits isMb t with
  | none =>
    rw [is] at asks changes
    have other : sp.mailbox = false := by simpa using asks
    simpa [other] using changes
  | some w =>
    obtain ⟨isMb, waiting⟩ := waits_of_waiting (sched.waiting mem) is
    obtain ⟨f, a⟩ := w
    obtain rfl : a = none := waiting
    rw [is] at asks changes
    have mailbox : sp.mailbox = true := by
      by_contra other
      rw [if_neg other] at asks
      exact Frame.mbSem_ne_none isMb asks
    have sem : f.mbSem = some sp := by simpa [mailbox] using asks
    have iff : (sp = sp' ∧ m = rdyOk) ↔ m = rdyOk ∧ sp.mailbox = true ∧ sp' = sp :=
      ⟨fun ⟨same, isOk⟩ => ⟨isOk, mailbox, same.symm⟩, fun ⟨isOk, _, same⟩ => ⟨same.symm, isOk⟩⟩
    simpa only [answeredAs, gotToken, Option.map_some, sem, Option.some.injEq, decide_eq_true_eq, iff, Bool.false_eq_true, if_false,
      add_zero] using changes

/-- Who is woken has asked for the same as before. -/
theorem Answers.asked (answers : Answers t m c c') (t' : Tid) : c'.asked t' = c.asked t' := by
  rw [Core.asked, Core.asked, answers.1]
  by_cases same : t' = t
  · subst same
    rw [update_self]
    cases c.waits isMb t' <;> rfl
  · rw [update_of_ne same]

theorem Answers.queues (answers : Answers t m c c') (queues : MbQueues c)
    (lists : ∀ sp t, t ∈ c'.queue (.sQueue sp) → t ∈ c.queue (.sQueue sp)) : MbQueues c' := by
  intro sp t mem
  rw [answers.asked]
  exact queues sp t (lists sp t mem)

/-- A thread in the queue of `sp` is woken, and the counter goes up. -/
theorem MbTokens.answer (answers : Answers t m s.toCore s'.toCore) (sched : SchedOk s.toCore) (queues : MbQueues s.toCore)
    (low : s.sCnt sp < 0) (mem : t ∈ s.queue (.sQueue sp)) (cnt : s'.sCnt = update s.sCnt sp (s.sCnt sp + 1))
    (lists : ∀ sp t, t ∈ s'.queue (.sQueue sp) → t ∈ s.queue (.sQueue sp)) :
    MbTokens (Pi.single sp (if m = rdyOk then 1 else 0)) s s' := by
  refine ⟨fun sp' mailbox => ?_, answers.queues queues lists⟩
  rw [Sys.avail, Sys.avail, answers.inFlight sched queues mem, cnt]
  by_cases here : sp' = sp
  · subst here
    have same : max (s.sCnt sp' + 1) 0 = max (s.sCnt sp') 0 := by omega
    rw [update_self, Pi.single_eq_same, same]
    by_cases isOk : m = rdyOk
    · simp [isOk, mailbox, Int.add_assoc]
    · simp [isOk]
  · rw [update_of_ne here, Pi.single_eq_of_ne here]
    simp [here]

/-! ## Giving tokens -/

theorem Answers.readyMsg {l : List Tid} (ok : CoreOk c) (mem : t ∈ c.queue (.sQueue sp)) :
    Answers t m c ((c.setQueue (.sQueue sp) l).readyMsg t m) :=
  ⟨waits_readyMsg ok.ask (ok.sched.waiting mem), rfl⟩

theorem Answers.wakeupS {l : List Tid} (ok : CoreOk c) (mem : t ∈ c.queue (.sQueue sp)) :
    Answers t m c ((c.setQueue (.sQueue sp) l).chSchWakeupS t m) := by
  refine ⟨waits_chSchWakeupS ok.ask (ok.sched.waiting mem) ok.sched.currp_state, ?_⟩
  rw [chSchWakeupS]
  split <;> rfl

/-- The signal functions differ in how they wake the thread. -/
theorem signal_tokens {wake : Tid → Core → Core} (sems : SemsOk init s) (sched : SchedOk s.toCore)
    (queues : MbQueues s.toCore) (same : ∀ t c, SameLists c (wake t c))
    (answers : ∀ t l, s.queue (.sQueue sp) = t :: l → Answers t rdyOk s.toCore (wake t (s.toCore.setQueue (.sQueue sp) l))) :
    MbTokens (Pi.single sp 1) s (s.signalBy wake sp) := by
  have cnt : ((s.setCnt sp (s.sCnt sp + 1)).logSem sp .signal).sCnt sp = s.sCnt sp + 1 := update_self ..
  rcases sems.signalBy wake sp with ⟨t, l, low, first, is⟩ | ⟨kept, is⟩ <;> rw [is]
  · have mem : t ∈ s.queue (.sQueue sp) := by
      rw [first]
      exact .head _
    have lists : ∀ sp' t', t' ∈ (wake t (s.toCore.setQueue (.sQueue sp) l)).queue (.sQueue sp') →
        t' ∈ s.queue (.sQueue sp') := fun sp' t' mem' => by
      rw [same t _ (.sQueue sp') (by simp)] at mem'
      by_cases here : sp' = sp
      · subst here
        rw [first]
        exact List.mem_cons_of_mem _ (by simpa [setQueue] using mem')
      · simpa [setQueue, here] using mem'
    exact .answer (m := rdyOk) (answers t l first) sched queues low mem rfl lists
  · refine ⟨fun sp' _ => ?_, queues⟩
    rw [avail, avail]
    by_cases here : sp' = sp
    · subst here
      rw [cnt, Pi.single_eq_same]
      change max (s.sCnt sp' + 1) 0 + (s.inFlight sp' : Int) = _
      omega
    · rw [Pi.single_eq_of_ne here]
      simp [setCnt, logSem, here]

theorem chSemSignalI_tokens (sems : SemsOk init s) (ok : CoreOk s.toCore) (queues : MbQueues s.toCore) :
    MbTokens (Pi.single sp 1) s (s.chSemSignalI sp) :=
  signal_tokens sems ok.sched queues (fun _ _ => .ready rfl) fun t l first =>
    .readyMsg ok (by rw [first]; exact .head _)

/-- Tokens of other semaphores. -/
theorem MbTokens.congr (tokens : MbTokens d s s') (same : ∀ sp, sp.mailbox = true → d sp = d' sp) : MbTokens d' s s' :=
  ⟨fun sp is => by rw [tokens.avail sp is, same sp is], tokens.queues⟩

theorem MbTokens.of_sem {k : Int} (tokens : MbTokens (Pi.single (.sem n) k) s s') : MbTokens 0 s s' :=
  tokens.congr fun sp is => Pi.single_eq_of_ne (by rintro rfl; cases is) _

theorem chSemAddCounterI_tokens {k : Nat} : ∀ (n : Nat) {s : Sys}, SemsOk init s → CoreOk s.toCore →
    MbQueues s.toCore → MbTokens 0 s (s.chSemAddCounterI (.sem k) n)
  | 0, s, _, _, queues => .same queues (fun _ => rfl) rfl rfl fun _ => rfl
  | n + 1, s, sems, ok, queues => by
    have first : MbTokens 0 s (s.chSemSignalI (.sem k)) := (chSemSignalI_tokens sems ok queues).of_sem
    have effect : IEffect { sem := true } s (s.chSemSignalI (.sem k)) := chSemSignalI_effect rfl ok
    exact first.zero_trans (chSemAddCounterI_tokens n ((chSemSignalI_sems sems).ok sems) (effect.coreOk ok) first.queues)

/-- A reset wakes the threads in the queue without a token. -/
theorem resetLoop_tokens (sp : SemId) : ∀ (n : Nat) {c : Core}, CoreOk c → MbQueues c →
    MbQueues (Sys.resetLoop sp n c) ∧ ∀ sp', (Sys.resetLoop sp n c).inFlight sp' = c.inFlight sp'
  | 0, c, _, queues => ⟨queues, fun _ => rfl⟩
  | n + 1, c, ok, queues => by
    rw [resetLoop]
    split
    · exact ⟨queues, fun _ => rfl⟩
    next tp c' last =>
      have removed := ok.sched.lifoRemove last
      have moved : Moves { sem := true } c (c'.readyMsg tp rdyReset) := removed.readyMsg (by simp) rfl (by decide)
      obtain ⟨isLast, rfl⟩ := lifoRemove_some last
      have mem := List.mem_of_getLast? isLast
      have answers : Answers tp rdyReset c ((c.setQueue (.sQueue sp) (c.queue (.sQueue sp)).dropLast).readyMsg tp rdyReset) :=
        .readyMsg ok mem
      have kept := answers.queues queues fun sp' t mem => by
        by_cases here : sp' = sp
        · subst here
          refine List.mem_of_mem_dropLast ?_
          simpa [setQueue, readyMsg, chSchReadyI, setU] using mem
        · simpa [setQueue, readyMsg, chSchReadyI, setU, here] using mem
      obtain ⟨queues', same⟩ := resetLoop_tokens sp n (moved.coreOk ok) kept
      refine ⟨queues', fun sp' => ?_⟩
      rw [same, answers.inFlight ok.sched queues mem, if_neg (by simp [rdyReset, rdyOk]), add_zero]

theorem chSemResetI_tokens (ok : CoreOk s.toCore) (queues : MbQueues s.toCore) (sp : SemId) (n : Nat) :
    MbTokens (Pi.single sp (n - max (s.sCnt sp) 0)) s (s.chSemResetI sp n) := by
  obtain ⟨queues', same⟩ := resetLoop_tokens sp (-s.sCnt sp).toNat ok queues
  refine ⟨fun sp' _ => ?_, queues'⟩
  have inFlight : (s.chSemResetI sp n).inFlight sp' = s.inFlight sp' := same sp'
  have cnt : (s.chSemResetI sp n).sCnt = update s.sCnt sp n := rfl
  rw [avail, avail, inFlight, cnt]
  by_cases here : sp' = sp
  · subst here
    rw [update_self, Pi.single_eq_same]
    omega
  · rw [update_of_ne here, Pi.single_eq_of_ne here, Int.add_zero]

/-! ## The running thread's own wait -/

/-- The wait of the running thread becomes `w`, and with it the counters. -/
theorem MbTokens.own {w : Option (Frame × Option Msg)} (sched : SchedOk s.toCore) (queues : MbQueues s.toCore)
    (waits : s'.waits isMb = update (s.waits isMb) s.currp w) (nthd : s'.nthd = s.nthd)
    (balance : ∀ sp, sp.mailbox = true →
      max (s'.sCnt sp) 0 + holds sp w = max (s.sCnt sp) 0 + holds sp (s.waits isMb s.currp) + d sp)
    (lists : ∀ sp t, t ∈ s'.queue (.sQueue sp) → t ∈ s.queue (.sQueue sp) ∨
      t = s.currp ∧ (w.bind (·.1.mbSem)) = if sp.mailbox then some sp else none) : MbTokens d s s' := by
  refine ⟨fun sp mailbox => ?_, fun sp t mem => ?_⟩
  · have changes : s'.inFlight sp + holds sp (s.waits isMb s.currp) = s.inFlight sp + holds sp w :=
      Core.answered_update sched.currp_lt nthd waits
    have := balance sp mailbox
    rw [Sys.avail, Sys.avail]
    omega
  · rw [Core.asked, waits]
    rcases lists sp t mem with old | ⟨rfl, asks⟩
    · have other : t ≠ s.currp := by
        rintro rfl
        exact sched.currp_not_mem _ old
      rw [update_of_ne other]
      exact queues sp t old
    · rwa [update_self]

theorem Prepares.semInsert (prepares : Prepares c c') (sp : SemId) : Prepares c (Sys.semInsert sp c') :=
  (prepares.setU _).setQueue (q := .sQueue sp) nofun _

/-- The running thread is about to wait for a token of `sp`, in the mailbox function
at `o` if that is one. -/
structure Asks (o : Option Frame) (sp : SemId) (s s₁ : Sys) : Prop where
  notYet : s.waits isMb s.currp = none
  sem : o.bind Frame.mbSem = if sp.mailbox then some sp else none
  prepares : Prepares s.toCore s₁.toCore
  found : (s₁.pCtx s.currp).find? isMb = o
  told : ∀ m, (s₁.ret (.msg m)).waits isMb = update (s.waits isMb) s.currp (o.map (·, some m))
  cnt : s₁.sCnt = s.sCnt
  lists : s₁.queue = s.queue
  vt : s₁.vt.Ok
  nthd : s₁.nthd = s.nthd

theorem Asks.plain (ok : CoreOk s.toCore) (plain : Plain (s.pCtx s.currp)) : Asks none (.sem n) s s where
  notYet := kind_isMb.waits_none plain
  sem := rfl
  prepares := .refl _
  found := kind_isMb.plain_find? plain
  told m := by
    rw [show (s.ret (.msg m)).waits isMb = s.waits isMb from waits_ret kind_isMb (fun _ => plain) _]
    exact (update_eq_self_iff.2 (kind_isMb.waits_none plain).symm).symm
  cnt := rfl
  lists := rfl
  vt := ok.timed.vt
  nthd := rfl

theorem Asks.push (ok : CoreOk s.toCore) (thread : s.isr = []) (plain : Plain (s.pCtx s.currp)) (mb : f.isMb = true)
    (sem : f.mbSem = some sp) : Asks (some f) sp s (s.onCore (.push f)) where
  notYet := kind_isMb.waits_none plain
  sem := by
    have mailbox : sp.mailbox = true := by cases f <;> cases sem <;> rfl
    simpa [mailbox] using sem
  prepares := (Prepares.refl _).push f
  found := by simp [Core.push, mb]
  told m := waits_push_ret mb (kind_isMb f mb) (by cases f <;> first | rfl | cases mb) thread ok.sched.currp_state
  cnt := rfl
  lists := rfl
  vt := ok.timed.vt
  nthd := rfl

/-- The wait joins the queue. -/
theorem Asks.block (asks : Asks o sp s s₁) (sched : SchedOk s.toCore) (queues : MbQueues s.toCore)
    (waits : s'.waits isMb = update (s.waits isMb) s.currp (o.map (·, none))) (nthd : s'.nthd = s₁.nthd)
    (low : s.sCnt sp ≤ 0) (cnt : s'.sCnt = update s₁.sCnt sp (s₁.sCnt sp - 1))
    (lists : SameLists (Sys.semInsert sp s₁.toCore) s'.toCore) : MbTokens 0 s s' := by
  refine .own sched queues waits (nthd.trans asks.nthd) (fun sp' _ => ?_) fun sp' t mem => ?_
  · have neither : holds sp' (o.map (·, none)) = 0 := by cases o <;> rfl
    rw [neither, asks.notYet, cnt, asks.cnt]
    by_cases here : sp' = sp
    · subst here
      rw [update_self]
      simp [holds, answeredAs]
      omega
    · simp [update_of_ne here, holds, answeredAs]
  · rw [lists (.sQueue sp') nofun] at mem
    simp only [semInsert, queueInsert, setQueue, setU, asks.lists, asks.prepares.currp] at mem
    by_cases here : sp' = sp
    · subst here
      rw [update_self, List.mem_append, List.mem_singleton] at mem
      refine mem.imp id fun is => ⟨is, ?_⟩
      rw [← asks.sem]
      cases o <;> rfl
    · exact .inl (by simpa [here] using mem)

/-- The wait is answered at once: with a token, or with none. -/
theorem Asks.tell (asks : Asks o sp s s₁) (sched : SchedOk s.toCore) (queues : MbQueues s.toCore) {m : Msg}
    (waits : s'.waits isMb = update (s.waits isMb) s.currp (o.map (·, some m))) (nthd : s'.nthd = s₁.nthd)
    (cnt : m = rdyOk ∧ 0 < s.sCnt sp ∧ s'.sCnt = update s₁.sCnt sp (s₁.sCnt sp - 1) ∨ m ≠ rdyOk ∧ s'.sCnt = s₁.sCnt)
    (lists : s'.queue = s₁.queue) : MbTokens 0 s s' := by
  refine .own sched queues waits (nthd.trans asks.nthd) (fun sp' mailbox => ?_) fun sp' t mem => ?_
  · have before : holds sp' (s.waits isMb s.currp) = 0 := by rw [asks.notYet]; rfl
    rw [before]
    rcases cnt with ⟨rfl, pos, cnt⟩ | ⟨notOk, cnt⟩
    · rw [cnt, asks.cnt]
      have sem := asks.sem
      by_cases here : sp' = sp
      · subst here
        rw [if_pos mailbox] at sem
        obtain ⟨f, rfl, isSem⟩ := Option.bind_eq_some_iff.1 sem
        have one : holds sp' (some (f, some rdyOk)) = 1 := by simp [holds, answeredAs, gotToken, isSem]
        rw [update_self, Option.map_some, one, Pi.zero_apply]
        omega
      · have neither : holds sp' (o.map (·, some rdyOk)) = 0 := by
          cases o with
          | none => rfl
          | some f =>
            have other : f.mbSem ≠ some sp' := by
              rintro is
              rw [Option.bind_some, is] at sem
              split at sem
              · exact here (Option.some.inj sem)
              · cases sem
            simp [holds, answeredAs, gotToken, other]
        simp [neither, here]
    · have neither : holds sp' (o.map (·, some m)) = 0 := by
        cases o <;> simp [holds, answeredAs, gotToken, notOk]
      simp [neither, cnt, asks.cnt]
  · rw [lists, asks.lists] at mem
    exact .inl mem

theorem chSemWaitS_tokens (ok : CoreOk s.toCore) (queues : MbQueues s.toCore) (plain : Plain (s.pCtx s.currp)) :
    MbTokens 0 s (s.chSemWaitS (.sem n)) := by
  have asks : Asks none (.sem n) s s := .plain ok plain
  have cnt : ((s.setCnt (.sem n) (s.sCnt (.sem n) - 1)).startWait (.sem n)).sCnt (.sem n) = s.sCnt (.sem n) - 1 :=
    update_self ..
  unfold chSemWaitS
  dsimp only
  split <;> rename_i low
  · refine asks.block ok.sched queues ?_ (chSchGoSleepS_nthd ..) (by omega) rfl (.goSleepS _ .wtsem)
    rw [← asks.found]
    exact (asks.prepares.semInsert (.sem n)).waits_sleepUnder .wtsem ok.sched rfl kind_isMb rfl
  · exact asks.tell ok.sched queues (asks.told rdyOk) rfl (.inl ⟨rfl, by omega, rfl⟩) rfl

theorem chSemWaitTimeoutS_tokens (asks : Asks o sp s s₁) (ok : CoreOk s.toCore) (queues : MbQueues s.toCore) (time : Systime) :
    MbTokens 0 s (s₁.chSemWaitTimeoutS sp time) := by
  have cnt : (s₁.setCnt sp (s₁.sCnt sp - 1)).sCnt sp = s.sCnt sp - 1 := by rw [← asks.cnt]; exact update_self ..
  unfold chSemWaitTimeoutS
  dsimp only
  split <;> rename_i low
  · split
    · refine asks.tell ok.sched queues (m := rdyTimeout) (asks.told rdyTimeout) rfl (.inr ⟨by decide, ?_⟩) rfl
      simp [Sys.ret, Sys.onCore, Sys.setCnt]
    · refine asks.block ok.sched queues ?_ (chSchGoSleepTimeoutS_nthd ..) (by omega) rfl (.goSleepTimeoutS _ .wtsem time)
      rw [← asks.found]
      exact (asks.prepares.semInsert sp).waits_sleepTimeout .wtsem ok.sched rfl kind_isMb asks.vt time
  · exact asks.tell ok.sched queues (asks.told rdyOk) rfl (.inl ⟨rfl, by omega, rfl⟩) rfl

/-! ## Timeouts, tokens taken by the caller and tokens used -/

/-- A thread that sleeps in another state is in no mailbox function. -/
theorem AskOk.waits_none (ask : AskOk c) (waits : (c.pState t).waits = true) (other : c.pState t ≠ .wtsem) :
    c.waits isMb t = none := by
  refine waitOf_eq_none.2 fun f mem => ?_
  rw [← Bool.not_eq_true]
  intro isMb
  have asks : f.asks = some .wtsem := by cases f <;> first | rfl | cases isMb
  obtain bad | bad | ⟨same, -⟩ := ask t
  · exact TState.waits_ne_ready waits bad
  · exact TState.waits_ne_current waits bad
  · exact other (same f mem _ asks)

/-- The timer of a sleep wakes the thread, or finds it awake. -/
theorem wakeup_tokens {tp : Tid} {isr : List Isr} (sems : SemsOk init s) (ok : CoreOk s.toCore)
    (queues : MbQueues s.toCore) (state : s.pState tp = .ready ∨ (s.pState tp).timed = true) :
    MbTokens 0 s { s.wakeup tp with isr := isr } := by
  rcases state with ready | timed
  · simp only [wakeup, ready]
    exact .same queues (fun _ => rfl) rfl rfl fun _ => rfl
  have waits := TState.timed_waits timed
  have answers : Answers tp rdyTimeout s.toCore { (s.toCore.dequeue tp).readyTimeout tp with isr := isr } :=
    ⟨waits_readyMsg ok.ask waits, rfl⟩
  rcases wakeup_timed ok.sched timed with ⟨sp, mem, woken⟩ | ⟨other, woken⟩
  · have low : s.sCnt sp < 0 := by
      have length : (s.queue (.sQueue sp)).length = (-s.sCnt sp).toNat := by simpa [sem] using (sems sp).length
      have := List.length_pos_of_mem mem
      omega
    have given : MbTokens (Pi.single sp (if rdyTimeout = rdyOk then 1 else 0)) s
        { (s.chSemFastSignalI sp).logSem sp (.expire (s.semTicket tp)) with
          toCore := { (s.toCore.dequeue tp).readyTimeout tp with isr := isr } } :=
      .answer answers ok.sched queues low mem rfl fun _ _ => List.mem_of_mem_erase
    rw [if_neg (by decide), Pi.single_zero] at given
    rwa [woken]
  · have same := answers.1.trans (update_eq_self_iff.2 (by
      rw [ok.ask.waits_none waits other]
      rfl))
    have lists : ∀ sp, (s.queue (.sQueue sp)).erase tp = s.queue (.sQueue sp) := fun sp =>
      ok.sched.erase_eq other
    have quiet : MbTokens 0 s { s with toCore := { (s.toCore.dequeue tp).readyTimeout tp with isr := isr } } :=
      .same queues (inFlight_congr answers.2 same) same rfl lists
    rwa [woken]

/-- A token is there, and the caller takes it. -/
theorem chSemFastWaitI_tokens (pos : 0 < s.sCnt sp) (queues : MbQueues s.toCore) :
    MbTokens (Pi.single sp (-1)) s (s.chSemFastWaitI sp) := by
  refine ⟨fun sp' _ => ?_, queues⟩
  have cnt : (s.chSemFastWaitI sp).sCnt = update s.sCnt sp (s.sCnt sp - 1) := rfl
  have inFlight : (s.chSemFastWaitI sp).inFlight sp' = s.inFlight sp' := rfl
  rw [avail, avail, cnt, inFlight]
  by_cases here : sp' = sp
  · subst here
    rw [update_self, Pi.single_eq_same]
    omega
  · rw [update_of_ne here, Pi.single_eq_of_ne here, Int.add_zero]

/-- A mailbox function goes on. -/
theorem pop_tokens {fs : List Frame} (ok : CoreOk s.toCore) (queues : MbQueues s.toCore) (top : s.pCtx s.currp = f :: fs)
    (mb : f.isMb = true) (sem : f.mbSem = some sp) :
    MbTokens (Pi.single sp (if s.lastMsg = rdyOk then -1 else 0)) s s.pop := by
  have ctx : CtxOk s.locked (f :: fs) := top ▸ ok.ctl.current
  have plain : Plain fs := ctx.plain_tail (by cases f <;> first | rfl | cases mb)
  have before : s.waits isMb s.currp = some (f, some s.lastMsg) :=
    waits_top top mb (kind_isMb f mb) (by cases f <;> first | rfl | cases mb) ok.sched.currp_state
  have waits := kind_isMb.waits_pop top plain
  refine .own ok.sched queues waits rfl (fun sp' _ => ?_) fun _ _ => .inl
  have after : holds sp' none = 0 := rfl
  have cnt : s.pop.sCnt = s.sCnt := rfl
  rw [before, after, cnt]
  by_cases here : sp' = sp
  · subst here
    rw [Pi.single_eq_same]
    by_cases isOk : s.lastMsg = rdyOk
    · simp [holds, answeredAs, gotToken, sem, isOk]
    · simp [holds, answeredAs, gotToken, isOk]
  · have other : f.mbSem ≠ some sp' := fun is => here (Option.some.inj (is.symm.trans sem))
    rw [Pi.single_eq_of_ne here]
    simp [holds, answeredAs, gotToken, other]

/-- A thread that goes on with a token had one. -/
theorem one_le_avail {fs : List Frame} (ok : CoreOk s.toCore) (queues : MbQueues s.toCore) (top : s.pCtx s.currp = f :: fs)
    (mb : f.isMb = true) (sem : f.mbSem = some sp) (isOk : s.lastMsg = rdyOk) : 1 ≤ s.avail sp := by
  have mailbox : sp.mailbox = true := by cases f <;> cases sem <;> rfl
  have used := (pop_tokens ok queues top mb sem).avail sp mailbox
  have nonneg : 0 ≤ s.pop.avail sp := by
    rw [avail]
    omega
  rw [Pi.single_eq_same, if_pos isOk] at used
  omega

end ChibiOS.Kernel
