import ChibiOS.Kernel.MailboxTokens
import ChibiOS.Lib.Ring

/-!
# Mailboxes are bounded deques

`MbMove` is what a step of the kernel can do to mailboxes. A mailbox holds a list
(`MbHolds`): its history says so, its ring buffer has it, and its tokens count the
messages and the free slots. Steps keep this, resets apart: a reset forgets the
tokens that are in flight.
-/

namespace ChibiOS.Kernel

open Function
open Lib Sys Mailboxes Kernel.Core
open Pi (single)

/-- The messages in a mailbox of `n` slots after a history, newest event first, if it is
one of a deque that never has more than `n` of them. -/
def replay (n : Nat) : List MbEvent → Option (List Msg)
  | [] => some []
  | .post m :: log => (replay n log).bind fun l => if l.length < n then some (l ++ [m]) else none
  | .postAhead m :: log => (replay n log).bind fun l => if l.length < n then some (m :: l) else none
  | .fetch m :: log => (replay n log).bind fun l => if l.head? = some m then some l.tail else none
  | .reset :: log => (replay n log).map fun _ => []

/-- An operation on the buffer of a mailbox: the semaphore whose token it uses, the one
it gives a token to, and the mailboxes after it. -/
inductive MbOp (mb : MbId) (s : Sys) : SemId → SemId → Mailboxes → Prop
  | post (m : Msg) : MbOp mb s (.mbEmptysem mb) (.mbFullsem mb) (s.mbPut mb m).toMailboxes
  | postAhead (m : Msg) : MbOp mb s (.mbEmptysem mb) (.mbFullsem mb) (s.mbPutAhead mb m).toMailboxes
  | fetch : MbOp mb s (.mbFullsem mb) (.mbEmptysem mb) (s.mbTake mb).toMailboxes

/-- `mb_wrptr` and `mb_rdptr` back at `mb_buffer`. -/
def Sys.mbRewind (mb : MbId) (s : Sys) : Sys :=
  { s with mbWrptr := update s.mbWrptr mb 0, mbRdptr := update s.mbRdptr mb 0 }.logMb mb .reset

/-- What a step can do to mailboxes. The caller of a fetch gets the message that it takes. -/
inductive MbMove (l : Label) (s s' : Sys) : Prop
  | idle : MbTokens 0 s s' → s'.toMailboxes = s.toMailboxes → MbMove l s s'
  | exchange (mb : MbId) (take give : SemId) : MbOp mb s take give s'.toMailboxes → 1 ≤ s.avail take →
      MbTokens (single take (-1) + single give 1) s s' →
      (take = .mbFullsem mb → s'.pRet s.caller = .fetched rdyOk (some (s.mbFirst mb))) → MbMove l s s'
  | reset (mb : MbId) : l = .call (.mbReset mb) →
      MbTokens (single (.mbEmptysem mb) (s.mbSize mb - max (s.sCnt (.mbEmptysem mb)) 0) +
        single (.mbFullsem mb) (-max (s.sCnt (.mbFullsem mb)) 0)) s s' →
      s'.toMailboxes = (s.mbRewind mb).toMailboxes → MbMove l s s'

variable {init : SemId → Nat} {d : SemId → Int} {l : Label} {s s' s₁ : Sys} {sp take give : SemId} {mb : MbId}
  {m : Msg} {o : Mailboxes} {f : Frame} {n : Nat} {ms : List Msg} {cfg : Config}

/-! ## The functions -/

theorem chSemSignalI_toMailboxes (s : Sys) (sp : SemId) : (s.chSemSignalI sp).toMailboxes = s.toMailboxes := by
  rw [chSemSignalI]
  split
  · split <;> rfl
  · rfl

theorem chSemAddCounterI_toMailboxes : ∀ (n : Nat) (s : Sys), (s.chSemAddCounterI sp n).toMailboxes = s.toMailboxes
  | 0, _ => rfl
  | n + 1, s => (chSemAddCounterI_toMailboxes n _).trans (chSemSignalI_toMailboxes s sp)

theorem chSemSignalI_pRet (s : Sys) (sp : SemId) : (s.chSemSignalI sp).pRet = s.pRet := by
  rw [chSemSignalI]
  split
  · split
    · rfl
    next removed =>
      obtain ⟨l, -, rfl⟩ := fifoRemove_some removed
      rfl
  · rfl

theorem Core.chSchRescheduleS_pRet (c : Core) : c.chSchRescheduleS.pRet = c.pRet := by
  rw [chSchRescheduleS]
  split
  · cases first : c.queue .rQueue with
    | nil => simp [chSchDoRescheduleAhead, runFirst, fifoRemove, first]
    | cons h l =>
      rw [chSchDoRescheduleAhead, runFirst_eq first]
      rfl
  · rfl

/-- The caller has used its token; it changes the buffer and gives a token to the other
side. -/
theorem MbOp.exchanged (op : MbOp mb s take give o) (used : MbTokens (single take (-1)) s s₁) (sems : SemsOk init s₁)
    (ok : CoreOk s₁.toCore) (stored : s' = { s₁ with toMailboxes := o }) :
    MbOp mb s take give (s'.chSemSignalI give).toMailboxes ∧
      MbTokens (single take (-1) + single give 1) s (s'.chSemSignalI give) := by
  subst stored
  have changed : MbTokens (single take (-1)) s { s₁ with toMailboxes := o } := used.trans_zero (.onMailboxes used.queues)
  have sems' : SemsOk init { s₁ with toMailboxes := o } := sems
  refine ⟨?_, changed.trans (chSemSignalI_tokens sems' ok changed.queues)⟩
  rwa [chSemSignalI_toMailboxes]

/-- The I-class functions take a token that is there. -/
theorem fastWait_tokens (pos : 0 < s.sCnt sp) (queues : MbQueues s.toCore) :
    1 ≤ s.avail sp ∧ MbTokens (single sp (-1)) s (s.chSemFastWaitI sp) := by
  refine ⟨?_, chSemFastWaitI_tokens pos queues⟩
  rw [avail]
  omega

theorem MbTokens.refl (queues : MbQueues s.toCore) : MbTokens 0 s s := .onMailboxes queues

theorem signal_sched (ok : CoreOk s.toCore) (sp : SemId) : SchedOk (s.chSemSignalI sp).toCore := by
  have effect : IEffect { sem := true } s (s.chSemSignalI sp) := chSemSignalI_effect rfl ok
  exact (effect.coreOk ok).sched

theorem Tellable.signal (tellable : Tellable s) (ok : CoreOk s.toCore) (sp : SemId) : Tellable (s.chSemSignalI sp) := by
  have effect : IEffect { sem := true } s (s.chSemSignalI sp) := chSemSignalI_effect rfl ok
  exact tellable.still effect.still

section

variable (sems : SemsOk init s) (ok : CoreOk s.toCore) (queues : MbQueues s.toCore) (tellable : Tellable s)
include sems ok queues tellable

theorem mbPostBy_move (op : MbOp mb s (.mbEmptysem mb) (.mbFullsem mb) o) : MbMove l s (s.mbPostBy mb o) := by
  rw [Sys.mbPostBy]
  split
  · exact .idle (MbTokens.tell (.refl queues) tellable _) rfl
  next pos =>
    obtain ⟨slot, used⟩ := fastWait_tokens (not_le.1 pos) queues
    have sems' := (chSemFastWaitI_sems (not_le.1 pos)).ok sems
    obtain ⟨op, tokens⟩ := op.exchanged used sems' ok rfl
    refine .exchange mb _ _ op slot (tokens.tell ?_ _) (by simp)
    exact Tellable.signal (s := { s.chSemFastWaitI _ with toMailboxes := o }) tellable ok _

theorem chMBFetchI_move : MbMove l s (s.chMBFetchI mb) := by
  rw [chMBFetchI]
  split
  · exact .idle (MbTokens.tell (.refl queues) tellable _) rfl
  next pos =>
    obtain ⟨slot, used⟩ := fastWait_tokens (not_le.1 pos) queues
    have sems' := (chSemFastWaitI_sems (not_le.1 pos)).ok sems
    have told : IEffect {} s (s.ret (.fetched rdyOk (some (s.mbFirst mb)))) := .tell tellable _
    obtain ⟨op, tokens⟩ := MbOp.fetch.exchanged (used.tell tellable _) sems' (told.coreOk ok) rfl
    refine .exchange mb _ _ op slot tokens fun _ => ?_
    rw [chSemSignalI_pRet]
    exact update_self ..

theorem ICall.mbMove (f : ICall) (effect : IEffect f.foot s (f.body s)) : MbMove l s (f.body s) := by
  cases f with
  | semResetI sp n => exact .idle (chSemResetI_tokens ok queues _ n).of_sem rfl
  | semSignalI sp => exact .idle (chSemSignalI_tokens sems ok queues).of_sem (chSemSignalI_toMailboxes s _)
  | semAddCounterI sp n => exact .idle (chSemAddCounterI_tokens n sems ok queues) (chSemAddCounterI_toMailboxes n s)
  | mbPostI mb m => exact mbPostBy_move sems ok queues tellable (.post m)
  | mbPostAheadI mb m => exact mbPostBy_move sems ok queues tellable (.postAhead m)
  | mbFetchI mb => exact chMBFetchI_move sems ok queues tellable
  | _ => exact .idle (effect.toEffect.mbTokens rfl rfl ok queues) (effect.objs.mb rfl)

end

theorem chSemWaitTimeoutS_toMailboxes (s : Sys) (sp : SemId) (time : Systime) :
    (s.chSemWaitTimeoutS sp time).toMailboxes = s.toMailboxes := by
  unfold chSemWaitTimeoutS
  dsimp only
  split
  · split <;> rfl
  · rfl

section

variable {fs : List Frame} (ok : CoreOk s.toCore) (queues : MbQueues s.toCore)
include ok queues

/-- A mailbox function goes on with what it was given. -/
theorem resume_tokens (top : s.pCtx s.currp = f :: fs) (isMb : f.isMb = true) (sem : f.mbSem = some sp) :
    (s.lastMsg = rdyOk → 1 ≤ s.avail sp ∧ MbTokens (single sp (-1)) s s.pop) ∧ (s.lastMsg ≠ rdyOk → MbTokens 0 s s.pop) := by
  have tokens := pop_tokens ok queues top isMb sem
  refine ⟨fun isOk => ⟨one_le_avail ok queues top isMb sem isOk, ?_⟩, fun notOk => ?_⟩
  · rwa [if_pos isOk] at tokens
  · rwa [if_neg notOk, Pi.single_zero] at tokens

theorem Frame.mbMove (f : Frame) (sems : SemsOk init s) (thread : s.isr = []) (top : s.pCtx s.currp = f :: fs)
    (effect : Effect f.foot s (f.run s.pop)) : MbMove l s (f.run s.pop) := by
  have sems' : SemsOk init s.pop := sems
  have resume : ∀ {sp : SemId}, f.isMb = true → f.mbSem = some sp → CoreOk s.pop.toCore ∧
      (s.lastMsg = rdyOk → 1 ≤ s.avail sp ∧ MbTokens (single sp (-1)) s s.pop) ∧
      (s.lastMsg ≠ rdyOk → MbTokens 0 s s.pop) := fun isMb sem => by
    have popped : Popped { mb := true } f fs s := popped ok thread top (by cases f <;> first | rfl | cases isMb)
      (by rintro rfl; cases isMb) (by cases f <;> first | rfl | cases isMb)
      (by cases f <;> first | rfl | cases isMb)
    exact ⟨popped.coreOk ok, resume_tokens ok queues top isMb sem⟩
  have posts : ∀ {mb : MbId} {o : Mailboxes}, MbOp mb s (.mbEmptysem mb) (.mbFullsem mb) o → f.isMb = true →
      f.mbSem = some (.mbEmptysem mb) → MbMove l s (if s.lastMsg = rdyOk then
        ({ s.pop with toMailboxes := o }.chSemSignalI (.mbFullsem mb)).onCore .chSchRescheduleS else s.pop) := by
    intro mb o op isMb sem
    obtain ⟨ok', given, refused⟩ := resume isMb sem
    split
    next isOk =>
      obtain ⟨slot, used⟩ := given isOk
      obtain ⟨op, tokens⟩ := op.exchanged used sems' ok' rfl
      exact .exchange mb _ _ op slot (tokens.reschedule (signal_sched (s := { s.pop with toMailboxes := o }) ok' _)) nofun
    next notOk =>
      exact .idle (refused notOk) rfl
  cases f with
  | mbPost mb m => exact posts (.post m) rfl rfl
  | mbPostAhead mb m => exact posts (.postAhead m) rfl rfl
  | mbFetch mb =>
    obtain ⟨ok', given, refused⟩ := resume rfl rfl
    have tellable : Tellable s.pop := fun _ => by
      have ctx : CtxOk s.locked (.mbFetch mb :: fs) := top ▸ ok.ctl.current
      rw [show s.pop.pCtx s.pop.currp = fs by simp [pop, top]]
      exact ctx.plain_tail rfl
    have told : ∀ r, CoreOk (s.pop.ret r).toCore := fun r => (IEffect.tell (φ := {}) tellable r).coreOk ok'
    simp only [run, mbFetchResume]
    split
    next isOk =>
      obtain ⟨slot, used⟩ := given isOk
      obtain ⟨op, tokens⟩ := MbOp.fetch.exchanged (used.tell tellable _) sems' (told _) rfl
      refine .exchange mb _ _ op slot (tokens.reschedule (signal_sched (s := (s.pop.ret _).mbTake mb) (told _) _)) fun _ => ?_
      rw [onCore_toCore, chSchRescheduleS_pRet, chSemSignalI_pRet, isOk]
      exact update_self ..
    next notOk =>
      exact .idle ((refused notOk).tell tellable _) rfl
  | _ => exact .idle (effect.mbTokens rfl rfl ok queues) (effect.objs.mb rfl)

/-! ## All steps -/

theorem SCall.mbMove (f : SCall) (effect : Effect f.foot s (f.body s))
    (thread : s.isr = []) (plain : Plain (s.pCtx s.currp)) : MbMove l s (f.body s) := by
  have asks : ∀ {sp : SemId} {time : Systime} (f : Frame), f.isMb = true → f.mbSem = some sp →
      MbMove l s ((s.onCore (.push f)).chSemWaitTimeoutS sp time) := fun f isMb sem =>
    .idle (chSemWaitTimeoutS_tokens (.push ok thread plain isMb sem) ok queues _) (chSemWaitTimeoutS_toMailboxes ..)
  cases f with
  | semWaitS sp => exact .idle (chSemWaitS_tokens ok queues plain) (effect.objs.mb rfl)
  | semWaitTimeoutS sp time =>
    exact .idle (chSemWaitTimeoutS_tokens (.plain ok plain) ok queues time) (effect.objs.mb rfl)
  | mbPostS mb m time => exact asks (.mbPost mb m) rfl rfl
  | mbPostAheadS mb m time => exact asks (.mbPostAhead mb m) rfl rfl
  | mbFetchS mb time => exact asks (.mbFetch mb) rfl rfl
  | _ => exact .idle (effect.mbTokens rfl rfl ok queues) (effect.objs.mb rfl)

theorem chMBReset_move (outside : Outside s) : MbMove (.call (.mbReset mb)) s (s.chMBReset mb) := by
  obtain ⟨entered, ok', -, -⟩ := outside.enter (φ := {}) ok
  have locked := entered.mbTokens rfl rfl ok queues
  have rewound : MbTokens 0 s (s.enter.mbRewind mb) := locked.trans_zero (.onMailboxes locked.queues)
  let s₁ := (s.enter.mbRewind mb).chSemResetI (.mbEmptysem mb) (s.mbSize mb)
  have effect : IEffect { sem := true } (s.enter.mbRewind mb) s₁ :=
    chSemResetI_effect (s := s.enter.mbRewind mb) rfl ok' _ _
  have slots := rewound.zero_trans (chSemResetI_tokens (s := s.enter.mbRewind mb) ok' rewound.queues (.mbEmptysem mb) (s.mbSize mb))
  have ok₁ := effect.coreOk ok'
  have effect₁ : IEffect { sem := true } s₁ (s₁.chSemResetI (.mbFullsem mb) 0) := chSemResetI_effect rfl ok₁ _ _
  have messages := (slots.trans (chSemResetI_tokens ok₁ slots.queues (.mbFullsem mb) 0)).reschedule (effect₁.coreOk ok₁).sched
  refine .reset mb rfl (messages.congr fun sp _ => ?_) rfl
  have slotCnt : (s.enter.mbRewind mb).sCnt (.mbEmptysem mb) = s.sCnt (.mbEmptysem mb) := rfl
  have cnt : s₁.sCnt = update s.sCnt (.mbEmptysem mb) (s.mbSize mb) := rfl
  have itemCnt : s₁.sCnt (.mbFullsem mb) = s.sCnt (.mbFullsem mb) := by simp [cnt]
  rw [slotCnt, itemCnt, Nat.cast_zero, Int.zero_sub]

/-- A lock zone around a function on semaphores. -/
theorem Outside.tokens {body : Sys → Sys} (outside : Outside s)
    (inside : CoreOk s.enter.toCore → MbQueues s.enter.toCore → MbTokens d s.enter (body s.enter)) :
    MbTokens d s (s.zone body) := by
  obtain ⟨entered, ok', -, -⟩ := outside.enter (φ := {}) ok
  have locked := entered.mbTokens rfl rfl ok queues
  exact locked.zero_trans (inside ok' locked.queues)

theorem chSemSignalWait_tokens {m n : Nat} (sems : SemsOk init s) (outside : Outside s) :
    MbTokens 0 s (s.chSemSignalWait (.sem m) (.sem n)) := by
  have plain := (outside.enter (φ := {}) ok).plain
  rw [chSemSignalWait_eq]
  refine outside.tokens ok queues fun ok queues => ?_
  have sems' : SemsOk init s.enter := sems
  have effect : IEffect { sem := true } s.enter (s.enter.chSemSignalI (.sem m)) := chSemSignalI_effect rfl ok
  have ok' := effect.coreOk ok
  have signalled : MbTokens 0 s.enter (s.enter.chSemSignalI (.sem m)) := (chSemSignalI_tokens sems' ok queues).of_sem
  have waited : MbTokens 0 s.enter ((s.enter.chSemSignalI (.sem m)).chSemWaitS (.sem n)) :=
    signalled.trans_zero (chSemWaitS_tokens ok' signalled.queues (effect.still.plain plain))
  dsimp only
  split <;> rename_i low
  · exact waited
  · refine waited.reschedule ?_
    unfold chSemWaitS
    dsimp only
    rw [if_neg]
    · exact ok'.sched
    · have cnt := update_self (SemId.sem n) ((s.enter.chSemSignalI (.sem m)).sCnt (.sem n) - 1)
        (s.enter.chSemSignalI (.sem m)).sCnt
      simp only [startWait, logSem, setCnt, cnt]
      omega

theorem ApiCall.mbMove (f : ApiCall) (effect : Effect f.foot s (f.body s)) (sems : SemsOk init s)
    (outside : Outside s) : MbMove (.call f) s (f.body s) := by
  have plain := (outside.enter (φ := {}) ok).plain
  have sems' : SemsOk init s.enter := sems
  have asks : ∀ {sp : SemId} {time : Systime} {l : Label} (f : Frame), f.isMb = true → f.mbSem = some sp →
      MbMove l s (s.zone fun s => (s.onCore (.push f)).chSemWaitTimeoutS sp time) := fun f isMb sem =>
    .idle (outside.tokens ok queues fun ok queues =>
      chSemWaitTimeoutS_tokens (.push ok outside.thread plain isMb sem) ok queues _) (chSemWaitTimeoutS_toMailboxes ..)
  cases f with
  | semReset sp n =>
    have tokens : MbTokens 0 s (s.chSemReset (.sem sp) n) := outside.tokens ok queues fun ok queues => by
      have effect : IEffect { sem := true } s.enter (s.enter.chSemResetI (.sem sp) n) := chSemResetI_effect rfl ok _ n
      exact (chSemResetI_tokens ok queues _ n).of_sem.reschedule (effect.coreOk ok).sched
    exact .idle tokens (effect.objs.mb rfl)
  | semWait sp => exact .idle (outside.tokens ok queues fun ok queues => chSemWaitS_tokens ok queues plain) (effect.objs.mb rfl)
  | semWaitTimeout sp time =>
    exact .idle (outside.tokens ok queues fun ok queues => chSemWaitTimeoutS_tokens (.plain ok plain) ok queues time)
      (effect.objs.mb rfl)
  | semSignal sp =>
    have tokens : MbTokens (single (.sem sp) 1) s (s.chSemSignal (.sem sp)) := outside.tokens ok queues fun ok queues =>
      signal_tokens sems' ok.sched queues (fun t _ => .wakeupS _ t rdyOk) fun t l first =>
        .wakeupS ok (by rw [first]; exact .head _)
    exact .idle tokens.of_sem (effect.objs.mb rfl)
  | semSignalWait sps spw => exact .idle (chSemSignalWait_tokens ok queues sems outside) (effect.objs.mb rfl)
  | mbReset mb => exact chMBReset_move ok queues outside
  | mbPost mb m time => exact asks (.mbPost mb m) rfl rfl
  | mbPostAhead mb m time => exact asks (.mbPostAhead mb m) rfl rfl
  | mbFetch mb time => exact asks (.mbFetch mb) rfl rfl
  | _ => exact .idle (effect.mbTokens rfl rfl ok queues) (effect.objs.mb rfl)

end

/-- What each step does to mailboxes. -/
theorem next_mbMove (ok : KernelOk False s) (sems : SemsOk init s) (queues : MbQueues s.toCore) (taken : next l s = some s') :
    MbMove l s s' := by
  have effect := (next_step ok nofun taken).1
  cases l with
  | call f =>
    obtain ⟨outside, -, -, rfl⟩ := next_call taken
    exact f.mbMove ok.core queues effect sems outside
  | scall f =>
    obtain ⟨zone, empty, -, rfl⟩ := next_scall taken
    exact f.mbMove ok.core queues effect (zone {}).thread (by rw [empty]; nofun)
  | icall f =>
    obtain ⟨mode, allowed, rfl⟩ := next_icall taken
    have tellable := tellable_of_mode ok.core mode
    exact f.mbMove sems ok.core queues tellable (f.effect ok.core tellable allowed)
  | run =>
    obtain ⟨f, fs, thread, top, notNotify, rfl⟩ := next_run taken
    exact f.mbMove ok.core queues sems thread top (run_step ok thread top notNotify).1
  | callback =>
    obtain ⟨isr, ⟨tp, is, rfl⟩ | ⟨n, is, rfl⟩⟩ := next_callback taken
    · exact .idle (wakeup_tokens sems ok.core queues (ok.core.called_back is)) (effect.objs.mb rfl)
    · exact .idle (.same queues (fun _ => rfl) rfl rfl fun _ => rfl) rfl
  | _ => exact .idle (effect.mbTokens rfl rfl ok.core queues) (effect.objs.mb rfl)

/-! ## What a mailbox holds -/

/-- The mailbox `mb` of `n` slots holds the messages `ms`. -/
structure MbHolds (n : Nat) (mb : MbId) (ms : List Msg) (s : Sys) : Prop where
  size : s.mbSize mb = n
  replayed : replay n (s.mbLog mb) = some ms
  ring : Ring n (s.mbBuffer mb) (s.mbRdptr mb) (s.mbWrptr mb) ms
  items : s.avail (.mbFullsem mb) = ms.length
  slots : s.avail (.mbEmptysem mb) + ms.length = n

/-- Nothing happens to this mailbox. -/
theorem MbHolds.same (holds : MbHolds n mb ms s) (tokens : MbTokens d s s') (slots : d (.mbEmptysem mb) = 0)
    (items : d (.mbFullsem mb) = 0) (size : s'.mbSize mb = s.mbSize mb) (log : s'.mbLog mb = s.mbLog mb)
    (buffer : s'.mbBuffer mb = s.mbBuffer mb) (rd : s'.mbRdptr mb = s.mbRdptr mb) (wr : s'.mbWrptr mb = s.mbWrptr mb) :
    MbHolds n mb ms s' where
  size := size.trans holds.size
  replayed := log ▸ holds.replayed
  ring := by
    rw [buffer, rd, wr]
    exact holds.ring
  items := by rw [tokens.avail _ rfl, items, Int.add_zero, holds.items]
  slots := by rw [tokens.avail _ rfl, slots, Int.add_zero, holds.slots]

/-- An operation on the buffer is one on the list. -/
theorem MbHolds.op (holds : MbHolds n mb ms s) (op : MbOp mb s take give s'.toMailboxes) (token : 1 ≤ s.avail take)
    (tokens : MbTokens (single take (-1) + single give 1) s s') : ∃ ms', MbHolds n mb ms' s' := by
  have slots := holds.slots
  have items := holds.items
  have slots' := tokens.avail (.mbEmptysem mb) rfl
  have items' := tokens.avail (.mbFullsem mb) rfl
  generalize same : s'.toMailboxes = o at op
  have at_mb : ∀ {β : Type} (field : Mailboxes → MbId → β), field s'.toMailboxes mb = field o mb := fun field => by rw [same]
  cases op with
  | post m =>
    have room : ms.length < n := by omega
    have log : s'.mbLog mb = .post m :: s.mbLog mb := (at_mb mbLog).trans (update_self ..)
    have buffer : s'.mbBuffer mb = update (s.mbBuffer mb) (s.mbWrptr mb) m :=
      (at_mb mbBuffer).trans (update_self ..)
    have wr : s'.mbWrptr mb = ringNext (s.mbSize mb) (s.mbWrptr mb) := (at_mb mbWrptr).trans (update_self ..)
    have rd : s'.mbRdptr mb = s.mbRdptr mb := at_mb mbRdptr
    refine ⟨ms ++ [m], (at_mb mbSize).trans holds.size, ?_, ?_, ?_, ?_⟩
    · rw [log, replay, holds.replayed, Option.bind_some, if_pos room]
    · rw [buffer, rd, wr, holds.size]
      exact holds.ring.pushBack room m
    · simp at items' ⊢
      omega
    · simp at slots' ⊢
      omega
  | postAhead m =>
    have room : ms.length < n := by omega
    have log : s'.mbLog mb = .postAhead m :: s.mbLog mb := (at_mb mbLog).trans (update_self ..)
    have buffer : s'.mbBuffer mb = update (s.mbBuffer mb) (ringPrev (s.mbSize mb) (s.mbRdptr mb)) m :=
      (at_mb mbBuffer).trans (update_self ..)
    have rd : s'.mbRdptr mb = ringPrev (s.mbSize mb) (s.mbRdptr mb) := (at_mb mbRdptr).trans (update_self ..)
    have wr : s'.mbWrptr mb = s.mbWrptr mb := at_mb mbWrptr
    refine ⟨m :: ms, (at_mb mbSize).trans holds.size, ?_, ?_, ?_, ?_⟩
    · rw [log, replay, holds.replayed, Option.bind_some, if_pos room]
    · rw [buffer, rd, wr, holds.size]
      exact holds.ring.pushFront room m
    · simp at items' ⊢
      omega
    · simp at slots' ⊢
      omega
  | fetch =>
    have log : s'.mbLog mb = .fetch (s.mbFirst mb) :: s.mbLog mb := (at_mb mbLog).trans (update_self ..)
    have buffer : s'.mbBuffer mb = s.mbBuffer mb := at_mb mbBuffer
    have rd : s'.mbRdptr mb = ringNext (s.mbSize mb) (s.mbRdptr mb) := (at_mb mbRdptr).trans (update_self ..)
    have wr : s'.mbWrptr mb = s.mbWrptr mb := at_mb mbWrptr
    cases ms with
    | nil =>
      simp at items
      omega
    | cons x ms =>
      obtain ⟨first, rest⟩ := holds.ring.popFront
      refine ⟨ms, (at_mb mbSize).trans holds.size, ?_, ?_, ?_, ?_⟩
      · rw [log, replay, holds.replayed, Option.bind_some, if_pos (by rw [mbFirst, first]; rfl), List.tail_cons]
      · rwa [buffer, rd, wr, holds.size]
      · simp at items items' ⊢
        omega
      · simp at slots slots' ⊢
        omega

/-- Another mailbox. -/
theorem MbOp.other {mb' : MbId} (op : MbOp mb' s take give o) (ne : mb' ≠ mb) :
    o.mbSize mb = s.mbSize mb ∧ o.mbLog mb = s.mbLog mb ∧ o.mbBuffer mb = s.mbBuffer mb ∧ o.mbRdptr mb = s.mbRdptr mb ∧
      o.mbWrptr mb = s.mbWrptr mb ∧ take ≠ .mbEmptysem mb ∧ take ≠ .mbFullsem mb ∧ give ≠ .mbEmptysem mb ∧
      give ≠ .mbFullsem mb := by
  cases op with
  | post m => simp [mbPut, logMb, mbStore, ne, ne.symm]
  | postAhead m => simp [mbPutAhead, logMb, mbStore, ne, ne.symm]
  | fetch => simp [mbTake, logMb, ne, ne.symm]

/-- Steps keep what a mailbox holds, if there is nothing in flight at its resets. -/
theorem MbMove.holds (move : MbMove l s s') (holds : MbHolds n mb ms s)
    (calm : l = .call (.mbReset mb) → s.inFlight (.mbEmptysem mb) = 0 ∧ s.inFlight (.mbFullsem mb) = 0) :
    ∃ ms', MbHolds n mb ms' s' := by
  cases move with
  | idle tokens same =>
    exact ⟨ms, holds.same tokens rfl rfl (by rw [same]) (by rw [same]) (by rw [same]) (by rw [same]) (by rw [same])⟩
  | exchange mb' take give op token tokens told =>
    by_cases here : mb' = mb
    · subst here
      exact holds.op op token tokens
    · obtain ⟨size, log, buffer, rd, wr, t, t', g, g'⟩ := op.other here
      exact ⟨ms, holds.same tokens (by simp [t.symm, g.symm]) (by simp [t'.symm, g'.symm]) size log buffer rd wr⟩
  | reset mb' is tokens same =>
    by_cases here : mb' = mb
    · subst here
      obtain ⟨noSlots, noItems⟩ := calm is
      have slots' := tokens.avail (.mbEmptysem mb') rfl
      have items' := tokens.avail (.mbFullsem mb') rfl
      have at_mb : ∀ {β : Type} (field : Mailboxes → MbId → β), field s'.toMailboxes mb' = field (s.mbRewind mb').toMailboxes mb' :=
        fun field => by rw [same]
      have log : s'.mbLog mb' = .reset :: s.mbLog mb' := (at_mb mbLog).trans (update_self ..)
      have rd : s'.mbRdptr mb' = 0 := (at_mb mbRdptr).trans (update_self ..)
      have wr : s'.mbWrptr mb' = 0 := (at_mb mbWrptr).trans (update_self ..)
      refine ⟨[], (at_mb mbSize).trans holds.size, ?_, ?_, ?_, ?_⟩
      · rw [log, replay, holds.replayed, Option.map_some]
      · rw [rd, wr]
        exact .empty holds.ring.pos _
      · simp [avail, noItems] at items' ⊢
        omega
      · simp [avail, noSlots, holds.size] at slots' ⊢
        omega
    · refine ⟨ms, holds.same tokens ?_ ?_ ?_ ?_ ?_ ?_ ?_⟩
      · simp [Ne.symm here]
      · simp [Ne.symm here]
      all_goals simp [same, mbRewind, logMb, Ne.symm here]

/-! ## What a fetch returns -/

theorem MbMove.told (move : MbMove l s s') (logged : s'.mbLog mb = .fetch m :: s.mbLog mb) :
    s'.pRet s.caller = .fetched rdyOk (some m) := by
  have longer : s'.mbLog mb ≠ s.mbLog mb := fun same => List.cons_ne_self _ _ (logged.symm.trans same)
  cases move with
  | idle tokens same => exact absurd (by rw [same]) longer
  | exchange mb' take give op slot tokens told =>
    by_cases here : mb' = mb
    · subst here
      generalize s'.toMailboxes = o at op logged
      cases op with
      | post x => cases (update_self ..).symm.trans logged
      | postAhead x => cases (update_self ..).symm.trans logged
      | fetch =>
        cases (update_self ..).symm.trans logged
        exact told rfl
    · exact absurd (op.other here).2.1 longer
  | reset mb' is tokens same =>
    rw [same] at logged longer
    by_cases here : mb' = mb
    · subst here
      cases (update_self ..).symm.trans logged
    · exact absurd (update_of_ne (Ne.symm here) ..) longer

/-! ## Runs -/

theorem MbQueues.chSysInit (cfg : Config) : MbQueues (Kernel.chSysInit cfg).toCore := by
  intro sp t mem
  simp [Kernel.chSysInit, init] at mem

theorem MbHolds.chSysInit (cfg : Config) (mb : MbId) : MbHolds (cfg.mbSize mb) mb [] (Kernel.chSysInit cfg) where
  size := rfl
  replayed := rfl
  ring := .empty (cfg.mbSize_pos mb) _
  items := rfl
  slots := by
    have avail : (Kernel.chSysInit cfg).avail (.mbEmptysem mb) = max (cfg.mbSize mb : Int) 0 + (0 : Nat) := rfl
    simp [avail]

/-- A mailbox whose resets find no thread that has been given one of its tokens and has
not gone on. -/
theorem reach_mbHolds (reached : (kernelLts cfg).Reach (fun s l => l = .call (.mbReset mb) →
    s.inFlight (.mbEmptysem mb) = 0 ∧ s.inFlight (.mbFullsem mb) = 0) s) :
    KernelOk False s ∧ SemsOk cfg.semStart s ∧ MbQueues s.toCore ∧ ∃ ms, MbHolds (cfg.mbSize mb) mb ms s := by
  refine reached.invariant
    (I := fun s => KernelOk False s ∧ SemsOk cfg.semStart s ∧ MbQueues s.toCore ∧ ∃ ms, MbHolds (cfg.mbSize mb) mb ms s)
    ⟨.init False cfg, .chSysInit cfg, .chSysInit cfg, [], .chSysInit cfg mb⟩ fun s l s' inv calm taken => ?_
  obtain ⟨ok, sems, queues, ms, holds⟩ := inv
  have move := next_mbMove ok sems queues taken
  have queues' : MbQueues s'.toCore := by cases move <;> exact MbTokens.queues ‹_›
  exact ⟨(next_step ok nofun taken).2, (next_sems ok sems taken).ok sems, queues', move.holds holds calm⟩

/-- The mailbox `mb` is a deque of at most `n` messages. -/
structure DequeOk (n : Nat) (mb : MbId) (s : Sys) : Prop where
  /-- Its operations, in the order in which they touched the buffer, are those of a deque
  that never has more than `n` messages, and the buffer has the messages that are left. -/
  contents : ∃ ms, replay n (s.mbLog mb) = some ms ∧ ms.length ≤ n ∧
    ∀ i (lt : i < ms.length), s.mbBuffer mb ((s.mbRdptr mb + i) % n) = ms[i]
  /-- A fetch returns the message that it takes. -/
  returned : ∀ l s' m, next l s = some s' → s'.mbLog mb = .fetch m :: s.mbLog mb →
    s'.pRet s.caller = .fetched rdyOk (some m)
  /-- Every slot is free, or has a message, or a thread that has not gone on has been given
  the slot or its message. -/
  capacity : max (s.sCnt (.mbEmptysem mb)) 0 + max (s.sCnt (.mbFullsem mb)) 0 +
    (s.inFlight (.mbEmptysem mb) + s.inFlight (.mbFullsem mb)) = n

theorem MbHolds.dequeOk (holds : MbHolds n mb ms s) (ok : KernelOk False s) (sems : SemsOk init s) (queues : MbQueues s.toCore) :
    DequeOk n mb s where
  contents := ⟨ms, holds.replayed, holds.ring.length, holds.ring.cell⟩
  returned _ _ _ taken logged := (next_mbMove ok sems queues taken).told logged
  capacity := by
    have items := holds.items
    have slots := holds.slots
    rw [avail] at items slots
    omega

/-- A mailbox that is never reset is a bounded deque. -/
theorem mailbox_deque (reached : (kernelLts cfg).Reach (fun _ l => l ≠ .call (.mbReset mb)) s) :
    DequeOk (cfg.mbSize mb) mb s := by
  obtain ⟨ok, sems, queues, ms, holds⟩ := reach_mbHolds (reached.mono fun s l permitted is => absurd is permitted)
  exact holds.dequeOk ok sems queues

/-- The main thread posts, and another one waits to post too. -/
theorem mailbox_deque_full : ∃ s,
    (kernelLts smallConfig).run [.call (.mbPost 0 11 timeInfinite), .run, .run, .call (.thdCreate 70 .static), .run,
      .call (.mbPost 0 22 timeInfinite), .run, .call (.mbFetch 0 timeInfinite), .run] (chSysInit smallConfig) = some s ∧
    s.mbLog 0 = [.fetch 11, .post 11] ∧ s.inFlight (.mbEmptysem 0) = 1 ∧ DequeOk (smallConfig.mbSize 0) 0 s :=
  Lts.exists_run (by rfl) rfl fun reached => ⟨rfl, rfl, mailbox_deque reached⟩

/-- A mailbox is a bounded deque also over resets, if at each of them no thread has been
given a slot or a message of it and has not gone on. -/
theorem mailbox_deque_of_calm_resets (reached : (kernelLts cfg).Reach (fun s l => l = .call (.mbReset mb) →
    s.inFlight (.mbEmptysem mb) = 0 ∧ s.inFlight (.mbFullsem mb) = 0) s) : DequeOk (cfg.mbSize mb) mb s := by
  obtain ⟨ok, sems, queues, ms, holds⟩ := reach_mbHolds reached
  exact holds.dequeOk ok sems queues

/-- The main thread posts, resets, and posts again. -/
theorem mailbox_deque_of_calm_resets_again : ∃ s,
    (kernelLts smallConfig).run [.call (.mbPost 0 11 timeInfinite), .run, .run, .call (.mbReset 0), .run,
      .call (.mbPost 0 22 timeInfinite), .run] (chSysInit smallConfig) = some s ∧
    s.mbLog 0 = [.post 22, .reset, .post 11] ∧ DequeOk (smallConfig.mbSize 0) 0 s :=
  Lts.exists_run (by rfl) rfl fun reached => ⟨rfl, mailbox_deque_of_calm_resets reached⟩

/-- A thread waits to post; it is given the slot that a fetch makes free, and goes on only
after the mailbox has been reset and filled. -/
def staleResetRun : List Label :=
  [.call (.mbPost 0 11 timeInfinite), .run, .run, .call (.thdCreate 63 .static), .run,
    .call (.thdSetPriority 10), .run, .call (.mbPost 0 22 timeInfinite), .run, .call (.thdSetPriority 64), .run,
    .call (.mbFetch 0 timeInfinite), .run, .run, .call (.mbReset 0), .run, .call (.mbPost 0 33 timeInfinite), .run, .run,
    .call (.thdSetPriority 10), .run, .run]

theorem mailbox_deque_stale_reset : ∃ s,
    (kernelLts smallConfig).run staleResetRun (chSysInit smallConfig) = some s ∧
    s.mbSize 0 = 1 ∧ s.sCnt (.mbFullsem 0) = 2 ∧ s.mbBuffer 0 0 = 22 ∧
    s.mbLog 0 = [.post 22, .post 33, .reset, .fetch 11, .post 11] ∧ ¬ DequeOk (smallConfig.mbSize 0) 0 s := by
  refine ⟨_, rfl, rfl, rfl, rfl, rfl, fun deque => ?_⟩
  obtain ⟨ms, bad, -⟩ := deque.contents
  cases bad

end ChibiOS.Kernel
