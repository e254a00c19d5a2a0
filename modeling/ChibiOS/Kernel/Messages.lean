import ChibiOS.Kernel.TurnSteps
import ChibiOS.Kernel.Wakes
import ChibiOS.Kernel.Answers
import ChibiOS.Kernel.Scheduling

/-!
# Synchronous messages

`Exchange` is the kernel with a history of the messages: sent, received, answered, and
returned from. For each thread the history is a sequence of dialogues (`Dialogue`), one
message at a time; for each server the messages received are those sent, in their order,
but for those still in its queue.
-/

namespace ChibiOS.Kernel

open Function
open Lib Kernel.Core Sys

/-! ## The history -/

inductive MsgEvent
  /-- `tp` calls `chMsgSend(server, m)`. -/
  | send (tp server : Tid) (m : Msg)
  /-- `chMsgWait` of the server takes `tp`, with `p_msg` as it is then. -/
  | receive (server tp : Tid) (m : Msg)
  /-- `releaser` calls `chMsgRelease(tp, m)` or `chMsgReleaseS(tp, m)`. -/
  | release (releaser tp : Tid) (m : Msg)
  /-- `chMsgSend` returns to `tp`. -/
  | ret (tp : Tid) (r : Ret)
deriving DecidableEq

/-- How far a thread has got with the message it sent. -/
inductive Dialogue
  | idle
  | sent (server : Tid) (m : Msg)
  | received (server : Tid) (m : Msg)
  | released (answer : Msg)
deriving DecidableEq

/-- The next event of a thread's dialogue, if it may come next. What is received is what was sent, by the server it was sent
to; what is returned is the answer. -/
def Dialogue.next (tp : Tid) (e : MsgEvent) (d : Dialogue) : Option Dialogue :=
  match e with
  | .send t server m => if t = tp then (if d = .idle then some (.sent server m) else none) else some d
  | .receive server t m => if t = tp then (if d = .sent server m then some (.received server m) else none) else some d
  | .release _ t m =>
    if t = tp then
      match d with
      | .received _ _ => some (.released m)
      | _ => none
    else some d
  | .ret t r =>
    if t = tp then
      match d with
      | .released m => if r = .msg m then some .idle else none
      | _ => none
    else some d

/-- The dialogues of a thread, over a history with the newest event first. -/
def dialogue (tp : Tid) : List MsgEvent → Option Dialogue
  | [] => some .idle
  | e :: log => (dialogue tp log).bind (Dialogue.next tp e)

/-- The messages sent to a server, oldest first. -/
def sentTo (server : Tid) (log : List MsgEvent) : List (Tid × Msg) :=
  log.reverse.filterMap fun
    | .send tp to_ m => if to_ = server then some (tp, m) else none
    | _ => none

/-- The messages that a server has received, oldest first. -/
def receivedBy (server : Tid) (log : List MsgEvent) : List (Tid × Msg) :=
  log.reverse.filterMap fun
    | .receive by_ tp m => if by_ = server then some (tp, m) else none
    | _ => none

/-! ## Histories -/

/-- The thread whose dialogue an event belongs to. -/
def MsgEvent.client : MsgEvent → Tid
  | send tp _ _ | receive _ tp _ | release _ tp _ | ret tp _ => tp

variable {tp server : Tid} {e : MsgEvent} {log : List MsgEvent} {d : Dialogue} {x : Exchange} {s s' : Sys} {l : Label}
  {b : Bool} {m : Msg} {t : Tid} {φ : Foot}

theorem dialogue_other (other : tp ≠ e.client) : dialogue tp (e :: log) = dialogue tp log := by
  have next : ∀ d, Dialogue.next tp e d = some d := fun d => by
    cases e <;> exact if_neg (Ne.symm other)
  rw [dialogue]
  cases dialogue tp log with
  | none => rfl
  | some d => exact next d

theorem dialogue_cons {d' : Dialogue} (is : dialogue tp log = some d) (next : Dialogue.next tp e d = some d') :
    dialogue tp (e :: log) = some d' := by
  rwa [dialogue, is]

@[simp] theorem sentTo_cons : sentTo server (e :: log) = sentTo server log ++ match e with
    | .send tp to_ m => if to_ = server then [(tp, m)] else []
    | _ => [] := by
  simp only [sentTo, List.reverse_cons, List.filterMap_append]
  cases e with
  | send tp to_ m => by_cases is : to_ = server <;> simp [is]
  | _ => rfl

@[simp] theorem receivedBy_cons : receivedBy server (e :: log) = receivedBy server log ++ match e with
    | .receive by_ tp m => if by_ = server then [(tp, m)] else []
    | _ => [] := by
  simp only [receivedBy, List.reverse_cons, List.filterMap_append]
  cases e with
  | receive by_ tp m => by_cases is : by_ = server <;> simp [is]
  | _ => rfl

/-! ## The system -/

structure Exchange where
  sys : Sys
  /-- The threads in the middle of `chMsgSend`. -/
  sending : Tid → Bool
  log : List MsgEvent

/-- The history after a step that has led to `s`. `chMsgSend` returns when its thread has nothing left to do in the kernel. -/
def Exchange.after (l : Label) (s : Sys) (x : Exchange) : Exchange :=
  let tp := x.sys.currp
  match l with
  | .call (.msgSend server m) => { sys := s, sending := update x.sending tp true, log := .send tp server m :: x.log }
  | .call (.msgRelease t m) | .scall (.msgReleaseS t m) => { x with sys := s, log := .release tp t m :: x.log }
  | .run =>
    if (x.sys.pCtx tp).head? = some .msgWait then
      match s.pRet (some tp) with
      | .thread (some t) => { x with sys := s, log := .receive tp t (s.pMsg t) :: x.log }
      | _ => { x with sys := s }
    else if x.sending tp = true ∧ s.pCtx tp = [] then
      { sys := s, sending := update x.sending tp false, log := .ret tp (s.pRet (some tp)) :: x.log }
    else { x with sys := s }
  | _ => { x with sys := s }

open Exchange (after)

def exchanges (cfg : Config) : Lts Exchange Label where
  init := { sys := chSysInit cfg, sending := fun _ => false, log := [] }
  next l x := (next l x.sys).map fun s => x.after l s

/-- The messages in a server's queue. -/
def Sys.queued (server : Tid) (s : Sys) : List (Tid × Msg) := (s.queue (.pMsgqueue server)).map fun tp => (tp, s.pMsg tp)

/-- Messages pair up. -/
structure Paired (x : Exchange) : Prop where
  /-- One dialogue after the other: a message is received once, released once, and its sender gets the answer. -/
  dialogues : ∀ tp, (dialogue tp x.log).isSome = true
  /-- A server receives what was sent to it, in this order. -/
  order : ∀ server, sentTo server x.log = receivedBy server x.log ++ x.sys.queued server
  /-- The sender neither runs nor is ready before the release, and `chMsgGet` reads what it sent. -/
  blocked : ∀ tp server m, dialogue tp x.log = some (.sent server m) ∨ dialogue tp x.log = some (.received server m) →
    ¬ x.sys.awake tp ∧ x.sys.pMsg tp = m
  /-- `chMsgWait` finds a message. -/
  waits : (x.sys.pCtx x.sys.currp).head? = some .msgWait → x.sys.queue (.pMsgqueue x.sys.currp) ≠ []

/-! ## What the state says of a dialogue -/

/-- The frames of a thread in `chMsgSend`, from its sleep on. -/
def sendFrames : List Frame := [.rdymsg, .sysUnlock]

/-- Where a thread is in the dialogue `d`. -/
inductive ClientAt (tp : Tid) (sending : Bool) (s : Sys) : Dialogue → Prop
  | idle : sending = false → s.pState tp ≠ .sndmsgq → s.pState tp ≠ .sndmsg → ClientAt tp sending s .idle
  | sent (server : Tid) : sending = true → s.pState tp = .sndmsgq → tp ∈ s.queue (.pMsgqueue server) →
      s.pCtx tp = sendFrames → ClientAt tp sending s (.sent server (s.pMsg tp))
  | received (server : Tid) : sending = true → s.pState tp = .sndmsg → s.pCtx tp = sendFrames →
      ClientAt tp sending s (.received server (s.pMsg tp))
  | released (m : Msg) : sending = true → s.awake tp → s.pCtx tp = sendFrames → s.pU tp = .rdymsg m →
      ClientAt tp sending s (.released m)
  /-- It has read the answer, and unlocks the kernel next. -/
  | answered (m : Msg) : sending = true → tp = s.currp → s.pCtx tp = [.sysUnlock] → s.pRet (some tp) = .msg m →
      ClientAt tp sending s (.released m)

def Frame.isMsgWait (f : Frame) : Bool := f = .msgWait

/-- A thread is about to take a message out of its queue. -/
def Core.takes (t : Tid) (c : Core) : Prop := .msgWait ∈ c.pCtx t ∧ (c.pState t).waits = false

structure ExchangeOk (x : Exchange) : Prop where
  ok : KernelOk False x.sys
  client : ∀ tp, ∃ d, dialogue tp x.log = some d ∧ ClientAt tp (x.sending tp) x.sys d
  order : ∀ server, sentTo server x.log = receivedBy server x.log ++ x.sys.queued server
  server : ∀ t, x.sys.takes t → x.sys.queue (.pMsgqueue t) ≠ []

@[simp] theorem Frame.isMsgWait_iff {f : Frame} : f.isMsgWait = true ↔ f = .msgWait := by
  simp [isMsgWait]

theorem Core.takes_iff {c : Core} : c.takes t ↔ ∃ m, c.waits Frame.isMsgWait t = some (.msgWait, some m) := by
  simp only [takes, waits, waitOf]
  cases found : (c.pCtx t).find? Frame.isMsgWait with
  | none =>
    have off : .msgWait ∉ c.pCtx t := fun mem => List.find?_eq_none.1 found _ mem rfl
    simp [off]
  | some f =>
    obtain rfl : f = .msgWait := Frame.isMsgWait_iff.1 (List.find?_some found)
    simp [List.mem_of_find?_eq_some found]

/-! ## Threads that a step leaves aside -/

/-- A step does nothing to the dialogue of `tp`. -/
structure Aside (tp : Tid) (s s' : Sys) : Prop where
  other : tp ≠ s.currp
  state : ∀ st, st = .sndmsgq ∨ st = .sndmsg → (s'.pState tp = st ↔ s.pState tp = st)
  mem : ∀ server, tp ∈ s.queue (.pMsgqueue server) → tp ∈ s'.queue (.pMsgqueue server)
  msg : s'.pMsg tp = s.pMsg tp

theorem ClientAt.aside (at_ : ClientAt tp b s d) (aside : Aside tp s s') (ok : KernelOk False s) (ok' : KernelOk False s')
    (taken : next l s = some s') : ClientAt tp b s' d := by
  have sched := ok.core.sched
  have ctx : s.pState tp ≠ .suspended → s'.pCtx tp = s.pCtx tp := fun exists_ =>
    next_ctx ok taken tp aside.other (sched.lt_of_ne_suspended exists_)
  have queued := aside.state .sndmsgq (.inl rfl)
  have held := aside.state .sndmsg (.inr rfl)
  cases at_ with
  | idle quiet notQueued notTaken => exact .idle quiet (queued.not.2 notQueued) (held.not.2 notTaken)
  | sent server sending state mem frames =>
    rw [← aside.msg]
    exact .sent server sending (queued.2 state) (aside.mem server mem) ((ctx (by rw [state]; nofun)).trans frames)
  | received server sending state frames =>
    rw [← aside.msg]
    exact .received server sending (held.2 state) ((ctx (by rw [state]; nofun)).trans frames)
  | released m sending awake frames u =>
    have ready : s.pState tp = .ready := awake.resolve_right fun current =>
      aside.other (Option.some.inj ((sched.current tp nofun).1 current)).symm
    have mem := sched.mem_ready (sched.lt_of_ne_suspended (by rw [ready]; nofun)) (by simp) ready
    obtain ⟨sameU, stays⟩ := next_ready_stays ok mem taken
    refine .released m sending ?_ ((ctx (by rw [ready]; nofun)).trans frames) (sameU.trans u)
    rcases stays with rfl | mem'
    · exact .inr ok'.core.sched.currp_state
    · exact .inl (ok'.core.sched.member _ tp mem').2.1
  | answered m sending own => exact absurd own aside.other

/-! ## Steps away from messages -/

theorem Foot.Off.msgWait (off : φ.msg = false) : φ.Off Frame.isMsgWait where
  frame f is := by
    rwa [Frame.isMsgWait_iff.1 is]
  state f is st asks := by
    rw [Frame.isMsgWait_iff.1 is] at asks
    cases asks
    exact off

section

variable (effect : Effect φ s s') (ok : CoreOk s.toCore)
include effect ok

theorem Effect.takes (off : φ.msg = false) : s'.takes t ↔ s.takes t := by
  rw [takes_iff, takes_iff, effect.moves.waits_eq ok (.msgWait off)]

theorem Effect.queued (off : φ.msg = false) : s'.queued server = s.queued server := by
  have msgs := effect.objs.msg off
  rw [Sys.queued, Sys.queued, effect.moves.queue_eq (q := .pMsgqueue server) ok.sched off, msgs]

theorem Effect.state_iff {st : TState} (off : φ.state st = false) (t : Tid) : s'.pState t = st ↔ s.pState t = st := by
  rcases effect.moves.rests ok.sched off t with ⟨same, -⟩ | ⟨apart, apart'⟩
  · rw [same]
  · exact iff_of_false apart' apart

theorem Effect.aside (off : φ.msg = false) (other : tp ≠ s.currp) : Aside tp s s' where
  other := other
  state st is := effect.state_iff ok (by rcases is with rfl | rfl <;> exact off) tp
  mem server mem := by
    rwa [effect.moves.queue_eq (q := .pMsgqueue server) ok.sched off]
  msg := by rw [effect.objs.msg off]

end

/-- Away from messages the history grows by returns only. -/
theorem Exchange.after_off (off : (l.foot x.sys).msg = false) : x.after l s' =
    if l = .run ∧ x.sending x.sys.currp = true ∧ s'.pCtx x.sys.currp = [] then
      { sys := s', sending := update x.sending x.sys.currp false, log := .ret x.sys.currp (s'.pRet (some x.sys.currp)) :: x.log }
    else { x with sys := s' } := by
  cases l with
  | call f => cases f <;> first | (cases off; done) | exact (if_neg (by simp)).symm
  | scall f => cases f <;> first | (cases off; done) | exact (if_neg (by simp)).symm
  | run =>
    have notWait : (x.sys.pCtx x.sys.currp).head? ≠ some .msgWait := fun top => by
      obtain ⟨fs, is⟩ := List.head?_eq_some_iff.1 top
      simp only [Label.foot, is] at off
      cases off
    simp only [after, if_neg notWait, true_and]
  | _ => exact (if_neg (by simp)).symm

/-- The running thread goes on in its dialogue. -/
theorem ClientAt.runs (at_ : ClientAt s.currp b s d) (ok : KernelOk False s) (taken : next l s = some s')
    (off : (l.foot s).msg = false) :
    (¬ (l = .run ∧ b = true ∧ s'.pCtx s.currp = []) ∧ ClientAt s.currp b s' d) ∨
    (l = .run ∧ b = true ∧ s'.pCtx s.currp = []) ∧ (∃ m, d = .released m ∧ s'.pRet (some s.currp) = .msg m) ∧
      ClientAt s.currp false s' .idle := by
  have effect := (next_step ok nofun taken).1
  have current := ok.core.sched.currp_state
  cases at_ with
  | idle quiet notQueued notTaken =>
    refine .inl ⟨fun bad => Bool.noConfusion (quiet.symm.trans bad.2.1), .idle quiet ?_ ?_⟩
    · exact (effect.state_iff ok.core (show (l.foot s).state .sndmsgq = false from off) _).not.2 notQueued
    · exact (effect.state_iff ok.core (show (l.foot s).state .sndmsg = false from off) _).not.2 notTaken
  | sent _ _ state => cases current.symm.trans state
  | received _ _ state => cases current.symm.trans state
  | released m sending awake frames u =>
    obtain ⟨rfl, thread, rfl, rest⟩ := next_own ok.core taken frames rfl nofun
    have rest : (Frame.rdymsg.run s.pop).pCtx s.currp = [.sysUnlock] := rest
    refine .inl ⟨fun bad => List.cons_ne_nil _ _ (rest.symm.trans bad.2.2), .answered m sending rfl rest ?_⟩
    have told : s.rdymsg s.currp = m := by unfold rdymsg; rw [u]
    rw [← told]
    exact ret_told thread _
  | answered m sending own frames told =>
    obtain ⟨rfl, thread, rfl, rest⟩ := next_own ok.core taken frames rfl nofun
    have rest : (Frame.sysUnlock.run s.pop).pCtx s.currp = [] := rest
    have running : (Frame.sysUnlock.run s.pop).pState s.currp = .current := current
    exact .inr ⟨⟨rfl, sending, rest⟩, ⟨m, rfl, told⟩, .idle rfl (by rw [running]; nofun) (by rw [running]; nofun)⟩

theorem ExchangeOk.off (inv : ExchangeOk x) (taken : next l x.sys = some s') (off : (l.foot x.sys).msg = false) :
    ExchangeOk (x.after l s') := by
  obtain ⟨effect, ok'⟩ := next_step inv.ok nofun taken
  have core := inv.ok.core
  have order (server : Tid) : sentTo server x.log = receivedBy server x.log ++ s'.queued server := by
    rw [effect.queued core off]
    exact inv.order server
  have takers (t : Tid) (takes : s'.takes t) : s'.queue (.pMsgqueue t) ≠ [] := by
    rw [effect.moves.queue_eq (q := .pMsgqueue t) core.sched off]
    exact inv.server t ((effect.takes core off).1 takes)
  have others (tp : Tid) (other : tp ≠ x.sys.currp) :
      ∃ d, dialogue tp x.log = some d ∧ ClientAt tp (x.sending tp) s' d := by
    obtain ⟨d, is, at_⟩ := inv.client tp
    exact ⟨d, is, at_.aside (effect.aside core off other) inv.ok ok' taken⟩
  obtain ⟨d, is, at_⟩ := inv.client x.sys.currp
  rw [Exchange.after_off off]
  rcases at_.runs inv.ok taken off with ⟨goesOn, at'⟩ | ⟨returns, ⟨m, rfl, told⟩, at'⟩
  · rw [if_neg goesOn]
    refine ⟨ok', fun tp => ?_, order, takers⟩
    by_cases own : tp = x.sys.currp
    · exact own ▸ ⟨d, is, at'⟩
    · exact others tp own
  · rw [if_pos returns, told]
    refine ⟨ok', fun tp => ?_, fun server => by simpa using order server, takers⟩
    by_cases own : tp = x.sys.currp
    · subst own
      exact ⟨.idle, dialogue_cons is (by simp [Dialogue.next]), by simpa using at'⟩
    · rw [dialogue_other own]
      simpa only [update_of_ne own] using others tp own

/-! ## Steps of the message functions -/

/-- A thread is where it was, or stays awake, or is a server that a message wakes. -/
theorem Aside.of_state (other : tp ≠ s.currp)
    (state : s'.pState tp = s.pState tp ∨ (s.awake tp ∨ s.pState tp = .wtmsg) ∧ s'.awake tp)
    (mem : ∀ server, tp ∈ s.queue (.pMsgqueue server) → tp ∈ s'.queue (.pMsgqueue server))
    (msg : s'.pMsg tp = s.pMsg tp) : Aside tp s s' := by
  refine ⟨other, fun st is => ?_, mem, msg⟩
  rcases state with same | ⟨before, after⟩
  · rw [same]
  · refine iff_of_false (fun bad => ?_) fun bad => ?_
    · rcases is with rfl | rfl <;> simp [awake, bad] at after
    · rcases is with rfl | rfl <;> simp [awake, bad] at before

theorem Core.takes_of_state (ok : KernelOk False s) (taken : next l s = some s') (other : tp ≠ s.currp)
    (state : s'.pState tp = s.pState tp ∨ s.awake tp ∧ s'.awake tp) (takes : s'.takes tp) : s.takes tp := by
  have rests : (s.pState tp).waits = false := by
    rcases state with same | ⟨ready | current, -⟩
    · rw [← same]
      exact takes.2
    · rw [ready]; rfl
    · rw [current]; rfl
  have lt : tp < s.nthd := ok.core.sched.lt_of_ne_suspended fun bad => by rw [bad] at rests; cases rests
  exact ⟨next_ctx ok taken tp other lt ▸ takes.1, rests⟩

/-- The running thread is in the list of `server`, which is woken if it waits for a message. -/
def Core.offer (server : Tid) (c : Core) : Core :=
  let c := (c.setU c.currp (.wtobjp (.pMsgqueue server))).queueInsert c.currp (.pMsgqueue server)
  if c.pState server = .wtmsg then c.chSchReadyI server else c

theorem Core.offer_frame (server : Tid) (c : Core) : (c.offer server).currp = c.currp ∧ (c.offer server).pCtx = c.pCtx := by
  unfold offer
  dsimp only
  split <;> exact ⟨rfl, rfl⟩

theorem Core.offer_queue (server : Tid) (c : Core) (t : Tid) : (c.offer server).queue (.pMsgqueue t) =
    c.queue (.pMsgqueue t) ++ if t = server then [c.currp] else [] := by
  unfold offer
  dsimp only
  by_cases is : t = server <;> split <;> simp [chSchReadyI, queueInsert, setQueue, setU, is]

theorem Core.offer_state (server : Tid) (c : Core) (t : Tid) : (c.offer server).pState t = c.pState t ∨
    t = server ∧ c.pState t = .wtmsg ∧ (c.offer server).pState t = .ready := by
  unfold offer
  dsimp only
  split
  next waits =>
    by_cases is : t = server
    · subst is
      exact .inr ⟨rfl, waits, update_self ..⟩
    · exact .inl (update_of_ne is ..)
  · exact .inl rfl

theorem Core.offer_ready {c : Core} (ready : ∀ h ∈ c.queue .rQueue, c.pState h = .ready) (server : Tid) :
    ∀ h ∈ (c.offer server).queue .rQueue, (c.offer server).pState h = .ready := by
  unfold offer
  dsimp only
  split
  · intro h mem
    have mem : h ∈ insertBehind c.pPrio server (c.queue .rQueue) := by
      simpa [chSchReadyI, queueInsert, setQueue, setU] using mem
    by_cases is : h = server
    · exact is ▸ update_self ..
    · exact (update_of_ne is ..).trans (ready h ((mem_insertBehind.1 mem).resolve_left is))
  · exact fun h mem => ready h (by simpa [queueInsert, setQueue, setU] using mem)

/-- What `chMsgSend` does. -/
structure Sends (server : Tid) (m : Msg) (s s' : Sys) : Prop where
  state : s'.pState s.currp = .sndmsgq
  ctx : s'.pCtx s.currp = sendFrames
  msg : s'.pMsg = update s.pMsg s.currp m
  queue : ∀ t, s'.queue (.pMsgqueue t) = s.queue (.pMsgqueue t) ++ if t = server then [s.currp] else []
  others : ∀ t, t ≠ s.currp →
    s'.pState t = s.pState t ∨ (s.awake t ∨ t = server ∧ s.pState t = .wtmsg) ∧ s'.awake t

theorem Sends.of_chMsgSend (sched : SchedOk s.toCore) (empty : s.pCtx s.currp = []) (server : Tid) (m : Msg) :
    Sends server m s (s.chMsgSend server m) := by
  have core : (s.chMsgSend server m).toCore = ((s.enter.toCore.offer server).push .rdymsg).chSchGoSleepS .sndmsgq := by
    unfold chMsgSend zone offer
    dsimp only
    split <;> split
    · rfl
    next waits busy =>
      exact absurd waits busy
    next busy waits =>
      exact absurd waits busy
    · rfl
  have msg : (s.chMsgSend server m).pMsg = update s.pMsg s.currp m := by
    unfold chMsgSend zone
    dsimp only
    split <;> rfl
  obtain ⟨currp, ctx⟩ := s.enter.toCore.offer_frame server
  generalize is : s.enter.toCore.offer server = c at core currp ctx
  have current : c.pState c.currp = .current := by
    rw [currp, ← is]
    rcases s.enter.toCore.offer_state server s.currp with same | ⟨-, waits, -⟩
    · exact same.trans sched.currp_state
    · cases waits.symm.trans sched.currp_state
  have ready : ∀ h ∈ c.queue .rQueue, c.pState h = .ready :=
    is ▸ offer_ready (c := s.enter.toCore) sched.ready_of_mem server
  refine ⟨?_, ?_, msg, fun t => ?_, fun t other => ?_⟩
  · rw [core]
    exact currp ▸ chSchGoSleepS_state .sndmsgq ready current
  · have entered : c.pCtx c.currp = [.sysUnlock] := by
      rw [ctx, currp]
      exact (update_self ..).trans (congrArg (Frame.sysUnlock :: ·) empty)
    rw [core, chSchGoSleepS_ctx, push, entered, currp]
    exact update_self ..
  · have list : (s.chMsgSend server m).queue (.pMsgqueue t) = c.queue (.pMsgqueue t) := by
      rw [core]
      exact SameLists.goSleepS (c.push .rdymsg) _ _ (by simp)
    rw [list, ← is]
    exact s.enter.toCore.offer_queue server t
  · have slept : Undisturbed t (c.push .rdymsg) (s.chMsgSend server m).toCore := by
      rw [core]
      exact .goSleepS .sndmsgq ready current (currp ▸ other)
    have before : c.pState t = s.pState t ∨ t = server ∧ s.pState t = .wtmsg ∧ c.pState t = .ready :=
      is ▸ s.enter.toCore.offer_state server t
    rcases before with same | ⟨own, waits, readied⟩
    · rcases slept.state with same' | ⟨awake, awake'⟩
      · exact .inl (same'.trans same)
      · exact .inr ⟨.inl (by rwa [Core.awake, ← same]), awake'⟩
    · exact .inr ⟨.inr ⟨own, waits⟩, slept.awake (.inl readied)⟩

/-- The running thread has no message under way but in the frames of `chMsgSend`. -/
theorem ClientAt.idle_of_ctx (at_ : ClientAt s.currp b s d) (current : s.pState s.currp = .current)
    (notSending : s.pCtx s.currp ≠ sendFrames) (notAnswered : s.pCtx s.currp ≠ [.sysUnlock]) : d = .idle ∧ b = false := by
  cases at_ with
  | idle quiet => exact ⟨rfl, quiet⟩
  | sent _ _ state => cases current.symm.trans state
  | received _ _ state => cases current.symm.trans state
  | released _ _ _ frames => exact absurd frames notSending
  | answered _ _ _ frames => exact absurd frames notAnswered

theorem ExchangeOk.send (inv : ExchangeOk x) (taken : next (.call (.msgSend server m)) x.sys = some s') :
    ExchangeOk (x.after (.call (.msgSend server m)) s') := by
  have ok' := (next_step inv.ok nofun taken).2
  have sched := inv.ok.core.sched
  obtain ⟨-, empty, -, is⟩ := next_call taken
  obtain ⟨state, ctx, msg, queue, others⟩ : Sends server m x.sys s' := is ▸ .of_chMsgSend sched empty server m
  refine ⟨ok', fun tp => ?_, fun t => ?_, fun t takes => ?_⟩
  · by_cases own : tp = x.sys.currp
    · subst own
      obtain ⟨d, was, at_⟩ := inv.client x.sys.currp
      obtain ⟨rfl, -⟩ := at_.idle_of_ctx sched.currp_state (by rw [empty]; nofun) (by rw [empty]; nofun)
      have own : s'.pMsg x.sys.currp = m := by rw [msg, update_self]
      have mem : x.sys.currp ∈ s'.queue (.pMsgqueue server) := by rw [queue]; simp
      have at' : ClientAt x.sys.currp true s' (.sent server m) := by
        rw [← own]
        exact .sent server rfl state mem ctx
      exact ⟨.sent server m, dialogue_cons was (by simp [Dialogue.next]), by simpa [after] using at'⟩
    · obtain ⟨d, was, at_⟩ := inv.client tp
      have aside : Aside tp x.sys s' := .of_state own ((others tp own).imp_right fun ⟨before, after⟩ =>
        ⟨before.imp_right And.right, after⟩) (fun t mem => by rw [queue]; exact List.mem_append_left _ mem)
        (by rw [msg, update_of_ne own])
      refine ⟨d, (dialogue_other own).trans was, ?_⟩
      simpa only [after, update_of_ne own] using at_.aside aside inv.ok ok' taken
  · have same : (x.sys.queue (.pMsgqueue t)).map (fun tp => (tp, s'.pMsg tp)) = x.sys.queued t :=
      List.map_congr_left fun tp mem => by
        rw [msg, update_of_ne (ne_of_mem_of_not_mem mem (sched.currp_not_mem _))]
    have queued : s'.queued t = x.sys.queued t ++ if server = t then [(x.sys.currp, m)] else [] := by
      rw [queued, queue, List.map_append, same]
      by_cases is : t = server
      · simp [is, msg]
      · simp [is, Ne.symm is]
    show sentTo t (_ :: x.log) = receivedBy t (_ :: x.log) ++ s'.queued t
    rw [sentTo_cons, receivedBy_cons, queued, inv.order t]
    simp
  · show s'.queue (.pMsgqueue t) ≠ []
    rw [queue]
    by_cases is : t = server
    · simp [is]
    by_cases own : t = x.sys.currp
    · subst own
      exact absurd takes.1 (by simp [after, ctx, sendFrames])
    · have stays : s'.pState t = x.sys.pState t ∨ x.sys.awake t ∧ s'.awake t :=
        (others t own).imp_right fun ⟨before, after⟩ => ⟨before.resolve_right fun bad => is bad.1, after⟩
      simpa [is] using inv.server t (takes_of_state inv.ok taken own stays takes)

/-- What `chMsgWait` does up to its sleep. -/
structure Awaits (s s' : Sys) : Prop where
  own : s'.pState s.currp = .wtmsg ∨ s'.pState s.currp = .current ∧ s.queue (.pMsgqueue s.currp) ≠ []
  msg : s'.pMsg = s.pMsg
  queue : ∀ t, s'.queue (.pMsgqueue t) = s.queue (.pMsgqueue t)
  others : ∀ t, t ≠ s.currp → Undisturbed t s.toCore s'.toCore

theorem Awaits.of_chMsgWait (sched : SchedOk s.toCore) : Awaits s s.chMsgWait := by
  have current := sched.currp_state
  unfold chMsgWait zone
  dsimp only
  split
  · refine ⟨.inl ?_, rfl, fun t => SameLists.goSleepS _ _ _ nofun, fun t other => ?_⟩
    · exact chSchGoSleepS_state .wtmsg sched.ready_of_mem current
    · have entered : Undisturbed t s.toCore (s.enter.toCore.push .msgWait) := .congr rfl rfl rfl
      exact entered.trans (.goSleepS .wtmsg sched.ready_of_mem current other)
  next found =>
    exact ⟨.inr ⟨current, found⟩, rfl, fun _ => rfl, fun _ _ => .congr rfl rfl rfl⟩

theorem ExchangeOk.wait (inv : ExchangeOk x) (taken : next (.call .msgWait) x.sys = some s') :
    ExchangeOk { x with sys := s' } := by
  have ok' := (next_step inv.ok nofun taken).2
  have sched := inv.ok.core.sched
  obtain ⟨-, empty, -, is⟩ := next_call taken
  obtain ⟨own, msg, queue, others⟩ : Awaits x.sys s' := is ▸ .of_chMsgWait sched
  refine ⟨ok', fun tp => ?_, fun t => ?_, fun t takes => ?_⟩
  · obtain ⟨d, was, at_⟩ := inv.client tp
    refine ⟨d, was, ?_⟩
    by_cases is : tp = x.sys.currp
    · subst is
      obtain ⟨rfl, quiet⟩ := at_.idle_of_ctx sched.currp_state (by rw [empty]; nofun) (by rw [empty]; nofun)
      refine .idle quiet (fun bad => ?_) fun bad => ?_ <;> rcases own with waits | ⟨running, -⟩
      · cases waits.symm.trans bad
      · cases running.symm.trans bad
      · cases waits.symm.trans bad
      · cases running.symm.trans bad
    · have aside : Aside tp x.sys s' := .of_state is ((others tp is).state.imp_right fun ⟨before, after⟩ =>
        ⟨.inl before, after⟩) (fun t mem => by rwa [queue]) (by rw [msg])
      exact at_.aside aside inv.ok ok' taken
  · have queued : s'.queued t = x.sys.queued t := by rw [queued, queue, msg]; rfl
    exact queued ▸ inv.order t
  · show s'.queue (.pMsgqueue t) ≠ []
    rw [queue]
    by_cases is : t = x.sys.currp
    · subst is
      rcases own with waits | ⟨-, found⟩
      · cases takes.2.symm.trans (congrArg TState.waits waits)
      · exact found
    · exact inv.server t (takes_of_state inv.ok taken is (others t is).state takes)

/-- A sender is in one list only. -/
theorem ClientAt.sent_of_mem (at_ : ClientAt tp b s d) (sched : SchedOk s.toCore) (mem : tp ∈ s.queue (.pMsgqueue server)) :
    d = .sent server (s.pMsg tp) ∧ b = true ∧ s.pCtx tp = sendFrames := by
  have state : s.pState tp = .sndmsgq := (sched.member _ tp mem).2.1
  cases at_ with
  | idle _ notQueued => exact absurd state notQueued
  | sent server' sending _ mem' frames =>
    cases sched.unique _ _ tp mem mem'
    exact ⟨rfl, sending, frames⟩
  | received _ _ state' => cases state.symm.trans state'
  | released _ _ awake => simp [Core.awake, state] at awake
  | answered _ _ own => exact absurd (own ▸ mem) (sched.currp_not_mem _)

/-- What the rest of `chMsgWait` does. -/
structure Takes (t : Tid) (l : List Tid) (s s' : Sys) : Prop where
  ctx : .msgWait ∉ s'.pCtx s.currp
  found : s.queue (.pMsgqueue s.currp) = t :: l
  told : s'.pRet (some s.currp) = .thread (some t)
  state : s'.pState = update s.pState t .sndmsg
  msg : s'.pMsg = s.pMsg
  queue : ∀ t, s'.queue (.pMsgqueue t) = if t = s.currp then l else s.queue (.pMsgqueue t)

theorem Takes.of_run {l : List Tid} (ok : KernelOk False s) (taken : next .run s = some s')
    (top : (s.pCtx s.currp).head? = some .msgWait) (found : s.queue (.pMsgqueue s.currp) = t :: l) : Takes t l s s' := by
  obtain ⟨fs, is⟩ := List.head?_eq_some_iff.1 top
  obtain ⟨f, fs', thread, top', -, rfl⟩ := next_run taken
  obtain ⟨rfl, rfl⟩ := List.cons.inj (is.symm.trans top')
  have run : Frame.msgWait.run s.pop = ({ s.pop with
      queue := update s.queue (.pMsgqueue s.currp) l, pState := update s.pState t .sndmsg } : Sys).ret (.thread (some t)) := by
    show s.pop.msgWaitResume = _
    rw [msgWaitResume, fifoRemove, show s.pop.queue (.pMsgqueue s.pop.currp) = t :: l from found]
    rfl
  rw [run]
  refine ⟨?_, found, ret_told thread _, rfl, rfl, fun x => ?_⟩
  · have rest : s.pop.pCtx s.currp = fs := by rw [Sys.pop, is]; exact update_self ..
    show .msgWait ∉ s.pop.pCtx s.currp
    rw [rest]
    exact fun mem => absurd ((is ▸ ok.core.ctl.current).indirect_below _ mem).symm Bool.false_ne_true
  · by_cases own : x = s.currp
    · simp [own, Sys.ret, Core.ret]
    · simp [own, Sys.ret, Core.ret, Sys.pop]

theorem ExchangeOk.receive (inv : ExchangeOk x) (taken : next .run x.sys = some s')
    (top : (x.sys.pCtx x.sys.currp).head? = some .msgWait) : ExchangeOk (x.after .run s') := by
  have ok' := (next_step inv.ok nofun taken).2
  have sched := inv.ok.core.sched
  have takes : x.sys.takes x.sys.currp := ⟨List.mem_of_head? top, by rw [sched.currp_state]; rfl⟩
  obtain ⟨t, l, found⟩ := List.exists_cons_of_ne_nil (inv.server _ takes)
  obtain ⟨ctx, -, told, state, msg, queue⟩ := Takes.of_run inv.ok taken top found
  have mem : t ∈ x.sys.queue (.pMsgqueue x.sys.currp) := found ▸ .head _
  have other : t ≠ x.sys.currp := ne_of_mem_of_not_mem mem (sched.currp_not_mem _)
  have after : x.after .run s' = { x with sys := s', log := .receive x.sys.currp t (s'.pMsg t) :: x.log } := by
    simp only [after, if_pos top, told]
  rw [after]
  refine ⟨ok', fun tp => ?_, fun server => ?_, fun server takes => ?_⟩
  · obtain ⟨d, was, at_⟩ := inv.client tp
    by_cases is : tp = t
    · subst is
      obtain ⟨rfl, sending, frames⟩ := at_.sent_of_mem sched mem
      have frames' : s'.pCtx tp = sendFrames :=
        (next_ctx inv.ok taken tp other (sched.member _ tp mem).2.2).trans frames
      have state' : s'.pState tp = .sndmsg := by rw [state, update_self]
      exact ⟨_, dialogue_cons was (by simp [Dialogue.next, msg]), .received x.sys.currp sending state' frames'⟩
    refine ⟨d, (dialogue_other is).trans was, ?_⟩
    have same : s'.pState tp = x.sys.pState tp := by rw [state, update_of_ne is]
    by_cases own : tp = x.sys.currp
    · subst own
      obtain ⟨rfl, quiet⟩ := at_.idle_of_ctx sched.currp_state (fun bad => by rw [bad] at top; cases top)
        fun bad => by rw [bad] at top; cases top
      exact .idle quiet (by simp [same, sched.currp_state]) (by simp [same, sched.currp_state])
    · refine at_.aside (.of_state own (.inl same) (fun server mem => ?_) (by rw [msg])) inv.ok ok' taken
      rw [queue]
      split
      next is' =>
        subst is'
        exact (List.mem_cons.1 (found ▸ mem)).resolve_left is
      · exact mem
  · have queued : (if x.sys.currp = server then [(t, s'.pMsg t)] else []) ++ s'.queued server = x.sys.queued server := by
      by_cases is : server = x.sys.currp
      · simp [queued, queue, is, found, msg]
      · simp [queued, queue, is, Ne.symm is, msg]
    rw [sentTo_cons, receivedBy_cons, List.append_assoc, queued]
    simpa using inv.order server
  · by_cases own : server = x.sys.currp
    · exact absurd takes.1 (own ▸ ctx)
    have apart : server ≠ t := by
      rintro rfl
      have waits : (s'.pState server).waits = true := by rw [state, update_self]; rfl
      cases takes.2.symm.trans waits
    have same : s'.pState server = x.sys.pState server := by rw [state, update_of_ne apart]
    rw [queue, if_neg own]
    exact inv.server server (takes_of_state inv.ok taken own (.inl same) takes)

/-- Whose message a server holds. -/
theorem ClientAt.received_of_state (at_ : ClientAt tp b s d) (sched : SchedOk s.toCore) (held : s.pState tp = .sndmsg) :
    ∃ server, d = .received server (s.pMsg tp) ∧ b = true ∧ s.pCtx tp = sendFrames := by
  cases at_ with
  | idle _ _ notTaken => exact absurd held notTaken
  | sent _ _ state => cases held.symm.trans state
  | received server sending _ frames => exact ⟨server, rfl, sending, frames⟩
  | released _ _ awake => simp [Core.awake, held] at awake
  | answered _ _ own =>
    subst own
    exact absurd (held.symm.trans sched.currp_state) (by simp)

/-- What `chMsgRelease` does. -/
structure Releases (t : Tid) (m : Msg) (s s' : Sys) : Prop where
  held : s.pState t = .sndmsg
  ctx : .msgWait ∉ s'.pCtx s.currp
  wakes : WakesAll [t] m s.toCore s'.toCore
  msg : s'.pMsg = s.pMsg
  queue : ∀ t, s'.queue (.pMsgqueue t) = s.queue (.pMsgqueue t)

theorem Releases.of_chMsgReleaseS (sched : SchedOk s.toCore) (held : s.pState t = .sndmsg) (m : Msg)
    (ctx : .msgWait ∉ s.pCtx s.currp) : Releases t m s (s.chMsgReleaseS t m) where
  held := held
  ctx := by
    show .msgWait ∉ (s.toCore.chSchWakeupS t m).pCtx s.currp
    rwa [(chSchWakeupS_frame t m).1]
  wakes := .wakeupS m sched.currp_state (by rw [held]; rfl)
  msg := rfl
  queue x := SameLists.wakeupS s.toCore t m _ nofun

theorem ExchangeOk.release (inv : ExchangeOk x) (taken : next l x.sys = some s')
    (empty : x.sys.pCtx x.sys.currp = []) (releases : Releases t m x.sys s') :
    ExchangeOk { x with sys := s', log := .release x.sys.currp t m :: x.log } := by
  have ok' := (next_step inv.ok nofun taken).2
  have sched := inv.ok.core.sched
  obtain ⟨held, ctx, ⟨woken, others⟩, msg, queue⟩ := releases
  have lt : t < x.sys.nthd := sched.lt_of_ne_suspended (by rw [held]; nofun)
  have other : t ≠ x.sys.currp := by
    rintro rfl
    cases sched.currp_state.symm.trans held
  refine ⟨ok', fun tp => ?_, fun server => ?_, fun server takes => ?_⟩
  · obtain ⟨d, was, at_⟩ := inv.client tp
    by_cases is : tp = t
    · subst is
      have frames' := next_ctx inv.ok taken tp other lt
      obtain ⟨-, awake, u, -⟩ := woken tp (List.mem_singleton_self tp)
      obtain ⟨server, rfl, sending, frames⟩ := at_.received_of_state sched held
      exact ⟨.released m, dialogue_cons was (by simp [Dialogue.next]), .released m sending awake (frames'.trans frames) u⟩
    refine ⟨d, (dialogue_other is).trans was, ?_⟩
    have stays := others tp (by simpa using is)
    by_cases own : tp = x.sys.currp
    · subst own
      obtain ⟨rfl, quiet⟩ := at_.idle_of_ctx sched.currp_state (by rw [empty]; nofun) (by rw [empty]; nofun)
      rcases stays.awake (.inr sched.currp_state) with ready | running
      · exact .idle quiet (by simp [ready]) (by simp [ready])
      · exact .idle quiet (by simp [running]) (by simp [running])
    · exact at_.aside (.of_state own (stays.state.imp_right fun ⟨before, after⟩ => ⟨.inl before, after⟩)
        (fun server mem => by rwa [queue]) (by rw [msg])) inv.ok ok' taken
  · have queued : s'.queued server = x.sys.queued server := by rw [queued, queue, msg]; rfl
    rw [sentTo_cons, receivedBy_cons, queued]
    simpa using inv.order server
  · by_cases own : server = x.sys.currp
    · exact absurd takes.1 (own ▸ ctx)
    have apart : server ≠ t := by
      rintro rfl
      obtain ⟨d, -, at_⟩ := inv.client server
      obtain ⟨-, -, -, frames⟩ := at_.received_of_state sched held
      have frames' : s'.pCtx server = sendFrames := (next_ctx inv.ok taken server other lt).trans frames
      exact absurd takes.1 (by simp [frames', sendFrames])
    rw [queue]
    exact inv.server server (takes_of_state inv.ok taken own (others server (by simpa using apart)).state takes)

/-- One step of the kernel, and what it adds to the history. -/
theorem ExchangeOk.step (inv : ExchangeOk x) (taken : next l x.sys = some s') : ExchangeOk (x.after l s') := by
  have sched := inv.ok.core.sched
  cases l with
  | call f =>
    cases f with
    | msgSend server m => exact inv.send taken
    | msgWait => exact inv.wait taken
    | msgRelease t m =>
      obtain ⟨-, empty, allowed, is⟩ := next_call taken
      have entered : x.sys.enter.pCtx x.sys.currp = [.sysUnlock] :=
        (update_self ..).trans (congrArg (Frame.sysUnlock :: ·) empty)
      refine inv.release taken empty ?_
      obtain ⟨held, ctx, wakes, msg, queue⟩ := Releases.of_chMsgReleaseS (s := x.sys.enter) sched
        (of_decide_eq_true allowed).1 m (by rw [show x.sys.enter.currp = x.sys.currp from rfl, entered]; nofun)
      rw [is]
      exact ⟨held, ctx, wakes.before fun _ => .congr rfl rfl rfl, msg, queue⟩
    | _ => exact inv.off taken rfl
  | scall f =>
    cases f with
    | msgReleaseS t m =>
      obtain ⟨-, empty, allowed, is⟩ := next_scall taken
      refine inv.release taken empty ?_
      rw [is]
      exact .of_chMsgReleaseS sched (of_decide_eq_true allowed).1 m (by rw [empty]; nofun)
    | _ => exact inv.off taken rfl
  | icall f => exact inv.off taken (by cases f <;> rfl)
  | run =>
    obtain ⟨f, fs, -, top, -⟩ := next_run taken
    by_cases is : f = .msgWait
    · exact inv.receive taken (by rw [top, is]; rfl)
    · refine inv.off taken ?_
      rw [Label.foot_run top]
      cases f with
      | msgWait => exact absurd rfl is
      | _ => rfl
  | _ => exact inv.off taken rfl

theorem ExchangeOk.init (cfg : Config) : ExchangeOk (exchanges cfg).init where
  ok := .init False cfg
  client tp := by
    refine ⟨.idle, rfl, .idle rfl ?_ ?_⟩ <;> simp only [exchanges, chSysInit, Core.init] <;> split_ifs <;> simp
  order server := by simp [exchanges, chSysInit, Core.init, sentTo, receivedBy, Sys.queued]
  server t takes := by
    have frames := takes.1
    simp only [exchanges, chSysInit, Core.init] at frames
    split at frames <;> simp at frames

theorem ExchangeOk.paired (inv : ExchangeOk x) : Paired x where
  dialogues tp := by
    obtain ⟨d, is, -⟩ := inv.client tp
    rw [is]
    rfl
  order := inv.order
  blocked tp server m is := by
    obtain ⟨d, is', at_⟩ := inv.client tp
    rw [is'] at is
    simp only [Option.some.injEq] at is
    rcases is with rfl | rfl
    · cases at_ with
      | sent _ state => exact ⟨by simp [awake, *], rfl⟩
    · cases at_ with
      | received _ state => exact ⟨by simp [awake, *], rfl⟩
  waits top := by
    refine inv.server x.sys.currp ⟨List.mem_of_head? top, ?_⟩
    rw [inv.ok.core.sched.currp_state]
    rfl

/-- Synchronous messages, whoever sends, waits and releases. -/
theorem synchronous_messages {cfg : Config} (reached : (exchanges cfg).Reach (fun _ _ => True) x) : Paired x := by
  refine (reached.invariant (ExchangeOk.init cfg) fun x l x' inv _ taken => ?_).paired
  obtain ⟨s', step, rfl⟩ := Option.map_eq_some_iff.1 taken
  exact inv.step step

/-- The main thread sends to a server above it, which answers. -/
def answeredRun : List Label :=
  [.call (.thdCreate 70 .static), .run, .call .msgWait, .run, .call (.msgSend 2 5), .run, .run, .call (.msgRelease 0 7), .run,
    .call .msgWait, .run, .run]

theorem synchronous_messages_answered : ∃ x, (exchanges smallConfig).run answeredRun (exchanges smallConfig).init = some x ∧
    x.log = [.ret 0 (.msg 7), .release 2 0 7, .receive 2 0 5, .send 0 2 5] ∧ Paired x :=
  Lts.exists_run (by rfl) rfl fun reached => ⟨rfl, synchronous_messages reached⟩

end ChibiOS.Kernel
