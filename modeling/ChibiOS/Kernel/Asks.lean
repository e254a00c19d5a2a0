import ChibiOS.Kernel.Moves

/-!
# Threads that have asked for something

A function that sleeps for a token, a byte, events, a message or a signal leaves a
frame that will read the answer. `AskOk` says that such a thread is in the state of
its frame until it is woken; `Core.waitOf` is what its frame and the answer are.
Moves outside the foot of a kind leave these alone, whatever else they do.
-/

namespace ChibiOS.Kernel

open Function (update update_self update_of_ne update_comm update_eq_self)
open Lib Kernel.Core

/-- A thread that has asked for something has been woken, or is in the state in which
one sleeps for it. -/
def AskOk (c : Core) : Prop :=
  ∀ t, c.pState t = .ready ∨ c.pState t = .current ∨ AsksFor (c.pState t) (c.pCtx t) ∧ Direct (c.pCtx t)

/-- The message that a thread was given last. -/
def Core.msgOf (t : Tid) (c : Core) : Msg :=
  match c.pRet (some t) with
  | .msg m => m
  | _ => rdyOk

/-- What a frame that has asked will read when the thread goes on. -/
def Core.answer (t : Tid) (c : Core) : Msg :=
  match c.pCtx t with
  | [] => rdyOk
  | f :: _ => if f.asks = none ∨ f.direct = true then c.rdymsg t else c.msgOf t

/-- The frame of a kind `p` in which a thread is, with the answer once it is woken. -/
def Core.waitOf (p : Frame → Bool) (t : Tid) (c : Core) : Option (Frame × Option Msg) :=
  ((c.pCtx t).find? p).map fun f => (f, if (c.pState t).waits then none else some (c.answer t))

/-- The frames of the kind `p` and the states in which one sleeps for them are outside
the foot. -/
structure Foot.Off (φ : Foot) (p : Frame → Bool) : Prop where
  frame : ∀ f, p f = true → φ.covers f = false
  state : ∀ f, p f = true → ∀ st, f.asks = some st → φ.state st = false

variable {φ : Foot} {c c' : Core} {t : Tid} {p : Frame → Bool} {st : TState} {f : Frame}

theorem Foot.covers_of_asks (none : f.asks = none) : φ.covers f = true := by
  cases f <;> first | rfl | cases none

theorem Foot.Off.asks (off : φ.Off p) (is : p f = true) : f.asks ≠ none := by
  intro none
  have := off.frame f is
  cases (covers_of_asks none).symm.trans this

/-- The states of waits. -/
theorem Frame.asks_waits (asks : f.asks = some st) : st.waits = true ∧ st ≠ .suspended ∧ st ≠ .sndmsgq := by
  cases f with
  | evtWait w => cases w <;> cases asks <;> exact ⟨rfl, nofun, nofun⟩
  | _ => cases asks <;> exact ⟨rfl, nofun, nofun⟩

/-! ## The states of those who asked -/

theorem Move.askOk (move : Move φ c c') (sched : SchedOk c) (ask : AskOk c) : AskOk c' := by
  intro t
  cases move.fate sched t with
  | rests same unseen =>
    rw [same, unseen.ctx]
    exact ask t
  | wakes _ _ is => exact is.imp id .inl
  | switches states => exact states.symm.imp And.right fun run => .inl run.2
  | runs st fs _ state ctx _ _ asks =>
    rw [state, ctx]
    exact .inr asks
  | returns _ _ _ mine _ _ same =>
    subst mine
    exact .inr (.inl (same.trans sched.currp_state))
  | taken _ was is unseen =>
    have asked := ask t
    rw [was] at asked
    obtain bad | bad | ⟨asks, direct⟩ := asked
    · cases bad
    · cases bad
    · rw [is, unseen.ctx]
      exact .inr (.inr ⟨fun f mem st is => absurd (asks f mem st is).symm (Frame.asks_waits is).2.2, direct⟩)
  | created _ _ _ is ctx =>
    rw [is, ctx]
    exact .inr (.inr ⟨by simp [AsksFor, Frame.asks], by simp [Direct, Frame.asks]⟩)

/-! ## States outside the foot -/

/-- The thread neither enters nor leaves the state `st`, and in it keeps `p_u`. -/
def Rests (st : TState) (t : Tid) (c c' : Core) : Prop :=
  (c'.pState t = c.pState t ∧ c'.pU t = c.pU t) ∨ (c.pState t ≠ st ∧ c'.pState t ≠ st)

theorem Rests.same (state : c'.pState = c.pState) (u : c'.pU = c.pU) : Rests st t c c' :=
  .inl ⟨congrFun state t, congrFun u t⟩

theorem Rests.trans {c'' : Core} (left : Rests st t c c') (right : Rests st t c' c'') : Rests st t c c'' := by
  rcases left with ⟨state, u⟩ | ⟨apart, apart'⟩
  · rcases right with ⟨state', u'⟩ | ⟨apart', apart''⟩
    · exact .inl ⟨state'.trans state, u'.trans u⟩
    · exact .inr ⟨by rwa [← state], apart''⟩
  · rcases right with ⟨state', -⟩ | ⟨-, apart''⟩
    · exact .inr ⟨apart, by rwa [state']⟩
    · exact .inr ⟨apart, apart''⟩

theorem Move.rests (move : Move φ c c') (sched : SchedOk c) (off : φ.state st = false) (t : Tid) :
    Rests st t c c' := by
  have apart {st'} (on : φ.state st' = true) : st' ≠ st := by
    rintro rfl
    cases on.symm.trans off
  cases move.fate sched t with
  | rests same unseen => exact .inl ⟨same, unseen.u⟩
  | wakes _ on is => exact .inr ⟨apart on, by rcases is with is | is <;> rw [is] <;> exact apart rfl⟩
  | switches states =>
    refine .inr ?_
    rcases states with ⟨was, is⟩ | ⟨was, is⟩ <;> rw [was, is] <;> exact ⟨apart rfl, apart rfl⟩
  | runs st' fs was is _ on => exact .inr ⟨was ▸ apart rfl, is ▸ apart on⟩
  | returns _ _ _ _ _ _ same u => exact .inl ⟨same, u⟩
  | taken on was is => exact .inr ⟨was ▸ apart on, is ▸ apart on⟩
  | created _ _ was is => exact .inr ⟨was ▸ apart rfl, is ▸ apart rfl⟩

/-! ## Waits outside the foot -/

theorem Core.waitOf_eq_none : c.waitOf p t = none ↔ ∀ f ∈ c.pCtx t, p f = false := by
  simp [waitOf, List.find?_eq_none]

/-- A wait is read off the thread's own components. -/
theorem Core.waitOf_congr (ctx : c'.pCtx t = c.pCtx t) (waits : (c'.pState t).waits = (c.pState t).waits)
    (u : c'.pU t = c.pU t) (ret : c'.pRet (some t) = c.pRet (some t)) : c'.waitOf p t = c.waitOf p t := by
  simp only [waitOf, answer, rdymsg, msgOf, ctx, waits, u, ret]

/-- A context within the foot has no wait outside it. -/
theorem Foot.Off.of_covered (off : φ.Off p) (covered : ∀ f ∈ c.pCtx t, φ.covers f = true) : c.waitOf p t = none := by
  refine waitOf_eq_none.2 fun f mem => ?_
  rw [← Bool.not_eq_true]
  intro is
  have := off.frame f is
  cases (covered f mem).symm.trans this

/-- Nor has a thread that sleeps in a state within the foot. -/
theorem Foot.Off.of_state (off : φ.Off p) (ask : AskOk c) (waits : (c.pState t).waits = true)
    (on : φ.state (c.pState t) = true) : c.waitOf p t = none := by
  refine waitOf_eq_none.2 fun f mem => ?_
  rw [← Bool.not_eq_true]
  intro is
  obtain ⟨st, asks⟩ := Option.ne_none_iff_exists'.1 (off.asks is)
  obtain bad | bad | ⟨same, -⟩ := ask t
  · exact TState.waits_ne_ready waits bad
  · exact TState.waits_ne_current waits bad
  · have := off.state f is st asks
    rw [← same f mem st asks, on] at this
    cases this

/-- Under a sleep of the scheduler only the next frame can have asked. -/
theorem CtxOk.asks_below {g : Frame} {fs : List Frame} {locked : Bool} (ok : CtxOk locked (f :: g :: fs)) :
    ∀ h ∈ fs, h.asks = none := by
  obtain ⟨link, chain⟩ := List.isChain_cons_cons.1 ok.chain
  have below : ∀ {fs : List Frame} {g : Frame}, g.sleeps = false → (g :: fs).IsChain Frame.Over → ∀ h ∈ fs, h.asks = none := by
    intro fs
    induction fs with
    | nil => nofun
    | cons h fs ih =>
      intro g awake chain
      obtain ⟨link, chain⟩ := List.isChain_cons_cons.1 chain
      have first : h.asks = none := by
        by_contra asks
        cases (link.token asks).symm.trans awake
      exact List.forall_mem_cons.2 ⟨first, ih link.inner chain⟩
  exact below link.inner chain

/-- The scheduler's sleep returns its message to the frame that asked. -/
theorem Core.waitOf_return {fs : List Frame} {locked : Bool} (off : φ.Off p) (ok : CtxOk locked (f :: fs)) (sleeps : f.sleeps = true)
    (top : c.pCtx t = f :: fs) (ctx : c'.pCtx t = fs) (state : c'.pState t = c.pState t) (u : c'.pU t = c.pU t)
    (ret : c'.pRet (some t) = .msg (c.rdymsg t)) : c'.waitOf p t = c.waitOf p t := by
  have notAsks : f.asks = none := by cases f <;> first | rfl | cases sleeps
  have notF : p f = false := by
    rw [← Bool.not_eq_true]
    exact fun is => off.asks is notAsks
  cases fs with
  | nil => simp [waitOf, ctx, top, notF]
  | cons g fs =>
    have rest : fs.find? p = none := by
      refine List.find?_eq_none.2 fun h mem is => ?_
      exact off.asks is (ok.asks_below h mem)
    cases isG : p g with
    | false => simp [waitOf, ctx, top, notF, isG, rest]
    | true =>
      have asks := off.asks isG
      have answer : c'.answer t = c.answer t := by
        simp only [answer, ctx, top, notAsks, true_or, if_true, asks, false_or]
        split
        · simp only [rdymsg, u]
        · simp [msgOf, ret]
      simp [waitOf, ctx, top, notF, isG, answer, state]

/-- Nor has a thread that is not there yet. -/
theorem Foot.Off.of_fresh (off : φ.Off p) (ask : AskOk c) (fresh : c.pState t = .suspended) : c.waitOf p t = none := by
  refine waitOf_eq_none.2 fun f mem => ?_
  rw [← Bool.not_eq_true]
  intro is
  obtain ⟨st, asks⟩ := Option.ne_none_iff_exists'.1 (off.asks is)
  have state := ask t
  rw [fresh] at state
  obtain bad | bad | ⟨same, -⟩ := state
  · cases bad
  · cases bad
  · exact (Frame.asks_waits asks).2.1 (same f mem st asks).symm

theorem Core.waitOf_none_of_ctx (none : c.waitOf p t = none) (ctx : c'.pCtx t = c.pCtx t) : c'.waitOf p t = c.waitOf p t := by
  rw [none, waitOf_eq_none, ctx]
  exact waitOf_eq_none.1 none

/-- Moves outside the foot of a kind leave its waits alone. -/
theorem Move.waitOf_eq (move : Move φ c c') (sched : SchedOk c) (ctl : CtlOk c) (ask : AskOk c) (off : φ.Off p) (t : Tid) :
    c'.waitOf p t = c.waitOf p t := by
  cases move.fate sched t with
  | rests same unseen => exact waitOf_congr unseen.ctx (by rw [same]) unseen.u unseen.ret
  | wakes waits on _ ctx => exact waitOf_none_of_ctx (off.of_state ask waits on) ctx
  | switches states unseen =>
    refine waitOf_congr unseen.ctx ?_ unseen.u unseen.ret
    rcases states with ⟨was, is⟩ | ⟨was, is⟩ <;> rw [was, is] <;> rfl
  | runs st fs _ _ ctx _ foot => rw [off.of_covered foot.old, off.of_covered (ctx ▸ foot.new)]
  | returns f fs sleeps mine top ctx same u ret =>
    subst mine
    exact waitOf_return off (top ▸ ctl.current) sleeps top ctx same u ret
  | taken _ was is unseen => exact waitOf_congr unseen.ctx (by rw [was, is]; rfl) unseen.u unseen.ret
  | created _ _ was _ ctx =>
    rw [off.of_fresh ask was, waitOf_eq_none, ctx, List.forall_mem_singleton, ← Bool.not_eq_true]
    exact fun is => off.asks is rfl

end ChibiOS.Kernel
