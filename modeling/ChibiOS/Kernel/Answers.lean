import ChibiOS.Kernel.Steps
import ChibiOS.Lib.Tally

/-!
# Answers

What the functions of the kernel do to the waits of a kind `p`: a thread that is
woken gets its answer, one that goes to sleep has none yet, one that goes on has no
wait left. Everything else leaves the waits alone.
-/

namespace ChibiOS.Kernel

open Function
open Lib Kernel.Core

/-- Frames of functions that have asked for something. -/
def Kind (p : Frame → Bool) : Prop := ∀ f, p f = true → f.asks ≠ none

/-- The waits of all threads. -/
def Core.waits (p : Frame → Bool) (c : Core) : Tid → Option (Frame × Option Msg) := fun t => c.waitOf p t

variable {p : Frame → Bool} {c c' : Core} {t : Tid} {m : Msg} {f : Frame} {fs : List Frame} {q : Frame → Msg → Bool}

theorem Kind.plain_find? (kind : Kind p) (plain : Plain fs) : fs.find? p = none :=
  List.find?_eq_none.2 fun f mem is => kind f is (plain f mem)

theorem Kind.of_asks (kind : Kind p) (none : f.asks = none) : p f = false := by
  rw [← Bool.not_eq_true]
  exact fun is => kind f is none

/-- Who has asked nothing waits for nothing. -/
theorem Kind.waits_none (kind : Kind p) (plain : Plain (c.pCtx t)) : c.waits p t = none := by
  rw [waits, waitOf, kind.plain_find? plain]
  rfl

/-- Moves away from the kind. -/
theorem Moves.waits_eq {φ : Foot} (moves : Moves φ c c') (ok : CoreOk c) (off : φ.Off p) : c'.waits p = c.waits p :=
  funext fun t => moves.waitOf_eq ok off t

/-! ## Waking -/

section

variable (ask : AskOk c) (waits : (c.pState t).waits = true)
include ask waits

/-- A thread that waits is woken with a message. -/
theorem Core.waits_answer (ctx : c'.pCtx = c.pCtx)
    (ret : c'.pRet = c.pRet) (u : c'.pU = update c.pU t (.rdymsg m)) (awake : (c'.pState t).waits = false)
    (others : ∀ t', t' ≠ t → (c'.pState t').waits = (c.pState t').waits) :
    c'.waits p = update (c.waits p) t ((c.waits p t).map fun w => (w.1, some m)) := by
  funext t'
  by_cases same : t' = t
  · subst same
    have direct : Direct (c.pCtx t') := by
      obtain bad | bad | ⟨-, direct⟩ := ask t'
      · exact absurd bad (TState.waits_ne_ready waits)
      · exact absurd bad (TState.waits_ne_current waits)
      · exact direct
    rw [update_self]
    simp only [Core.waits, Core.waitOf, ctx, awake, Option.map_map]
    refine Option.map_congr fun f found => ?_
    have answer : c'.answer t' = m := by
      cases top : c.pCtx t' with
      | nil =>
        rw [top] at found
        cases found
      | cons g fs =>
        have reads : g.asks = none ∨ g.direct = true := by
          by_cases asks : g.asks = none
          · exact .inl asks
          · exact .inr (direct g (by rw [top]; rfl) asks)
        simp only [answer, ctx, top, if_pos reads, rdymsg, u, update_self]
    simp [answer]
  · rw [update_of_ne same]
    exact waitOf_congr (by rw [ctx]) (others t' same) (by rw [u, update_of_ne same]) (by rw [ret])

theorem Core.waits_readyMsg :
    (c.readyMsg t m).waits p = update (c.waits p) t ((c.waits p t).map fun w => (w.1, some m)) := by
  refine waits_answer ask waits rfl rfl rfl ?_ fun t' other => ?_
  · simp [readyMsg, chSchReadyI, setU, TState.waits]
  · simp [readyMsg, chSchReadyI, setU, other]

theorem Core.waits_chSchWakeupS (current : c.pState c.currp = .current) :
    (c.chSchWakeupS t m).waits p = update (c.waits p) t ((c.waits p t).map fun w => (w.1, some m)) := by
  have apart : c.currp ≠ t := by
    rintro rfl
    rw [current] at waits
    cases waits
  rw [chSchWakeupS]
  split
  · refine waits_answer ask waits rfl rfl rfl ?_ fun t' other => ?_
    · simp [chSchReadyI, setU, TState.waits]
    · simp [chSchReadyI, setU, other]
  · refine waits_answer ask waits rfl rfl rfl ?_ fun t' other => ?_
    · simp [chSchReadyI, setU, TState.waits]
    · by_cases mine : t' = c.currp
      · subst mine
        simp [chSchReadyI, setU, apart, current, TState.waits]
      · simp [chSchReadyI, setU, other, mine]

end

/-- Threads go from ready to running and back. -/
theorem Core.waits_chSchRescheduleS (sched : SchedOk c) : c.chSchRescheduleS.waits p = c.waits p := by
  rw [chSchRescheduleS]
  split
  next required =>
    obtain ⟨h, l, first, -⟩ := SchedOk.first_of_lt (of_decide_eq_true required)
    rw [chSchDoRescheduleAhead, runFirst_eq first]
    refine funext fun t => waitOf_congr rfl ?_ rfl rfl
    by_cases mine : t = c.currp
    · subst mine
      simp [sched.currp_state, TState.waits]
    · by_cases same : t = h
      · subst same
        simp [switch, mine, (sched.ready_first first).1, TState.waits]
      · simp [switch, mine, same]
  · rfl

/-! ## Going to sleep and going on -/

/-- Only the running thread's wait changes. -/
theorem Core.waits_own (c' : Core) (ctx : ∀ t, t ≠ c.currp → c'.pCtx t = c.pCtx t)
    (state : ∀ t, t ≠ c.currp → (c'.pState t).waits = (c.pState t).waits) (u : ∀ t, t ≠ c.currp → c'.pU t = c.pU t)
    (ret : ∀ t, t ≠ c.currp → c'.pRet (some t) = c.pRet (some t)) :
    c'.waits p = update (c.waits p) c.currp (c'.waits p c.currp) := by
  funext t
  by_cases mine : t = c.currp
  · subst mine
    rw [update_self]
  · rw [update_of_ne mine]
    exact waitOf_congr (ctx t mine) (state t mine) (u t mine) (ret t mine)

/-- The running thread has prepared to sleep: its own context and `p_u` have changed,
and lists other than the ready list. -/
structure Prepares (c c' : Core) : Prop where
  currp : c'.currp = c.currp
  state : c'.pState = c.pState
  ready : c'.queue .rQueue = c.queue .rQueue
  ctx : ∀ t, t ≠ c.currp → c'.pCtx t = c.pCtx t
  u : ∀ t, t ≠ c.currp → c'.pU t = c.pU t
  ret : c'.pRet = c.pRet

theorem Prepares.refl (c : Core) : Prepares c c := ⟨rfl, rfl, rfl, fun _ _ => rfl, fun _ _ => rfl, rfl⟩

section

variable (prepares : Prepares c c')
include prepares

theorem Prepares.push (f : Frame) : Prepares c (c'.push f) :=
  { prepares with ctx := fun t other => (update_of_ne (prepares.currp ▸ other) ..).trans (prepares.ctx t other) }

theorem Prepares.setU (u : PU) : Prepares c (c'.setU c'.currp u) :=
  { prepares with u := fun t other => (update_of_ne (prepares.currp ▸ other) ..).trans (prepares.u t other) }

theorem Prepares.setQueue {q : QueueId} (notReady : q ≠ .rQueue) (l : List Tid) : Prepares c (c'.setQueue q l) :=
  { prepares with ready := (update_of_ne notReady.symm ..).trans prepares.ready }

section

variable (st : TState) (sched : SchedOk c) (waits : st.waits = true)
include st sched waits

/-- The running thread sleeps, and another one runs. -/
theorem Prepares.waits_sleep :
    (c'.chSchGoSleepS st).waits p = update (c.waits p) c.currp (((c'.pCtx c.currp).find? p).map (·, none)) := by
  have ran : (c'.chSchGoSleepS st).pCtx = c'.pCtx ∧ (c'.chSchGoSleepS st).pU = c'.pU ∧
      (c'.chSchGoSleepS st).pRet = c'.pRet ∧ ∀ t, ((c'.chSchGoSleepS st).pState t).waits = (update c.pState c.currp st t).waits := by
    cases first : c'.queue .rQueue with
    | nil => simp [chSchGoSleepS, runFirst, fifoRemove, first, prepares.state, prepares.currp]
    | cons h l =>
      rw [chSchGoSleepS_eq first]
      refine ⟨rfl, rfl, rfl, fun t => ?_⟩
      have mem : h ∈ c.queue .rQueue := by
        rw [← prepares.ready, first]
        exact .head _
      have isReady : c.pState h = .ready := (sched.member .rQueue h mem).2.1
      have other : h ≠ c.currp := ne_of_mem_of_not_mem mem (sched.currp_not_mem _)
      by_cases same : t = h
      · subst same
        simp [switch, parked, other, isReady, TState.waits]
      · simp [switch, parked, same, prepares.state, prepares.currp]
  obtain ⟨ctx, u, ret, state⟩ := ran
  rw [waits_own (c := c) (c'.chSchGoSleepS st) (fun t other => by rw [ctx, prepares.ctx t other])
    (fun t other => by rw [state, update_of_ne other]) (fun t other => by rw [u, prepares.u t other])
    fun t _ => by rw [ret, prepares.ret]]
  congr 1
  simp [Core.waits, Core.waitOf, ctx, state, waits]

/-- The sleep leaves a frame of its own. -/
theorem Prepares.waits_sleepUnder {g : Frame} (kind : Kind p) (notAsks : g.asks = none) :
    ((c'.push g).chSchGoSleepS st).waits p = update (c.waits p) c.currp (((c'.pCtx c.currp).find? p).map (·, none)) := by
  rw [(prepares.push g).waits_sleep st sched waits]
  simp [Core.push, prepares.currp, kind.of_asks notAsks]

theorem Prepares.waits_sleepTimeout (kind : Kind p)
    (vt : c'.vt.Ok) (time : Systime) : (c'.chSchGoSleepTimeoutS st time).waits p =
      update (c.waits p) c.currp (((c'.pCtx c.currp).find? p).map (·, none)) := by
  rw [chSchGoSleepTimeoutS]
  split
  · obtain ⟨vt', set⟩ := vt.set_isSome (.stack c'.currp) time (.wakeup c'.currp)
    rw [set]
    have armed : Prepares c { c' with vt := vt', hist := .sleep c'.currp :: c'.hist } := { prepares with }
    exact armed.waits_sleepUnder st sched waits kind rfl
  · exact prepares.waits_sleepUnder st sched waits kind rfl

end

end

theorem Core.chSchGoSleepS_nthd (c : Core) (st : TState) : (c.chSchGoSleepS st).nthd = c.nthd :=
  (runFirst_prio).2

theorem Core.chSchGoSleepTimeoutS_nthd (c : Core) (st : TState) (time : Systime) :
    (c.chSchGoSleepTimeoutS st time).nthd = c.nthd := by
  rw [chSchGoSleepTimeoutS]
  split
  · split
    · rfl
    · exact chSchGoSleepS_nthd ..
  · exact chSchGoSleepS_nthd ..

/-- A frame that has asked gets its answer at once. -/
theorem Core.waits_push_ret (isKind : p f = true) (asks : f.asks ≠ none) (notDirect : f.direct = false) (thread : c.isr = [])
    (current : c.pState c.currp = .current) :
    ((c.push f).ret (.msg m)).waits p = update (c.waits p) c.currp (some (f, some m)) := by
  rw [waits_own ((c.push f).ret (.msg m)) (fun t other => update_of_ne other ..) (fun _ _ => rfl)
    (fun _ _ => rfl) fun t other => ?_]
  · congr 1
    simp [waits, waitOf, answer, msgOf, push, ret, caller, thread, isKind, asks, notDirect,
      current, TState.waits]
  · simp [push, ret, caller, thread, other]

/-- The caller is told something. -/
theorem Core.waits_ret (kind : Kind p) (plain : c.isr = [] → Plain (c.pCtx c.currp)) (r : Ret) :
    (c.ret r).waits p = c.waits p := by
  by_cases thread : c.isr = []
  · have here : (c.ret r).waits p c.currp = c.waits p c.currp := by
      rw [kind.waits_none (plain thread), kind.waits_none]
      exact plain thread
    rw [waits_own (c := c) (c.ret r) (fun _ _ => rfl) (fun _ _ => rfl) (fun _ _ => rfl) fun t other => ?_, here,
      update_eq_self]
    simp [ret, caller, thread, other]
  · exact funext fun t => waitOf_congr rfl rfl rfl (by simp [ret, caller, thread])

/-- The frame that has asked is taken off. -/
theorem Kind.waits_pop {s : Sys} (kind : Kind p) (top : s.pCtx s.currp = f :: fs) (plain : Plain fs) :
    s.pop.waits p = update (s.waits p) s.currp none := by
  rw [waits_own s.pop.toCore (fun t other => update_of_ne other ..)
    (fun _ _ => rfl) (fun _ _ => rfl) fun _ _ => rfl, kind.waits_none]
  simpa [Sys.pop, top] using plain

/-- The frame on top has its answer in the last message. -/
theorem Core.waits_top (top : c.pCtx c.currp = f :: fs) (isKind : p f = true) (asks : f.asks ≠ none)
    (notDirect : f.direct = false) (current : c.pState c.currp = .current) :
    c.waits p c.currp = some (f, some (c.msgOf c.currp)) := by
  simp [waits, waitOf, answer, top, isKind, asks, notDirect, current, TState.waits]

/-! ## Counting answers -/

/-- Threads that are not there yet wait for nothing. -/
theorem Kind.waits_fresh (kind : Kind p) (ok : CoreOk c) (ge : c.nthd ≤ t) : c.waits p t = none := by
  have fresh := (ok.sched.fresh t ge).1
  refine kind.waits_none fun f mem => ?_
  by_contra asked
  obtain ⟨st, asks⟩ := Option.ne_none_iff_exists'.1 asked
  obtain bad | bad | ⟨same, -⟩ := ok.ask t
  · rw [fresh] at bad
    cases bad
  · rw [fresh] at bad
    cases bad
  · exact (Frame.asks_waits asks).2.1 (fresh ▸ same f mem st asks).symm

/-- A wait that has been answered as `q` says. -/
def answeredAs (q : Frame → Msg → Bool) : Option (Frame × Option Msg) → Bool
  | some (f, some m) => q f m
  | _ => false

/-- How many waits of the kind `p` have been answered so. -/
def Core.answered (p : Frame → Bool) (q : Frame → Msg → Bool) (c : Core) : Nat :=
  tally (answeredAs q) (c.waits p) c.nthd

theorem Core.answered_congr (kind : Kind p) (ok : CoreOk c) (ok' : CoreOk c') (same : c'.waits p = c.waits p) :
    c'.answered p q = c.answered p q := by
  have none : ∀ {c : Core}, CoreOk c → ∀ t, c.nthd ≤ t → answeredAs q (c.waits p t) = false := fun ok t ge => by
    rw [kind.waits_fresh ok ge]
    rfl
  rw [answered, answered, ← tally_of_le (Nat.le_max_left c.nthd c'.nthd) (none ok),
    ← tally_of_le (Nat.le_max_right c.nthd c'.nthd) (none ok'), same]

/-- One wait changes. -/
theorem Core.answered_update {w : Option (Frame × Option Msg)} (lt : t < c.nthd) (nthd : c'.nthd = c.nthd)
    (waits : c'.waits p = update (c.waits p) t w) :
    c'.answered p q + (if answeredAs q (c.waits p t) then 1 else 0) = c.answered p q + if answeredAs q w then 1 else 0 := by
  rw [answered, answered, nthd, waits]
  exact tally_update lt

end ChibiOS.Kernel
