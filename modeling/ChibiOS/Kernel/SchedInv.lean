import ChibiOS.Kernel.Sched
import Mathlib.Tactic

/-!
# Thread lists and thread states

`SchedAt float cur c`: every thread but `float` is in the list that its state
names and in no other, and `cur` is the only thread in state CURRENT. The thread
`float` is in no list and its state says nothing: it is between two lists, in
the hands of the code. A scheduler function takes a thread out of its list or
off the processor (`unlink`, `preempted`), and puts it into another list or on
the processor (`enqueue`, `park`, `dispatch`); `SchedOk` holds whenever none is in
between.
-/

namespace ChibiOS.Kernel

open Function
open Lib Threads

/-- The states whose threads are in a list. -/
def TState.queued : TState → Bool
  | .ready | .wtsem | .wtmtx | .wtcond | .wtqueue | .sndmsgq | .wtexit => true
  | _ => false

structure SchedAt (float cur : Option Tid) (c : Threads) : Prop where
  nodup : ∀ q, (c.queue q).Nodup
  member : ∀ q t, t ∈ c.queue q → float ≠ some t ∧ c.pState t = q.tstate ∧ t < c.nthd
  unique : ∀ q q' t, t ∈ c.queue q → t ∈ c.queue q' → q = q'
  queued : ∀ t, t < c.nthd → float ≠ some t → (c.pState t).queued = true → ∃ q, t ∈ c.queue q
  obj : ∀ q t, t ∈ c.queue q → q.isObj = true → c.pU t = .wtobjp q
  sorted : ∀ q, q.byPrio = true → Descending c.pPrio (c.queue q)
  current : ∀ t, float ≠ some t → (c.pState t = .current ↔ cur = some t)
  curLt : ∀ t, cur = some t → t < c.nthd ∧ float ≠ some t
  floatLt : ∀ t, float = some t → t < c.nthd
  prio : ∀ t, t < c.nthd → 1 ≤ c.pPrio t ∧ c.pPrio t ≤ highPrio
  fresh : ∀ t, c.nthd ≤ t → c.pState t = .suspended ∧ c.queue (.pWaiting t) = [] ∧ c.queue (.pMsgqueue t) = []
  idle : idleThread < c.nthd ∧ (float = some idleThread ∨ c.pState idleThread = .ready ∨ cur = some idleThread)

/-- Every thread is where its state says, and `currp` is running. -/
def SchedOk (c : Core) : Prop := SchedAt none (some c.currp) c.toThreads

/-- No ready thread is above the running one. -/
def Top (c : Core) : Prop := ∀ t ∈ c.queue .rQueue, c.pPrio t ≤ c.pPrio c.currp

variable {float cur : Option Tid} {c : Threads} {t : Tid} {q : QueueId}

theorem QueueId.tstate_queued (q : QueueId) : q.tstate.queued = true := by cases q <;> rfl

theorem QueueId.tstate_ne_current (q : QueueId) : q.tstate ≠ .current := by cases q <;> intro bad <;> cases bad

theorem QueueId.tstate_eq_ready {q : QueueId} (ready : q.tstate = .ready) : q = .rQueue := by
  cases q <;> first | rfl | cases ready

/-- A thread whose state is not a list's is in no list. -/
theorem SchedAt.not_mem (ok : SchedAt float cur c) (state : (c.pState t).queued = false) (q : QueueId) :
    t ∉ c.queue q := fun mem => by
  have := (ok.member q t mem).2.1
  rw [this, q.tstate_queued] at state
  cases state

theorem SchedAt.float_not_mem (ok : SchedAt (some t) cur c) (q : QueueId) : t ∉ c.queue q :=
  fun mem => (ok.member q t mem).1 rfl

theorem SchedAt.mem_ready (ok : SchedAt float cur c) (lt : t < c.nthd) (notFloat : float ≠ some t)
    (ready : c.pState t = .ready) : t ∈ c.queue .rQueue := by
  obtain ⟨q, mem⟩ := ok.queued t lt notFloat (by rw [ready]; rfl)
  have := (ok.member q t mem).2.1
  rwa [← QueueId.tstate_eq_ready (this.symm.trans ready)]

/-! ## Taking a thread up -/

/-- Unlinked from every list. -/
def Threads.unlinked (t : Tid) (c : Threads) : Threads := { c with queue := fun q => (c.queue q).erase t }

/-- Erasing from every list touches only the list that the thread is in. -/
theorem SchedAt.unlinked_eq (ok : SchedAt float cur c) (mem : t ∈ c.queue q) :
    c.unlinked t = { c with queue := update c.queue q ((c.queue q).erase t) } := by
  refine congrArg (fun l => { c with queue := l }) (funext fun p => ?_)
  by_cases same : p = q
  · subst same; simp
  · rw [update_of_ne same]
    exact List.erase_of_not_mem fun mem' => same (ok.unique p q t mem' mem)

theorem SchedAt.unlinked_of_not_queued (ok : SchedAt float cur c) (state : (c.pState t).queued = false) :
    c.unlinked t = c :=
  congrArg (fun l => { c with queue := l }) (funext fun q => List.erase_of_not_mem (ok.not_mem state q))

/-- A thread that is not running leaves its list, if it is in one. -/
theorem SchedAt.unlink (ok : SchedAt none cur c) (lt : t < c.nthd) (notCur : cur ≠ some t) :
    SchedAt (some t) cur (c.unlinked t) where
  nodup q := (ok.nodup q).erase t
  member q x mem := by
    obtain ⟨ne, mem⟩ := (ok.nodup q).mem_erase_iff.1 mem
    exact ⟨fun same => ne (Option.some.inj same).symm, (ok.member q x mem).2⟩
  unique q q' x left right := ok.unique q q' x (List.mem_of_mem_erase left) (List.mem_of_mem_erase right)
  queued x ltx notFloat state := by
    obtain ⟨q, mem⟩ := ok.queued x ltx (by simp) state
    exact ⟨q, (ok.nodup q).mem_erase_iff.2 ⟨fun same => notFloat (by rw [same]), mem⟩⟩
  obj q x mem := ok.obj q x (List.mem_of_mem_erase mem)
  sorted q byPrio := (ok.sorted q byPrio).sublist List.erase_sublist
  current x _ := ok.current x (by simp)
  curLt x is := ⟨(ok.curLt x is).1, fun same => notCur (by rw [is, Option.some.inj same])⟩
  floatLt x is := by cases is; exact lt
  prio := ok.prio
  fresh x ge := by
    obtain ⟨state, waiting, msgs⟩ := ok.fresh x ge
    exact ⟨state, by simp [unlinked, waiting], by simp [unlinked, msgs]⟩
  idle := by
    obtain ⟨exists_, is | is | is⟩ := ok.idle
    · cases is
    · exact ⟨exists_, .inr (.inl is)⟩
    · exact ⟨exists_, .inr (.inr is)⟩

/-- The running thread is taken off the processor. -/
theorem SchedAt.preempted (ok : SchedAt none (some t) c) : SchedAt (some t) none c where
  nodup := ok.nodup
  member q x mem := by
    refine ⟨fun same => ?_, (ok.member q x mem).2⟩
    cases same
    exact q.tstate_ne_current ((ok.member q _ mem).2.1.symm.trans ((ok.current _ (by simp)).2 rfl))
  unique := ok.unique
  queued x lt _ := ok.queued x lt (by simp)
  obj := ok.obj
  sorted := ok.sorted
  current x other := by
    rw [ok.current x (by simp)]
    exact ⟨fun same => absurd same other, fun bad => by cases bad⟩
  curLt x bad := by cases bad
  floatLt x is := by cases is; exact (ok.curLt t rfl).1
  prio := ok.prio
  fresh := ok.fresh
  idle := by
    obtain ⟨exists_, is | is | is⟩ := ok.idle
    · cases is
    · exact ⟨exists_, .inr (.inl is)⟩
    · exact ⟨exists_, .inl is⟩

/-! ## Putting it down -/

/-- Into the list `q`, somewhere. -/
def Threads.enqueued (t : Tid) (q : QueueId) (l : List Tid) (c : Threads) : Threads :=
  { c with pState := update c.pState t q.tstate, queue := update c.queue q l }

/-- The owner of a thread's own list exists. -/
def QueueId.Exists (nthd : Nat) : QueueId → Prop
  | pMsgqueue t | pWaiting t => t < nthd
  | _ => True

theorem SchedAt.enqueue {l : List Tid} (ok : SchedAt (some t) cur c) (perm : l.Perm (t :: c.queue q))
    (sorted : q.byPrio = true → Descending c.pPrio l) (obj : q.isObj = true → c.pU t = .wtobjp q)
    (exists_ : q.Exists c.nthd) (notIdle : t = idleThread → q = .rQueue) :
    SchedAt none cur (c.enqueued t q l) where
  nodup p := by
    by_cases same : p = q
    · subst same
      simpa [enqueued, perm.nodup_iff] using ⟨ok.float_not_mem p, ok.nodup p⟩
    · simpa [enqueued, same] using ok.nodup p
  member p x mem := by
    refine ⟨by simp, ?_⟩
    by_cases same : p = q
    · subst same
      simp only [enqueued, update_self, perm.mem_iff, List.mem_cons] at mem ⊢
      rcases mem with rfl | mem
      · exact ⟨by simp, ok.floatLt _ rfl⟩
      · obtain ⟨notFloat, state, lt⟩ := ok.member p x mem
        exact ⟨by rwa [update_of_ne (fun same => notFloat (by rw [same]))], lt⟩
    · simp only [enqueued, update_of_ne same] at mem ⊢
      obtain ⟨notFloat, state, lt⟩ := ok.member p x mem
      exact ⟨by rwa [update_of_ne (fun same => notFloat (by rw [same]))], lt⟩
  unique p p' x left right := by
    have old : ∀ {p}, x ∈ update c.queue q l p → (x = t ∧ p = q) ∨ x ∈ c.queue p := fun {p} mem => by
      by_cases same : p = q
      · subst same
        rw [update_self, perm.mem_iff, List.mem_cons] at mem
        exact mem.imp (fun is => ⟨is, rfl⟩) id
      · exact .inr (by rwa [update_of_ne same] at mem)
    rcases old left with ⟨isT, atQ⟩ | was <;> rcases old right with ⟨isT', atQ'⟩ | was'
    · exact atQ.trans atQ'.symm
    · exact absurd (isT ▸ was') (ok.float_not_mem p')
    · exact absurd (isT' ▸ was) (ok.float_not_mem p)
    · exact ok.unique p p' x was was'
  queued x lt _ state := by
    by_cases same : x = t
    · exact ⟨q, by simp [enqueued, perm.mem_iff, same]⟩
    · simp only [enqueued, update_of_ne same] at state
      obtain ⟨p, mem⟩ := ok.queued x lt (fun is => same (Option.some.inj is).symm) state
      refine ⟨p, ?_⟩
      by_cases at_ : p = q
      · subst at_; simp [enqueued, perm.mem_iff, mem]
      · simpa [enqueued, at_] using mem
  obj p x mem isObj := by
    by_cases same : p = q
    · subst same
      simp only [enqueued, update_self, perm.mem_iff, List.mem_cons] at mem ⊢
      rcases mem with rfl | mem
      · exact obj isObj
      · exact ok.obj p x mem isObj
    · simp only [enqueued, update_of_ne same] at mem ⊢
      exact ok.obj p x mem isObj
  sorted p byPrio := by
    by_cases same : p = q
    · subst same; simpa [enqueued] using sorted byPrio
    · simpa [enqueued, same] using ok.sorted p byPrio
  current x _ := by
    by_cases same : x = t
    · subst same
      simp only [enqueued, update_self]
      exact ⟨fun bad => absurd bad q.tstate_ne_current, fun is => absurd rfl (ok.curLt _ is).2⟩
    · simp only [enqueued, update_of_ne same]
      exact ok.current x fun is => same (Option.some.inj is).symm
  curLt x is := ⟨(ok.curLt x is).1, by simp⟩
  floatLt x bad := by cases bad
  prio := ok.prio
  fresh x ge := by
    obtain ⟨state, waiting, msgs⟩ := ok.fresh x ge
    have lt := ok.floatLt t rfl
    have other : x ≠ t := fun same => by subst same; exact absurd lt (not_lt.2 ge)
    refine ⟨by simpa [enqueued, other] using state, ?_, ?_⟩
    · by_cases same : QueueId.pWaiting x = q
      · subst same; exact absurd exists_ (not_lt.2 ge)
      · simpa [enqueued, same] using waiting
    · by_cases same : QueueId.pMsgqueue x = q
      · subst same; exact absurd exists_ (not_lt.2 ge)
      · simpa [enqueued, same] using msgs
  idle := by
    obtain ⟨exists', is⟩ := ok.idle
    refine ⟨exists', .inr ?_⟩
    by_cases same : idleThread = t
    · subst same
      exact .inl (by simp [enqueued, notIdle rfl, QueueId.tstate])
    · rcases is with is | is | is
      · exact absurd (Option.some.inj is).symm same
      · exact .inl (by simpa [enqueued, same] using is)
      · exact .inr is

/-- Into a state that is no list's. -/
theorem SchedAt.settle {st : TState} {cur' : Option Tid} (ok : SchedAt (some t) cur c) (notQueued : st.queued = false)
    (mine : st = .current ↔ cur' = some t) (others : ∀ x, x ≠ t → (cur' = some x ↔ cur = some x))
    (idle : t = idleThread → cur' = some t) : SchedAt none cur' { c with pState := update c.pState t st } where
  nodup := ok.nodup
  member q x mem := by
    obtain ⟨notFloat, state, lt⟩ := ok.member q x mem
    exact ⟨by simp, by simpa [update_of_ne (fun same => notFloat (by rw [same]) : x ≠ t)] using state, lt⟩
  unique := ok.unique
  queued x lt _ state := by
    by_cases same : x = t
    · subst same; simp [notQueued] at state
    · simp only [update_of_ne same] at state
      exact ok.queued x lt (fun is => same (Option.some.inj is).symm) state
  obj := ok.obj
  sorted := ok.sorted
  current x _ := by
    by_cases same : x = t
    · subst same
      simpa only [update_self] using mine
    · simp only [update_of_ne same]
      exact (ok.current x fun is => same (Option.some.inj is).symm).trans (others x same).symm
  curLt x is := by
    by_cases same : x = t
    · subst same
      exact ⟨ok.floatLt x rfl, by simp⟩
    · exact ⟨(ok.curLt x ((others x same).1 is)).1, by simp⟩
  floatLt x bad := by cases bad
  prio := ok.prio
  fresh x ge := by
    have lt := ok.floatLt t rfl
    have other : x ≠ t := fun same => by subst same; exact absurd lt (not_lt.2 ge)
    simpa [update_of_ne other] using ok.fresh x ge
  idle := by
    obtain ⟨exists_, is⟩ := ok.idle
    refine ⟨exists_, .inr ?_⟩
    by_cases same : idleThread = t
    · exact .inr (same ▸ idle same.symm)
    · rcases is with is | is | is
      · exact absurd (Option.some.inj is).symm same
      · exact .inl (by simpa [update_of_ne same] using is)
      · exact .inr ((others _ same).2 is)

theorem SchedAt.park {st : TState} (ok : SchedAt (some t) cur c) (notQueued : st.queued = false)
    (notCurrent : st ≠ .current) (notIdle : t ≠ idleThread) :
    SchedAt none cur { c with pState := update c.pState t st } :=
  ok.settle notQueued ⟨fun bad => absurd bad notCurrent, fun is => absurd rfl (ok.curLt _ is).2⟩ (fun _ _ => .rfl)
    fun bad => absurd bad notIdle

/-- On the processor. -/
theorem SchedAt.dispatch (ok : SchedAt (some t) none c) :
    SchedAt none (some t) { c with pState := update c.pState t .current } :=
  ok.settle rfl ⟨fun _ => rfl, fun _ => rfl⟩ (fun _ other => ⟨fun is => absurd (Option.some.inj is).symm other, nofun⟩) fun _ => rfl

/-! ## Changes in place -/

/-- A priority may change where no priority order depends on it. -/
theorem SchedAt.setPrio {p : Nat} (ok : SchedAt float cur c) (le : 1 ≤ p) (ge : p ≤ highPrio)
    (free : ∀ q, q.byPrio = true → t ∉ c.queue q) : SchedAt float cur { c with pPrio := update c.pPrio t p } :=
  { ok with
    sorted := fun q byPrio => (ok.sorted q byPrio).congr fun x mem =>
      update_of_ne (ne_of_mem_of_not_mem mem (free q byPrio)) _ _
    prio := fun x lt => by
      by_cases same : x = t
      · subst same; simp only [update_self]; exact ⟨le, ge⟩
      · simp only [update_of_ne same]; exact ok.prio x lt }

/-- The union of a thread that no object list holds may change. -/
theorem SchedAt.setU {u : PU} (ok : SchedAt float cur c) (free : ∀ q, q.isObj = true → t ∉ c.queue q) :
    SchedAt float cur { c with pU := update c.pU t u } :=
  { ok with
    obj := fun q x mem isObj => by
      rw [← ok.obj q x mem isObj]
      exact update_of_ne (ne_of_mem_of_not_mem mem (free q isObj)) _ _ }

/-! ## Whole transitions -/

/-- Behind its equals in the ready list. -/
theorem SchedAt.ready (ok : SchedAt (some t) cur c) :
    SchedAt none cur (c.enqueued t .rQueue (insertBehind c.pPrio t (c.queue .rQueue))) :=
  ok.enqueue (insertBehind_perm ..) (fun byPrio => (ok.sorted _ byPrio).insertBehind t) nofun trivial fun _ => rfl

/-- The first ready thread gets the free processor. -/
theorem SchedAt.run {h : Tid} {l : List Tid} (ok : SchedAt none none c) (first : c.queue .rQueue = h :: l) :
    SchedAt none (some h)
      { c with queue := update c.queue .rQueue l, pState := update c.pState h .current } := by
  have mem : h ∈ c.queue .rQueue := by rw [first]; exact .head _
  have floats := ok.unlink (ok.member _ h mem).2.2 (by simp)
  rw [ok.unlinked_eq mem, first, List.erase_cons_head] at floats
  exact floats.dispatch

/-- A thread is created, suspended. -/
theorem SchedAt.create {prio : Nat} (ok : SchedAt none cur c) (le : 1 ≤ prio) (ge : prio ≤ highPrio) :
    SchedAt none cur
      { c with
        nthd := c.nthd + 1
        pPrio := update c.pPrio c.nthd prio
        pState := update c.pState c.nthd .suspended
        queue := update (update c.queue (.pWaiting c.nthd) []) (.pMsgqueue c.nthd) [] } := by
  obtain ⟨state, waiting, msgs⟩ := ok.fresh c.nthd le_rfl
  have sameQueue : update (update c.queue (.pWaiting c.nthd) []) (.pMsgqueue c.nthd) [] = c.queue := by
    rw [show update c.queue (.pWaiting c.nthd) [] = c.queue from waiting ▸ update_eq_self _ _]
    exact msgs ▸ update_eq_self _ _
  rw [sameQueue, ← state, update_eq_self]
  have old : ∀ {x}, x ≠ c.nthd → update c.pPrio c.nthd prio x = c.pPrio x :=
    fun other => update_of_ne other _ _
  refine { ok with
    member := fun q x mem => ?_, queued := fun x lt _ isQueued => ?_, sorted := fun q byPrio => ?_
    curLt := fun x is => ?_, floatLt := nofun, prio := fun x lt => ?_, fresh := fun x ge => ?_, idle := ?_ }
  · obtain ⟨notFloat, state, lt⟩ := ok.member q x mem
    exact ⟨notFloat, state, Nat.lt_succ_of_lt lt⟩
  · rcases Nat.lt_succ_iff_lt_or_eq.1 lt with lt | rfl
    · exact ok.queued x lt (by simp) isQueued
    · rw [state] at isQueued; cases isQueued
  · exact (ok.sorted q byPrio).congr fun x mem => old (ne_of_lt (ok.member q x mem).2.2)
  · exact ⟨Nat.lt_succ_of_lt (ok.curLt x is).1, by simp⟩
  · rcases Nat.lt_succ_iff_lt_or_eq.1 lt with lt | rfl
    · simpa only [old lt.ne] using ok.prio x lt
    · simpa using ⟨le, ge⟩
  · exact ok.fresh x (Nat.le_of_succ_le ge)
  · exact ⟨Nat.lt_succ_of_lt ok.idle.1, ok.idle.2⟩

end ChibiOS.Kernel
