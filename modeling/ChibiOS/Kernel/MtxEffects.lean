import ChibiOS.Kernel.MtxInv

/-!
# What the mutex functions do

Each function is a sequence of moves and keeps `MtxAt`. The one that leaves the
scheduler's own invariant in danger is `chMtxUnlock`: it lowers the priority of the
running thread and hands the processor over without looking at the ready list.
That is right because the priority it gives up was justified by a waiter, and
the highest one is the thread it wakes (`handed_below`).
-/

namespace ChibiOS.Kernel

open Function (update update_self update_of_ne update_eq_self)
open Lib Kernel.Core Sys MtxAt

/-! ## Scheduler functions and waiters -/

namespace SameWaits

variable {c c' : Core}

theorem refl (c : Core) : SameWaits c c := ⟨rfl, rfl, fun _ => rfl, fun _ _ => .inl⟩

/-- Only the ready list changes. -/
theorem ready (l : List Tid) (nthd : c'.nthd = c.nthd) (prio : c'.pPrio = c.pPrio)
    (queue : c'.queue = update c.queue .rQueue l) (ctx : c'.pCtx = c.pCtx) : SameWaits c c' := by
  exact ⟨nthd, prio, fun m => by simp [queue], fun t f mem => .inl (ctx ▸ mem)⟩

theorem readyI (c : Core) (t : Tid) : SameWaits c (c.chSchReadyI t) := ready _ rfl rfl rfl rfl

theorem runFirst (c : Core) : SameWaits c c.runFirst := by
  cases first : c.queue .rQueue with
  | nil => simpa [Core.runFirst, fifoRemove, first] using refl c
  | cons h l =>
    rw [runFirst_eq first]
    exact ready l rfl rfl rfl rfl

theorem goSleepS (c : Core) (st : TState) : SameWaits c (c.chSchGoSleepS st) := by
  obtain ⟨nthd, prio, queue, frames⟩ := runFirst (c.parked st)
  exact ⟨nthd, prio, queue, frames⟩

theorem push {f : Frame} (plain : f.mutex = none) (c : Core) : SameWaits c (c.push f) := by
  refine ⟨rfl, rfl, fun _ => rfl, fun t g mem => ?_⟩
  by_cases same : t = c.currp
  · subst same
    simp only [Core.push, update_self, List.mem_cons] at mem
    exact mem.elim (fun is => .inr (is ▸ plain)) .inl
  · simp only [Core.push, update_of_ne same] at mem
    exact .inl mem

theorem goSleepTimeoutS (c : Core) (st : TState) (time : Systime) : SameWaits c (c.chSchGoSleepTimeoutS st time) := by
  rw [chSchGoSleepTimeoutS]
  split
  · split
    · exact refl c
    next vt _ =>
      have same : SameWaits c { c with vt := vt, hist := .sleep c.currp :: c.hist } := ⟨rfl, rfl, fun _ => rfl, fun _ _ => .inl⟩
      exact same.trans ((push rfl _).trans (goSleepS _ st))
  · exact (push rfl c).trans (goSleepS _ st)

theorem wakeupS (c : Core) (t : Tid) (msg : Msg) : SameWaits c (c.chSchWakeupS t msg) := by
  rw [chSchWakeupS]
  split <;> exact ready _ rfl rfl rfl rfl

theorem rescheduleS (c : Core) : SameWaits c c.chSchRescheduleS := by
  rw [chSchRescheduleS]
  split
  · exact (runFirst c).trans (ready _ rfl rfl rfl rfl)
  · exact ⟨rfl, rfl, fun _ => rfl, fun _ _ => .inl⟩

/-- `chSysLock()`. -/
theorem enter (s : Sys) : SameWaits s.toCore s.enter.toCore := by
  have same : SameWaits s.toCore { s with locked := true }.toCore := ⟨rfl, rfl, fun _ => rfl, fun _ _ => .inl⟩
  exact same.trans (push rfl _)

end SameWaits

/-! ## Unlocking -/

/-- The running thread's own priority. -/
def Core.ownPrio (n : Nat) (c : Core) : Core := { c with pPrio := update c.pPrio c.currp n, due := true }

variable {exact : Prop} {φ : Foot} {c : Core} {o : Mutexes} {s : Sys} {t : Tid} {m : MtxId} {k : List MtxId}
  {l : List Tid} {n : Nat} {mp : MtxId} {s' : Sys} {c' : Core}

section

variable (sched : SchedOk c) (mtx : MtxAt exact none c o)
include sched mtx

/-- A scan over the rest of the chain gives a priority in range. -/
theorem Scanned.range (scanned : Scanned c k (o.pRealprio t) n) (lt : t < c.nthd) : 1 ≤ n ∧ n ≤ highPrio := by
  obtain ⟨pos, le⟩ := mtx.real t
  refine ⟨pos.trans scanned.ge, ?_⟩
  rcases scanned.attained with is | ⟨m, _, w, mem, is⟩
  · rw [is]; exact le.trans (sched.prio t lt).2
  · rw [is]; exact (sched.prio w (sched.member _ w mem).2.2).2

/-- The mutex `m` goes to its first waiter, and the running thread's priority becomes
what the rest of its chain gives it. -/
theorem MtxAt.handed (first : o.pMtxlist c.currp = some m)
    (waiters : c.queue (.mQueue m) = t :: l) (chain : Chain o c.currp (m :: k))
    (scanned : Scanned c k (o.pRealprio c.currp) n) :
    MtxAt exact none ((c.ownPrio n).setQueue (.mQueue m) l) ((o.release m c.currp).own m t) := by
  have other : t ≠ c.currp := ne_of_mem_of_not_mem (waiters ▸ .head _) (sched.currp_not_mem (.mQueue m))
  have waits := fun w => waits_handed (c := c) (w := w) (l := l) chain other
  have free : ∀ m', c.currp ∉ (c.setQueue (.mQueue m) l).queue (.mQueue m') := fun m' mem => by
    by_cases same : m' = m
    · subst same
      simp only [setQueue, update_self] at mem
      exact sched.currp_not_mem (.mQueue m') (by rw [waiters]; exact List.mem_cons_of_mem t mem)
    · have : (c.setQueue (.mQueue m) l).queue (.mQueue m') = _ := update_of_ne (by simpa using same) ..
      rw [this] at mem
      exact sched.currp_not_mem _ mem
  refine (mtx.handOver sched (by simp) first waiters).setPrio free scanned.ge ?_ fun _ w isWaiter => ?_
  · rcases scanned.attained with is | ⟨m', mem, w, isWaiter, is⟩
    · exact .inl (by rw [update_self]; exact is.le)
    · refine .inr ⟨w, (waits w).2 ⟨m', mem, isWaiter⟩, ?_⟩
      rw [update_self, update_of_ne (ne_of_mem_of_not_mem isWaiter (sched.currp_not_mem _))]
      exact is.le
  · obtain ⟨m', mem, isWaiter⟩ := (waits w).1 isWaiter
    exact scanned.bound m' mem w isWaiter

/-- The priority that the running thread gives up is reached by the woken thread. -/
theorem MtxAt.handed_below (waiters : c.queue (.mQueue m) = t :: l)
    (chain : Chain o c.currp (m :: k)) (scanned : Scanned c k (o.pRealprio c.currp) n) :
    c.pPrio c.currp ≤ max n (c.pPrio t) := by
  rcases mtx.justified c.currp nofun with le | ⟨w, ⟨m', owns, isWaiter⟩, le⟩
  · exact le.trans (scanned.ge.trans (Nat.le_max_left ..))
  · rcases List.mem_cons.1 ((chain.owned m').2 owns) with rfl | mem
    · have sorted := sched.sorted (.mQueue m') rfl
      rw [waiters] at sorted isWaiter
      exact le.trans ((sorted.le_head isWaiter).trans (Nat.le_max_right ..))
    · exact le.trans ((scanned.bound m' mem w isWaiter).trans (Nat.le_max_left ..))

end

/-! ### What `chMtxUnlock` and `chMtxUnlockS` share -/

/-- A mutex that goes from one owner to the next is never seen free. -/
theorem Mutexes.release_own (o : Mutexes) (u : Tid) :
    (o.release m u).own m t = Mutexes.own m t { o with pMtxlist := update o.pMtxlist u (o.mNext m) } := by
  simp [own, release]

theorem unlockWith_free (wake : Tid → Core → Core) (first : s.pMtxlist s.currp = some m) (empty : s.queue (.mQueue m) = []) :
    s.unlockWith wake = { s.ret (.mutex m) with toMutexes := s.toMutexes.release m s.currp } := by
  simp only [unlockWith, first]
  exact if_neg (by simpa [Sys.ret, Sys.onCore, Core.ret] using empty)

/-- The priority that the running thread has without its last mutex. -/
def Sys.restPrio (m : MtxId) (s : Sys) : Nat :=
  let s := { s with pMtxlist := update s.pMtxlist s.currp (s.mNext m) }.ret (.mutex m)
  s.scanOwned s.nmtx (s.pMtxlist s.currp) (s.pRealprio s.currp)

theorem unlockWith_handed (wake : Tid → Core → Core) (first : s.pMtxlist s.currp = some m)
    (waiters : s.queue (.mQueue m) = t :: l) :
    s.unlockWith wake = { s with
      toCore := wake t (((s.toCore.ret (.mutex m)).ownPrio (s.restPrio m)).setQueue (.mQueue m) l)
      toMutexes := (s.toMutexes.release m s.currp).own m t } := by
  have queue : ∀ c : Core, c.queue = s.queue → c.fifoRemove (.mQueue m) = some (t, c.setQueue (.mQueue m) l) :=
    fun c same => by simp only [fifoRemove, same, waiters]
  simp only [unlockWith, first]
  rw [if_pos (by simp [Sys.ret, Sys.onCore, Core.ret, waiters]), Mutexes.release_own]
  split
  next removed =>
    cases removed.symm.trans (queue _ rfl)
  next removed =>
    cases removed.symm.trans (queue _ rfl)
    rfl

/-- The scan over the rest of the running thread's chain. -/
theorem restPrio_scanned (sched : SchedOk s.toCore) (chains : ChainsOk s.nthd s.toMutexes)
    (chain : Chain s.toMutexes s.currp (m :: k)) : Scanned s.toCore k (s.pRealprio s.currp) (s.restPrio m) := by
  have short : k.length ≤ s.nmtx := Nat.le_of_succ_le (chains.length_le chain)
  have seg : Seg s.mNext (update s.pMtxlist s.currp (s.mNext m) s.currp) k none := by
    rw [update_self]
    exact chain.seg.2
  have scanned := scanOwned_spec (s := { s with pMtxlist := update s.pMtxlist s.currp (s.mNext m) }.ret (.mutex m))
    sched k _ (s.pRealprio s.currp) s.nmtx seg short
  exact ⟨scanned.ge, scanned.bound, scanned.attained⟩

theorem unlockWith_effect (wake : Tid → Core → Core) (on : φ.mtx = true) (ok : CoreOk s.toCore) (zone : Zone φ s.toCore)
    (mtx : MtxAt exact none s.toCore s.toMutexes) (same : ∀ t c, SameWaits c (wake t c))
    (wakes : ∀ {m c t c'}, Zone φ c → Removed (.mQueue m) c t c' →
      (s.due = false → ∀ r ∈ c.queue .rQueue, c.pPrio r ≤ max (c.pPrio c.currp) (c.pPrio t)) → Moves φ c (wake t c')) :
    Effect φ s (s.unlockWith wake) ∧
      MtxAt exact none (s.unlockWith wake).toCore (s.unlockWith wake).toMutexes := by
  have sched := ok.sched
  cases first : s.pMtxlist s.currp with
  | none => simpa [unlockWith, first] using ⟨.refl s, mtx⟩
  | some m =>
    have told : Effect φ s (s.ret (.mutex m)) := .ret zone _
    cases waiters : s.queue (.mQueue m) with
    | nil =>
      rw [unlockWith_free wake first waiters]
      exact ⟨told.trans ⟨.refl _, .onMtx on⟩,
        (mtx.release first waiters).congr ⟨rfl, rfl, fun _ => rfl, fun _ _ => .inl⟩⟩
    | cons t l =>
      obtain ⟨k, chain⟩ := mtx.chains.head first
      have scanned := restPrio_scanned sched mtx.chains chain
      have range := scanned.range sched mtx sched.currp_lt
      have other : t ≠ s.currp := ne_of_mem_of_not_mem (waiters ▸ .head _) (sched.currp_not_mem (.mQueue m))
      have lowered : Moves φ s.toCore ((s.toCore.ret (.mutex m)).ownPrio (s.restPrio m)) :=
        told.moves.trans (.single (.ownPrio _ on range.1 range.2))
      have removed : Removed (.mQueue m) ((s.toCore.ret (.mutex m)).ownPrio (s.restPrio m)) t _ :=
        SchedOk.removed (lowered.coreOk ok).sched (waiters ▸ .head _)
          (by rw [show ((s.toCore.ret (.mutex m)).ownPrio (s.restPrio m)).queue (.mQueue m) = t :: l from waiters,
            List.erase_cons_head])
      rw [unlockWith_handed wake first waiters]
      refine ⟨⟨lowered.trans (wakes (zone.congr rfl rfl rfl rfl) removed fun quiet r mem => ?_), .onMtx on⟩, ?_⟩
      · have below := mtx.handed_below sched waiters chain scanned
        have notCurrp : r ≠ s.currp := ne_of_mem_of_not_mem mem (sched.currp_not_mem .rQueue)
        simp only [Core.ownPrio, Core.ret, update_self, update_of_ne other, update_of_ne notCurrp]
        exact (ok.calm quiet r mem).trans below
      · have handed := mtx.handed sched first waiters chain scanned
        have retold : SameWaits ((s.toCore.ownPrio (s.restPrio m)).setQueue (.mQueue m) l)
            (((s.toCore.ret (.mutex m)).ownPrio (s.restPrio m)).setQueue (.mQueue m) l) :=
          ⟨rfl, rfl, fun _ => rfl, fun _ _ => .inl⟩
        exact handed.congr (retold.trans (same t _))

/-! ### Other threads -/

/-- What happens to the mutexes of a thread that does not run: nothing, or it gets the
one that it waits for. -/
inductive Handed (t : Tid) (s s' : Sys) : Prop
  | same : (∀ k, Chain s.toMutexes t k → Chain s'.toMutexes t k) →
      (∀ m, t ∈ s'.queue (.mQueue m) ↔ t ∈ s.queue (.mQueue m)) → Handed t s s'
  | gets (m : MtxId) : t ∈ s.queue (.mQueue m) → (∀ k, Chain s.toMutexes t k → Chain s'.toMutexes t (m :: k)) →
      (∀ m', t ∉ s'.queue (.mQueue m')) → Handed t s s'

theorem Handed.refl (t : Tid) (s : Sys) : Handed t s s := .same (fun _ => id) fun _ => .rfl

theorem Handed.trans {s'' : Sys} (left : Handed t s s') (right : Handed t s' s'') : Handed t s s'' := by
  cases left with
  | same chain mem =>
    cases right with
    | same chain' mem' => exact .same (fun k is => chain' k (chain k is)) fun m => (mem' m).trans (mem m)
    | gets m waits chain' off => exact .gets m ((mem m).1 waits) (fun k is => chain' k (chain k is)) off
  | gets m waits chain off =>
    cases right with
    | same chain' mem' => exact .gets m waits (fun k is => chain' _ (chain k is)) fun m' => (mem' m').not.2 (off m')
    | gets m' waits' => exact absurd waits' (off m')

/-- The last mutex of the running thread becomes free. -/
theorem Handed.released (chain : Chain s.toMutexes s.currp (m :: k))
    (mutexes : s'.toMutexes = s.toMutexes.release m s.currp)
    (queue : ∀ m', s'.queue (.mQueue m') = s.queue (.mQueue m')) (other : t ≠ s.currp) : Handed t s s' := by
  refine .same (fun k' is => ?_) fun m' => by rw [queue]
  rw [mutexes]
  exact is.release_of_ne ((chain.owned m).1 (.head _)) other

/-- It goes to its first waiter. -/
theorem Handed.given {x : Tid} (sched : SchedOk s.toCore) (chains : ChainsOk s.nthd s.toMutexes)
    (chain : Chain s.toMutexes s.currp (m :: k)) (waiters : s.queue (.mQueue m) = x :: l)
    (mutexes : s'.toMutexes = (s.toMutexes.release m s.currp).own m x)
    (queue : ∀ m', s'.queue (.mQueue m') = update s.queue (.mQueue m) l (.mQueue m')) (other : t ≠ s.currp) :
    Handed t s s' := by
  have isOwner : s.mOwner m = some s.currp := (chain.owned m).1 (.head _)
  have free : (s.toMutexes.release m s.currp).mOwner m = none := update_self ..
  have mem : x ∈ s.queue (.mQueue m) := by rw [waiters]; exact .head _
  by_cases same : t = x
  · subst same
    refine .gets m mem (fun k' is => ?_) fun m' mem' => ?_
    · rw [mutexes]
      exact (is.release_of_ne isOwner other).own free fun m' mem' => (chains.bound m' t ((is.owned m').1 mem')).2.2
    · have notMem : t ∉ l := (List.nodup_cons.1 (waiters ▸ sched.nodup (.mQueue m))).1
      rw [queue] at mem'
      by_cases is : m' = m
      · subst is
        rw [update_self] at mem'
        exact notMem mem'
      · rw [update_of_ne (by simpa using is)] at mem'
        exact is (by simpa using sched.unique _ _ t mem' mem)
  · refine .same (fun k' is => ?_) fun m' => ?_
    · rw [mutexes]
      exact (is.release_of_ne isOwner other).own_of_ne free same
    · rw [queue]
      by_cases is : m' = m
      · subst is
        simp [waiters, same]
      · rw [update_of_ne (by simpa using is)]

theorem unlockWith_given {wake : Tid → Core → Core} (sched : SchedOk s.toCore) (chains : ChainsOk s.nthd s.toMutexes)
    (same : ∀ t c, SameWaits c (wake t c)) (other : t ≠ s.currp) : Handed t s (s.unlockWith wake) := by
  cases first : s.pMtxlist s.currp with
  | none => simpa [unlockWith, first] using .refl t s
  | some m =>
    obtain ⟨k, chain⟩ := chains.head first
    cases waiters : s.queue (.mQueue m) with
    | nil =>
      rw [unlockWith_free wake first waiters]
      exact .released chain rfl (fun _ => rfl) other
    | cons x l =>
      rw [unlockWith_handed wake first waiters]
      exact .given sched chains chain waiters rfl (fun m' => (same x _).queue m') other

/-- The mutexes are in order. -/
def MtxOk (exact : Prop) (s : Sys) : Prop := MtxAt exact none s.toCore s.toMutexes

theorem MtxOk.enter (mtx : MtxOk exact s) : MtxOk exact s.enter := congr mtx (.enter s)

theorem chMtxUnlock_effect (on : φ.mtx = true) (ok : CoreOk s.toCore) (outside : Outside s) (quiet : s.due = false)
    (mtx : MtxOk exact s) : Effect φ s s.chMtxUnlock ∧ MtxOk exact s.chMtxUnlock := by
  have work := outside.enter (φ := φ) ok
  obtain ⟨effect, done⟩ := unlockWith_effect (.chSchWakeupS · rdyOk) on work.ok work.zone mtx.enter (fun t c => .wakeupS c t rdyOk)
    fun zone removed below => removed.wakeS nofun on (by decide) zone.thread zone.locked (below quiet)
  exact ⟨work.effect.trans effect, done⟩

/-- What `chMtxUnlockS` leaves alone. -/
theorem chMtxUnlockS_frame (s : Sys) : Still s.toCore s.chMtxUnlockS.toCore ∧ s.chMtxUnlockS.vt = s.vt ∧
    s.chMtxUnlockS.nmtx = s.nmtx := by
  rw [chMtxUnlockS]
  cases first : s.pMtxlist s.currp with
  | none => simpa [unlockWith, first] using .refl s.toCore
  | some m =>
    cases waiters : s.queue (.mQueue m) with
    | nil => rw [unlockWith_free _ first waiters]; exact ⟨⟨rfl, rfl, rfl, rfl⟩, rfl, rfl⟩
    | cons t l => rw [unlockWith_handed _ first waiters]; exact ⟨⟨rfl, rfl, rfl, rfl⟩, rfl, rfl⟩

theorem chMtxUnlockS_effect (on : φ.mtx = true) (ok : CoreOk s.toCore) (zone : Zone φ s.toCore) (mtx : MtxOk exact s) :
    IEffect φ s s.chMtxUnlockS ∧ MtxOk exact s.chMtxUnlockS := by
  obtain ⟨effect, done⟩ := unlockWith_effect .chSchReadyI on ok zone mtx (fun t c => .readyI c t)
    fun _ removed _ => removed.ready nofun on rfl
  exact ⟨⟨effect, (chMtxUnlockS_frame s).1⟩, done⟩

/-! ### `chMtxUnlockAll` -/

theorem MtxAt.open (mtx : MtxAt exact none c o) : MtxAt exact (some t) c o :=
  ⟨mtx.chains, mtx.owned, mtx.real, fun t _ => mtx.justified t nofun, mtx.honoured, mtx.frames⟩

theorem unlockAllLoop_free (fuel : Nat) (first : s.pMtxlist s.currp = some m) (empty : s.queue (.mQueue m) = []) :
    s.unlockAllLoop (fuel + 1) = Sys.unlockAllLoop fuel { s with toMutexes := s.toMutexes.release m s.currp } := by
  simp only [unlockAllLoop, first]
  rw [if_neg (by simpa using empty)]
  rfl

theorem unlockAllLoop_handed (fuel : Nat) (first : s.pMtxlist s.currp = some m) (waiters : s.queue (.mQueue m) = t :: l) :
    s.unlockAllLoop (fuel + 1) = Sys.unlockAllLoop fuel { s with
      toCore := (s.toCore.setQueue (.mQueue m) l).chSchReadyI t
      toMutexes := (s.toMutexes.release m s.currp).own m t } := by
  have removed : s.fifoRemove (.mQueue m) = some (t, s.toCore.setQueue (.mQueue m) l) := by
    simp only [fifoRemove, waiters]
  simp only [unlockAllLoop, first, removed, Mutexes.release_own]
  rw [if_pos (by simp [waiters])]
  rfl

/-- A round of the loop: the last mutex locked is free, or its first waiter's. -/
theorem unlockAllLoop_round (on : φ.mtx = true) (fuel : Nat) (ok : CoreOk s.toCore)
    (mtx : MtxAt exact (some s.currp) s.toCore s.toMutexes) (chain : Chain s.toMutexes s.currp (m :: k)) :
    ∃ s', s.unlockAllLoop (fuel + 1) = s'.unlockAllLoop fuel ∧ IEffect φ s s' ∧
      MtxAt exact (some s.currp) s'.toCore s'.toMutexes ∧ Chain s'.toMutexes s.currp k ∧
      ∀ t, t ≠ s.currp → Handed t s s' := by
  have first : s.pMtxlist s.currp = some m := chain.seg.1
  cases waiters : s.queue (.mQueue m) with
  | nil =>
    exact ⟨_, unlockAllLoop_free fuel first waiters, .of_objs (.onMtx on) rfl, mtx.release first waiters,
      chain.release, fun t other => .released chain rfl (fun _ => rfl) other⟩
  | cons t l =>
    have removed : s.fifoRemove (.mQueue m) = some (t, s.toCore.setQueue (.mQueue m) l) := by
      simp only [fifoRemove, waiters]
    have other : s.currp ≠ t :=
      (ne_of_mem_of_not_mem (waiters ▸ .head _) (ok.sched.currp_not_mem (.mQueue m))).symm
    have handed := mtx.handOver ok.sched (fun x is => (Option.some.inj is).symm) first waiters
    refine ⟨_, unlockAllLoop_handed fuel first waiters,
      ⟨⟨(ok.sched.fifoRemove removed).ready (by simp) on rfl, .onMtx on⟩, ⟨rfl, rfl, rfl, rfl⟩⟩, handed.congr (.readyI _ t),
      chain.release.own_of_ne (update_self ..) other, fun x notMine => ?_⟩
    exact .given ok.sched mtx.chains chain waiters rfl (fun m' => by simp [chSchReadyI, setQueue]) notMine

/-- The loop empties the chain of the running thread. -/
theorem unlockAllLoop_effect (on : φ.mtx = true) : ∀ (k : List MtxId) (fuel : Nat) {s : Sys}, CoreOk s.toCore →
    MtxAt exact (some s.currp) s.toCore s.toMutexes → Chain s.toMutexes s.currp k → k.length ≤ fuel →
    IEffect φ s (s.unlockAllLoop fuel) ∧
      MtxAt exact (some s.currp) (s.unlockAllLoop fuel).toCore (s.unlockAllLoop fuel).toMutexes ∧
      Chain (s.unlockAllLoop fuel).toMutexes s.currp [] ∧ ∀ t, t ≠ s.currp → Handed t s (s.unlockAllLoop fuel)
  | [], fuel, s, ok, mtx, chain, _ => by
    have none : s.pMtxlist s.currp = none := chain.seg
    have stop : s.unlockAllLoop fuel = s := by cases fuel <;> simp [unlockAllLoop, none]
    rw [stop]
    exact ⟨.refl s, mtx, chain, fun t _ => .refl t s⟩
  | m :: k, fuel + 1, s, ok, mtx, chain, short => by
    obtain ⟨s', round, effect, mtx', chain', handed⟩ := unlockAllLoop_round on fuel ok mtx chain
    rw [← effect.still.currp] at mtx' chain' handed
    obtain ⟨rest, done, emptied, handed'⟩ := unlockAllLoop_effect on k fuel (effect.coreOk ok) mtx' chain'
      (Nat.le_of_succ_le_succ short)
    rw [effect.still.currp] at done emptied handed handed'
    rw [round]
    exact ⟨effect.trans rest, done, emptied, fun t other => (handed t other).trans (handed' t other)⟩

theorem MtxOk.ret (mtx : MtxOk exact s) (r : Ret) : MtxOk exact (s.ret r) :=
  congr mtx ⟨rfl, rfl, fun _ => rfl, fun _ _ => .inl⟩

/-- With no mutex the running thread has its own priority. -/
theorem setOwnPrio_effect (on : φ.mtx = true) (ok : CoreOk s.toCore)
    (mtx : MtxAt exact (some s.currp) s.toCore s.toMutexes) (chain : Chain s.toMutexes s.currp []) :
    IEffect φ s (s.setOwnPrio (s.pRealprio s.currp)) ∧ MtxOk exact (s.setOwnPrio (s.pRealprio s.currp)) := by
  obtain ⟨pos, le⟩ := mtx.real s.currp
  have high : s.pRealprio s.currp ≤ highPrio := le.trans (ok.sched.prio _ ok.sched.currp_lt).2
  have unwaited : ∀ w, ¬ Waits s.toCore s.toMutexes w s.currp := fun w ⟨m, owns, _⟩ => by
    have := (chain.owned m).2 owns
    cases this
  refine ⟨⟨⟨.single (.ownPrio _ on pos high), .onMtx on⟩, ⟨rfl, rfl, rfl, rfl⟩⟩, ?_⟩
  refine mtx.setPrio (fun m => ok.sched.currp_not_mem _) le_rfl (.inl ?_) fun _ w isWaiter => absurd isWaiter (unwaited w)
  rw [update_self]

theorem chMtxUnlockAll_effect (on : φ.mtx = true) (ok : CoreOk s.toCore) (outside : Outside s) (mtx : MtxOk exact s) :
    Effect φ s s.chMtxUnlockAll ∧ MtxOk exact s.chMtxUnlockAll := by
  have work := (outside.enter (φ := φ) ok).tell .void
  have mtx' : MtxOk exact (s.enter.ret .void) := mtx.enter.ret .void
  simp only [chMtxUnlockAll, zone]
  split
  · obtain ⟨k, chain⟩ := mtx'.chains.chain s.enter.currp
    obtain ⟨unlocked, open_, last, -⟩ := unlockAllLoop_effect on k _ (s := s.enter.ret .void) work.ok mtx'.open chain
      (mtx'.chains.length_le chain)
    have currp : s.enter.currp = ((s.enter.ret .void).unlockAllLoop (s.enter.ret .void).nmtx).currp := unlocked.still.currp.symm
    have work' := work.step unlocked
    obtain ⟨lowered, done⟩ := setOwnPrio_effect on work'.ok (currp ▸ open_) (currp ▸ last)
    exact ⟨(work'.step lowered).reschedule, congr done (.rescheduleS _)⟩
  · exact ⟨work.effect, mtx'⟩

/-! ## Locking -/

/-- The owner of the mutex that a thread waits for, as the boosting loop finds it. -/
def Sys.blocker (tp : Tid) (s : Sys) : Option Tid :=
  match s.pState tp, s.pU tp with
  | .wtmtx, .wtobjp (.mQueue mp) => s.mOwner mp
  | _, _ => none

theorem waits_iff_blocker (sched : SchedOk s.toCore) (w : Tid) :
    Waits s.toCore s.toMutexes w t ↔ s.blocker w = some t := by
  constructor
  · rintro ⟨m, owns, mem⟩
    obtain ⟨state, obj⟩ := (sched.mem_iff_obj rfl).1 mem
    simpa only [blocker, show s.pState w = .wtmtx from state, obj] using owns
  · intro is
    unfold blocker at is
    split at is
    next m state obj =>
      exact ⟨m, is, (sched.mem_iff_obj rfl).2 ⟨state, obj⟩⟩
    · cases is

/-- A round of the boosting loop. -/
theorem boostLoop_succ (prio fuel : Nat) (tp : Tid) (s : Sys) :
    s.boostLoop prio (fuel + 1) tp = if s.pPrio tp < prio then
      match s.blocker tp with
      | some owner => (s.onCore (.boosted tp prio)).boostLoop prio fuel owner
      | none => s.onCore (.boosted tp prio)
    else s := by
  rw [boostLoop]
  refine if_congr .rfl ?_ rfl
  simp only [blocker, boosted, onCore]
  cases s.pState tp with
  | wtmtx =>
    cases s.pU tp with
    | wtobjp q =>
      cases q with
      | mQueue m => cases owner : s.mOwner m <;> simp only [owner]
      | rQueue | sQueue | cQueue | qWaiting | pMsgqueue | pWaiting => rfl
    | rdymsg | exitcode | ewmask => rfl
  | wtcond => cases s.pU tp <;> rfl
  | _ => rfl

/-- Boosting raises threads where they are. -/
structure Raised (c c' : Core) : Prop where
  nthd : c'.nthd = c.nthd
  prio : ∀ t, c.pPrio t ≤ c'.pPrio t
  own : c'.pPrio c.currp = c.pPrio c.currp
  mem : ∀ q t, t ∈ c'.queue q ↔ t ∈ c.queue q
  ctx : c'.pCtx = c.pCtx

theorem Raised.refl (c : Core) : Raised c c := ⟨rfl, fun _ => le_rfl, rfl, fun _ _ => .rfl, rfl⟩

theorem Raised.trans {c'' : Core} (left : Raised c c') (right : Raised c' c'') (currp : c'.currp = c.currp) :
    Raised c c'' :=
  ⟨right.nthd.trans left.nthd, fun t => (left.prio t).trans (right.prio t), (currp ▸ right.own).trans left.own,
    fun q t => (right.mem q t).trans (left.mem q t), right.ctx.trans left.ctx⟩

/-- A thread goes back to where its new priority puts it. -/
theorem SchedOk.boosted_perm (sched : SchedOk c) (lt : t < c.nthd) (prio : Nat) (q : QueueId) :
    ((c.boosted t prio).queue q).Perm (c.queue q) := by
  have back : ∀ q', t ∈ c.queue q' → (update (fun q => (c.queue q).erase t) q'
      (insertBehind (update c.pPrio t prio) t ((c.queue q').erase t)) q).Perm (c.queue q) := fun q' mem => by
    by_cases same : q = q'
    · subst same
      rw [update_self]
      exact (insertBehind_perm ..).trans (List.perm_cons_erase mem).symm
    · rw [update_of_ne same, List.erase_of_not_mem fun mem' => same (sched.unique q q' t mem' mem)]
  rcases sched.boosted_cases lt prio with ⟨q', _, _, mem, eq⟩ | ⟨mem, eq⟩ | ⟨_, eq⟩ <;> rw [eq]
  · exact back q' mem
  · exact back .rQueue mem

theorem SchedOk.mem_boosted (sched : SchedOk c) (lt : t < c.nthd) (q : QueueId) (w : Tid) :
    w ∈ (c.boosted t n).queue q ↔ w ∈ c.queue q := (sched.boosted_perm lt n q).mem_iff

theorem SchedOk.raised (sched : SchedOk c) (lt : t < c.nthd) (other : t ≠ c.currp) (less : c.pPrio t < n) :
    Raised c (c.boosted t n) := by
  obtain ⟨prio, nthd⟩ := c.boosted_prio t n
  refine ⟨nthd, fun w => ?_, ?_, sched.mem_boosted lt, (c.boosted_frame t n).1⟩
  · rw [prio]; exact le_update_self_iff.2 less.le w
  · rw [prio, update_of_ne other.symm]

/-- The threads that boosting can still raise. -/
def Core.below (p : Nat) (c : Core) : Finset Tid := (Finset.range c.nthd).filter (c.pPrio · < p)

theorem Core.below_boosted (lt : t < c.nthd) (less : c.pPrio t < n) : (c.boosted t n).below n ⊂ c.below n := by
  obtain ⟨prio, nthd⟩ := c.boosted_prio t n
  refine Finset.ssubset_iff_of_subset (fun w => ?_) |>.2 ⟨t, ?_, ?_⟩
  · simp only [below, Finset.mem_filter, Finset.mem_range, prio, nthd]
    exact fun ⟨ltW, lessW⟩ => ⟨ltW, (le_update_self_iff.2 less.le w).trans_lt lessW⟩
  · simp [below, lt, less]
  · simp [below, prio]

section

variable {W : Tid → Tid → Prop}

theorem boostLoop_effect (on : φ.mtx = true) (onCnd : φ.cnd = true) : ∀ (fuel : Nat) (s : Sys)
    (tp : Tid), CoreOk s.toCore → tp < s.nthd →
    (∀ t x, t ≠ s.currp → (W t x ↔ s.blocker t = some x)) → (∀ t x, s.blocker t = some x → x < s.nthd) →
    Boosting W s.pRealprio s.pPrio (s.pPrio s.currp) tp →
    (exact → HonouredBut W s.pPrio (s.pPrio s.currp) tp) → (s.below (s.pPrio s.currp)).card ≤ fuel →
    ∃ s', s' = s.boostLoop (s.pPrio s.currp) fuel tp ∧ IEffect φ s s' ∧ Raised s.toCore s'.toCore ∧
      s'.toMutexes = s.toMutexes ∧ (∀ t, JustifiedAt W s.pRealprio s'.pPrio t) ∧ (exact → Honoured W s'.pPrio)
  | fuel, s, tp, ok, lt, blocks, bound, boosting, honoured, enough => by
    -- the loop stops at a thread that is as high
    have stop : s.pPrio s.currp ≤ s.pPrio tp → IEffect φ s s ∧ Raised s.toCore s.toCore ∧ s.toMutexes = s.toMutexes ∧
        (∀ t, JustifiedAt W s.pRealprio s.pPrio t) ∧ (exact → Honoured W s.pPrio) := fun ge =>
      ⟨.refl s, .refl _, rfl, boosting.justified, fun h => (honoured h).stop ge⟩
    match fuel with
    | 0 =>
      refine ⟨s, rfl, stop (not_lt.1 fun less => ?_)⟩
      have mem : tp ∈ s.below (s.pPrio s.currp) := by simp [below, lt, less]
      rw [Finset.card_eq_zero.1 (Nat.le_zero.1 enough)] at mem
      cases mem
    | fuel + 1 =>
      rw [boostLoop_succ]
      split
      next less =>
        have other : tp ≠ s.currp := fun same => lt_irrefl _ (same ▸ less)
        have high := (ok.sched.prio _ ok.sched.currp_lt).2
        have raised := ok.sched.raised lt other less
        obtain ⟨prio, nthd⟩ := s.toCore.boosted_prio tp (s.pPrio s.currp)
        obtain ⟨ctx, locked, isr, currp⟩ := s.toCore.boosted_frame tp (s.pPrio s.currp)
        obtain ⟨state, u, -, -⟩ := s.toCore.boosted_wait tp (s.pPrio s.currp)
        have effect : IEffect φ s (s.onCore (.boosted tp (s.pPrio s.currp))) :=
          ⟨.onCore (.single (.boost tp _ on onCnd other lt less high)), ⟨by rw [onCore_toCore, ctx], locked, isr, currp⟩⟩
        split
        next owner isOwner =>
          have same : ∀ t, (s.onCore (.boosted tp (s.pPrio s.currp))).blocker t = s.blocker t := fun t => by
            simp only [blocker, onCore_toCore, state, u]
            rfl
          have top : (s.onCore (.boosted tp (s.pPrio s.currp))).pPrio (s.onCore (.boosted tp (s.pPrio s.currp))).currp =
              s.pPrio s.currp := by
            rw [onCore_toCore, currp]
            exact raised.own
          have waits : W tp owner := (blocks tp owner other).2 isOwner
          have only : ∀ x, W tp x → x = owner := fun x waits' =>
            Option.some.inj (((blocks tp x other).1 waits').symm.trans isOwner)
          obtain ⟨s', is, rest, raised', mtx, done⟩ := boostLoop_effect on onCnd fuel
            (s.onCore (.boosted tp (s.pPrio s.currp))) owner (effect.coreOk ok)
            (by rw [onCore_toCore, nthd]; exact bound tp owner isOwner)
            (fun t x ne => by rw [same]; exact blocks t x (currp ▸ ne))
            (fun t x is => by rw [onCore_toCore, nthd]; rw [same] at is; exact bound t x is)
            (by rw [top, onCore_toCore, prio]; exact boosting.next less waits)
            (fun h => by rw [top, onCore_toCore, prio]; exact (honoured h).next less only)
            (by rw [top]; exact Nat.le_of_lt_succ ((Finset.card_lt_card (below_boosted lt less)).trans_le enough))
          rw [top] at is
          exact ⟨s', is, effect.trans rest, raised.trans raised' currp, mtx, done⟩
        next free =>
          refine ⟨_, rfl, effect, raised, rfl, fun t => ?_, fun h => ?_⟩
          · rw [onCore_toCore, prio]; exact boosting.raise less t
          · rw [onCore_toCore, prio]
            refine (honoured h).last less fun x waits => ?_
            rw [blocks tp x other, free] at waits
            cases waits
      next ge =>
        exact ⟨s, rfl, stop (not_lt.1 ge)⟩

end

/-- The running thread as a waiter for the mutex `mp`, which it is about to become. -/
def Joined (mp : MtxId) (c : Core) (o : Mutexes) (w t : Tid) : Prop :=
  Waits c o w t ∨ w = c.currp ∧ o.mOwner mp = some t

/-- Boosted for the running thread, which now waits. -/
theorem MtxAt.joined (mtx : MtxAt exact none c o) (isOwner : o.mOwner mp = some t) (raised : Raised c c')
    (justified : ∀ t, JustifiedAt (Joined mp c o) o.pRealprio c'.pPrio t)
    (honoured : exact → Honoured (Joined mp c o) c'.pPrio) :
    MtxAt exact none (c'.setQueue (.mQueue mp) (insertBehind c'.pPrio c.currp (c'.queue (.mQueue mp)))) o := by
  have mem : ∀ m w, w ∈ (c'.setQueue (.mQueue mp) (insertBehind c'.pPrio c.currp (c'.queue (.mQueue mp)))).queue (.mQueue m) ↔
      w ∈ c.queue (.mQueue m) ∨ w = c.currp ∧ m = mp := fun m w => by
    by_cases same : m = mp
    · subst same
      simp [setQueue, raised.mem, or_comm]
    · simp [setQueue, same, raised.mem]
  have waits : Waits (c'.setQueue (.mQueue mp) (insertBehind c'.pPrio c.currp (c'.queue (.mQueue mp)))) o =
      Joined mp c o := by
    funext w x
    refine propext ⟨fun waits => ?_, fun joined => ?_⟩
    · obtain ⟨m, owns, isWaiter⟩ := waits
      rcases (mem m w).1 isWaiter with old | ⟨is, rfl⟩
      · exact .inl ⟨m, owns, old⟩
      · exact .inr ⟨is, owns⟩
    · rcases joined with ⟨m, owns, old⟩ | ⟨is, owns⟩
      · exact ⟨m, owns, (mem m w).2 (.inl old)⟩
      · exact ⟨mp, owns, (mem mp w).2 (.inr ⟨is, rfl⟩)⟩
  refine ⟨raised.nthd ▸ mtx.chains, fun m waited => ?_, fun x => ?_, fun x _ => ?_, fun h => ?_, fun x f inCtx => ?_⟩
  · obtain ⟨w, isWaiter⟩ := List.exists_mem_of_ne_nil _ waited
    rcases (mem m w).1 isWaiter with old | ⟨-, rfl⟩
    · exact mtx.owned m (List.ne_nil_of_mem old)
    · exact ⟨t, isOwner⟩
  · exact ⟨(mtx.real x).1, (mtx.real x).2.trans (raised.prio x)⟩
  · rw [waits]; exact justified x
  · rw [waits]; exact honoured h
  · exact mtx.frames x f (raised.ctx ▸ inCtx)

/-- The boosting loop of `chMtxLockS`, from the owner of the mutex on. -/
theorem lockBoost_effect {tp : Tid} (on : φ.mtx = true) (onCnd : φ.cnd = true) (ok : CoreOk s.toCore)
    (mtx : MtxOk exact s) (isOwner : s.mOwner mp = some tp) :
    ∃ s', s' = s.boostLoop (s.pPrio s.currp) s.nthd tp ∧ IEffect φ s s' ∧ Raised s.toCore s'.toCore ∧
      s'.toMutexes = s.toMutexes ∧ (∀ t, JustifiedAt (Joined mp s.toCore s.toMutexes) s.pRealprio s'.pPrio t) ∧
      (exact → Honoured (Joined mp s.toCore s.toMutexes) s'.pPrio) := by
  have sched := ok.sched
  have blocks : ∀ t x, t ≠ s.currp → (Joined mp s.toCore s.toMutexes t x ↔ s.blocker t = some x) := fun t x other => by
    rw [Joined, waits_iff_blocker sched]
    simp [other]
  have bound : ∀ t x, s.blocker t = some x → x < s.nthd := fun t x is => by
    obtain ⟨m, owns, _⟩ := (waits_iff_blocker sched t).2 is
    exact (mtx.chains.bound m x owns).2.1
  have boosting : Boosting (Joined mp s.toCore s.toMutexes) s.pRealprio s.pPrio (s.pPrio s.currp) tp :=
    ⟨fun t => (mtx.justified t nofun).mono (fun w isWaiter => ⟨.inl isWaiter, le_rfl⟩) rfl,
      s.currp, .inr ⟨rfl, isOwner⟩, le_rfl⟩
  have honoured : exact → HonouredBut (Joined mp s.toCore s.toMutexes) s.pPrio (s.pPrio s.currp) tp := fun h w x joined => by
    rcases joined with isWaiter | ⟨rfl, owns⟩
    · exact .inl (mtx.honoured h w x isWaiter)
    · exact .inr ⟨Option.some.inj (owns.symm.trans isOwner), le_rfl⟩
  have enough : (s.below (s.pPrio s.currp)).card ≤ s.nthd := (Finset.card_filter_le _ _).trans_eq (Finset.card_range _)
  exact boostLoop_effect on onCnd s.nthd s tp ok (mtx.chains.bound mp tp isOwner).2.1 blocks bound boosting honoured enough

theorem AtWork.chMtxLockS (work : AtWork φ s s') (on : φ.mtx = true) (onCnd : φ.cnd = true) (mtx : MtxOk exact s')
    (lt : mp < s'.nmtx) : Effect φ s (s'.chMtxLockS mp) ∧ MtxOk exact (s'.chMtxLockS mp) := by
  rw [Sys.chMtxLockS]
  split
  next tp isOwner =>
    obtain ⟨s', is, boosted, raised, mutexes, justified, honoured⟩ := lockBoost_effect on onCnd work.ok mtx isOwner
    rw [← is]
    have work' := work.step boosted
    have sleep : Moves φ s'.toCore _ := work'.zone.sleepS .wtmtx work'.ok (work'.plain.asksFor _) work'.plain.direct on
      (Joins.byPrio (q := .mQueue mp) work'.ok.sched nofun trivial)
    refine ⟨work'.moves sleep .core, ?_⟩
    have joined := joined mtx isOwner raised justified honoured
    rw [← mutexes, ← boosted.still.currp] at joined
    have stored : SameWaits (s'.toCore.prioInsert s'.currp (.mQueue mp))
        ((s'.toCore.prioInsert s'.currp (.mQueue mp)).setU s'.currp (.wtobjp (.mQueue mp))) :=
      ⟨rfl, rfl, fun _ => rfl, fun _ _ => .inl⟩
    exact joined.congr (stored.trans (.goSleepS _ .wtmtx))
  next free =>
    exact ⟨(work.step (.of_objs (.onMtx on) (by rfl))).effect, mtx.own free lt work.ok.sched.currp_lt⟩

theorem AtWork.chMtxTryLockS (work : AtWork φ s s') (on : φ.mtx = true) (mtx : MtxOk exact s') (lt : mp < s'.nmtx) :
    Effect φ s (s'.chMtxTryLockS mp) ∧ MtxOk exact (s'.chMtxTryLockS mp) := by
  rw [Sys.chMtxTryLockS]
  split
  · exact ⟨(work.tell _).effect, mtx.ret _⟩
  next free =>
    have owned : MtxOk exact (s'.own mp s'.currp) := mtx.own free lt work.ok.sched.currp_lt
    exact ⟨((work.step (.of_objs (.onMtx on) (by rfl))).tell _).effect, owned.ret _⟩

/-! ## Condition variables -/

/-- A call that will get the mutex `m` back. -/
theorem MtxAt.push {f : Frame} (mtx : MtxAt exact none c o) (bound : ∀ m ∈ f.mutex, m < o.nmtx) :
    MtxAt exact none (c.push f) o := by
  refine ⟨mtx.chains, mtx.owned, mtx.real, mtx.justified, mtx.honoured, fun t g mem => ?_⟩
  by_cases same : t = c.currp
  · subst same
    simp only [Core.push, update_self, List.mem_cons] at mem
    rcases mem with rfl | mem
    · exact bound
    · exact mtx.frames c.currp g mem
  · simp only [Core.push, update_of_ne same] at mem
    exact mtx.frames t g mem

/-- `chCondWaitS` and `chCondWaitTimeoutS` up to the sleep: the mutex is unlocked and
the frame that gets it back is left. -/
theorem AtWork.condUnlock (work : AtWork φ s s') (f : Frame) (on : φ.mtx = true) (mtx : MtxOk exact s')
    (top : s'.pMtxlist s'.currp = some mp) (mutex : f.mutex = some mp) (asks : f.asks = some .wtcond)
    (enters : ∀ fs, Enters φ f fs) :
    Asking φ .wtcond s (s'.chMtxUnlockS.onCore (.push f)) ∧ MtxOk exact (s'.chMtxUnlockS.onCore (.push f)) := by
  obtain ⟨unlocked, done⟩ := chMtxUnlockS_effect on work.ok work.zone mtx
  refine ⟨(work.step unlocked).ask f asks (enters _), MtxAt.push done fun m is => ?_⟩
  obtain ⟨_, chain⟩ := mtx.chains.head top
  have lt := (mtx.chains.bound mp _ ((chain.owned mp).1 (.head _))).1
  rw [mutex] at is
  cases is
  exact lt.trans_eq (chMtxUnlockS_frame s').2.2.symm

/-- A thread joins the waiters of a condition variable. -/
theorem SameWaits.condInsert (cp : CondId) (c : Core) : SameWaits c (Sys.condInsert cp c) :=
  ⟨rfl, rfl, fun m => by simp [Sys.condInsert, Core.prioInsert, Core.setQueue, Core.setU], fun _ _ => .inl⟩

section

variable (work : AtWork φ s s') (on : φ.mtx = true) (onCnd : φ.cnd = true) (mtx : MtxOk exact s')
include work on onCnd mtx

theorem AtWork.chCondWaitS (cp : CondId) : Effect φ s (s'.chCondWaitS cp) ∧ MtxOk exact (s'.chCondWaitS cp) := by
  rw [Sys.chCondWaitS]
  split
  · exact ⟨work.effect, mtx⟩
  next mp top =>
    obtain ⟨asking, done⟩ := work.condUnlock (.condWait mp) on mtx top rfl rfl
      fun _ => ⟨rfl, rfl, .inr ⟨rfl, nofun⟩, onCnd, by simp [Foot.keeps, on]⟩
    have sleep := asking.zone.sleepS .wtcond asking.ok asking.asks (Frame.direct_pushed rfl) onCnd
      (Joins.byPrio (q := .cQueue cp) asking.ok.sched (by simp) trivial)
    exact ⟨asking.moves sleep .core, done.congr ((SameWaits.condInsert cp _).trans (.goSleepS _ .wtcond))⟩

theorem AtWork.chCondWaitTimeoutS (cp : CondId) {time : Systime} (later : time ≠ timeImmediate) :
    Effect φ s (s'.chCondWaitTimeoutS cp time) ∧ MtxOk exact (s'.chCondWaitTimeoutS cp time) := by
  rw [Sys.chCondWaitTimeoutS]
  split
  · exact ⟨work.effect, mtx⟩
  next mp top =>
    obtain ⟨asking, done⟩ := work.condUnlock (.condWaitTimeout mp) on mtx top rfl rfl
      fun _ => ⟨rfl, rfl, .inr ⟨rfl, nofun⟩, onCnd, by simp [Foot.keeps, on]⟩
    have sleep := asking.zone.sleepTimeout .wtcond asking.ok asking.asks (Frame.indirect_pushed rfl) onCnd rfl
      (Joins.byPrio (q := .cQueue cp) asking.ok.sched (by simp) trivial) later
    exact ⟨asking.moves sleep .core, done.congr ((SameWaits.condInsert cp _).trans (.goSleepTimeoutS _ .wtcond time))⟩

/-- The mutex is locked again. -/
theorem AtWork.condWaitResume (lt : mp < s'.nmtx) (msg : Msg) :
    Effect φ s (s'.condWaitResume mp msg) ∧ MtxOk exact (s'.condWaitResume mp msg) :=
  (work.push (.retMsg msg) rfl ⟨rfl, rfl, .inr ⟨rfl, nofun⟩, rfl, rfl⟩).chMtxLockS on onCnd (MtxAt.push mtx nofun) lt

end

/-! ## Threads -/

theorem ChainsOk.create {nthd n : Nat} (ok : ChainsOk nthd o) : ChainsOk (nthd + 1) { o with
    pRealprio := update o.pRealprio nthd n
    pMtxlist := update o.pMtxlist nthd none } where
  chain t := by
    by_cases same : t = nthd
    · subst same
      refine ⟨[], update_self .., fun m => ?_, .nil⟩
      simp only [List.not_mem_nil, false_iff]
      exact fun is => Nat.lt_irrefl t (ok.bound m t is).2.1
    · obtain ⟨l, chain⟩ := ok.chain t
      exact ⟨l, chain.frame (update_of_ne same ..) (fun _ _ => rfl) (fun _ => .rfl) fun _ _ => rfl⟩
  bound m t is := by
    obtain ⟨lt, ltT, acq⟩ := ok.bound m t is
    exact ⟨lt, Nat.lt_succ_of_lt ltT, acq⟩

/-- A new thread has its own priority and no mutex. -/
theorem chThdCreateI_mtx {prio : Nat} {mode : MemMode} (sched : SchedOk s.toCore) (mtx : MtxOk exact s) (le : 1 ≤ prio) :
    MtxOk exact (s.chThdCreateI prio mode) := by
  have ltOwner : ∀ w x, Waits s.toCore s.toMutexes w x → x ≠ s.nthd := fun w x ⟨m, owns, _⟩ =>
    ne_of_lt (mtx.chains.bound m x owns).2.1
  have ltWaiter : ∀ w x, Waits s.toCore s.toMutexes w x → w ≠ s.nthd := fun w x ⟨_, _, mem⟩ =>
    ne_of_lt (sched.member _ w mem).2.2
  refine ⟨mtx.chains.create, mtx.owned, fun x => ?_, fun x _ => ?_, fun h w x waits => ?_, fun x f mem => ?_⟩
  · change 1 ≤ update s.pRealprio s.nthd prio x ∧ update s.pRealprio s.nthd prio x ≤ update s.pPrio s.nthd prio x
    by_cases same : x = s.nthd
    · subst same; simpa using le
    · simpa [same] using mtx.real x
  · change JustifiedAt (Waits s.toCore s.toMutexes) (update s.pRealprio s.nthd prio) (update s.pPrio s.nthd prio) x
    by_cases same : x = s.nthd
    · subst same; exact .inl (by simp)
    · rcases mtx.justified x nofun with le | ⟨w, waits, le⟩
      · exact .inl (by simpa [same] using le)
      · exact .inr ⟨w, waits, by simpa [same, ltWaiter w x waits] using le⟩
  · change update s.pPrio s.nthd prio w ≤ update s.pPrio s.nthd prio x
    rw [update_of_ne (ltWaiter w x waits), update_of_ne (ltOwner w x waits)]
    exact mtx.honoured h w x waits
  · replace mem : f ∈ update s.pCtx s.nthd [.sysUnlock] x := mem
    by_cases same : x = s.nthd
    · subst same
      rw [update_self, List.mem_singleton] at mem
      subst mem
      nofun
    · rw [update_of_ne same] at mem
      exact mtx.frames x f mem

/-- A thread changes its own priority: after that its waiters may be above it. -/
theorem MtxAt.setReal {r : Nat} (mtx : MtxAt exact none c o) (inexact : ¬ exact)
    (free : ∀ m, t ∉ c.queue (.mQueue m)) (nthd : c'.nthd = c.nthd) (prio : c'.pPrio = update c.pPrio t n)
    (queue : c'.queue = c.queue) (ctx : c'.pCtx = c.pCtx) (pos : 1 ≤ r) (le : r ≤ n)
    (justified : n ≤ r ∨ ∃ w, Waits c o w t ∧ n ≤ c.pPrio w) :
    MtxAt exact none c' { o with pRealprio := update o.pRealprio t r } := by
  have notWaiter : ∀ w x, Waits c o w x → w ≠ t := fun w x ⟨m, _, mem⟩ => ne_of_mem_of_not_mem mem (free m)
  have waits : Waits c' { o with pRealprio := update o.pRealprio t r } = Waits c o := by
    funext w x
    unfold Waits
    rw [queue]
  have chains : ChainsOk c.nthd { o with pRealprio := update o.pRealprio t r } :=
    ⟨fun x => (mtx.chains.chain x).imp fun l chain => ⟨chain.seg, chain.owned, chain.recent⟩, mtx.chains.bound⟩
  refine ⟨nthd ▸ chains, queue ▸ mtx.owned, fun x => ?_, fun x _ => ?_, fun h => absurd h inexact, ctx ▸ mtx.frames⟩
  · by_cases same : x = t
    · subst same; simpa [prio] using ⟨pos, le⟩
    · simpa [prio, same] using mtx.real x
  · rw [waits, prio]
    by_cases same : x = t
    · subst same
      refine justified.imp (by simp) fun ⟨w, isWaiter, le⟩ => ⟨w, isWaiter, ?_⟩
      simpa [notWaiter w x isWaiter] using le
    · refine (mtx.justified x nofun).imp (by simp [same]) fun ⟨w, isWaiter, le⟩ => ⟨w, isWaiter, ?_⟩
      simpa [same, notWaiter w x isWaiter] using le

theorem chThdSetPriority_mtx {newprio : Nat} (sched : SchedOk s.toCore) (mtx : MtxOk exact s) (inexact : ¬ exact)
    (pos : 1 ≤ newprio) : MtxOk exact (s.chThdSetPriority newprio) := by
  have free : ∀ m, s.currp ∉ s.enter.queue (.mQueue m) := fun m => sched.currp_not_mem _
  unfold chThdSetPriority zone
  dsimp only
  split
  · refine congr ?_ (.rescheduleS _)
    exact setReal mtx.enter inexact free rfl rfl rfl rfl pos le_rfl (.inl le_rfl)
  next keeps =>
    obtain ⟨boosted, le⟩ := not_or.1 keeps
    refine congr ?_ (.rescheduleS _)
    refine setReal mtx.enter inexact free rfl (update_eq_self ..).symm rfl rfl pos (not_lt.1 le)
      (.inr ?_)
    rcases mtx.enter.justified s.currp nofun with le | waiter
    · exact absurd (Nat.le_antisymm le (mtx.enter.real s.currp).2) boosted
    · exact waiter

end ChibiOS.Kernel
