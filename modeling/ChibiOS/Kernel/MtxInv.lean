import ChibiOS.Kernel.ObjectEffects
import ChibiOS.Lib.Inheritance
import ChibiOS.Lib.Seg

/-!
# Mutexes: ownership and inherited priorities

Ownership is recorded twice, in `m_owner` and in the chain of the owner, and
`ChainsOk` says that the two agree. `MtxAt` adds the waiters: a thread above its own
priority has one that justifies it, on a mutex it owns. That no waiter is above
the owner holds only as long as no thread changes its own priority, so it is
under the condition `exact`.
-/

namespace ChibiOS.Kernel

open Function (update update_self update_of_ne)
open Lib

/-! ## Chains -/

/-- The chain of thread `t`: its mutexes, the last acquired first. -/
structure Chain (o : Mutexes) (t : Tid) (l : List MtxId) : Prop where
  seg : Seg o.mNext (o.pMtxlist t) l none
  owned : ∀ m, m ∈ l ↔ o.mOwner m = some t
  recent : l.Pairwise fun m m' => o.mAcq m' < o.mAcq m

structure ChainsOk (nthd : Nat) (o : Mutexes) : Prop where
  chain : ∀ t, ∃ l, Chain o t l
  bound : ∀ m t, o.mOwner m = some t → m < o.nmtx ∧ t < nthd ∧ o.mAcq m < o.acqs

variable {nthd : Nat} {o : Mutexes} {t u : Tid} {m : MtxId} {l : List MtxId}

theorem Chain.nodup (chain : Chain o t l) : l.Nodup :=
  chain.recent.imp fun {a b} lt same => by subst same; exact absurd lt (lt_irrefl _)

/-- What does not touch the mutexes of a chain leaves it. -/
theorem Chain.frame {o' : Mutexes} (chain : Chain o t l) (list : o'.pMtxlist t = o.pMtxlist t)
    (next : ∀ m ∈ l, o'.mNext m = o.mNext m) (owner : ∀ m, o'.mOwner m = some t ↔ o.mOwner m = some t)
    (acq : ∀ m ∈ l, o'.mAcq m = o.mAcq m) : Chain o' t l where
  seg := list ▸ chain.seg.frame next
  owned m := (chain.owned m).trans (owner m).symm
  recent := chain.recent.imp_of_mem fun {a b} left right lt => by rwa [acq a left, acq b right]

/-- The first mutex of a chain. -/
theorem ChainsOk.head (ok : ChainsOk nthd o) (first : o.pMtxlist t = some m) : ∃ l, Chain o t (m :: l) := by
  obtain ⟨l, chain⟩ := ok.chain t
  cases l with
  | nil =>
    have : o.pMtxlist t = none := chain.seg
    cases first.symm.trans this
  | cons m' l =>
    have : o.pMtxlist t = some m' := chain.seg.1
    cases first.symm.trans this
    exact ⟨l, chain⟩

/-- The first mutex of the chain of `t` leaves it, and is free. -/
def Mutexes.release (m : MtxId) (t : Tid) (o : Mutexes) : Mutexes :=
  { o with
    pMtxlist := update o.pMtxlist t (o.mNext m)
    mOwner := update o.mOwner m none }

theorem Chain.own (chain : Chain o t l) (free : o.mOwner m = none) (acqs : ∀ m ∈ l, o.mAcq m < o.acqs) :
    Chain (o.own m t) t (m :: l) := by
  have others : ∀ m' ∈ l, m' ≠ m := fun m' mem same => by
    rw [same, chain.owned, free] at mem
    cases mem
  refine ⟨⟨by simp [Mutexes.own], ?_⟩, fun m' => ?_, List.pairwise_cons.2 ⟨fun m' mem => ?_, ?_⟩⟩
  · simp only [Mutexes.own, update_self]
    exact chain.seg.frame fun m' mem => update_of_ne (others m' mem) _ _
  · simp only [Mutexes.own, List.mem_cons, chain.owned]
    by_cases same : m' = m <;> simp [same]
  · simp only [Mutexes.own, update_self, update_of_ne (others m' mem)]
    exact acqs m' mem
  · refine chain.recent.imp_of_mem fun {a b} left right lt => ?_
    simpa only [Mutexes.own, update_of_ne (others a left), update_of_ne (others b right)] using lt

/-- The chain of another thread. -/
theorem Chain.own_of_ne (chain : Chain o u l) (free : o.mOwner m = none) (other : u ≠ t) : Chain (o.own m t) u l := by
  have others : ∀ m' ∈ l, m' ≠ m := fun m' mem same => by
    rw [same, chain.owned, free] at mem
    cases mem
  refine chain.frame (update_of_ne other ..) (fun m' mem => update_of_ne (others m' mem) _ _)
    (fun m' => ?_) fun m' mem => update_of_ne (others m' mem) _ _
  by_cases same : m' = m
  · subst same; simp [Mutexes.own, free, other.symm]
  · simp [Mutexes.own, same]

theorem Chain.release (chain : Chain o t (m :: l)) : Chain (o.release m t) t l := by
  have notMem : m ∉ l := (List.nodup_cons.1 chain.nodup).1
  refine ⟨by simpa [Mutexes.release] using chain.seg.2, fun m' => ?_, (List.pairwise_cons.1 chain.recent).2⟩
  by_cases same : m' = m
  · subst same; simp [Mutexes.release, notMem]
  · simpa [Mutexes.release, same] using chain.owned m'

theorem Chain.release_of_ne (chain : Chain o u l) (isOwner : o.mOwner m = some t) (other : u ≠ t) :
    Chain (o.release m t) u l := by
  refine chain.frame (update_of_ne other ..) (fun _ _ => rfl) (fun m' => ?_) fun _ _ => rfl
  by_cases same : m' = m
  · subst same; simp [Mutexes.release, isOwner, other.symm]
  · simp [Mutexes.release, same]

theorem ChainsOk.own (ok : ChainsOk nthd o) (free : o.mOwner m = none) (lt : m < o.nmtx) (ltT : t < nthd) :
    ChainsOk nthd (o.own m t) where
  chain x := by
    obtain ⟨l, chain⟩ := ok.chain x
    by_cases same : x = t
    · subst same
      exact ⟨m :: l, chain.own free fun m' mem => (ok.bound m' x ((chain.owned m').1 mem)).2.2⟩
    · exact ⟨l, chain.own_of_ne free same⟩
  bound m' x is := by
    by_cases same : m' = m
    · subst same
      simp only [Mutexes.own, update_self, Option.some.injEq] at is ⊢
      exact ⟨lt, is ▸ ltT, lt_add_one _⟩
    · simp only [Mutexes.own, update_of_ne same] at is ⊢
      obtain ⟨lt, ltX, acq⟩ := ok.bound m' x is
      exact ⟨lt, ltX, Nat.lt_succ_of_lt acq⟩

theorem ChainsOk.release (ok : ChainsOk nthd o) (first : o.pMtxlist t = some m) : ChainsOk nthd (o.release m t) where
  chain x := by
    obtain ⟨k, chainT⟩ := ok.head first
    by_cases same : x = t
    · subst same
      exact ⟨k, chainT.release⟩
    · obtain ⟨l, chain⟩ := ok.chain x
      exact ⟨l, chain.release_of_ne ((chainT.owned m).1 (.head _)) same⟩
  bound m' x is := by
    by_cases same : m' = m
    · subst same; simp [Mutexes.release] at is
    · simp only [Mutexes.release, update_of_ne same] at is
      exact ok.bound m' x is

/-- A chain is not longer than there are mutexes. -/
theorem ChainsOk.length_le (ok : ChainsOk nthd o) (chain : Chain o t l) : l.length ≤ o.nmtx := by
  have sub : l ⊆ List.range o.nmtx := fun m mem =>
    List.mem_range.2 (ok.bound m t ((chain.owned m).1 mem)).1
  simpa using (chain.nodup.subperm sub).length_le

/-! ## Waiters -/

/-- Thread `w` waits for a mutex of `t`. -/
def Waits (c : Core) (o : Mutexes) (w t : Tid) : Prop := ∃ m, o.mOwner m = some t ∧ w ∈ c.queue (.mQueue m)

/-- The mutex that a wait for a condition variable has to get back. -/
def Frame.mutex : Frame → Option MtxId
  | condWait m | condWaitTimeout m => some m
  | _ => none

/-- The mutexes are in order; the priority of `out` may be one that its waiters no
longer justify. -/
structure MtxAt (exact : Prop) (out : Option Tid) (c : Core) (o : Mutexes) : Prop where
  chains : ChainsOk c.nthd o
  owned : ∀ m, c.queue (.mQueue m) ≠ [] → ∃ t, o.mOwner m = some t
  real : ∀ t, 1 ≤ o.pRealprio t ∧ o.pRealprio t ≤ c.pPrio t
  justified : ∀ t, out ≠ some t → JustifiedAt (Waits c o) o.pRealprio c.pPrio t
  honoured : exact → Honoured (Waits c o) c.pPrio
  frames : ∀ t, ∀ f ∈ c.pCtx t, ∀ m ∈ f.mutex, m < o.nmtx

/-- What `MtxAt` reads of `Core` is the same. -/
structure SameWaits (c c' : Core) : Prop where
  nthd : c'.nthd = c.nthd
  prio : c'.pPrio = c.pPrio
  queue : ∀ m, c'.queue (.mQueue m) = c.queue (.mQueue m)
  frames : ∀ t, ∀ f ∈ c'.pCtx t, f ∈ c.pCtx t ∨ f.mutex = none

section

variable {exact : Prop} {out : Option Tid} {c c' c'' : Core} {o o' : Mutexes} {t u : Tid} {m : MtxId} {l : List Tid}

theorem SameWaits.trans (left : SameWaits c c') (right : SameWaits c' c'') : SameWaits c c'' :=
  ⟨right.nthd.trans left.nthd, right.prio.trans left.prio, fun m => (right.queue m).trans (left.queue m),
    fun t f mem => (right.frames t f mem).elim (left.frames t f) .inr⟩

section

variable (ok : MtxAt exact out c o)
include ok

theorem MtxAt.congr (same : SameWaits c c') : MtxAt exact out c' o := by
  have waits : Waits c' o = Waits c o := by
    funext w t
    simp only [Waits, same.queue]
  refine ⟨same.nthd ▸ ok.chains, fun m => same.queue m ▸ ok.owned m, same.prio ▸ ok.real, ?_, ?_, ?_⟩
  · rw [waits, same.prio]; exact ok.justified
  · rw [waits, same.prio]; exact ok.honoured
  · intro t f mem m is
    rcases same.frames t f mem with old | none
    · exact ok.frames t f old m is
    · cases none.symm.trans is

/-- Who owns a mutex that nobody waits for is nobody's concern. -/
theorem MtxAt.unwaited (chains : ChainsOk c.nthd o') (empty : c.queue (.mQueue m) = [])
    (owner : ∀ m', m' ≠ m → o'.mOwner m' = o.mOwner m') (real : o'.pRealprio = o.pRealprio) (nmtx : o'.nmtx = o.nmtx) :
    MtxAt exact out c o' := by
  have waits : Waits c o' = Waits c o := by
    funext w t
    refine propext (exists_congr fun m' => ?_)
    by_cases same : m' = m
    · subst same; simp [empty]
    · rw [owner m' same]
  refine ⟨chains, fun m' waited => ?_, real ▸ ok.real, ?_, ?_, nmtx ▸ ok.frames⟩
  · rw [owner m' fun same => waited (same ▸ empty)]
    exact ok.owned m' waited
  · rw [waits, real]; exact ok.justified
  · rw [waits]; exact ok.honoured

theorem MtxAt.own (free : o.mOwner m = none) (lt : m < o.nmtx) (ltT : t < c.nthd) :
    MtxAt exact out c (o.own m t) := by
  refine ok.unwaited (ok.chains.own free lt ltT) ?_ (fun m' other => update_of_ne other ..) rfl rfl
  by_contra waited
  obtain ⟨t, isOwner⟩ := ok.owned m waited
  cases free.symm.trans isOwner

theorem MtxAt.release (first : o.pMtxlist t = some m) (empty : c.queue (.mQueue m) = []) :
    MtxAt exact out c (o.release m t) :=
  ok.unwaited (ok.chains.release first) empty (fun _ other => update_of_ne other ..) rfl rfl

/-- The first waiter gets the mutex, and with it the waiters behind. The priority
of the thread that had it is now to be set. -/
theorem MtxAt.handOver (sched : SchedOk c) (outside : ∀ t, out = some t → t = u)
    (first : o.pMtxlist u = some m) (waiters : c.queue (.mQueue m) = t :: l) :
    MtxAt exact (some u) (c.setQueue (.mQueue m) l) ((o.release m u).own m t) := by
  obtain ⟨_, chain⟩ := ok.chains.head first
  have isOwner : o.mOwner m = some u := (chain.owned m).1 (.head _)
  have mem : t ∈ c.queue (.mQueue m) := by rw [waiters]; exact .head _
  have owner : ∀ m', m' ≠ m → ((o.release m u).own m t).mOwner m' = o.mOwner m' := fun m' other =>
    (update_of_ne other ..).trans (update_of_ne other ..)
  have queue : ∀ m', m' ≠ m → (c.setQueue (.mQueue m) l).queue (.mQueue m') = c.queue (.mQueue m') := fun m' other =>
    update_of_ne (by simpa using other) ..
  refine ⟨(ok.chains.release first).own (update_self ..) (ok.chains.bound m u isOwner).1
    (sched.member _ t mem).2.2, fun m' waited => ?_, ok.real, fun x notOut => ?_, fun on w x waits => ?_, ok.frames⟩
  · by_cases same : m' = m
    · subst same
      exact ⟨t, update_self ..⟩
    · rw [owner m' same]
      rw [queue m' same] at waited
      exact ok.owned m' waited
  · have other : x ≠ u := fun same => notOut (same ▸ rfl)
    refine (ok.justified x fun is => other (outside x is)).mono (fun w ⟨m', owns, isWaiter⟩ => ⟨⟨m', ?_, ?_⟩, ?_⟩) rfl
    · rwa [owner m' fun same => other (Option.some.inj (owns.symm.trans (same ▸ isOwner)))]
    · rwa [queue m' fun same => other (Option.some.inj (owns.symm.trans (same ▸ isOwner)))]
    · exact le_rfl
  · obtain ⟨m', owns, isWaiter⟩ := waits
    by_cases same : m' = m
    · subst same
      have is : t = x := by simpa [Mutexes.own] using owns
      have sorted := sched.sorted (.mQueue m') rfl
      rw [waiters] at sorted
      simp only [Core.setQueue, update_self] at isWaiter
      exact is ▸ sorted.le_head (List.mem_cons_of_mem t isWaiter)
    · rw [owner m' same] at owns
      rw [queue m' same] at isWaiter
      exact ok.honoured on w x ⟨m', owns, isWaiter⟩

end

/-- The priority of a thread that waits for no mutex is set to what its own and its
waiters' give it. -/
theorem MtxAt.setPrio {n : Nat} (ok : MtxAt exact (some u) c o) (free : ∀ m, u ∉ c.queue (.mQueue m))
    (own : o.pRealprio u ≤ n) (justified : JustifiedAt (Waits c o) o.pRealprio (update c.pPrio u n) u)
    (honoured : exact → ∀ w, Waits c o w u → c.pPrio w ≤ n) :
    MtxAt exact none { c with pPrio := update c.pPrio u n, due := true } o := by
  have notWaiter : ∀ w x, Waits c o w x → w ≠ u := fun w x ⟨m, _, mem⟩ => ne_of_mem_of_not_mem mem (free m)
  refine ⟨ok.chains, ok.owned, fun x => ?_, fun x _ => ?_, fun on w x waits => ?_, ok.frames⟩
  · by_cases same : x = u
    · subst same
      simpa using ⟨(ok.real x).1, own⟩
    · simpa [same] using ok.real x
  · by_cases same : x = u
    · subst same; exact justified
    · refine (ok.justified x fun is => same (Option.some.inj is).symm).mono (fun w waits => ⟨waits, ?_⟩)
        (update_of_ne same ..)
      simp [notWaiter w x waits]
  · change update c.pPrio u n w ≤ update c.pPrio u n x
    rw [update_of_ne (notWaiter w x waits)]
    by_cases same : x = u
    · subst same
      rw [update_self]
      exact honoured on w waits
    · rw [update_of_ne same]
      exact ok.honoured on w x waits

/-- The waiters of the running thread, after the mutex `m` has gone: on the rest of
its chain. -/
theorem MtxAt.waits_handed {k : List MtxId} {w : Tid} (chain : Chain o u (m :: k)) (other : t ≠ u) :
    Waits (c.setQueue (.mQueue m) l) ((o.release m u).own m t) w u ↔ ∃ m' ∈ k, w ∈ c.queue (.mQueue m') := by
  have notMem : m ∉ k := (List.nodup_cons.1 chain.nodup).1
  refine exists_congr fun m' => ?_
  by_cases same : m' = m
  · subst same
    simp [Mutexes.own, notMem, other]
  · have := chain.owned m'
    simp only [List.mem_cons, same, false_or] at this
    simp [Mutexes.own, Mutexes.release, Core.setQueue, same, this]

end

/-! ## The scan of `chMtxUnlock` -/

/-- It finds the highest of `n` and the priorities waiting on the chain. -/
structure Scanned (c : Core) (l : List MtxId) (n r : Nat) : Prop where
  ge : n ≤ r
  bound : ∀ m ∈ l, ∀ w ∈ c.queue (.mQueue m), c.pPrio w ≤ r
  attained : r = n ∨ ∃ m ∈ l, ∃ w ∈ c.queue (.mQueue m), r = c.pPrio w

theorem Scanned.cons {c : Core} {m : MtxId} {l : List MtxId} {n n' r : Nat} (head : Scanned c [m] n n')
    (tail : Scanned c l n' r) : Scanned c (m :: l) n r where
  ge := head.ge.trans tail.ge
  bound m' mem w waits := by
    rcases List.mem_cons.1 mem with rfl | mem
    · exact (head.bound m' (List.mem_singleton_self m') w waits).trans tail.ge
    · exact tail.bound m' mem w waits
  attained := by
    rcases tail.attained with rfl | ⟨m', mem, w, waits, is⟩
    · rcases head.attained with is | ⟨m', mem, w, waits, is⟩
      · exact .inl is
      · exact .inr ⟨m', List.mem_cons.2 (.inl (List.mem_singleton.1 mem)), w, waits, is⟩
    · exact .inr ⟨m', List.mem_cons_of_mem m mem, w, waits, is⟩

theorem scanOwned_spec {s : Sys} (sched : SchedOk s.toCore) : ∀ (l : List MtxId) (p : Option MtxId) (n fuel : Nat),
    Seg s.mNext p l none → l.length ≤ fuel → Scanned s.toCore l n (s.scanOwned fuel p n)
  | [], p, n, fuel, seg, _ => by
    obtain rfl : p = none := seg
    cases fuel <;> exact ⟨le_refl n, nofun, .inl rfl⟩
  | m :: l, p, n, fuel + 1, ⟨first, seg⟩, le => by
    subst first
    refine Scanned.cons ?_ (scanOwned_spec sched l _ _ fuel seg (Nat.le_of_succ_le_succ le))
    -- the first waiter is the highest
    have sorted := sched.sorted (.mQueue m) rfl
    cases waiters : s.queue (.mQueue m) with
    | nil => exact ⟨le_refl n, by simp [waiters], .inl rfl⟩
    | cons t k =>
      rw [waiters] at sorted
      have top : ∀ w ∈ s.queue (.mQueue m), s.pPrio w ≤ s.pPrio t := fun w mem => sorted.le_head (waiters ▸ mem)
      dsimp only
      split
      · rename_i lt
        exact ⟨lt.le, by simpa using top, .inr ⟨m, by simp, t, by simp [waiters], rfl⟩⟩
      · rename_i ge
        exact ⟨le_refl n, by simpa using fun w mem => (top w mem).trans (not_lt.1 ge), .inl rfl⟩

end ChibiOS.Kernel
