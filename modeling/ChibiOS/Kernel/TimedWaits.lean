import ChibiOS.Kernel.Scheduling

/-!
# Timed waits in every run

A timed sleep may be ended by its timer, by a signal, a reset or a broadcast, and
the timer's callback may come late: after the timer has been unlinked, while other
handlers run before the callback takes the lock. In every run the thread leaves
its wait once, and the message it returns with says who ended it.
-/

namespace ChibiOS.Kernel

open Lib

variable {cfg : Config} {s : Sys} {t : Tid} {h : List WaitEvent} {p q : Phase} {e : WaitEvent}

/-- The history of one thread's waits, newest first. -/
def waitsOf (t : Tid) (h : List WaitEvent) : List WaitEvent := h.filter (·.thread = t)

/-! ## Reading a history by its phases -/

theorem phase_waitsOf : ∀ h : List WaitEvent, phase t (waitsOf t h) = phase t h
  | [] => rfl
  | e :: h => by
    by_cases same : e.thread = t
    · rw [waitsOf, List.filter_cons_of_pos (by simpa using same), phase, phase, ← phase_waitsOf h, waitsOf]
    · rw [waitsOf, List.filter_cons_of_neg (by simpa using same), phase_of_ne same, ← phase_waitsOf h, waitsOf]

/-- The step that the newest event made. -/
theorem phase_cons (own : e.thread = t) (is : phase t (e :: h) = some p) :
    ∃ q, phase t h = some q ∧ q.next e = some p := by
  rw [phase, Option.bind_eq_some_iff] at is
  obtain ⟨q, was, next⟩ := is
  rw [if_pos own] at next
  exact ⟨q, was, next⟩

theorem phase_append {k : List WaitEvent} (is : phase t (h ++ k) = some p) : ∃ q, phase t k = some q := by
  induction h generalizing p with
  | nil => exact ⟨p, is⟩
  | cons e h ih =>
    rw [List.cons_append, phase, Option.bind_eq_some_iff] at is
    obtain ⟨q, was, -⟩ := is
    exact ih was

/-- The newest event of a thread's own history, and the phase before it. -/
theorem phase_head (own : ∀ e ∈ h, e.thread = t) (is : phase t h = some p) (begun : p ≠ .awake) :
    ∃ e k q, h = e :: k ∧ e.thread = t ∧ phase t k = some q ∧ q.next e = some p := by
  cases h with
  | nil => exact absurd (Option.some.inj is).symm begun
  | cons e k =>
    have mine := own e (.head _)
    obtain ⟨q, was, next⟩ := phase_cons mine is
    exact ⟨e, k, q, rfl, mine, was, next⟩

theorem Phase.next_asleep (next : q.next e = some .asleep) : e = .sleep e.thread := by
  cases q <;> cases e <;> simp_all [Phase.next, WaitEvent.thread]

theorem Phase.next_late (next : q.next e = some .late) : q = .asleep ∧ e = .timeout e.thread := by
  cases q <;> cases e <;> simp_all [Phase.next, WaitEvent.thread]

theorem Phase.next_woken {byTimer : Bool} (next : q.next e = some (.woken byTimer)) :
    q = (if byTimer then .late else .asleep) ∧ e = .wake e.thread := by
  cases q <;> cases e <;> simp_all [Phase.next, WaitEvent.thread]

theorem Phase.next_ret {t : Tid} {m : Msg} (next : q.next (.ret t m) = some p) :
    q = .woken (decide (m = rdyTimeout)) := by
  cases q <;> simp_all [Phase.next]

/-- How a timed sleep began that is not yet over. -/
theorem asleep_history (own : ∀ e ∈ h, e.thread = t) (is : phase t h = some .asleep) : ∃ k, h = .sleep t :: k := by
  obtain ⟨e, k, q, rfl, mine, -, next⟩ := phase_head own is nofun
  exact ⟨k, by rw [← mine, ← Phase.next_asleep next]⟩

/-- How it was ended. -/
theorem woken_history {byTimer : Bool} (own : ∀ e ∈ h, e.thread = t) (is : phase t h = some (.woken byTimer)) :
    ∃ k, h = if byTimer then .wake t :: .timeout t :: .sleep t :: k else .wake t :: .sleep t :: k := by
  obtain ⟨e, k, q, rfl, mine, was, next⟩ := phase_head own is nofun
  have ownK : ∀ e ∈ k, e.thread = t := fun e mem => own e (.tail _ mem)
  obtain ⟨rfl, isWake⟩ := Phase.next_woken next
  rw [mine] at isWake
  subst isWake
  cases byTimer with
  | false =>
    obtain ⟨k', rfl⟩ := asleep_history ownK was
    exact ⟨k', rfl⟩
  | true =>
    obtain ⟨e, k', q, rfl, mine', was', next'⟩ := phase_head ownK was nofun
    obtain ⟨rfl, isTimeout⟩ := Phase.next_late next'
    rw [mine'] at isTimeout
    subst isTimeout
    obtain ⟨k'', rfl⟩ := asleep_history (fun e mem => ownK e (.tail _ mem)) was'
    exact ⟨k'', rfl⟩

/-- A timed sleep that returned `m` was ended once: by the timer exactly when `m` is
`RDY_TIMEOUT`. -/
theorem ret_history {h' k : List WaitEvent} {m : Msg} (is : phase t h = some p)
    (split : waitsOf t h = h' ++ .ret t m :: k) :
    (m = rdyTimeout ∧ ∃ k', k = .wake t :: .timeout t :: .sleep t :: k') ∨
      (m ≠ rdyTimeout ∧ ∃ k', k = .wake t :: .sleep t :: k') := by
  have own : ∀ e ∈ waitsOf t h, e.thread = t := fun e mem => by simpa using (List.mem_filter.1 mem).2
  rw [← phase_waitsOf, split] at is
  obtain ⟨q, is⟩ := phase_append is
  obtain ⟨q', was, next⟩ := phase_cons (e := .ret t m) rfl is
  obtain rfl := Phase.next_ret next
  obtain ⟨k', shape⟩ := woken_history (fun e mem => own e (by simp [split, mem])) was
  by_cases late : m = rdyTimeout
  · exact .inl ⟨late, k', by simpa [late] using shape⟩
  · exact .inr ⟨late, k', by simpa [late] using shape⟩

/-! ## The theorem -/

/-- The waits of every thread have a phase: begun, ended once, and returned from. A
returned message is `RDY_TIMEOUT` exactly if the timer's callback ended the sleep. A
ready thread is in no wait queue. Outside `chSchGoSleepTimeoutS` the thread's timer is
off and its callback not on the way. -/
theorem timed_wait_resolves_once (reached : (kernelLts cfg).Reach (fun _ _ => True) s) (t : Tid) :
    (∃ p, phase t s.hist = some p ∧ PhaseOk t s.toCore p) ∧
    (∀ h m k, waitsOf t s.hist = h ++ .ret t m :: k →
      (m = rdyTimeout ∧ ∃ k', k = .wake t :: .timeout t :: .sleep t :: k') ∨
        (m ≠ rdyTimeout ∧ ∃ k', k = .wake t :: .sleep t :: k')) ∧
    (s.pState t = .ready → ∀ q, q ≠ .rQueue → t ∉ s.queue q) ∧
    (.goSleepTimeout ∉ s.pCtx t → ¬ s.toCore.Armed t ∧ ¬ s.toCore.Pending t) := by
  have ok : KernelOk False s := reach_kernelOk (fun _ _ _ => nofun) reached
  obtain ⟨p, is, phase⟩ := ok.core.timed.thread t
  refine ⟨⟨p, is, phase⟩, fun h m k split => ret_history is split, fun ready q notReady mem => ?_, fun returned => ?_⟩
  · exact notReady (ok.core.sched.unique _ _ t mem ((ok.core.sched.mem_ready_iff t).2 ready))
  · have notIn : ¬ InSleep (s.pCtx t) := fun inSleep => returned (List.mem_of_mem_head? inSleep)
    obtain rfl := phase.eq_awake notIn
    cases phase with
    | awake _ off notPending => exact ⟨off, notPending⟩

/-- A handler signals the semaphore between the expiry of the timer and its callback,
which then does nothing. -/
theorem timed_wait_resolves_once_race : ∃ s,
    (kernelLts smallConfig).run [.call (.thdCreate 70 .static), .run, .call (.semWaitTimeout 0 1), .run, .tick, .isrEnter,
      .icall (.semSignalI 0), .isrExit, .callback, .tickLoop, .isrExit, .run] (chSysInit smallConfig) = some s ∧
    waitsOf 2 s.hist = [.ret 2 rdyOk, .wake 2, .sleep 2, .wake 2] ∧ ¬ s.toCore.Armed 2 ∧ ¬ s.toCore.Pending 2 :=
  Lts.exists_run (by rfl) rfl fun reached => ⟨rfl, (timed_wait_resolves_once reached 2).2.2.2 (by decide)⟩

end ChibiOS.Kernel
