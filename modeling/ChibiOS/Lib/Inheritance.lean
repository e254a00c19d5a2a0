import Mathlib.Data.Finset.Card
import Mathlib.Logic.Function.Basic
import Mathlib.Order.Bounds.Basic
import Mathlib.Tactic.Common

/-!
# Priority inheritance

`waits w t` says that `w` waits for something that `t` holds. Every thread has a
priority of its own, `real`, and one that it runs at, `prio`, which is to be the
highest of its own and of those of its waiters. The two halves of that are
`Justified` (not higher) and `Honoured` (not lower).

A new waiter is honoured by a walk along the threads that wait for each other:
`Boosting` is its invariant. The walk may come back to a thread it has raised,
and stops there.
-/

namespace ChibiOS.Lib

open Function

variable {α : Type} {waits waits' : α → α → Prop} {real prio : α → Nat} {p : Nat} {t u : α}

/-- A thread above its own priority has a waiter as high as it is. -/
def JustifiedAt (waits : α → α → Prop) (real prio : α → Nat) (t : α) : Prop :=
  prio t ≤ real t ∨ ∃ w, waits w t ∧ prio t ≤ prio w

/-- No thread is below a waiter of its own. -/
def Honoured (waits : α → α → Prop) (prio : α → Nat) : Prop := ∀ w t, waits w t → prio w ≤ prio t

/-- The two halves, and that priorities are never below the thread's own, make the
priority the highest. -/
theorem JustifiedAt.isGreatest (justified : JustifiedAt waits real prio t) (own : real t ≤ prio t)
    (honoured : Honoured waits prio) : IsGreatest (insert (real t) (prio '' {w | waits w t})) (prio t) := by
  constructor
  · rcases justified with le | ⟨w, waits, le⟩
    · exact .inl (le_antisymm le own)
    · exact .inr ⟨w, waits, le_antisymm (honoured w t waits) le⟩
  · rintro q (rfl | ⟨w, waits, rfl⟩)
    · exact own
    · exact honoured w t waits

/-- Higher waiters, and more of them, justify no less. -/
theorem JustifiedAt.mono {prio' : α → Nat} (justified : JustifiedAt waits real prio t)
    (more : ∀ w, waits w t → waits' w t ∧ prio w ≤ prio' w) (same : prio' t = prio t) : JustifiedAt waits' real prio' t := by
  rcases justified with le | ⟨w, isWaiter, le⟩
  · exact .inl (same ▸ le)
  · obtain ⟨still, higher⟩ := more w isWaiter
    exact .inr ⟨w, still, same ▸ le.trans higher⟩

/-- The walk is at `t`: only the waiters of `t` are not honoured, and they are not
above `p`, which one of them reaches. -/
structure Boosting (waits : α → α → Prop) (real prio : α → Nat) (p : Nat) (t : α) : Prop where
  justified : ∀ t, JustifiedAt waits real prio t
  waiter : ∃ w, waits w t ∧ p ≤ prio w

/-- What is still to be honoured. -/
def HonouredBut (waits : α → α → Prop) (prio : α → Nat) (p : Nat) (t : α) : Prop :=
  ∀ w t', waits w t' → prio w ≤ prio t' ∨ t' = t ∧ prio w ≤ p

section

variable [DecidableEq α]

/-- Raising a thread to the priority of its waiter. -/
theorem Boosting.raise (boosting : Boosting waits real prio p t) (lt : prio t < p) (t' : α) :
    JustifiedAt waits real (update prio t p) t' := by
  by_cases same : t' = t
  · subst same
    obtain ⟨w, isWaiter, le⟩ := boosting.waiter
    refine .inr ⟨w, isWaiter, ?_⟩
    rw [update_self]
    exact le.trans (le_update_self_iff.2 lt.le w)
  · exact (boosting.justified t').mono (fun w isWaiter => ⟨isWaiter, le_update_self_iff.2 lt.le w⟩) (update_of_ne same ..)

/-- It goes on to the thread that the raised one waits for. -/
theorem Boosting.next (boosting : Boosting waits real prio p t) (lt : prio t < p) (isWaiter : waits t u) :
    Boosting waits real (update prio t p) p u :=
  ⟨boosting.raise lt, t, isWaiter, by rw [update_self]⟩

section

variable (honoured : HonouredBut waits prio p t) (lt : prio t < p)
include honoured lt

/-- The walk has done its part of the waits into `t`. -/
theorem HonouredBut.raise {w t' : α} (isWaiter : waits w t')
    (other : w ≠ t) : update prio t p w ≤ update prio t p t' := by
  rw [update_of_ne other]
  rcases honoured w t' isWaiter with le | ⟨rfl, le⟩
  · exact le.trans (le_update_self_iff.2 lt.le t')
  · rwa [update_self]

theorem HonouredBut.next (only : ∀ t', waits t t' → t' = u) : HonouredBut waits (update prio t p) p u := by
  intro w t' isWaiter
  by_cases same : w = t
  · subst same
    exact .inr ⟨only t' isWaiter, by rw [update_self]⟩
  · exact .inl (honoured.raise lt isWaiter same)

/-- It ends at a thread that does not wait. -/
theorem HonouredBut.last (free : ∀ t', ¬ waits t t') : Honoured waits (update prio t p) := by
  intro w t' isWaiter
  refine honoured.raise lt isWaiter ?_
  rintro rfl
  exact free t' isWaiter

end

end

/-- It ends at a thread that is as high already. -/
theorem HonouredBut.stop (honoured : HonouredBut waits prio p t) (le : p ≤ prio t) : Honoured waits prio := by
  intro w t' isWaiter
  rcases honoured w t' isWaiter with le' | ⟨rfl, le'⟩
  · exact le'
  · exact le'.trans le

/-! ## The walk -/

section

variable [DecidableEq α] {next : α → Option α} {os : List α}

/-- The threads that a walk from `t` raises to `p`, in order: it stops before a thread
that is as high, one that it has raised itself included, and behind one that does not
wait. -/
inductive RaiseChain (next : α → Option α) (p : Nat) : (α → Nat) → α → List α → Prop
  | stop (prio : α → Nat) (t : α) : p ≤ prio t → RaiseChain next p prio t []
  | last (prio : α → Nat) (t : α) : prio t < p → next t = none → RaiseChain next p prio t [t]
  | step (prio : α → Nat) (t u : α) (os : List α) : prio t < p → next t = some u →
      RaiseChain next p (update prio t p) u os → RaiseChain next p prio t (t :: os)

theorem RaiseChain.lower (chain : RaiseChain next p prio t os) : ∀ x ∈ os, prio x < p := by
  induction chain with
  | stop => nofun
  | last prio t lt => exact List.forall_mem_singleton.2 lt
  | step prio t u os lt _ _ ih =>
    refine List.forall_mem_cons.2 ⟨lt, fun x mem => ?_⟩
    have low := ih x mem
    by_cases same : x = t
    · rw [same, update_self] at low
      exact absurd low (lt_irrefl p)
    · rwa [update_of_ne same] at low

/-- No thread is raised twice, also when the threads wait in a cycle. -/
theorem RaiseChain.nodup (chain : RaiseChain next p prio t os) : os.Nodup := by
  induction chain with
  | stop => exact .nil
  | last => exact List.nodup_singleton _
  | step prio t u os _ _ rest ih =>
    refine List.nodup_cons.2 ⟨fun mem => ?_, ih⟩
    have low := rest.lower t mem
    rw [update_self] at low
    exact lt_irrefl p low

/-- The walk ends in any finite set of threads that it does not leave: it raises one in
each round. -/
theorem RaiseChain.exists_of_finite (next : α → Option α) (p : Nat) (all : Finset α)
    (closed : ∀ t ∈ all, ∀ u, next t = some u → u ∈ all) : ∀ (n : Nat) (prio : α → Nat) (t : α), t ∈ all →
    (all.filter (prio · < p)).card ≤ n → ∃ os, RaiseChain next p prio t os ∧ ∀ x ∈ os, x ∈ all := by
  intro n
  induction n with
  | zero =>
    intro prio t mem none
    refine ⟨[], .stop prio t (not_lt.1 fun lt => ?_), nofun⟩
    have some_ : t ∈ all.filter (prio · < p) := Finset.mem_filter.2 ⟨mem, lt⟩
    rw [Finset.card_eq_zero.1 (Nat.le_zero.1 none)] at some_
    cases some_
  | succ n ih =>
    intro prio t mem le
    by_cases lt : prio t < p
    · cases waits : next t with
      | none => exact ⟨[t], .last prio t lt waits, List.forall_mem_singleton.2 mem⟩
      | some u =>
        have fewer : all.filter (update prio t p · < p) ⊂ all.filter (prio · < p) := by
          refine Finset.ssubset_iff_of_subset (fun x is => ?_) |>.2 ⟨t, Finset.mem_filter.2 ⟨mem, lt⟩, fun is => ?_⟩
          · obtain ⟨memX, low⟩ := Finset.mem_filter.1 is
            exact Finset.mem_filter.2 ⟨memX, (le_update_self_iff.2 lt.le x).trans_lt low⟩
          · have low := (Finset.mem_filter.1 is).2
            rw [update_self] at low
            exact lt_irrefl p low
        obtain ⟨os, rest, sub⟩ := ih (update prio t p) u (closed t mem u waits)
          (Nat.le_of_lt_succ ((Finset.card_lt_card fewer).trans_le le))
        exact ⟨t :: os, .step prio t u os lt waits rest, List.forall_mem_cons.2 ⟨mem, sub⟩⟩
    · exact ⟨[], .stop prio t (not_lt.1 lt), nofun⟩

end

end ChibiOS.Lib
