import Mathlib.Data.List.Count
import Mathlib.Data.List.Range

/-!
# Counting over a prefix of the numbers

How many of the first `n` values of a function have a property, and how that changes
when one value does.
-/

namespace ChibiOS.Lib

open Function

variable {α : Type*} {p : α → Bool} {f g : Nat → α} {n m i : Nat} {x : α}

/-- How many of `f 0, …, f (n - 1)` satisfy `p`. -/
def tally (p : α → Bool) (f : Nat → α) (n : Nat) : Nat := (List.range n).countP fun i => p (f i)

theorem tally_succ : tally p f (n + 1) = tally p f n + if p (f n) then 1 else 0 := by
  simp [tally, List.range_succ, List.countP_singleton]

theorem tally_congr (same : ∀ i < n, p (g i) = p (f i)) : tally p g n = tally p f n := by
  refine List.countP_congr fun i mem => ?_
  rw [same i (List.mem_range.1 mem)]

/-- Values that do not count may be left out. -/
theorem tally_of_le (le : n ≤ m) (none : ∀ i, n ≤ i → p (f i) = false) : tally p f m = tally p f n := by
  induction le with
  | refl => rfl
  | step le ih => simp [tally_succ, none _ le, ih]

/-- One value changes. -/
theorem tally_update (lt : i < n) :
    tally p (update f i x) n + (if p (f i) then 1 else 0) = tally p f n + if p x then 1 else 0 := by
  induction n with
  | zero => omega
  | succ n ih =>
    rw [tally_succ, tally_succ]
    by_cases last : i = n
    · subst last
      have rest : tally p (update f i x) i = tally p f i :=
        tally_congr fun j lt => by rw [update_of_ne lt.ne]
      rw [rest, update_self]
      omega
    · rw [update_of_ne (Ne.symm last)]
      have := ih (by omega)
      omega

end ChibiOS.Lib
