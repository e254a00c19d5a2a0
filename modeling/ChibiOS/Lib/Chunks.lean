import Mathlib.Data.List.Basic

/-!
# Pieces of a list

A list cut into consecutive pieces of `n` members, of which the last may be shorter.
-/

namespace ChibiOS.Lib

variable {α : Type*} {n : Nat} {l : List α}

def chunks (n : Nat) (l : List α) : List (List α) :=
  if 0 < n ∧ l ≠ [] then l.take n :: chunks n (l.drop n) else []
termination_by l.length
decreasing_by
  rename_i some
  rw [List.length_drop]
  exact Nat.sub_lt (List.length_pos_iff.2 some.2) some.1

theorem chunks_nil (n : Nat) : chunks n ([] : List α) = [] := by
  rw [chunks, if_neg (fun some => some.2 rfl)]

theorem chunks_of_ne_nil (pos : 0 < n) (some : l ≠ []) : chunks n l = l.take n :: chunks n (l.drop n) := by
  rw [chunks, if_pos ⟨pos, some⟩]

end ChibiOS.Lib
