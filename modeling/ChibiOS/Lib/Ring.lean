import Mathlib.Data.Nat.ModEq

/-!
# Ring buffers

A buffer of `n` cells that holds a list, from the read index on and around its end.
`Ring.pushBack`, `Ring.pushFront` and `Ring.popFront` are what storing at the write
index, storing before the read index and reading at it do to the list.
-/

namespace ChibiOS.Lib

open Function
open Nat (mod_eq_of_lt mod_lt mod_add_mod)

/-- The index after `i`. -/
def ringNext (n i : Nat) : Nat := if n ≤ i + 1 then 0 else i + 1

/-- The index before `i`. -/
def ringPrev (n i : Nat) : Nat := if i = 0 then n - 1 else i - 1

/-- The cells of `buf` from `rd` up to `wr` hold `l`. -/
structure Ring {α : Type*} (n : Nat) (buf : Nat → α) (rd wr : Nat) (l : List α) : Prop where
  rd_lt : rd < n
  length : l.length ≤ n
  wr_eq : wr = (rd + l.length) % n
  cell : ∀ i (lt : i < l.length), buf ((rd + i) % n) = l[i]

variable {α : Type*} {n rd wr i j : Nat} {buf : Nat → α} {l : List α} {x : α}

theorem ringNext_eq (lt : i < n) : ringNext n i = (i + 1) % n := by
  unfold ringNext
  split
  · rw [show i + 1 = n by omega, Nat.mod_self]
  · rw [mod_eq_of_lt (by omega)]

/-- Cells at different distances from an index are different. -/
theorem ring_ne (rd : Nat) (lt : i < n) (lt' : j < n) (ne : i ≠ j) : (rd + i) % n ≠ (rd + j) % n := by
  intro same
  have modEq : i ≡ j [MOD n] := Nat.ModEq.add_left_cancel' rd same
  exact ne (Nat.ModEq.eq_of_lt_of_lt modEq lt lt')

namespace Ring

theorem pos (ring : Ring n buf rd wr l) : 0 < n := Nat.zero_lt_of_lt ring.rd_lt

theorem wr_lt (ring : Ring n buf rd wr l) : wr < n := ring.wr_eq ▸ mod_lt _ ring.pos

/-- An empty buffer. -/
theorem empty (pos : 0 < n) (buf : Nat → α) : Ring n buf 0 0 [] :=
  ⟨pos, Nat.zero_le _, by simp, nofun⟩

/-- The indexes meet if the buffer is empty or full, and only then. -/
theorem meet (ring : Ring n buf rd wr l) : wr = rd ↔ l = [] ∨ l.length = n := by
  have pos := ring.pos
  have le := ring.length
  rw [ring.wr_eq, ← List.length_eq_zero_iff]
  constructor
  · intro same
    by_contra other
    refine ring_ne (i := l.length) (j := 0) (n := n) rd (by omega) pos (by omega) ?_
    rw [same, add_zero, mod_eq_of_lt ring.rd_lt]
  · rintro (none | full)
    · rw [none, add_zero, mod_eq_of_lt ring.rd_lt]
    · rw [full, Nat.add_mod_right, mod_eq_of_lt ring.rd_lt]

theorem pushBack (ring : Ring n buf rd wr l) (room : l.length < n) (x : α) :
    Ring n (update buf wr x) rd (ringNext n wr) (l ++ [x]) := by
  refine ⟨ring.rd_lt, by rwa [List.length_append, List.length_singleton], ?_, fun i lt => ?_⟩
  · rw [ringNext_eq ring.wr_lt, ring.wr_eq, mod_add_mod, List.length_append, List.length_singleton, add_assoc]
  · rw [List.length_append, List.length_singleton] at lt
    rcases Nat.lt_succ_iff_lt_or_eq.1 lt with old | rfl
    · have apart : (rd + i) % n ≠ wr := by
        rw [ring.wr_eq]
        exact ring_ne rd (by omega) room old.ne
      rw [update_of_ne apart, ring.cell i old, List.getElem_append_left old]
    · rw [← ring.wr_eq, update_self, List.getElem_concat_length rfl]

theorem pushFront (ring : Ring n buf rd wr l) (room : l.length < n) (x : α) :
    Ring n (update buf (ringPrev n rd) x) (ringPrev n rd) wr (x :: l) := by
  have pos := ring.pos
  have lt := ring.rd_lt
  have prev_lt : ringPrev n rd < n := by
    unfold ringPrev
    split <;> omega
  have next : (ringPrev n rd + 1) % n = rd := by
    unfold ringPrev
    split
    next zero =>
      rw [show n - 1 + 1 = n by omega, Nat.mod_self, zero]
    · rw [show rd - 1 + 1 = rd by omega, mod_eq_of_lt lt]
  have shift : ∀ k, (ringPrev n rd + (k + 1)) % n = (rd + k) % n := fun k => by
    rw [add_comm k, ← add_assoc, ← mod_add_mod, next]
  refine ⟨prev_lt, room, ?_, fun i lt => ?_⟩
  · rw [ring.wr_eq, List.length_cons, shift]
  · cases i with
    | zero => rw [add_zero, mod_eq_of_lt prev_lt, update_self, List.getElem_cons_zero]
    | succ i =>
      have old : i < l.length := by simpa using lt
      have apart : (rd + i) % n ≠ ringPrev n rd := by
        rw [← shift, ← mod_eq_of_lt prev_lt]
        have := ring_ne (i := i + 1) (j := 0) (n := n) (ringPrev n rd) (by omega) pos (by omega)
        simpa using this
      rw [shift, update_of_ne apart, ring.cell i old, List.getElem_cons_succ]

/-- The first element is at the read index, and reading it moves on. -/
theorem popFront (ring : Ring n buf rd wr (x :: l)) : buf rd = x ∧ Ring n buf (ringNext n rd) wr l := by
  have lt := ring.rd_lt
  have shift : ∀ k, (ringNext n rd + k) % n = (rd + (k + 1)) % n := fun k => by
    rw [ringNext_eq lt, mod_add_mod, add_assoc, add_comm 1]
  refine ⟨?_, ?_, ?_, ?_, fun i lt => ?_⟩
  · have first := ring.cell 0 (Nat.zero_lt_succ _)
    rwa [add_zero, mod_eq_of_lt lt] at first
  · rw [ringNext_eq lt]
    exact mod_lt _ ring.pos
  · exact Nat.le_of_succ_le ring.length
  · rw [ring.wr_eq, List.length_cons, shift]
  · rw [shift, ring.cell (i + 1) (by simpa using lt), List.getElem_cons_succ]

/-- The first `k` elements are at the read index and behind it, and reading them moves on. -/
theorem takeFront {k : Nat} (ring : Ring n buf rd wr l) (le : k ≤ l.length) :
    ((List.range k).map fun i => buf ((rd + i) % n)) = l.take k ∧ Ring n buf ((rd + k) % n) wr (l.drop k) := by
  refine ⟨List.ext_getElem (by simp [le]) fun i lt _ => ?_, mod_lt _ ring.pos, ?_, ?_, fun i lt => ?_⟩
  · rw [List.length_map, List.length_range] at lt
    rw [List.getElem_map, List.getElem_range, List.getElem_take, ring.cell i (by omega)]
  · exact le_trans (List.drop_sublist k l).length_le ring.length
  · rw [ring.wr_eq, mod_add_mod, List.length_drop, add_assoc, Nat.add_sub_cancel' le]
  · rw [List.length_drop] at lt
    rw [mod_add_mod, add_assoc, ring.cell (k + i) (by omega), List.getElem_drop]

end Ring

end ChibiOS.Lib
