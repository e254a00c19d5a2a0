import Mathlib.Data.List.Pairwise
import Mathlib.Data.List.Perm.Basic
import Mathlib.Tactic.Common

/-!
# Priority queues as lists

A queue kept in non-increasing order of a priority `key`. A newcomer goes behind
its equals (`insertBehind`) or ahead of them (`insertAhead`). Both only look at
the priorities of the members they pass, so a queue may be inserted into after
the newcomer's own priority has changed.
-/

namespace ChibiOS.Lib

open List (mem_cons perm_middle takeWhile_append_dropWhile pairwise_cons singleton_sublist)

variable {α : Type} {key key' : α → Nat} {x y : α} {l : List α}

/-- `x` enters behind the members of its priority. -/
def insertBehind (key : α → Nat) (x : α) : List α → List α
  | [] => [x]
  | y :: l => if key x ≤ key y then y :: insertBehind key x l else x :: y :: l

/-- `x` enters ahead of the members of its priority. -/
def insertAhead (key : α → Nat) (x : α) : List α → List α
  | [] => [x]
  | y :: l => if key x < key y then y :: insertAhead key x l else x :: y :: l

/-- Non-increasing in `key`. -/
def Descending (key : α → Nat) (l : List α) : Prop := l.Pairwise fun a b => key b ≤ key a

/-- The scan for the place: behind the members that it passes. -/
theorem insertBehind_eq (key : α → Nat) (x : α) : ∀ l, insertBehind key x l =
    l.takeWhile (fun y => key x ≤ key y) ++ x :: l.dropWhile (fun y => key x ≤ key y)
  | [] => rfl
  | y :: l => by
    by_cases le : key x ≤ key y
    · simp [insertBehind, le, insertBehind_eq key x l]
    · simp [insertBehind, le]

theorem insertAhead_eq (key : α → Nat) (x : α) : ∀ l, insertAhead key x l =
    l.takeWhile (fun y => key x < key y) ++ x :: l.dropWhile (fun y => key x < key y)
  | [] => rfl
  | y :: l => by
    by_cases lt : key x < key y
    · simp [insertAhead, lt, insertAhead_eq key x l]
    · simp [insertAhead, lt]

theorem insertBehind_perm (key : α → Nat) (x : α) (l : List α) : (insertBehind key x l).Perm (x :: l) := by
  rw [insertBehind_eq]
  exact perm_middle.trans (by rw [takeWhile_append_dropWhile])

theorem insertAhead_perm (key : α → Nat) (x : α) (l : List α) : (insertAhead key x l).Perm (x :: l) := by
  rw [insertAhead_eq]
  exact perm_middle.trans (by rw [takeWhile_append_dropWhile])

@[simp] theorem mem_insertBehind : y ∈ insertBehind key x l ↔ y = x ∨ y ∈ l := by
  rw [(insertBehind_perm key x l).mem_iff, mem_cons]

@[simp] theorem mem_insertAhead : y ∈ insertAhead key x l ↔ y = x ∨ y ∈ l := by
  rw [(insertAhead_perm key x l).mem_iff, mem_cons]

section

variable (sorted : Descending key l)
include sorted

/-- Behind the members that `p` passes, if they are those of higher priority. -/
theorem Descending.insert {p : α → Bool} (x : α) (passed : ∀ y, p y = true → key x ≤ key y)
    (stopped : ∀ y, p y = false → key y ≤ key x) :
    Descending key (l.takeWhile p ++ x :: l.dropWhile p) := by
  induction l with
  | nil => exact List.pairwise_singleton _ _
  | cons y l ih =>
    obtain ⟨first, rest⟩ := pairwise_cons.1 sorted
    cases passes : p y with
    | true =>
      rw [List.takeWhile_cons_of_pos passes, List.dropWhile_cons_of_pos passes, List.cons_append]
      refine pairwise_cons.2 ⟨fun z mem => ?_, ih rest⟩
      rcases mem_cons.1 ((@perm_middle _ _ (l.takeWhile p) _).mem_iff.1 mem) with rfl | mem
      · exact passed y passes
      · rw [takeWhile_append_dropWhile] at mem
        exact first z mem
    | false =>
      rw [List.takeWhile_cons_of_neg (by simp [passes]), List.dropWhile_cons_of_neg (by simp [passes])]
      refine pairwise_cons.2 ⟨fun z mem => ?_, sorted⟩
      rcases mem_cons.1 mem with rfl | mem
      · exact stopped z passes
      · exact Nat.le_trans (first z mem) (stopped y passes)

theorem Descending.insertBehind (x : α) : Descending key (insertBehind key x l) := by
  rw [insertBehind_eq]
  exact sorted.insert x (fun y => of_decide_eq_true) fun y lt => Nat.le_of_not_le (of_decide_eq_false lt)

theorem Descending.insertAhead (x : α) : Descending key (insertAhead key x l) := by
  rw [insertAhead_eq]
  exact sorted.insert x (fun y lt => Nat.le_of_lt (of_decide_eq_true lt)) fun y le => Nat.le_of_not_lt (of_decide_eq_false le)

/-- A change of priorities outside the queue leaves it in order. -/
theorem Descending.congr (same : ∀ a ∈ l, key' a = key a) : Descending key' l :=
  sorted.imp_of_mem fun {a b} left right le => by rw [same a left, same b right]; exact le

theorem Descending.sublist {k : List α} (sub : k.Sublist l) : Descending key k :=
  List.Pairwise.sublist sub sorted

end

/-- The first member has the highest priority. -/
theorem Descending.le_head (sorted : Descending key (x :: l)) (mem : y ∈ x :: l) : key y ≤ key x := by
  rcases mem_cons.1 mem with rfl | mem
  · exact Nat.le_refl _
  · exact (pairwise_cons.1 sorted).1 y mem

/-! ## Who comes before whom -/

theorem sublist_insertBehind (key : α → Nat) (x : α) : ∀ l : List α, l.Sublist (insertBehind key x l)
  | [] => List.nil_sublist _
  | y :: l => by
    rw [insertBehind]
    split
    · exact (sublist_insertBehind key x l).cons_cons y
    · exact List.sublist_cons_self _ _

/-- A newcomer comes after those that are not below it. -/
theorem Descending.pair_insertBehind : ∀ {l : List α}, Descending key l → y ∈ l → key x ≤ key y →
    [y, x].Sublist (Lib.insertBehind key x l)
  | z :: l, sorted, mem, le => by
    have first : key x ≤ key z := Nat.le_trans le (sorted.le_head mem)
    rw [Lib.insertBehind, if_pos first]
    rcases mem_cons.1 mem with rfl | later
    · exact (singleton_sublist.2 (mem_insertBehind.2 (.inl rfl))).cons_cons y
    · exact (Descending.pair_insertBehind (List.Pairwise.of_cons sorted) later le).cons z

/-- Without the one in the middle the rest is there. -/
theorem filter_ne_middle [DecidableEq α] {k : List α} (new : x ∉ l ++ k) : (l ++ x :: k).filter (· ≠ x) = l ++ k := by
  have rest : (l ++ k).filter (· ≠ x) = l ++ k := List.filter_eq_self.2 fun z mem => by
    simpa using ne_of_mem_of_not_mem mem new
  rw [List.filter_append, List.filter_cons_of_neg (by simp), ← List.filter_append, rest]

theorem filter_insertBehind [DecidableEq α] (new : x ∉ l) : (insertBehind key x l).filter (· ≠ x) = l := by
  rw [insertBehind_eq, filter_ne_middle (by rwa [takeWhile_append_dropWhile]), takeWhile_append_dropWhile]

theorem filter_insertAhead [DecidableEq α] (new : x ∉ l) : (insertAhead key x l).filter (· ≠ x) = l := by
  rw [insertAhead_eq, filter_ne_middle (by rwa [takeWhile_append_dropWhile]), takeWhile_append_dropWhile]

/-- Of two members of a list one comes first, -/
theorem pair_total (left : x ∈ l) (right : y ∈ l) (other : x ≠ y) : [x, y].Sublist l ∨ [y, x].Sublist l := by
  obtain ⟨a, b, rfl⟩ := List.append_of_mem left
  rcases List.mem_append.1 right with before | same | ⟨_, behind⟩
  · right
    exact (singleton_sublist.2 before).append (singleton_sublist.2 (.head _))
  · exact absurd rfl other
  · left
    exact ((singleton_sublist.2 behind).cons_cons x).trans (List.sublist_append_right a _)

/-- and if there are no repetitions the other does not. -/
theorem pair_antisymm (nodup : l.Nodup) (left : [x, y].Sublist l) (right : [y, x].Sublist l) : False := by
  induction l with
  | nil => cases left
  | cons z l ih =>
    obtain ⟨notMem, nodup⟩ := List.nodup_cons.1 nodup
    have inside : ∀ {a b : α}, [a, b].Sublist (z :: l) → [a, b].Sublist l ∨ a = z ∧ b ∈ l := fun sub => by
      rcases List.sublist_cons_iff.1 sub with within | ⟨r, eq, within⟩
      · exact .inl within
      · cases eq
        exact .inr ⟨rfl, singleton_sublist.1 within⟩
    rcases inside left with left' | ⟨rfl, memY⟩
    · rcases inside right with right' | ⟨rfl, -⟩
      · exact ih nodup left' right'
      · exact notMem (left'.subset (.tail _ (.head _)))
    · rcases inside right with right' | ⟨rfl, -⟩
      · exact notMem (right'.subset (.tail _ (.head _)))
      · exact notMem memY

/-- Taking out a third leaves the order of two. -/
theorem pair_filter_ne [DecidableEq α] {z : α} (left : x ≠ z) (right : y ≠ z) (sub : [x, y].Sublist l) :
    [x, y].Sublist (l.filter (· ≠ z)) := by
  have kept := sub.filter (· ≠ z)
  rwa [List.filter_cons_of_pos (by simpa using left), List.filter_cons_of_pos (by simpa using right), List.filter_nil] at kept

/-! ## The front -/

theorem insertBehind_congr (top : key' x = key x) (same : ∀ y ∈ l, key' y = key y) :
    insertBehind key' x l = insertBehind key x l := by
  induction l with
  | nil => rfl
  | cons y l ih =>
    obtain ⟨head, rest⟩ := List.forall_mem_cons.1 same
    simp only [insertBehind, top, head, ih rest]

theorem insertAhead_top (top : ∀ y ∈ l, key y ≤ key x) : insertAhead key x l = x :: l := by
  cases l with
  | nil => rfl
  | cons y l => exact if_neg (Nat.not_lt.2 (top y (.head _)))

theorem insertBehind_above (above : ∀ y ∈ l, key y < key x) : insertBehind key x l = x :: l := by
  cases l with
  | nil => rfl
  | cons y l => exact if_neg (Nat.not_le.2 (above y (.head _)))

/-- Who goes behind its equals and is first has no equals. -/
theorem Descending.lt_of_insertBehind (sorted : Descending key l) (new : x ∉ l) (first : Lib.insertBehind key x l = x :: l) :
    ∀ y ∈ l, key y < key x := by
  cases l with
  | nil => nofun
  | cons y l =>
    have lt : key y < key x := by
      by_contra ge
      rw [Lib.insertBehind, if_pos (Nat.le_of_not_lt ge)] at first
      exact new (mem_cons.2 (.inl (List.cons.inj first).1.symm))
    exact fun z mem => Nat.lt_of_le_of_lt (sorted.le_head mem) lt

/-! ## First come, first served among equals -/

/-- The higher first, and among equals the one that has waited longer. -/
def Ranked (key age : α → Nat) (l : List α) : Prop := l.Pairwise fun a b => key b < key a ∨ key b = key a ∧ age b < age a

variable {age age' : α → Nat}

/-- Members leave, and the others get older. -/
theorem Ranked.sublist {k : List α} (ranked : Ranked key age l) (sub : k.Sublist l) (same : ∀ a ∈ k, key' a = key a)
    (older : ∀ a ∈ k, age' a = age a + 1) : Ranked key' age' k := by
  refine (List.Pairwise.sublist sub ranked).imp_of_mem fun {a b} left right before => ?_
  rw [same a left, same b right, older a left, older b right]
  rcases before with lt | ⟨eq, lt⟩
  · exact .inl lt
  · exact .inr ⟨eq, Nat.succ_lt_succ lt⟩

/-- A newcomer goes behind its equals. -/
theorem Ranked.insertBehind : ∀ {l : List α}, Ranked key age l → age x = 0 → (∀ a ∈ l, 0 < age a) →
    Ranked key age (insertBehind key x l)
  | [], _, _, _ => List.pairwise_singleton _ _
  | y :: l, ranked, new, old => by
    obtain ⟨first, rest⟩ := pairwise_cons.1 ranked
    rw [Lib.insertBehind]
    split
    next le =>
      refine pairwise_cons.2 ⟨fun z mem => ?_, Ranked.insertBehind rest new fun a mem => old a (List.mem_cons_of_mem y mem)⟩
      rcases mem_insertBehind.1 mem with rfl | mem
      · rcases Nat.lt_or_eq_of_le le with lt | eq
        · exact .inl lt
        · exact .inr ⟨eq, new ▸ old y (.head _)⟩
      · exact first z mem
    next lt =>
      refine pairwise_cons.2 ⟨fun z mem => .inl ?_, ranked⟩
      rcases mem_cons.1 mem with rfl | mem
      · exact Nat.lt_of_not_le lt
      · rcases first z mem with less | ⟨eq, -⟩
        · exact Nat.lt_trans less (Nat.lt_of_not_le lt)
        · exact eq ▸ Nat.lt_of_not_le lt

end ChibiOS.Lib
