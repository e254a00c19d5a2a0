import Mathlib.Data.List.Nodup

/-!
# Linked list segments

`Seg next p l q` says that following `next` from the pointer `p` passes the
nodes `l`, in order, and arrives at the pointer `q`. A null pointer is `none`, so
a whole list is a segment that ends there.

An edit of a linked list rewrites the `next` of a few nodes: `seg_append` cuts
the list at them and `Seg.frame` keeps the pieces that the edit does not touch.
A loop that looks for a node is `search`, which is a search over the nodes.
-/

namespace ChibiOS.Lib

variable {α : Type}

/-- The nodes `l` lead from `p` to `q`. -/
def Seg (next : α → Option α) (p : Option α) : List α → Option α → Prop
  | [], q => p = q
  | a :: l, q => p = some a ∧ Seg next (next a) l q

theorem seg_append {next : α → Option α} {q : Option α} : ∀ {p : Option α} (l k : List α),
    Seg next p (l ++ k) q ↔ ∃ m, Seg next p l m ∧ Seg next m k q
  | p, [], k => by
    constructor
    · intro seg
      exact ⟨p, rfl, seg⟩
    · rintro ⟨m, rfl, seg⟩
      exact seg
  | p, a :: l, k => by
    constructor
    · rintro ⟨first, rest⟩
      obtain ⟨m, left, right⟩ := (seg_append l k).1 rest
      exact ⟨m, ⟨first, left⟩, right⟩
    · rintro ⟨m, ⟨first, left⟩, right⟩
      exact ⟨first, (seg_append l k).2 ⟨m, left, right⟩⟩

/-- A segment reads `next` on its own nodes only. -/
theorem Seg.frame {next next' : α → Option α} {q : Option α} : ∀ {l : List α} {p : Option α},
    Seg next p l q → (∀ a ∈ l, next' a = next a) → Seg next' p l q
  | [], _, seg, _ => seg
  | a :: l, _, ⟨first, rest⟩, same => by
    refine ⟨first, ?_⟩
    rw [same a (by simp)]
    exact rest.frame fun b mem => same b (by simp [mem])

/-- What lies behind the node `q` gives way to `new`. -/
theorem Seg.replace {next next' : α → Option α} {p r : Option α} {q : α} {G old new B : List α}
    (seg : Seg next p (G ++ q :: (old ++ B)) r) (same : ∀ a ∈ G ++ B, next' a = next a)
    (relink : ∀ m, Seg next (next q) old m → Seg next' (next' q) new m) : Seg next' p (G ++ q :: (new ++ B)) r := by
  obtain ⟨_, first, rfl, rest⟩ := (seg_append G _).1 seg
  obtain ⟨m, replaced, last⟩ := (seg_append old B).1 rest
  exact (seg_append G _).2 ⟨some q, first.frame fun a mem => same a (by simp [mem]), rfl,
    (seg_append new B).2 ⟨m, relink m replaced, last.frame fun a mem => same a (by simp [mem])⟩⟩

/-- The same of a list that leads to the node `q`. -/
theorem Seg.relink {next next' : α → Option α} {p r : Option α} {h q : α} {A G old new B : List α}
    (seg : Seg next p (h :: (A ++ (old ++ B))) r) (nodup : (h :: (A ++ (old ++ B))).Nodup) (pred : h :: A = G ++ [q])
    (same : ∀ a ∈ h :: (A ++ B), a ≠ q → next' a = next a)
    (relink : ∀ m, Seg next (next q) old m → Seg next' (next' q) new m) : Seg next' p (h :: (A ++ (new ++ B))) r := by
  rw [← List.cons_append, pred, List.append_assoc, List.singleton_append] at seg nodup ⊢
  have once : (G ++ q :: B).Nodup :=
    nodup.sublist ((List.Sublist.refl G).append ((List.sublist_append_right old B).cons_cons q))
  refine seg.replace (fun a mem => same a ?_ ?_) relink
  · rw [← List.cons_append, pred]
    rcases List.mem_append.1 mem with mem | mem <;> simp [mem]
  · rintro rfl
    exact (List.nodup_cons.1 (List.nodup_middle.1 once)).1 mem

/-- A node leads to the one behind it. -/
theorem Seg.next_eq {next : α → Option α} {p : Option α} {q : α} (G B : List α) (seg : Seg next p (G ++ q :: B) none) :
    next q = B.head? := by
  obtain ⟨_, -, rfl, rest⟩ := (seg_append G _).1 seg
  cases B with
  | nil => exact rest
  | cons b B => exact rest.1

/-- The first node from `p` on that passes the test. -/
def search (next : α → Option α) (test : α → Bool) (fuel : Nat) (p : Option α) : Option (Option α) :=
  match p with
  | none => some none
  | some a =>
    match fuel with
    | 0 => none
    | fuel + 1 => if test a then some (some a) else search next test fuel (next a)

theorem Seg.search {next : α → Option α} {test : α → Bool} : ∀ {l : List α} {p : Option α} {fuel : Nat},
    Seg next p l none → l.length ≤ fuel → search next test fuel p = some (l.find? test)
  | [], p, fuel, seg, _ => by
    cases seg
    unfold Lib.search
    rfl
  | a :: l, p, 0, _, enough => by cases enough
  | a :: l, p, fuel + 1, seg, enough => by
    obtain ⟨rfl, rest⟩ := seg
    unfold Lib.search
    cases passed : test a with
    | true => simp [passed]
    | false =>
      rw [List.find?_cons_of_neg (by simp [passed])]
      exact rest.search (Nat.le_of_succ_le_succ enough)

/-- A search for the node before `x`. -/
theorem Seg.find_before [DecidableEq α] {next : α → Option α} {p : Option α} {x : α} {l : List α} (seg : Seg next p l none) :
    (l.find? fun q => decide (next q = some x)) = none ∧ x ∉ l.tail ∨
    ∃ G y B, (l.find? fun q => decide (next q = some x)) = some y ∧ l = G ++ y :: x :: B := by
  cases found : l.find? fun q => decide (next q = some x) with
  | none =>
    refine .inl ⟨rfl, fun mem => ?_⟩
    obtain ⟨y, l', rfl⟩ : ∃ y l', l = y :: l' := List.exists_cons_of_ne_nil (by rintro rfl; cases mem)
    obtain ⟨G, B, split⟩ := List.append_of_mem (show x ∈ l' from mem)
    obtain ⟨G', z, before⟩ : ∃ G' z, y :: G = G' ++ [z] :=
      ⟨_, _, (List.dropLast_append_getLast (List.cons_ne_nil _ _)).symm⟩
    have whole : y :: l' = G' ++ z :: x :: B := by
      rw [split, ← List.cons_append, before, List.append_assoc]
      rfl
    rw [whole] at seg found
    have missed := List.find?_eq_none.1 found z (by simp)
    exact missed (by simpa using Seg.next_eq G' (x :: B) seg)
  | some y =>
    obtain ⟨G, B, split⟩ := List.append_of_mem (List.mem_of_find?_eq_some found)
    have leads : next y = some x := by simpa using List.find?_some found
    rw [split] at seg
    obtain ⟨B', rfl⟩ : ∃ B', B = x :: B' := List.head?_eq_some_iff.1 ((Seg.next_eq G B seg).symm.trans leads)
    exact .inr ⟨G, y, B', rfl, split⟩

end ChibiOS.Lib
