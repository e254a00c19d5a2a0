import Mathlib.Data.List.Chain
import Mathlib.Data.List.Nodup
import Mathlib.Data.List.TakeWhile

/-!
# Rings of linked nodes

A ring of nodes linked in both directions, with a head that is never taken out. A node
is inserted before the head, or removed between its neighbours; what the removed node
itself points to is left as it is.
-/

namespace ChibiOS.Lib

open Function
open List (cons_append append_assoc isChain_cons_cons nodup_cons mem_append cons_ne_nil)

variable {α : Type*} {newer older : α → α} {head x y : α} {l a b : List α}

/-- `newer` and `older` link `head` and the nodes `l`, in this order, and back to `head`. -/
structure Links (newer older : α → α) (head : α) (l : List α) : Prop where
  nodup : (head :: l).Nodup
  chain : (head :: (l ++ [head])).IsChain fun x y => newer x = y ∧ older y = x

/-- The nodes met from `x` on until the head, at most `n`. -/
def follow [DecidableEq α] (newer : α → α) (head : α) : Nat → α → List α
  | 0, _ => []
  | n + 1, x => if newer x = head then [] else newer x :: follow newer head n (newer x)

theorem follow_eq [DecidableEq α] : ∀ {l : List α} {x : α} {n : Nat},
    (x :: (l ++ [head])).IsChain (fun x y => newer x = y ∧ older y = x) → head ∉ l → l.length ≤ n →
    follow newer head (n + 1) x = l
  | [], x, n, chain, _, _ => by
    have last : newer x = head := (isChain_cons_cons.1 chain).1.1
    rw [follow, if_pos last]
  | y :: l, x, 0, _, _, le => by cases le
  | y :: l, x, n + 1, chain, apart, le => by
    obtain ⟨⟨link, -⟩, rest⟩ := isChain_cons_cons.1 chain
    have other : y ≠ head := fun same => apart (same ▸ .head _)
    rw [follow, link, if_neg other,
      follow_eq rest (fun mem => apart (.tail _ mem)) (Nat.le_of_succ_le_succ le)]

/-- `do x = newer x; while (test x)`, for at most `fuel` rounds. -/
def scan (newer : α → α) (test : α → Bool) : Nat → α → Option α
  | 0, _ => none
  | fuel + 1, x => if test (newer x) then scan newer test fuel (newer x) else some (newer x)

/-- A scan passes the nodes `a` and stops at `n`. -/
theorem scan_eq {test : α → Bool} {n : α} {fuel : Nat}
    (chain : (x :: (a ++ n :: b)).IsChain fun x y => newer x = y ∧ older y = x) (passes : ∀ y ∈ a, test y = true)
    (stops : test n = false) (enough : a.length < fuel) : scan newer test fuel x = some n := by
  induction a generalizing x fuel with
  | nil =>
    obtain ⟨k, rfl⟩ : ∃ k, fuel = k + 1 := ⟨fuel - 1, by omega⟩
    have next : newer x = n := (isChain_cons_cons.1 chain).1.1
    rw [scan, next, stops]
    rfl
  | cons y a ih =>
    obtain ⟨k, rfl⟩ : ∃ k, fuel = k + 1 := ⟨fuel - 1, by omega⟩
    obtain ⟨⟨next, -⟩, chain⟩ := isChain_cons_cons.1 chain
    obtain ⟨first, passes⟩ := List.forall_mem_cons.1 passes
    rw [scan, next, if_pos first]
    exact ih chain passes (Nat.lt_of_succ_lt_succ enough)

namespace Links

theorem follow [DecidableEq α] {n : Nat} (links : Links newer older head l) (lt : l.length < n) :
    follow newer head n head = l := by
  obtain ⟨k, rfl⟩ : ∃ k, n = k + 1 := ⟨n - 1, by omega⟩
  exact follow_eq links.chain (nodup_cons.1 links.nodup).1 (Nat.le_of_lt_succ lt)

/-- Neighbours are linked. -/
theorem pair (links : Links newer older head l) (split : head :: (l ++ [head]) = a ++ x :: y :: b) :
    newer x = y ∧ older y = x := by
  have chain := links.chain
  rw [split] at chain
  exact (List.isChain_append_cons_cons.1 chain).2.1

/-- From a node of the ring the next one is in the ring. -/
theorem newer_mem (links : Links newer older head l) (mem : x ∈ head :: l) : newer x ∈ head :: l := by
  obtain ⟨a, b, split⟩ := List.append_of_mem mem
  have whole : head :: (l ++ [head]) = a ++ x :: (b ++ [head]) := by rw [← cons_append, split]; simp
  obtain ⟨y, b', right⟩ : ∃ y b', b ++ [head] = y :: b' := List.exists_cons_of_ne_nil (by simp)
  rw [(links.pair (whole.trans (by rw [right]))).1]
  have inRing : y ∈ b ++ [head] := right ▸ .head _
  rcases mem_append.1 inRing with inB | isHead
  · rw [split]
    exact List.mem_append_right _ (.tail _ inB)
  · exact List.mem_singleton.1 isHead ▸ .head _

/-- A new node goes before the node `n`, which the nodes `b` begin with, or which is the head. -/
theorem insertBefore [DecidableEq α] {n : α} (links : Links newer older head (a ++ b)) (new : x ∉ head :: (a ++ b))
    (next : (b ++ [head]).head? = some n) :
    Links (update (update newer x n) (older n) x) (update (update older x (older n)) n x) head (a ++ x :: b) := by
  obtain ⟨a', p, left⟩ : ∃ a' p, head :: a = a' ++ [p] := ⟨_, _, (List.dropLast_append_getLast (cons_ne_nil _ _)).symm⟩
  obtain ⟨b', right⟩ : ∃ b', b ++ [head] = n :: b' := List.head?_eq_some_iff.1 next
  have whole : head :: (a ++ b ++ [head]) = a' ++ p :: n :: b' := by
    rw [append_assoc, right, ← cons_append, left, append_assoc]
    rfl
  obtain ⟨forth, back⟩ := links.pair whole
  have inRing : ∀ {u}, u ∈ head :: a ∨ u ∈ b ++ [head] → u ∈ head :: (a ++ b) := fun mem => by
    simp only [List.mem_cons, mem_append, List.not_mem_nil, or_false] at mem ⊢
    tauto
  have apart : ∀ {u}, u ∈ head :: a ∨ u ∈ b ++ [head] → u ≠ x := fun mem same => new (same ▸ inRing mem)
  -- A link that does not lead to `n` is not one of those that change.
  have kept : ∀ u v, u ≠ x → v ≠ x → v ≠ n → newer u = v ∧ older v = u →
      update (update newer x n) (older n) x u = v ∧ update (update older x (older n)) n x v = u := by
    rintro u v notU notV notN ⟨rfl, linked⟩
    have notP : u ≠ older n := by
      rintro rfl
      rw [back, forth] at notN
      exact notN rfl
    rw [update_of_ne notP, update_of_ne notU, update_of_ne notN, update_of_ne notV]
    exact ⟨rfl, linked⟩
  have nodup := links.nodup
  have rotated : (a ++ (b ++ [head])).Nodup := by
    have moved : (head :: (a ++ b)).Perm (a ++ b ++ [head]) := (List.perm_append_singleton head (a ++ b)).symm
    rw [← append_assoc]
    exact moved.nodup_iff.1 nodup
  have chain := links.chain
  rw [whole, List.isChain_append_cons_cons] at chain
  refine ⟨?_, ?_⟩
  · rw [← cons_append]
    exact List.nodup_middle.2 (nodup_cons.2 ⟨new, nodup⟩)
  · have joined : head :: (a ++ x :: b ++ [head]) = a' ++ p :: x :: n :: b' := by
      rw [append_assoc, cons_append, right, ← cons_append, left, append_assoc]
      rfl
    have mem : n ∈ b ++ [head] := right ▸ .head _
    have memP : p ∈ head :: a := left ▸ List.mem_append_right _ (.head _)
    rw [joined, List.isChain_append_cons_cons, isChain_cons_cons]
    refine ⟨?_, ⟨?_, ?_⟩, ⟨?_, ?_⟩, ?_⟩
    · rw [← left] at chain ⊢
      refine chain.1.imp_of_mem_tail_imp fun u v memU memV => kept u v (apart (.inl memU)) ?_ ?_
      · exact apart (.inl (.tail _ memV))
      · rintro rfl
        exact (List.nodup_append.1 rotated).2.2 v memV v mem rfl
    · rw [back, update_self]
    · rw [update_of_ne (apart (.inr mem)).symm, update_self, back]
    · rw [back, update_of_ne (apart (.inl memP)).symm, update_self]
    · rw [update_self]
    · rw [← right] at chain ⊢
      refine chain.2.2.imp_of_mem_tail_imp fun u v memU memV => kept u v (apart (.inr memU)) ?_ ?_
      · exact apart (.inr (List.mem_of_mem_tail memV))
      · rintro rfl
        rw [right] at memV rotated
        exact (nodup_cons.1 (List.nodup_append.1 rotated).2.1).1 memV

/-- A node behind the last one. -/
theorem insert [DecidableEq α] (links : Links newer older head l) (new : x ∉ head :: l) :
    Links (update (update newer x head) (older head) x) (update (update older x (older head)) head x) head (l ++ [x]) :=
  insertBefore (by simpa using links) (by simpa using new) rfl

/-- A node between its neighbours. -/
theorem remove [DecidableEq α] (links : Links newer older head (a ++ x :: b)) :
    Links (update newer (older x) (newer x)) (update older (newer x) (older x)) head (a ++ b) := by
  obtain ⟨a', p, left⟩ : ∃ a' p, head :: a = a' ++ [p] := ⟨_, _, (List.dropLast_append_getLast (cons_ne_nil _ _)).symm⟩
  obtain ⟨n, b', right⟩ : ∃ n b', b ++ [head] = n :: b' := List.exists_cons_of_ne_nil (by simp)
  have whole : head :: (a ++ x :: b ++ [head]) = a' ++ p :: x :: n :: b' := by
    rw [append_assoc, cons_append, right, ← cons_append, left, append_assoc]
    rfl
  have before := links.pair whole
  have behind := links.pair (a := a' ++ [p]) (x := x) (y := n) (b := b') (by rw [whole]; simp)
  -- Links between other nodes than `x` are not those that change.
  have kept : ∀ u v, u ≠ x → v ≠ x → newer u = v ∧ older v = u →
      update newer (older x) (newer x) u = v ∧ update older (newer x) (older x) v = u := by
    rintro u v notU notV ⟨rfl, back⟩
    have notP : u ≠ older x := by
      rintro rfl
      rw [before.2, before.1] at notV
      exact notV rfl
    have notN : newer u ≠ newer x := by
      intro same
      rw [same, behind.1, behind.2] at back
      exact notU back.symm
    rw [update_of_ne notP, update_of_ne notN]
    exact ⟨rfl, back⟩
  have nodup := links.nodup
  have single : x ∉ head :: (a ++ b) := by
    rw [← cons_append] at nodup ⊢
    exact (List.nodup_middle.1 nodup).notMem
  have others : ∀ u ∈ head :: (a ++ b), u ≠ x := fun u mem same => single (same ▸ mem)
  have memL : ∀ u ∈ head :: a, u ≠ x := fun u mem => others u (by
    rw [← cons_append]
    exact List.mem_append_left _ mem)
  have memR : ∀ u ∈ b ++ [head], u ≠ x := fun u mem => by
    rcases mem_append.1 mem with inB | isHead
    · exact others u (.tail _ (List.mem_append_right _ inB))
    · exact others u (List.mem_singleton.1 isHead ▸ .head _)
  have chain := links.chain
  rw [whole, List.isChain_append_cons_cons, isChain_cons_cons] at chain
  refine ⟨?_, ?_⟩
  · rw [← cons_append] at nodup ⊢
    exact (List.nodup_middle.1 nodup).of_cons
  · have joined : head :: (a ++ b ++ [head]) = a' ++ p :: n :: b' := by
      rw [append_assoc, right, ← cons_append, left, append_assoc]
      rfl
    rw [joined, List.isChain_append_cons_cons]
    refine ⟨?_, ⟨?_, ?_⟩, ?_⟩
    · rw [← left] at chain ⊢
      exact chain.1.imp_of_mem_imp fun u v memU memV => kept u v (memL u memU) (memL v memV)
    · rw [before.2, update_self, behind.1]
    · rw [behind.1, update_self, before.2]
    · rw [← right] at chain ⊢
      exact chain.2.2.2.imp_of_mem_imp fun u v memU memV => kept u v (memR u memU) (memR v memV)

/-- A node goes before the first one at which a scan stops, at the latest before the head. -/
theorem insertAt [DecidableEq α] {test p : α → Bool} (links : Links newer older head l) (new : x ∉ head :: l)
    (stops : test head = false) (tests : ∀ y ∈ l, test y = p y) : ∃ n ∈ head :: l, scan newer test (l.length + 1) head = some n ∧
      Links (update (update newer x n) (older n) x) (update (update older x (older n)) n x) head
        (l.takeWhile p ++ x :: l.dropWhile p) := by
  have whole := List.takeWhile_append_dropWhile (p := p) (l := l)
  have short : (l.takeWhile p).length ≤ l.length := (List.takeWhile_prefix _).length_le
  have passes : ∀ y ∈ l.takeWhile p, test y = true := by
    intro y mem
    rw [tests y ((List.takeWhile_prefix _).subset mem)]
    exact List.mem_takeWhile_imp mem
  obtain ⟨n, rest, next⟩ : ∃ n rest, l.dropWhile p ++ [head] = n :: rest := List.exists_cons_of_ne_nil (by simp)
  have mem : n = head ∧ test n = false ∨ n ∈ l ∧ test n = false := by
    cases behind : l.dropWhile p with
    | nil =>
      rw [behind] at next
      cases next
      exact .inl ⟨rfl, stops⟩
    | cons y b =>
      have not := List.head?_dropWhile_not p l
      have inside : y ∈ l := (List.dropWhile_suffix p).subset (behind ▸ .head _)
      rw [behind] at next not
      cases next
      exact .inr ⟨inside, (tests _ inside).trans not⟩
  have chain := links.chain
  rw [← whole] at links new chain
  rw [append_assoc, next] at chain
  refine ⟨n, List.mem_cons.2 (mem.imp And.left And.left), scan_eq chain passes (mem.elim And.right And.right) (by omega), ?_⟩
  exact links.insertBefore new (by rw [next]; rfl)

/-- The ring the other way round. -/
theorem reverse (links : Links newer older head l) : Links older newer head l.reverse := by
  have turned : head :: (l.reverse ++ [head]) = (head :: (l ++ [head])).reverse := by simp
  refine ⟨?_, ?_⟩
  · obtain ⟨apart, nodup⟩ := nodup_cons.1 links.nodup
    exact nodup_cons.2 ⟨by simpa using apart, List.nodup_reverse.2 nodup⟩
  · rw [turned, List.isChain_reverse]
    exact links.chain.imp fun x y link => ⟨link.2, link.1⟩

theorem older_mem (links : Links newer older head l) (mem : x ∈ head :: l) : older x ∈ head :: l := by
  have := links.reverse.newer_mem (by simpa using mem)
  simpa using this

theorem older_ne (links : Links newer older head l) (mem : x ∈ l) : older x ≠ x := by
  obtain ⟨a, b, rfl⟩ := List.append_of_mem mem
  obtain ⟨a', p, left⟩ : ∃ a' p, head :: a = a' ++ [p] := ⟨_, _, (List.dropLast_append_getLast (cons_ne_nil _ _)).symm⟩
  have nodup := links.nodup
  have before := links.pair (a := a') (x := p) (y := x) (b := b ++ [head]) (by
    rw [append_assoc, ← cons_append, left]
    simp)
  rw [before.2]
  rintro rfl
  rw [← cons_append, left, append_assoc] at nodup
  exact (nodup_cons.1 (List.nodup_append.1 nodup).2.1).1 (.head _)

end Links

end ChibiOS.Lib
