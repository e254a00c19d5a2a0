import ChibiOS.Lib.Links
import ChibiOS.Lib.PrioQueue

/-!
# Queues of threads

The primitives of `chlists.c` on queues that are linked in both directions. A queue header
is a node like the threads, reached through casts: it has links but no priority, and the
scan of `prio_insert` tests for it by its address.
-/

namespace ChibiOS.Kernel

open Function
open Lib

/-- Queue headers and threads by the fields they share, and the priorities of threads. -/
structure ThreadMem (α : Type) where
  pNext : α → α
  pPrev : α → α
  pPrio : α → Nat

namespace ThreadMem

variable {α : Type} [DecidableEq α]

/-- The last three statements of `prio_insert`. -/
def insertOnPrev (tp cp : α) (m : ThreadMem α) : ThreadMem α :=
  let m := { m with pNext := update m.pNext tp cp, pPrev := update m.pPrev tp (m.pPrev cp) }
  { m with pNext := update m.pNext (m.pPrev tp) tp, pPrev := update m.pPrev cp tp }

def prioInsert (fuel : Nat) (tp tqp : α) (m : ThreadMem α) : Option (ThreadMem α) :=
  (scan m.pNext (fun cp => cp ≠ tqp && decide (m.pPrio tp ≤ m.pPrio cp)) fuel tqp).map fun cp => m.insertOnPrev tp cp

def queueInsert (tp tqp : α) (m : ThreadMem α) : ThreadMem α :=
  let m := { m with pNext := update m.pNext tp tqp, pPrev := update m.pPrev tp (m.pPrev tqp) }
  { m with pNext := update m.pNext (m.pPrev tp) tp, pPrev := update m.pPrev tqp tp }

def fifoRemove (tqp : α) (m : ThreadMem α) : α × ThreadMem α :=
  let tp := m.pNext tqp
  (tp, { m with pNext := update m.pNext tqp (m.pNext tp), pPrev := update m.pPrev (m.pNext tp) tqp })

def lifoRemove (tqp : α) (m : ThreadMem α) : α × ThreadMem α :=
  let tp := m.pPrev tqp
  (tp, { m with pPrev := update m.pPrev tqp (m.pPrev tp), pNext := update m.pNext (m.pPrev tp) tqp })

def dequeue (tp : α) (m : ThreadMem α) : α × ThreadMem α :=
  let m := { m with pNext := update m.pNext (m.pPrev tp) (m.pNext tp) }
  (tp, { m with pPrev := update m.pPrev (m.pNext tp) (m.pPrev tp) })

/-- The header `tqp` and the threads `l` are linked in both directions, in this order and back to the header. -/
def Queue (m : ThreadMem α) (tqp : α) (l : List α) : Prop := Links m.pNext m.pPrev tqp l

/-- Only links of `nodes` have changed. -/
structure Keeps (m : ThreadMem α) (nodes : List α) (m' : ThreadMem α) : Prop where
  prio : m'.pPrio = m.pPrio
  links : ∀ u ∉ nodes, m'.pNext u = m.pNext u ∧ m'.pPrev u = m.pPrev u

variable {m : ThreadMem α} {tqp tp cp : α} {l a b : List α}

theorem Queue.keeps_insert (queue : m.Queue tqp l) (mem : cp ∈ tqp :: l) : m.Keeps (tp :: tqp :: l) (m.insertOnPrev tp cp) := by
  refine ⟨rfl, fun u outside => ?_⟩
  have apart : ∀ {v}, v ∈ tqp :: l → u ≠ v := by
    rintro v inside rfl
    exact outside (.tail _ inside)
  have notTp : u ≠ tp := by
    rintro rfl
    exact outside (.head _)
  simp only [insertOnPrev, update_self]
  rw [update_of_ne (apart (queue.older_mem mem)), update_of_ne (apart mem), update_of_ne notTp, update_of_ne notTp]
  exact ⟨rfl, rfl⟩

theorem Queue.prioInsert (queue : m.Queue tqp l) (new : tp ∉ tqp :: l) :
    ∃ m', m.prioInsert (l.length + 1) tp tqp = some m' ∧ m'.Queue tqp (insertBehind m.pPrio tp l) ∧
      m.Keeps (tp :: tqp :: l) m' := by
  have tests : ∀ y ∈ l, (y ≠ tqp && decide (m.pPrio tp ≤ m.pPrio y)) = decide (m.pPrio tp ≤ m.pPrio y) := by
    intro y inside
    have apart : y ≠ tqp := by
      rintro rfl
      exact (List.nodup_cons.1 queue.nodup).1 inside
    simp [apart]
  obtain ⟨cp, mem, found, links⟩ := Links.insertAt queue new (by simp) tests
  refine ⟨m.insertOnPrev tp cp, by rw [ThreadMem.prioInsert, found]; rfl, ?_, queue.keeps_insert mem⟩
  rw [insertBehind_eq]
  simpa only [Queue, insertOnPrev, update_self] using links

theorem Queue.queueInsert (queue : m.Queue tqp l) (new : tp ∉ tqp :: l) :
    (m.queueInsert tp tqp).Queue tqp (l ++ [tp]) ∧ m.Keeps (tp :: tqp :: l) (m.queueInsert tp tqp) := by
  refine ⟨?_, queue.keeps_insert (.head _)⟩
  simpa only [Queue, ThreadMem.queueInsert, update_self] using Links.insert queue new

/-- A member leaves, and its neighbours are linked. -/
theorem Queue.remove (queue : m.Queue tqp (a ++ tp :: b)) {m' : ThreadMem α} (prio : m'.pPrio = m.pPrio)
    (next : m'.pNext = update m.pNext (m.pPrev tp) (m.pNext tp)) (prev : m'.pPrev = update m.pPrev (m.pNext tp) (m.pPrev tp)) :
    m'.Queue tqp (a ++ b) ∧ m.Keeps (tqp :: (a ++ tp :: b)) m' := by
  have mem : tp ∈ tqp :: (a ++ tp :: b) := by simp
  refine ⟨?_, prio, fun u outside => ?_⟩
  · rw [Queue, next, prev]
    exact Links.remove queue
  · rw [next, prev, update_of_ne, update_of_ne]
    · exact ⟨rfl, rfl⟩
    · rintro rfl
      exact outside (queue.newer_mem mem)
    · rintro rfl
      exact outside (queue.older_mem mem)

theorem Queue.fifoRemove (queue : m.Queue tqp (tp :: l)) : (m.fifoRemove tqp).1 = tp ∧
    (m.fifoRemove tqp).2.Queue tqp l ∧ m.Keeps (tqp :: tp :: l) (m.fifoRemove tqp).2 := by
  obtain ⟨next, prev⟩ := Links.pair (a := []) queue rfl
  refine ⟨next, Queue.remove (a := []) queue rfl ?_ ?_⟩
  · rw [prev, ← next]
    rfl
  · rw [prev, ← next]
    rfl

theorem Queue.lifoRemove (queue : m.Queue tqp (l ++ [tp])) : (m.lifoRemove tqp).1 = tp ∧
    (m.lifoRemove tqp).2.Queue tqp l ∧ m.Keeps (tqp :: (l ++ [tp])) (m.lifoRemove tqp).2 := by
  obtain ⟨next, prev⟩ := Links.pair (a := tqp :: l) (x := tp) (y := tqp) (b := []) queue (by simp)
  have removed : (m.lifoRemove tqp).2.Queue tqp (l ++ []) ∧ m.Keeps (tqp :: (l ++ [tp])) (m.lifoRemove tqp).2 := by
    refine Queue.remove queue rfl ?_ ?_
    · rw [next, ← prev]
      rfl
    · rw [next, ← prev]
      rfl
  rw [List.append_nil] at removed
  exact ⟨prev, removed⟩

theorem Queue.dequeue (queue : m.Queue tqp l) (mem : tp ∈ l) : (m.dequeue tp).1 = tp ∧
    (m.dequeue tp).2.Queue tqp (l.erase tp) ∧ m.Keeps (tqp :: l) (m.dequeue tp).2 := by
  obtain ⟨a, b, -, rfl, erased⟩ := List.exists_erase_eq mem
  have next : update m.pNext (m.pPrev tp) (m.pNext tp) tp = m.pNext tp := by
    rw [update_apply]
    split <;> rfl
  rw [erased]
  refine ⟨rfl, Queue.remove queue rfl rfl ?_⟩
  simp only [ThreadMem.dequeue, next]

end ThreadMem

variable {α : Type} [DecidableEq α]

/-- The primitives keep a queue linked, change no other node, and act as insertion behind the threads of
the same priority, append, and removal of the first, of the last and of any thread. -/
theorem queue_primitives {m : ThreadMem α} {tqp : α} {l : List α} (queue : m.Queue tqp l) :
    (∀ tp ∉ tqp :: l,
      (∃ m', m.prioInsert (l.length + 1) tp tqp = some m' ∧ m'.Queue tqp (insertBehind m.pPrio tp l) ∧
        m.Keeps (tp :: tqp :: l) m') ∧
      (m.queueInsert tp tqp).Queue tqp (l ++ [tp]) ∧ m.Keeps (tp :: tqp :: l) (m.queueInsert tp tqp)) ∧
    (∀ tp rest, l = tp :: rest → (m.fifoRemove tqp).1 = tp ∧ (m.fifoRemove tqp).2.Queue tqp rest ∧
      m.Keeps (tqp :: l) (m.fifoRemove tqp).2) ∧
    (∀ tp rest, l = rest ++ [tp] → (m.lifoRemove tqp).1 = tp ∧ (m.lifoRemove tqp).2.Queue tqp rest ∧
      m.Keeps (tqp :: l) (m.lifoRemove tqp).2) ∧
    (∀ tp ∈ l, (m.dequeue tp).1 = tp ∧ (m.dequeue tp).2.Queue tqp (l.erase tp) ∧ m.Keeps (tqp :: l) (m.dequeue tp).2) ∧
    (Descending m.pPrio l → ∀ tp, Descending m.pPrio (insertBehind m.pPrio tp l) ∧
      ∀ x ∈ l, m.pPrio x = m.pPrio tp → [x, tp].Sublist (insertBehind m.pPrio tp l)) := by
  refine ⟨fun tp new => ⟨queue.prioInsert new, queue.queueInsert new⟩, ?_, ?_, fun tp mem => queue.dequeue mem, ?_⟩
  · rintro tp rest rfl
    exact queue.fifoRemove
  · rintro tp rest rfl
    exact queue.lifoRemove
  · intro sorted tp
    exact ⟨sorted.insertBehind tp, fun x mem same => sorted.pair_insertBehind mem same.ge⟩

/-- Two threads behind a header, and a third one of the priority of the second. -/
def twoThreads : ThreadMem Nat where
  pNext x := (x + 1) % 3
  pPrev x := (x + 2) % 3
  pPrio x := if x = 1 then 64 else 32

theorem twoThreads_queue : twoThreads.Queue 0 [1, 2] := ⟨by decide, by simp [twoThreads]⟩

theorem queue_primitives_equals : twoThreads.Queue 0 [1, 2] ∧
    ∃ m', twoThreads.prioInsert 3 3 0 = some m' ∧ m'.Queue 0 [1, 2, 3] ∧ twoThreads.Keeps [3, 0, 1, 2] m' :=
  ⟨twoThreads_queue, ((queue_primitives twoThreads_queue).1 3 (by decide)).1⟩

end ChibiOS.Kernel
