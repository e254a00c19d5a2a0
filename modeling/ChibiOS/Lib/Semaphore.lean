import Mathlib.Algebra.Order.Group.Int
import Mathlib.Data.List.Range

/-!
# Counting semaphores with a history

A counting semaphore whose waits are numbered in the order they start. The queue
holds the numbers of the waits that have not ended, and the history says how the
others did. `Sem.Step` is what may happen to a semaphore, in whatever code that
implements it; `Sem.Ok` is what then holds: the counter and the queue agree, the
tokens are accounted for since the last reset, and tokens are given in the order
in which the waits started.
-/

namespace ChibiOS.Lib

/-- What happened to a semaphore. Waits are numbered in the order they start. -/
inductive SemEvent
  | wait (k : Nat)
  /-- The wait `k` got its token. -/
  | grant (k : Nat)
  /-- The wait `k` timed out. -/
  | expire (k : Nat)
  | signal
  | reset (n : Nat)
deriving DecidableEq

namespace SemEvent

def isReset : SemEvent → Bool
  | reset _ => true
  | _ => false

/-- The wait that a grant is for. -/
def granted? : SemEvent → Option Nat
  | grant k => some k
  | _ => none

/-- The wait that starts. -/
def started? : SemEvent → Option Nat
  | wait k => some k
  | _ => none

end SemEvent

open SemEvent (isReset)

/-! ## Histories, newest first -/

/-- The events since the last reset. -/
def sinceReset (log : List SemEvent) : List SemEvent := log.takeWhile (!·.isReset)

/-- The count that the last reset set, or the initial one. -/
def startCount (init : Nat) : List SemEvent → Nat
  | [] => init
  | .reset n :: _ => n
  | _ :: log => startCount init log

/-- The waits that got a token, the last one first. -/
def grants (log : List SemEvent) : List Nat := log.filterMap (·.granted?)

/-- The waits that started, the last one first. -/
def starts (log : List SemEvent) : List Nat := log.filterMap (·.started?)

/-- The signals. -/
def signals (log : List SemEvent) : Nat := log.count .signal

/-! ## Semaphores -/

/-- A counter, the waits in the queue, the number of waits so far and the history. -/
@[ext] structure Sem where
  cnt : Int
  queue : List Nat
  waits : Nat
  log : List SemEvent

namespace Sem

/-- A semaphore as initialised. -/
def start (n : Nat) : Sem := ⟨n, [], 0, []⟩

inductive Step (x : Sem) : Sem → Prop
  /-- A wait finds a token. -/
  | take : 0 < x.cnt → Step x ⟨x.cnt - 1, x.queue, x.waits + 1, .grant x.waits :: .wait x.waits :: x.log⟩
  /-- A wait joins the queue. -/
  | block : x.cnt ≤ 0 → Step x ⟨x.cnt - 1, x.queue ++ [x.waits], x.waits + 1, .wait x.waits :: x.log⟩
  /-- A signal that no wait is there for. -/
  | signal : 0 ≤ x.cnt → Step x ⟨x.cnt + 1, x.queue, x.waits, .signal :: x.log⟩
  /-- A signal passes its token to the first wait. -/
  | pass (k : Nat) (q : List Nat) : x.cnt < 0 → x.queue = k :: q →
      Step x ⟨x.cnt + 1, q, x.waits, .grant k :: .signal :: x.log⟩
  /-- A wait times out and gives back what it had counted down. -/
  | expire (k : Nat) : k ∈ x.queue → Step x ⟨x.cnt + 1, x.queue.erase k, x.waits, .expire k :: x.log⟩
  | reset (n : Nat) : Step x ⟨n, [], x.waits, .reset n :: x.log⟩

/-- Any number of steps. -/
def Steps : Sem → Sem → Prop := Relation.ReflTransGen Step

structure Ok (init : Nat) (x : Sem) : Prop where
  /-- The queue is as long as the counter is below zero. -/
  length : x.queue.length = (-x.cnt).toNat
  /-- Since the last reset: the tokens given and those left are those there were
  and those that came. -/
  balance : ((grants (sinceReset x.log)).length : Int) + max x.cnt 0 =
    startCount init x.log + signals (sinceReset x.log)
  /-- The queue is in the order in which the waits started. -/
  ascending : x.queue.Pairwise (· < ·)
  /-- Tokens were given in that order. -/
  ordered : (grants x.log).Pairwise (· > ·)
  /-- Waits that got a token started before those that are in the queue. -/
  before : ∀ k ∈ grants x.log, ∀ q ∈ x.queue, k < q
  /-- The waits are numbered as they start. -/
  numbered : starts x.log = (List.range x.waits).reverse
  /-- A wait that got a token had started, and so have those in the queue. -/
  started : ∀ k ∈ grants x.log, k < x.waits
  queued : ∀ q ∈ x.queue, q < x.waits

variable {init : Nat} {x y : Sem}

theorem Ok.start (n : Nat) : Ok n (start n) where
  length := by simp [Sem.start]
  balance := by simp [Sem.start, sinceReset, grants, startCount, signals]
  ascending := .nil
  ordered := .nil
  before := nofun
  numbered := rfl
  started := nofun
  queued := nofun

/-- Events other than resets add to what happened since the last one. -/
theorem sinceReset_append {es : List SemEvent} (log : List SemEvent) (noReset : ∀ e ∈ es, e.isReset = false) :
    sinceReset (es ++ log) = es ++ sinceReset log := by
  rw [sinceReset, List.takeWhile_append_of_pos (by simpa using noReset)]
  rfl

theorem startCount_append (log : List SemEvent) : ∀ {es : List SemEvent}, (∀ e ∈ es, e.isReset = false) →
    startCount init (es ++ log) = startCount init log
  | [], _ => rfl
  | e :: es, noReset => by
    obtain ⟨notReset, noReset⟩ := List.forall_mem_cons.1 noReset
    rw [List.cons_append, ← startCount_append log noReset]
    cases e <;> first | rfl | cases notReset

/-- Events keep the account if the tokens given and left change as those that come. -/
theorem balance_append (es : List SemEvent) {log : List SemEvent} {c c' : Int} (noReset : ∀ e ∈ es, e.isReset = false)
    (balance : ((grants (sinceReset log)).length : Int) + max c 0 = startCount init log + signals (sinceReset log))
    (change : ((grants es).length : Int) + max c' 0 = max c 0 + signals es) :
    ((grants (sinceReset (es ++ log))).length : Int) + max c' 0 =
      startCount init (es ++ log) + signals (sinceReset (es ++ log)) := by
  rw [sinceReset_append log noReset, startCount_append log noReset]
  have given : grants (es ++ sinceReset log) = grants es ++ grants (sinceReset log) := List.filterMap_append
  have came : signals (es ++ sinceReset log) = signals es + signals (sinceReset log) := List.count_append
  rw [given, came, List.length_append]
  push_cast
  omega

theorem Step.ok (step : Step x y) (ok : Ok init x) : Ok init y := by
  obtain ⟨length, balance, ascending, ordered, before, numbered, started, queued⟩ := ok
  have numbered' : x.waits :: starts x.log = (List.range (x.waits + 1)).reverse := by
    rw [List.range_succ, List.reverse_append, numbered, List.reverse_singleton, List.singleton_append]
  cases step with
  | take pos =>
    have empty : x.queue = [] := List.eq_nil_of_length_eq_zero (by omega)
    refine ⟨?_, ?_, ascending, List.pairwise_cons.2 ⟨started, ordered⟩, ?_, numbered', ?_, ?_⟩
    · dsimp only
      omega
    · refine balance_append [.grant x.waits, .wait x.waits] (by simp [isReset]) balance ?_
      change 1 + max (x.cnt - 1) 0 = max x.cnt 0 + 0
      omega
    · rw [empty]
      nofun
    · intro k mem
      rcases List.mem_cons.1 mem with rfl | mem
      · exact Nat.lt_succ_self _
      · exact Nat.lt_succ_of_lt (started k mem)
    · exact fun q mem => Nat.lt_succ_of_lt (queued q mem)
  | block low =>
    refine ⟨?_, ?_, ?_, ordered, ?_, numbered', fun k mem => Nat.lt_succ_of_lt (started k mem), ?_⟩
    · dsimp only
      rw [List.length_append, length, List.length_singleton]
      omega
    · refine balance_append [.wait x.waits] (by simp [isReset]) balance ?_
      change 0 + max (x.cnt - 1) 0 = max x.cnt 0 + 0
      omega
    · exact List.pairwise_append.2 ⟨ascending, List.pairwise_singleton _ _, by simpa using queued⟩
    · intro k given q mem
      rcases List.mem_append.1 mem with mem | mem
      · exact before k given q mem
      · rw [List.mem_singleton.1 mem]
        exact started k given
    · intro q mem
      rcases List.mem_append.1 mem with mem | mem
      · exact Nat.lt_succ_of_lt (queued q mem)
      · rw [List.mem_singleton.1 mem]
        exact Nat.lt_succ_self _
  | signal high =>
    refine ⟨?_, ?_, ascending, ordered, before, numbered, started, queued⟩
    · dsimp only
      omega
    · refine balance_append [.signal] (by simp [isReset]) balance ?_
      change 0 + max (x.cnt + 1) 0 = max x.cnt 0 + 1
      omega
  | pass k q low first =>
    rw [first] at length ascending before queued
    obtain ⟨least, rest⟩ := List.pairwise_cons.1 ascending
    refine ⟨?_, ?_, rest, List.pairwise_cons.2 ⟨fun k' given => before k' given k (.head _), ordered⟩, ?_, numbered,
      ?_, fun q' mem => queued q' (List.mem_cons_of_mem k mem)⟩
    · rw [List.length_cons] at length
      dsimp only
      omega
    · refine balance_append [.grant k, .signal] (by simp [isReset]) balance ?_
      change 1 + max (x.cnt + 1) 0 = max x.cnt 0 + 1
      omega
    · intro k' given q' mem
      rcases List.mem_cons.1 given with rfl | given
      · exact least q' mem
      · exact before k' given q' (List.mem_cons_of_mem k mem)
    · intro k' given
      rcases List.mem_cons.1 given with rfl | given
      · exact queued k' List.mem_cons_self
      · exact started k' given
  | expire k mem =>
    have sub : x.queue.erase k ⊆ x.queue := List.erase_subset
    refine ⟨?_, ?_, ascending.sublist List.erase_sublist, ordered, fun k' given q' mem => before k' given q' (sub mem),
      numbered, started, fun q' mem => queued q' (sub mem)⟩
    · dsimp only
      rw [List.length_erase_of_mem mem, length]
      omega
    · have : 0 < x.queue.length := List.length_pos_of_mem mem
      refine balance_append [.expire k] (by simp [isReset]) balance ?_
      change 0 + max (x.cnt + 1) 0 = max x.cnt 0 + 0
      omega
  | reset n =>
    refine ⟨?_, ?_, .nil, ordered, nofun, numbered, started, nofun⟩
    · simp
    · simp [sinceReset, isReset, grants, startCount, signals]

theorem Steps.ok (steps : Steps x y) (ok : Ok init x) : Ok init y := by
  induction steps with
  | refl => exact ok
  | tail _ step ih => exact step.ok ih

/-- With the counter below zero somebody waits. -/
theorem Ok.queue_eq_cons (ok : Ok init x) (low : x.cnt < 0) : ∃ k q, x.queue = k :: q := by
  have := ok.length
  exact List.exists_cons_of_length_pos (by omega)

/-- A wait that leaves the queue, where the waits belong to threads. -/
theorem map_erase_of_nodup {α : Type} [DecidableEq α] {f : α → Nat} {a : α} : ∀ {l : List α}, (l.map f).Nodup → a ∈ l →
    (l.erase a).map f = (l.map f).erase (f a)
  | b :: l, nodup, mem => by
    by_cases same : b = a
    · rw [same, List.erase_cons_head, List.map_cons, List.erase_cons_head]
    · obtain ⟨notMem, nodup⟩ := List.nodup_cons.1 nodup
      replace mem := (List.mem_cons.1 mem).resolve_left (Ne.symm same)
      have apart : f b ≠ f a := fun eq => notMem (eq ▸ List.mem_map_of_mem mem)
      rw [List.erase_cons_tail (by simpa using same), List.map_cons, List.map_cons,
        List.erase_cons_tail (by simpa using apart), map_erase_of_nodup nodup mem]

end Sem

end ChibiOS.Lib
