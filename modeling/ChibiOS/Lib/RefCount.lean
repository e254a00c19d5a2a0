import Mathlib.Data.List.Nodup
import Mathlib.Logic.Function.Basic
import Mathlib.Logic.Relation

/-!
# Reference counts with a deferred check

Objects are freed when their count is found to be zero. A reference is held, or has
been handed to somebody who will drop it; a drop that finds the count at zero leaves
a check behind, and only the check may free the object. Nothing else keeps the object
from being referenced between the drop and the check: `Step.take` says that nobody
does.
-/

namespace ChibiOS.Lib

open Function

variable {ι : Type*} [DecidableEq ι]

/-- The count of each object, the references held, those handed over to be dropped, the
checks that are due, and the objects freed. -/
@[ext] structure RefCount (ι : Type*) where
  refs : ι → Nat
  held : ι → Nat
  handed : ι → Nat
  checks : ι → Nat
  freed : List ι

namespace RefCount

def take (i : ι) (x : RefCount ι) : RefCount ι :=
  { x with refs := update x.refs i (x.refs i + 1), held := update x.held i (x.held i + 1) }

def hand (i : ι) (x : RefCount ι) : RefCount ι :=
  { x with held := update x.held i (x.held i - 1), handed := update x.handed i (x.handed i + 1) }

def drop (i : ι) (x : RefCount ι) : RefCount ι :=
  { x with
    refs := update x.refs i (x.refs i - 1)
    handed := update x.handed i (x.handed i - 1)
    checks := if x.refs i = 1 then update x.checks i (x.checks i + 1) else x.checks }

def check (i : ι) (free : Bool) (x : RefCount ι) : RefCount ι :=
  { x with
    checks := update x.checks i (x.checks i - 1)
    freed := if free then i :: x.freed else x.freed }

inductive Step (x : RefCount ι) : RefCount ι → Prop
  | take (i : ι) : i ∉ x.freed → x.checks i = 0 → Step x (x.take i)
  | hand (i : ι) : 0 < x.held i → Step x (x.hand i)
  | drop (i : ι) : 0 < x.handed i → Step x (x.drop i)
  | check (i : ι) (free : Bool) : 0 < x.checks i → Step x (x.check i free)

def Steps : RefCount ι → RefCount ι → Prop := Relation.ReflTransGen Step

structure Ok (x : RefCount ι) : Prop where
  count : ∀ i, x.refs i = x.held i + x.handed i
  /-- A check that is due is the only one, and the object is not referenced. -/
  check : ∀ i, 0 < x.checks i → x.checks i = 1 ∧ x.refs i = 0 ∧ i ∉ x.freed
  /-- What has been freed is not referenced. -/
  freed : ∀ i ∈ x.freed, x.refs i = 0
  nodup : x.freed.Nodup

variable {x y : RefCount ι}

/-- One object's count changes as its references do. -/
theorem Ok.count_update (ok : Ok x) (i : ι) {r h d : Nat} (eq : r = h + d) (j : ι) :
    update x.refs i r j = update x.held i h j + update x.handed i d j := by
  by_cases same : j = i
  · subst same
    simpa only [update_self] using eq
  · simpa only [update_of_ne same] using ok.count j

theorem Ok.take {i : ι} (ok : Ok x) (notFreed : i ∉ x.freed) (noCheck : x.checks i = 0) : Ok (x.take i) := by
  have counted := ok.count i
  refine ⟨fun j => ?_, fun j due => ?_, fun j mem => ?_, ok.nodup⟩
  · simpa [RefCount.take] using ok.count_update i (show x.refs i + 1 = x.held i + 1 + x.handed i by omega) j
  · have other : j ≠ i := by
      rintro rfl
      exact Nat.lt_irrefl 0 (noCheck ▸ due)
    simpa only [RefCount.take, update_of_ne other] using ok.check j due
  · have other : j ≠ i := by
      rintro rfl
      exact notFreed mem
    simpa only [RefCount.take, update_of_ne other] using ok.freed j mem

theorem Ok.hand {i : ι} (ok : Ok x) (held : 0 < x.held i) : Ok (x.hand i) := by
  have counted := ok.count i
  refine ⟨fun j => ?_, ok.check, ok.freed, ok.nodup⟩
  simpa [RefCount.hand] using ok.count_update i (show x.refs i = x.held i - 1 + (x.handed i + 1) by omega) j

theorem Ok.drop {i : ι} (ok : Ok x) (handed : 0 < x.handed i) : Ok (x.drop i) := by
  have counted := ok.count i
  have noCheck : x.checks i = 0 := by
    by_contra due
    have := (ok.check i (Nat.pos_of_ne_zero due)).2.1
    omega
  have notFreed : i ∉ x.freed := fun mem => by
    have := ok.freed i mem
    omega
  refine ⟨fun j => ?_, fun j due => ?_, fun j mem => ?_, ok.nodup⟩
  · simpa [RefCount.drop] using ok.count_update i (show x.refs i - 1 = x.held i + (x.handed i - 1) by omega) j
  · by_cases same : j = i
    · subst same
      by_cases last : x.refs j = 1
      · simp [RefCount.drop, last, noCheck, notFreed]
      · simp only [RefCount.drop, if_neg last] at due
        omega
    · have frame : (x.drop i).checks j = x.checks j := by
        simp only [RefCount.drop]
        split
        · exact update_of_ne same ..
        · rfl
      rw [frame] at due ⊢
      simpa only [RefCount.drop, update_of_ne same] using ok.check j due
  · have other : j ≠ i := by
      rintro rfl
      exact notFreed mem
    simpa only [RefCount.drop, update_of_ne other] using ok.freed j mem

theorem Ok.checked {i : ι} (ok : Ok x) (due : 0 < x.checks i) (free : Bool) : Ok (x.check i free) := by
  obtain ⟨one, zero, notFreed⟩ := ok.check i due
  refine ⟨ok.count, fun j due => ?_, fun j mem => ?_, ?_⟩
  · have other : j ≠ i := by
      rintro rfl
      simp only [RefCount.check, update_self, one] at due
      omega
    simp only [RefCount.check, update_of_ne other] at due ⊢
    obtain ⟨one, zero, old⟩ := ok.check j due
    refine ⟨one, zero, ?_⟩
    split
    · simpa [other] using old
    · exact old
  · simp only [RefCount.check] at mem
    split at mem
    · rcases List.mem_cons.1 mem with rfl | mem
      · exact zero
      · exact ok.freed j mem
    · exact ok.freed j mem
  · simp only [RefCount.check]
    split
    · exact List.nodup_cons.2 ⟨notFreed, ok.nodup⟩
    · exact ok.nodup

theorem Step.ok (step : Step x y) (ok : Ok x) : Ok y := by
  cases step with
  | take i notFreed noCheck => exact ok.take notFreed noCheck
  | hand i held => exact ok.hand held
  | drop i handed => exact ok.drop handed
  | check i free due => exact ok.checked due free

theorem Steps.ok (steps : Steps x y) (ok : Ok x) : Ok y := by
  induction steps with
  | refl => exact ok
  | tail _ step ih => exact step.ok ih

end RefCount

end ChibiOS.Lib
