import Mathlib.Tactic

/-!
# Programs over a state that may not return

A program of type `Prog σ α` runs from a state to a result and a state, or has no
outcome: a loop that never ends, an operation without a meaning. The rules below
say how what every returning run leads to (`Triple`), or preserves, is put together
from the parts of a program.
-/

namespace ChibiOS.Lib

/-- A program over the states `σ`; `none` where it has no outcome. -/
abbrev Prog (σ α : Type) := StateT σ Option α

namespace Prog

variable {σ α β : Type} {p : Prog σ α} {k : α → Prog σ β} {s s' : σ}

theorem bind_eq_some {b : β} : (p >>= k) s = some (b, s') ↔ ∃ a m, p s = some (a, m) ∧ k a m = some (b, s') := by
  simp only [bind, StateT.bind, Option.bind_eq_some_iff, Prod.exists]

theorem pure_eq_some {a b : α} : (pure a : Prog σ α) s = some (b, s') ↔ a = b ∧ s = s' := by
  show some (a, s) = some (b, s') ↔ _
  simp

theorem modify_eq_some {g : σ → σ} {u : PUnit} : (modify g : Prog σ PUnit) s = some (u, s') ↔ g s = s' := by
  show some (PUnit.unit, g s) = some (u, s') ↔ _
  simp

theorem get_eq_some {m : σ} : (get : Prog σ σ) s = some (m, s') ↔ s = m ∧ s = s' := by
  show some (s, s) = some (m, s') ↔ _
  simp

/-- The second step is made only if the first one succeeds. -/
def andThen (p q : Prog σ Bool) : Prog σ Bool := do
  if ← p then q else return false

/-- What a round of a bounded loop decides. -/
inductive Round
  | done
  | again
  | failed

/-- At most `n` rounds, until one of them decides. -/
def retry (n : Nat) (round : Prog σ Round) : Prog σ Bool :=
  match n with
  | 0 => return false
  | n + 1 => do
    match ← round with
    | .done => return true
    | .failed => return false
    | .again => retry n round

/-! ## Pre- and postconditions -/

/-- Each run from `P` that returns, returns with `Q`. -/
def Triple (P : σ → Prop) (p : Prog σ α) (Q : α → σ → Prop) : Prop := ∀ ⦃s a s'⦄, P s → p s = some (a, s') → Q a s'

variable {P P' : σ → Prop} {Q Q' : α → σ → Prop}

theorem Triple.weaken (holds : Triple P p Q) (pre : ∀ s, P' s → P s) (post : ∀ a s, Q a s → Q' a s) : Triple P' p Q' :=
  fun _ _ _ at_ ran => post _ _ (holds (pre _ at_) ran)

theorem Triple.pure {a : α} (post : ∀ s, P s → Q a s) : Triple P (pure a) Q := by
  intro s b s' at_ ran
  obtain ⟨rfl, rfl⟩ := pure_eq_some.1 ran
  exact post s at_

theorem Triple.modify {g : σ → σ} {Q : PUnit → σ → Prop} (post : ∀ s, P s → Q ⟨⟩ (g s)) : Triple P (modify g) Q := by
  intro s u s' at_ ran
  rw [← modify_eq_some.1 ran]
  exact post s at_

theorem Triple.get : Triple P (get : Prog σ σ) fun m s => m = s ∧ P s := by
  intro s m s' at_ ran
  obtain ⟨rfl, rfl⟩ := get_eq_some.1 ran
  exact ⟨rfl, at_⟩

theorem Triple.bind {R : β → σ → Prop} (first : Triple P p Q) (rest : ∀ a, Triple (Q a) (k a) R) : Triple P (p >>= k) R := by
  intro s b s' at_ ran
  obtain ⟨a, m, ran₁, ran₂⟩ := bind_eq_some.1 ran
  exact rest a (first at_ ran₁) ran₂

/-- The state that is read is one of the precondition. -/
theorem Triple.read {k : σ → Prog σ α} (rest : ∀ m, P m → Triple P (k m) Q) : Triple P (MonadState.get >>= k) Q := by
  intro s b s' at_ ran
  obtain ⟨m, _, got, ran⟩ := bind_eq_some.1 ran
  obtain ⟨rfl, rfl⟩ := get_eq_some.1 got
  exact rest s at_ at_ ran

theorem Triple.ite {c : Prop} [Decidable c] {q : Prog σ α} (yes : c → Triple P p Q) (no : ¬c → Triple P q Q) :
    Triple P (if c then p else q) Q := by
  split
  · exact yes ‹_›
  · exact no ‹_›

theorem Triple.andThen {p q : Prog σ Bool} {R S : Bool → σ → Prop} (first : Triple P p R) (second : Triple (R true) q S)
    (ended : ∀ s, R false s → S false s) : Triple P (p.andThen q) S := by
  refine first.bind fun b => ?_
  cases b with
  | true => exact second
  | false => exact .pure ended

/-- A bounded loop with the invariant `P`. -/
theorem Triple.retry {round : Prog σ Round} {R : Bool → σ → Prop} (ended : ∀ s, P s → R false s)
    (each : Triple P round fun r s => match r with
      | .done => R true s
      | .failed => R false s
      | .again => P s) : ∀ n, Triple P (retry n round) R
  | 0 => .pure ended
  | n + 1 => each.bind fun
    | .done => .pure fun _ at_ => at_
    | .failed => .pure fun _ at_ => at_
    | .again => Triple.retry ended each n

/-- `P` is an invariant. -/
abbrev Preserves (P : σ → Prop) (p : Prog σ α) : Prop := Triple P p fun _ => P

theorem Triple.stay {a : α} : Preserves P (Pure.pure a : Prog σ α) := .pure fun _ at_ => at_

theorem Preserves.retry {round : Prog σ Round} (each : Preserves P round) (n : Nat) : Preserves P (retry n round) :=
  Triple.retry (R := fun _ => P) (fun _ at_ => at_) (each.weaken (fun _ at_ => at_) fun r _ at_ => by cases r <;> exact at_) n

theorem Preserves.andThen {p q : Prog σ Bool} (first : Preserves P p) (second : Preserves P q) : Preserves P (p.andThen q) :=
  Triple.andThen first second fun _ at_ => at_

/-- Whatever was before, and whatever comes of it. -/
theorem Triple.any : Triple P p fun _ _ => True := fun _ _ _ _ _ => trivial

end Prog

end ChibiOS.Lib
