import Mathlib.Logic.Relation

/-!
# Labelled transition systems with a partial step function

A system is an initial state and a step function that is undefined where a
label is not enabled. `Reach ok` collects the states of all runs whose steps
meet the condition `ok` (a predicate of the state before the step and of the
label), so that one system serves for unrestricted runs and for runs that keep
a discipline. Invariants are proved by `Reach.invariant`; concrete runs are
evaluated by `run` and enter `Reach` through `Reach.of_run`.
-/

namespace ChibiOS.Lib

universe u v

/-- An initial state and a partial step function. -/
structure Lts (σ : Type u) (ℓ : Type v) where
  init : σ
  next : ℓ → σ → Option σ

namespace Lts

variable {σ : Type u} {ℓ : Type v} {M : Lts σ ℓ} {ok : σ → ℓ → Prop}

/-- The states reached by runs all of whose steps meet `ok`. -/
inductive Reach (M : Lts σ ℓ) (ok : σ → ℓ → Prop) : σ → Prop
  | init : Reach M ok M.init
  | step {s s' : σ} {l : ℓ} : Reach M ok s → ok s l → M.next l s = some s' → Reach M ok s'

/-- The invariant rule: what holds initially and survives every permitted step
holds in every reached state. -/
theorem Reach.invariant {I : σ → Prop} (start : I M.init)
    (keep : ∀ s l s', I s → ok s l → M.next l s = some s' → I s') {s : σ} (reached : Reach M ok s) :
    I s := by
  induction reached with
  | init => exact start
  | step _ permitted taken ih => exact keep _ _ _ ih permitted taken

/-- A weaker discipline reaches more. -/
theorem Reach.mono {ok' : σ → ℓ → Prop} (weaker : ∀ s l, ok s l → ok' s l) {s : σ}
    (reached : Reach M ok s) : Reach M ok' s := by
  induction reached with
  | init => exact .init
  | step _ permitted taken ih => exact .step ih (weaker _ _ permitted) taken

/-- The run over a list of labels, when every label is enabled in turn. -/
def run (M : Lts σ ℓ) : List ℓ → σ → Option σ
  | [], s => some s
  | l :: ls, s => (M.next l s).bind (M.run ls)

/-- Every step of the run meets the (decidable) condition `ok`. -/
def runOk (M : Lts σ ℓ) (ok : σ → ℓ → Bool) : List ℓ → σ → Bool
  | [], _ => true
  | l :: ls, s => ok s l && match M.next l s with
    | some s' => M.runOk ok ls s'
    | none => true

theorem Reach.of_run_from {ok : σ → ℓ → Bool} : ∀ (ls : List ℓ) {s s' : σ},
    Reach M (fun s l => ok s l = true) s → M.runOk ok ls s = true → M.run ls s = some s' →
    Reach M (fun s l => ok s l = true) s'
  | [], s, s', reached, _, ran => by
    cases ran
    exact reached
  | l :: ls, s, s', reached, meets, ran => by
    simp only [run] at ran
    cases taken : M.next l s with
    | none => simp [taken] at ran
    | some m =>
      simp only [runOk, taken, Bool.and_eq_true] at meets
      exact Reach.of_run_from ls (.step reached meets.1 taken) meets.2 (by simpa [taken] using ran)

/-- A concrete run ends in a reached state. -/
theorem Reach.of_run {ok : σ → ℓ → Bool} (ls : List ℓ) {s : σ}
    (meets : M.runOk ok ls M.init = true) (ran : M.run ls M.init = some s) :
    Reach M (fun s l => ok s l = true) s :=
  Reach.of_run_from ls .init meets ran

/-- What holds in the states reached holds at the end of a concrete run. -/
theorem exists_run {P : σ → Prop} {ls : List ℓ} {s : σ} [∀ s l, Decidable (ok s l)]
    (meets : M.runOk (fun s l => decide (ok s l)) ls M.init = true) (ran : M.run ls M.init = some s)
    (ends : Reach M ok s → P s) : ∃ s, M.run ls M.init = some s ∧ P s :=
  ⟨s, ran, ends ((Reach.of_run ls meets ran).mono fun _ _ => of_decide_eq_true)⟩

theorem exists_run₂ {α : Type*} {P : σ → α → Prop} {ls : List ℓ} {s : σ} [∀ s l, Decidable (ok s l)]
    (meets : M.runOk (fun s l => decide (ok s l)) ls M.init = true) (ran : M.run ls M.init = some s)
    (ends : Reach M ok s → ∃ x, P s x) : ∃ s x, M.run ls M.init = some s ∧ P s x := by
  obtain ⟨s, ran, x, holds⟩ := exists_run (P := fun s => ∃ x, P s x) meets ran ends
  exact ⟨s, x, ran, holds⟩

/-! ## Runs with their steps -/

/-- A run: its steps, the last first, with the states before and after each, and the
state that it ends in. -/
inductive Trace (M : Lts σ ℓ) : List (σ × ℓ × σ) → σ → Prop
  | init : Trace M [] M.init
  | step {s s' : σ} {l : ℓ} {steps : List (σ × ℓ × σ)} : Trace M steps s → M.next l s = some s' →
      Trace M ((s, l, s') :: steps) s'

theorem Trace.reach {s : σ} {steps : List (σ × ℓ × σ)} (trace : Trace M steps s) : Reach M (fun _ _ => True) s := by
  induction trace with
  | init => exact .init
  | step _ taken ih => exact .step ih trivial taken

/-- The run over a list of labels, after other steps. -/
def trace (M : Lts σ ℓ) : List ℓ → List (σ × ℓ × σ) → σ → Option (List (σ × ℓ × σ) × σ)
  | [], steps, s => some (steps, s)
  | l :: ls, steps, s => (M.next l s).bind fun s' => M.trace ls ((s, l, s') :: steps) s'

theorem Trace.of_trace : ∀ (ls : List ℓ) {s s' : σ} {steps steps' : List (σ × ℓ × σ)}, Trace M steps s →
    M.trace ls steps s = some (steps', s') → Trace M steps' s'
  | [], s, s', steps, steps', before, ran => by
    cases ran
    exact before
  | l :: ls, s, s', steps, steps', before, ran => by
    simp only [trace] at ran
    cases taken : M.next l s with
    | none => simp [taken] at ran
    | some s₁ => exact Trace.of_trace ls (.step before taken) (by simpa [taken] using ran)

end Lts

end ChibiOS.Lib
