import ChibiOS.Lib.Lts
import ChibiOS.Kernel.Time
import Mathlib.Data.List.Nodup
import Mathlib.Tactic.Linarith

/-!
# Virtual timers refine absolute expiries

The code stores differences between consecutive expiries. `Expiries` is what
the timers are for: a tick count and, for each armed timer, the absolute tick
of its expiry. Setting arms at `now + delay`, a tick may only pass when nothing
is overdue, and a callback runs exactly when its expiry is now.

`TimerSys` runs the functions of `chvt.c` on one list: sets, resets and ticks
in any order, where a tick stops at each callback so that further sets and
resets (the callback's own, or a nested interrupt's) fall inside it. The
representation is that a timer's expiry is `now` plus the sum of the deltas up
to it; every operation keeps these sums.
-/

namespace ChibiOS.Kernel

open Function
open ChibiOS.Lib
open Option (map_eq_some_iff map_some map_map)
open UInt32 (lt_iff_toNat_lt toNat_sub_of_le le_iff_toNat_le)
open List (mem_cons map_cons nodup_cons)

/-- What happens to the timers, as an observer of the interface sees it. -/
inductive TimerEvent (ι : Type)
  | set (v : ι) (delay : Systime)
  | reset (v : ι)
  | tick
  | fire (v : ι)

namespace TimerEvent

variable {ι : Type}

/-- Ticks in a history. -/
def ticks : List (TimerEvent ι) → Nat
  | [] => 0
  | .tick :: h => ticks h + 1
  | _ :: h => ticks h

/-- The event concerns timer `v`. -/
def About (v : ι) : TimerEvent ι → Prop
  | .set w _ | .reset w | .fire w => w = v
  | .tick => False

theorem ticks_append (h k : List (TimerEvent ι)) : ticks (h ++ k) = ticks h + ticks k := by
  induction h with
  | nil => simp [ticks]
  | cons ev h ih => cases ev <;> simp [ticks, ih]; omega

end TimerEvent

open TimerEvent (ticks About)

/-! ## Absolute expiries -/

/-- Timers by their absolute expiry tick. -/
structure Expiries (ι : Type) where
  now : Nat
  expiry : ι → Option Nat

namespace Expiries

variable {ι : Type} [DecidableEq ι] {e : Expiries ι} {v : ι} {h older : List (TimerEvent ι)}

/-- One event on the timers. -/
inductive Step : Expiries ι → TimerEvent ι → Expiries ι → Prop
  | set {e : Expiries ι} {v : ι} {d : Systime} : e.expiry v = none →
      Step e (.set v d) { e with expiry := update e.expiry v (some (e.now + d.toNat)) }
  | reset {e : Expiries ι} {v : ι} {x : Nat} : e.expiry v = some x →
      Step e (.reset v) { e with expiry := update e.expiry v none }
  | tick {e : Expiries ι} : (∀ v x, e.expiry v = some x → e.now < x) →
      Step e .tick { e with now := e.now + 1 }
  | fire {e : Expiries ι} {v : ι} : e.expiry v = some e.now →
      Step e (.fire v) { e with expiry := update e.expiry v none }

/-- Histories from no timers, the latest event first. -/
inductive Runs : List (TimerEvent ι) → Expiries ι → Prop
  | nil : Runs [] ⟨0, fun _ => none⟩
  | cons {h : List (TimerEvent ι)} {e e' : Expiries ι} {ev : TimerEvent ι} :
      Runs h e → Step e ev e' → Runs (ev :: h) e'

theorem Runs.now_eq (runs : Runs h e) : e.now = ticks h := by
  induction runs with
  | nil => rfl
  | cons _ step ih => cases step <;> simp [ticks, ih]

/-- A step that is not about `v` leaves its expiry alone. -/
theorem Step.frame {e' : Expiries ι} {ev : TimerEvent ι} (step : Step e ev e') (other : ¬ About v ev) : e'.expiry v = e.expiry v := by
  cases step with
  | tick => rfl
  | set | reset | fire => simp only [About] at other; exact update_of_ne (Ne.symm other) _ _

/-- Nothing is overdue. -/
theorem Runs.not_overdue (runs : Runs h e) : ∀ v x, e.expiry v = some x → e.now ≤ x := by
  induction runs with
  | nil => simp
  | cons _ step ih =>
    intro v x armed
    cases step with
    | tick ahead => exact ahead v x armed
    | @set w d _ =>
      by_cases same : v = w
      · subst same
        simp only [update_self, Option.some.injEq] at armed
        simp only; omega
      · exact ih v x (by simpa [update_of_ne same] using armed)
    | @reset w _ _ =>
      by_cases same : v = w
      · subst same; simp at armed
      · exact ih v x (by simpa [update_of_ne same] using armed)
    | @fire w _ =>
      by_cases same : v = w
      · subst same; simp at armed
      · exact ih v x (by simpa [update_of_ne same] using armed)

/-- Dropping the latest events leaves a history. -/
theorem Runs.suffix {k : List (TimerEvent ι)} : ∀ (h : List (TimerEvent ι)) {e : Expiries ι},
    Runs (h ++ k) e → ∃ e', Runs k e'
  | [], e, runs => ⟨e, runs⟩
  | _ :: h, _, .cons runs _ => Runs.suffix h runs

/-- An armed timer expires its delay after the tick at which it was set. -/
theorem Runs.expiry_of_set {d : Systime} :
    ∀ (since : List (TimerEvent ι)) {e : Expiries ι}, Runs (since ++ .set v d :: older) e →
      (∀ ev ∈ since, ¬ About v ev) → e.expiry v = some (ticks older + d.toNat)
  | [], e, .cons runs step, _ => by
    cases step
    simp [runs.now_eq]
  | ev :: since, e, .cons runs step, quiet => by
    rw [step.frame (quiet ev (by simp))]
    exact runs.expiry_of_set since (fun ev' mem => quiet ev' (by simp [mem]))

/-- Whatever is armed was set, and nothing about it has happened since. -/
theorem Runs.set_of_expiry (runs : Runs h e) : ∀ {x : Nat}, e.expiry v = some x → ∃ since d older,
      h = since ++ .set v d :: older ∧ ∀ ev ∈ since, ¬ About v ev := by
  induction runs with
  | nil => simp
  | @cons h e e' ev runs step ih =>
    intro x armed
    by_cases about : About v ev
    · cases step with
      | tick => exact about.elim
      | @set w d _ => cases about; exact ⟨[], d, h, rfl, by simp⟩
      | reset | fire => cases about; simp at armed
    · rw [step.frame about] at armed
      obtain ⟨since, d, older, rfl, quiet⟩ := ih armed
      refine ⟨ev :: since, d, older, rfl, ?_⟩
      intro ev' mem
      rcases mem_cons.1 mem with rfl | mem
      · exact about
      · exact quiet ev' mem

/-- A callback runs on the delay-th tick after its timer was set. -/
theorem Runs.fire_delay {d : Systime} {newer since : List (TimerEvent ι)}
    (runs : Runs (newer ++ .fire v :: (since ++ .set v d :: older)) e) (quiet : ∀ ev ∈ since, ¬ About v ev) : ticks since = d.toNat := by
  obtain ⟨e', runs'⟩ := runs.suffix newer
  cases runs' with
  | cons earlier step =>
    cases step with
    | fire due =>
      have set := earlier.expiry_of_set since quiet
      have now := earlier.now_eq
      rw [TimerEvent.ticks_append] at now
      simp only [ticks] at now
      rw [due, Option.some.injEq] at set
      omega

/-- A callback only runs for a timer that was set and not touched since. -/
theorem Runs.fire_set {newer : List (TimerEvent ι)} (runs : Runs (newer ++ .fire v :: older) e) : ∃ since d rest,
      older = since ++ .set v d :: rest ∧ ∀ ev ∈ since, ¬ About v ev := by
  obtain ⟨e', runs'⟩ := runs.suffix newer
  cases runs' with
  | cons earlier step =>
    cases step with
    | fire due => exact earlier.set_of_expiry due

end Expiries

/-! ## Delta lists -/

section DeltaList

variable {ι φ : Type} [DecidableEq ι] {v : ι} {hdr : Systime}

/-- Ticks left to timer `v`: the sum of the deltas up to its own. -/
def remaining (v : ι) : List (ι × Systime) → Option Nat
  | [] => none
  | (p, d) :: ps => if p = v then some d.toNat else (remaining v ps).map (d.toNat + ·)

/-- Ticks left to the last timer. -/
def span : List (ι × Systime) → Nat
  | [] => 0
  | (_, d) :: ps => d.toNat + span ps

/-- How many timers are due now: the leading zero deltas. -/
def due : List (ι × Systime) → Nat
  | [] => 0
  | (_, d) :: ps => if d = 0 then due ps + 1 else 0

theorem remaining_eq_none {l : List (ι × Systime)} : remaining v l = none ↔ v ∉ l.map Prod.fst := by
  induction l with
  | nil => simp [remaining]
  | cons a l ih =>
    obtain ⟨p, d⟩ := a
    by_cases same : p = v
    · simp [remaining, same]
    · simp [remaining, same, ih, Ne.symm same]

theorem toNat_eq_zero {d : Systime} : d.toNat = 0 ↔ d = 0 := by
  rw [← UInt32.toNat_inj, UInt32.toNat_zero]

omit [DecidableEq ι] in
/-- With the reserved header value the insertion scan cannot pass the header. -/
theorem vtInsert_isSome (v : ι) : ∀ (l : List (ι × Systime)) (t : Systime), (vtInsert (-1) v l t).isSome = true
  | [], t => by
    have top : ¬ (-1 : Systime) < t := by
      rw [lt_iff_toNat_lt]
      have := t.toNat_lt
      have : (-1 : Systime).toNat = 2 ^ 32 - 1 := by decide
      omega
    simp [vtInsert, top]
  | (p, d) :: ps, t => by
    by_cases less : d < t
    · simp [vtInsert, less, vtInsert_isSome v ps]
    · simp [vtInsert, less]

omit [DecidableEq ι] in
/-- Where the scan stops: behind the last timer, or at one that is not before the new one; the differences do not wrap. -/
theorem vtInsert_induction {P : List (ι × Systime) → Systime → List (ι × Systime) → Prop}
    (last : ∀ t, P [] t [(v, t)])
    (stop : ∀ p d ps t, t.toNat ≤ d.toNat → (d - t).toNat = d.toNat - t.toNat → P ((p, d) :: ps) t ((v, t) :: (p, d - t) :: ps))
    (pass : ∀ p d ps t l, d.toNat < t.toNat → (t - d).toNat = t.toNat - d.toNat → P ps (t - d) l →
      P ((p, d) :: ps) t ((p, d) :: l)) :
    ∀ {l l' : List (ι × Systime)} {t : Systime}, vtInsert hdr v l t = some l' → P l t l'
  | [], _, t, inserted => by
    obtain ⟨-, ⟨⟩⟩ := Option.ite_none_left_eq_some.1 inserted
    exact last t
  | (p, d) :: ps, _, t, inserted => by
    simp only [vtInsert] at inserted
    split at inserted
    next less =>
      obtain ⟨l, rest, rfl⟩ := map_eq_some_iff.1 inserted
      exact pass p d ps t l (lt_iff_toNat_lt.1 less) (toNat_sub_of_le t d (UInt32.le_of_lt less))
        (vtInsert_induction last stop pass rest)
    next stops =>
      have le := UInt32.not_lt.1 stops
      cases inserted
      exact stop p d ps t (le_iff_toNat_le.1 le) (toNat_sub_of_le d t le)

/-- Inserting gives the new timer its delay and keeps everyone else's. -/
theorem remaining_vtInsert {l l' : List (ι × Systime)} {t : Systime} (inserted : vtInsert hdr v l t = some l') :
    v ∉ l.map Prod.fst → remaining v l' = some t.toNat ∧ ∀ w, w ≠ v → remaining w l' = remaining w l := by
  refine vtInsert_induction (P := fun l t l' => v ∉ l.map Prod.fst → remaining v l' = some t.toNat ∧
    ∀ w, w ≠ v → remaining w l' = remaining w l) (fun t _ => ?_) (fun p d ps t le sub _ => ?_)
    (fun p d ps t l less sub ih fresh => ?_) inserted
  · exact ⟨by simp [remaining], fun w other => by simp [remaining, Ne.symm other]⟩
  · refine ⟨by simp [remaining], fun w other => ?_⟩
    simp only [remaining, Ne.symm other, if_false, sub]
    split
    · simp only [map_some, Option.some.injEq]; omega
    · cases remaining w ps with
      | none => rfl
      | some n => simp only [map_some, Option.some.injEq]; omega
  · simp only [map_cons, mem_cons, not_or] at fresh
    obtain ⟨self, others⟩ := ih fresh.2
    refine ⟨?_, fun w other => by simp only [remaining, others w other]⟩
    simp only [remaining, Ne.symm fresh.1, if_false, self, map_some, sub, Option.some.injEq]
    omega

section

omit [DecidableEq ι]

variable {l l' : List (ι × Systime)} {t : Systime} (inserted : vtInsert hdr v l t = some l')
include inserted

theorem keys_vtInsert : (l'.map Prod.fst).Perm (v :: l.map Prod.fst) := by
  refine vtInsert_induction (P := fun l _ l' => (l'.map Prod.fst).Perm (v :: l.map Prod.fst)) (fun _ => .refl _)
    (fun _ _ _ _ _ _ => .refl _) (fun p _ _ _ _ _ _ ih => ?_) inserted
  exact (ih.cons p).trans (.swap ..)

theorem span_vtInsert : span l' = max (span l) t.toNat := by
  refine vtInsert_induction (P := fun l t l' => span l' = max (span l) t.toNat) (fun _ => by simp [span])
    (fun _ _ _ _ _ sub => ?_) (fun _ _ _ _ _ _ sub ih => ?_) inserted
  · simp only [span, sub]
    omega
  · simp only [span, ih, sub]
    omega

/-- A timer set with a delay of at least one tick is not due, and nobody
becomes due because of it. -/
theorem due_vtInsert : t ≠ 0 → due l' = due l := by
  refine vtInsert_induction (P := fun l t l' => t ≠ 0 → due l' = due l) (fun _ later => by simp [due, later])
    (fun p d ps t le _ later => ?_) (fun p d ps t l _ _ ih later => ?_) inserted
  · have : d ≠ 0 := by
      rintro rfl
      exact later (toNat_eq_zero.1 (by simpa using le))
    simp [due, later, this]
  · by_cases zero : d = 0
    · simp only [due, zero, if_true]
      rw [ih (by simpa [zero] using later)]
    · simp [due, zero]

end

/-- Where a timer is unlinked its successor inherits the delta, and the addition does not wrap. -/
theorem vtRemove_induction {P : List (ι × Systime) → List (ι × Systime) → Prop} (nil : P [] [])
    (last : ∀ d, P [(v, d)] [])
    (here : ∀ d q e ps, (e + d).toNat = e.toNat + d.toNat → P ((v, d) :: (q, e) :: ps) ((q, e + d) :: ps))
    (pass : ∀ p d ps, p ≠ v → P ps (vtRemove v ps) → P ((p, d) :: ps) ((p, d) :: vtRemove v ps)) :
    ∀ {l : List (ι × Systime)}, span l < 2 ^ 32 → P l (vtRemove v l)
  | [], _ => nil
  | (p, d) :: ps, short => by
    simp only [span] at short
    by_cases same : p = v
    · subst same
      cases ps with
      | nil => simpa [vtRemove] using last d
      | cons a ps =>
        obtain ⟨q, e⟩ := a
        simp only [span] at short
        simpa [vtRemove] using here d q e ps (by rw [UInt32.toNat_add]; omega)
    · rw [vtRemove.eq_def]
      simpa [same] using pass p d ps same (vtRemove_induction nil last here pass (by omega))

section

variable {l : List (ι × Systime)} (short : span l < 2 ^ 32)
include short

/-- Unlinking keeps everyone else's expiry. -/
theorem remaining_vtRemove : (l.map Prod.fst).Nodup → remaining v (vtRemove v l) = none ∧
    ∀ w, w ≠ v → remaining w (vtRemove v l) = remaining w l := by
  refine vtRemove_induction (P := fun l l' => (l.map Prod.fst).Nodup → remaining v l' = none ∧
    ∀ w, w ≠ v → remaining w l' = remaining w l) (by simp [remaining]) (fun d _ => ?_) (fun d q e ps sum nodup => ?_)
    (fun p d ps other ih nodup => ?_) short
  · exact ⟨rfl, fun w other => by simp [remaining, Ne.symm other]⟩
  · refine ⟨remaining_eq_none.2 (by simpa using (nodup_cons.1 nodup).1), fun w other => ?_⟩
    simp only [remaining, Ne.symm other, if_false, sum]
    split
    · simp only [map_some, Option.some.injEq]; omega
    · cases remaining w ps with
      | none => rfl
      | some n => simp only [map_some, Option.some.injEq]; omega
  · obtain ⟨self, others⟩ := ih (nodup_cons.1 nodup).2
    exact ⟨by simp [remaining, other, self], fun w other => by simp only [remaining, others w other]⟩

theorem span_vtRemove : span (vtRemove v l) ≤ span l := by
  refine vtRemove_induction (P := fun l l' => span l' ≤ span l) le_rfl (fun _ => Nat.zero_le _) (fun d q e ps sum => ?_)
    (fun p d ps _ ih => Nat.add_le_add_left ih _) short
  simp only [span, sum]
  omega

theorem due_vtRemove : due (vtRemove v l) ≤ due l := by
  refine vtRemove_induction (P := fun l l' => due l' ≤ due l) le_rfl (fun _ => Nat.zero_le _) (fun d q e ps sum => ?_)
    (fun p d ps _ ih => ?_) short
  · by_cases zero : d = 0
    · simp [due, zero]
    · have : e + d ≠ 0 := by
        intro both
        have := toNat_eq_zero.2 both
        exact zero (toNat_eq_zero.1 (by omega))
      simp [due, this]
  · simp only [due]
    split <;> omega

end

theorem keys_vtRemove : ∀ (l : List (ι × Systime)), (vtRemove v l).map Prod.fst = (l.map Prod.fst).erase v
  | [] => rfl
  | (p, d) :: ps => by
    by_cases same : p = v
    · subst same
      cases ps <;> simp [vtRemove]
    · simp [vtRemove, same, keys_vtRemove ps]

/-- The same list with its deltas as integers. -/
def deltas (l : List (ι × Systime)) : List (ι × Int) := l.map fun a => (a.1, (a.2.toNat : Int))

/-- The timers with integers for `systime_t`: on these nothing can wrap. -/
def VTList.toInt (v : VTList ι φ Systime) : VTList ι φ Int :=
  ⟨deltas v.vtNext, v.vtTime.toNat, v.vtSystime.toNat, v.vtFunc⟩

omit [DecidableEq ι] in
theorem deltas_vtInsert (hdr : Systime) (v : ι) : ∀ (l : List (ι × Systime)) (t : Systime),
    (vtInsert hdr v l t).map deltas = vtInsert (hdr.toNat : Int) v (deltas l) (t.toNat : Int)
  | [], t => by
    simp only [vtInsert, deltas, List.map_nil, Nat.cast_lt, ← lt_iff_toNat_lt]
    split <;> simp [deltas]
  | (p, d) :: ps, t => by
    have ih := deltas_vtInsert hdr v ps (t - d)
    have same : ((d.toNat : Int) < t.toNat) ↔ d < t := by rw [Nat.cast_lt, lt_iff_toNat_lt]
    rw [show deltas ((p, d) :: ps) = (p, (d.toNat : Int)) :: deltas ps from rfl]
    simp only [vtInsert, same]
    split
    next less =>
      have := lt_iff_toNat_lt.1 less
      rw [toNat_sub_of_le t d (UInt32.le_of_lt less), Nat.cast_sub (by omega)] at ih
      rw [← ih, map_map, map_map]
      rfl
    next stop =>
      have := le_iff_toNat_le.1 (UInt32.not_lt.1 stop)
      simp only [map_some, deltas, map_cons,
        toNat_sub_of_le d t (UInt32.not_lt.1 stop), Nat.cast_sub this]

theorem deltas_vtRemove {l : List (ι × Systime)} (short : span l < 2 ^ 32) : deltas (vtRemove v l) = vtRemove v (deltas l) := by
  refine vtRemove_induction (P := fun l l' => deltas l' = vtRemove v (deltas l)) rfl (fun _ => ?_) (fun d q e ps sum => ?_)
    (fun p d ps other ih => ?_) short
  · simp [vtRemove, deltas]
  · simp [vtRemove, deltas, sum]
  · simp only [deltas, map_cons] at ih ⊢
    simp [vtRemove, other, ih]

end DeltaList

/-! ## The running timers -/

/-- The timer list, the timer whose callback the tick in progress is running,
and the history (which the code does not read). -/
structure TimerSys (ι φ : Type) where
  vt : VTList ι φ Systime
  running : Option ι
  hist : List (TimerEvent ι)

/-- `chVTSetI` on an unarmed timer, `chVTResetI` on an armed one, the tick
interrupt, and the return of the callback it runs. -/
inductive TimerLabel (ι φ : Type)
  | set (v : ι) (delay : Systime) (fn : φ)
  | reset (v : ι)
  | tick
  | ret

section System

variable {ι φ : Type} [DecidableEq ι]
variable {s : TimerSys ι φ} {vt : VTList ι φ Systime} {h : List (TimerEvent ι)} {e : Expiries ι}

/-- The tick loop found the timer `out` due (its callback starts), or stops. -/
def TimerSys.loop (h : List (TimerEvent ι)) : VTList ι φ Systime × Option (ι × Option φ) → TimerSys ι φ
  | (vt, none) => ⟨vt, none, h⟩
  | (vt, some (v, _)) => ⟨vt, some v, .fire v :: h⟩

open TimerSys (loop)

def timerNext : TimerLabel ι φ → TimerSys ι φ → Option (TimerSys ι φ)
  | .set v d fn, s =>
    if chVTIsArmedI v s.vt = false ∧ d ≠ timeImmediate then
      (chVTSetI v d fn s.vt).map fun vt => { s with vt := vt, hist := .set v d :: s.hist }
    else none
  | .reset v, s =>
    if chVTIsArmedI v s.vt = true then
      some { s with vt := chVTResetI v s.vt, hist := .reset v :: s.hist }
    else none
  | .tick, s =>
    if s.running.isNone then (chVTDoTickI s.vt).map (loop (.tick :: s.hist)) else none
  | .ret, s =>
    if s.running.isSome then (vtExpire s.vt).map (loop s.hist) else none

/-- The timers from `_vt_init` on. -/
def timerLts (ι φ : Type) [DecidableEq ι] : Lts (TimerSys ι φ) (TimerLabel ι φ) where
  init := ⟨vtInit, none, []⟩
  next := timerNext

/-- The list is well formed: the header has its reserved value, and the timers
linked are those armed, each once. -/
structure VTList.Ok (vt : VTList ι φ Systime) : Prop where
  header : vt.vtTime = -1
  nodup : (vt.vtNext.map Prod.fst).Nodup
  armed : ∀ v, (vt.vtFunc v).isSome = true ↔ v ∈ vt.vtNext.map Prod.fst

namespace VTList.Ok

variable {vt vt' : VTList ι φ Systime} {v : ι} {d : Systime} {fn : φ}

omit [DecidableEq ι] in
theorem init : VTList.Ok (vtInit : VTList ι φ Systime) := ⟨rfl, List.nodup_nil, by simp [vtInit]⟩

omit [DecidableEq ι] in
theorem unarmed (ok : vt.Ok) (off : chVTIsArmedI v vt = false) : v ∉ vt.vtNext.map Prod.fst := fun mem => by
  simp [chVTIsArmedI, (ok.armed v).2 mem] at off

theorem set_isSome (ok : vt.Ok) (v : ι) (d : Systime) (fn : φ) : ∃ vt', chVTSetI v d fn vt = some vt' := by
  obtain ⟨l, inserted⟩ := Option.isSome_iff_exists.1 (ok.header ▸ vtInsert_isSome v vt.vtNext d)
  exact ⟨_, by rw [chVTSetI, inserted]; rfl⟩

theorem set (ok : vt.Ok) (off : chVTIsArmedI v vt = false) (done : chVTSetI v d fn vt = some vt') : vt'.Ok := by
  obtain ⟨l, inserted, rfl⟩ := map_eq_some_iff.1 done
  have keys := keys_vtInsert inserted
  refine ⟨ok.header, keys.nodup_iff.2 (nodup_cons.2 ⟨ok.unarmed off, ok.nodup⟩), fun w => ?_⟩
  rw [keys.mem_iff, mem_cons, ← ok.armed w]
  by_cases same : w = v
  · simp [same]
  · simp [same]

theorem reset (ok : vt.Ok) (v : ι) : (chVTResetI v vt).Ok := by
  refine ⟨ok.header, ?_, fun w => ?_⟩
  · simpa only [chVTResetI, keys_vtRemove] using ok.nodup.erase v
  · simp only [chVTResetI, keys_vtRemove, ok.nodup.mem_erase_iff, ← ok.armed w]
    by_cases same : w = v
    · simp [same]
    · simp [same]

/-- The head leaves. -/
theorem pop {ps : List (ι × Systime)} (ok : vt.Ok) (list : vt.vtNext = (v, d) :: ps) :
    VTList.Ok { vt with vtNext := ps, vtFunc := update vt.vtFunc v none } := by
  have nodup := ok.nodup
  rw [list] at nodup
  obtain ⟨fresh, nodup⟩ := nodup_cons.1 nodup
  refine ⟨ok.header, nodup, fun w => ?_⟩
  by_cases same : w = v
  · subst same; simpa using fresh
  · have := ok.armed w
    rw [list] at this
    simpa [same] using this

omit [DecidableEq ι] in
/-- Only the delta of the head and the time change. -/
theorem count {ps : List (ι × Systime)} {now e : Systime} (ok : vt.Ok) (list : vt.vtNext = (v, d) :: ps) :
    VTList.Ok { vt with vtSystime := now, vtNext := (v, e) :: ps } := by
  obtain ⟨header, nodup, armed⟩ := ok
  rw [list] at nodup armed
  exact ⟨header, nodup, armed⟩

/-- A pass of the tick loop: nothing is due, or the head leaves and its callback
is called. -/
theorem expire {out : VTList ι φ Systime × Option (ι × Option φ)} (ok : vt.Ok) (done : vtExpire vt = some out) :
    out = (vt, none) ∨ ∃ v fn, vt.vtFunc v = some fn ∧ out.2 = some (v, some fn) ∧ out.1.Ok ∧
      out.1.vtFunc = update vt.vtFunc v none := by
  unfold vtExpire at done
  split at done
  · split at done
    · cases done
    · exact .inl (Option.some.inj done).symm
  next p d ps list =>
    split at done
    · obtain ⟨fn, is⟩ := Option.isSome_iff_exists.1 ((ok.armed p).2 (by rw [list]; simp))
      cases done
      exact .inr ⟨p, fn, is, by rw [is], ok.pop list, rfl⟩
    · exact .inl (Option.some.inj done).symm

/-- A tick, up to its first callback. -/
theorem tick {out : VTList ι φ Systime × Option (ι × Option φ)} (ok : vt.Ok) (done : chVTDoTickI vt = some out) :
    ∃ vt' : VTList ι φ Systime, vt'.Ok ∧ vt'.vtFunc = vt.vtFunc ∧ (out = (vt', none) ∨
      ∃ v fn, vt'.vtFunc v = some fn ∧ out.2 = some (v, some fn) ∧ out.1.Ok ∧
        out.1.vtFunc = update vt'.vtFunc v none) := by
  unfold chVTDoTickI at done
  split at done
  · exact ⟨{ vt with vtSystime := vt.vtSystime + 1 }, ⟨ok.header, ok.nodup, ok.armed⟩, rfl,
      .inl (Option.some.inj done).symm⟩
  next p d ps list =>
    exact ⟨_, ok.count list, rfl, (ok.count list).expire done⟩

end VTList.Ok

/-- The list `vt` after history `h` stands for the absolute expiries `e`. -/
structure Represents (vt : VTList ι φ Systime) (h : List (TimerEvent ι)) (e : Expiries ι) : Prop extends
    vt.Ok where
  short : span vt.vtNext < 2 ^ 32
  runs : Expiries.Runs h e
  repr : ∀ v, e.expiry v = (remaining v vt.vtNext).map (e.now + ·)

theorem Represents.set {vt' : VTList ι φ Systime} (r : Represents vt h e) {v : ι} {d : Systime} {fn : φ}
    (unarmed : chVTIsArmedI v vt = false) (done : chVTSetI v d fn vt = some vt') :
    Represents vt' (.set v d :: h) { e with expiry := update e.expiry v (some (e.now + d.toNat)) } := by
  obtain ⟨l, inserted, rfl⟩ := map_eq_some_iff.1 done
  have fresh := r.toOk.unarmed unarmed
  have idle : e.expiry v = none := by rw [r.repr, remaining_eq_none.2 fresh, Option.map_none]
  obtain ⟨self, others⟩ := remaining_vtInsert inserted fresh
  refine ⟨r.toOk.set unarmed done, ?_, .cons r.runs (.set idle), fun w => ?_⟩
  · have := r.short
    have := d.toNat_lt
    rw [span_vtInsert inserted]
    omega
  · by_cases same : w = v
    · subst same; simp [self]
    · simp only [update_of_ne same, others w same, r.repr w]

theorem Represents.reset (r : Represents vt h e) {v : ι} (armed : chVTIsArmedI v vt = true) :
    Represents (chVTResetI v vt) (.reset v :: h) { e with expiry := update e.expiry v none } := by
  have mem := (r.armed v).1 armed
  obtain ⟨self, others⟩ := remaining_vtRemove (v := v) r.short r.nodup
  obtain ⟨n, left⟩ := Option.ne_none_iff_exists'.1 (mt remaining_eq_none.1 (not_not.2 mem))
  refine ⟨r.toOk.reset v, lt_of_le_of_lt (span_vtRemove r.short) r.short,
    .cons r.runs (.reset (by rw [r.repr, left, map_some])), fun w => ?_⟩
  by_cases same : w = v
  · subst same; simp [chVTResetI, self]
  · simp only [update_of_ne same, chVTResetI, others w same, r.repr w]

/-- A pass of the tick loop: the head is due and its callback starts on its
very expiry tick, or nothing is due any more. -/
theorem Represents.expire (r : Represents vt h e) {out : VTList ι φ Systime × Option (ι × Option φ)}
    (done : vtExpire vt = some out) :
    ∃ e', Represents (loop h out).vt (loop h out).hist e' ∧
      ((loop h out).running = none → due (loop h out).vt.vtNext = 0) := by
  unfold vtExpire at done
  split at done
  next empty =>
    split at done <;> cases done
    exact ⟨e, r, fun _ => by simp [loop, empty, due]⟩
  next p d ps list =>
    split at done
    next zero =>
      cases done
      have fresh : p ∉ ps.map Prod.fst := by
        have := r.nodup; rw [list] at this; exact (nodup_cons.1 this).1
      have now : e.expiry p = some e.now := by rw [r.repr, list]; simp [remaining, zero]
      refine ⟨{ e with expiry := update e.expiry p none }, ⟨r.toOk.pop list, ?_,
        .cons r.runs (.fire now), fun w => ?_⟩, by simp [loop]⟩
      · have := r.short; rw [list] at this; simp only [span] at this; simp only [loop]; omega
      · by_cases same : w = p
        · subst same; simp [loop, remaining_eq_none.2 fresh]
        · have := r.repr w
          rw [list] at this
          simpa [loop, remaining, same, Ne.symm same, zero] using this
    next later =>
      cases done
      exact ⟨e, r, fun _ => by simp [loop, list, due, later]⟩

/-- When nothing is due a tick brings every expiry one tick nearer; the
decrement of the head does not wrap. -/
theorem Represents.tick (r : Represents vt h e) (nothing : due vt.vtNext = 0)
    {out : VTList ι φ Systime × Option (ι × Option φ)} (done : chVTDoTickI vt = some out) :
    ∃ e', Represents (loop (.tick :: h) out).vt (loop (.tick :: h) out).hist e' ∧
      ((loop (.tick :: h) out).running = none →
        due (loop (.tick :: h) out).vt.vtNext = 0) := by
  unfold chVTDoTickI at done
  split at done
  next empty =>
    cases done
    have ahead : ∀ v x, e.expiry v = some x → e.now < x := by
      intro v x armed; rw [r.repr, empty] at armed; simp [remaining] at armed
    refine ⟨_, ⟨⟨r.header, r.nodup, r.armed⟩, r.short, .cons r.runs (.tick ahead), fun v => ?_⟩,
      fun _ => nothing⟩
    simp [r.repr v, empty, loop, remaining]
  next p d ps list =>
    have later : d ≠ 0 := by
      intro zero; rw [list] at nothing; simp [due, zero] at nothing
    have pos : 1 ≤ d.toNat := Nat.one_le_iff_ne_zero.2 (mt toNat_eq_zero.1 later)
    have exact_dec : (d - 1).toNat = d.toNat - 1 :=
      toNat_sub_of_le d 1 (le_iff_toNat_le.2 (by simpa using pos))
    have ahead : ∀ v x, e.expiry v = some x → e.now < x := by
      intro v x armed
      rw [r.repr, list] at armed
      simp only [remaining] at armed
      split at armed
      · simp only [map_some, Option.some.injEq] at armed; omega
      · obtain ⟨n, left, rfl⟩ := map_eq_some_iff.1 armed
        obtain ⟨m, _, rfl⟩ := map_eq_some_iff.1 left
        omega
    have counted : Represents { vt with vtSystime := vt.vtSystime + 1, vtNext := (p, d - 1) :: ps }
        (.tick :: h) { e with now := e.now + 1 } := by
      refine ⟨r.toOk.count list, ?_, .cons r.runs (.tick ahead), fun v => ?_⟩
      · have := r.short; rw [list] at this; simp only [span] at this ⊢; omega
      · have := r.repr v
        rw [list] at this
        simp only [remaining] at this ⊢
        rw [this]
        split
        · simp only [map_some, exact_dec, Option.some.injEq]; omega
        · cases remaining v ps with
          | none => rfl
          | some n => simp only [map_some, exact_dec, Option.some.injEq]; omega
    exact counted.expire done

/-- Between ticks nothing is due. -/
def TimerInv (s : TimerSys ι φ) : Prop :=
  ∃ e, Represents s.vt s.hist e ∧ (s.running = none → due s.vt.vtNext = 0)

theorem timerInv_step (s : TimerSys ι φ) (l : TimerLabel ι φ) (s' : TimerSys ι φ) (inv : TimerInv s)
    (taken : timerNext l s = some s') : TimerInv s' := by
  obtain ⟨e, r, between⟩ := inv
  cases l with
  | set v d fn =>
    simp only [timerNext] at taken
    split at taken
    next guard =>
      obtain ⟨vt, done, rfl⟩ := map_eq_some_iff.1 taken
      refine ⟨_, r.set guard.1 done, fun none => ?_⟩
      obtain ⟨l, inserted, rfl⟩ := map_eq_some_iff.1 done
      exact (due_vtInsert inserted guard.2).trans (between none)
    · cases taken
  | reset v =>
    simp only [timerNext] at taken
    split at taken <;> cases taken
    next armed => exact ⟨_, r.reset armed, fun none => Nat.le_zero.1 ((due_vtRemove r.short).trans (between none).le)⟩
  | tick =>
    simp only [timerNext] at taken
    split at taken
    next idle =>
      obtain ⟨out, done, rfl⟩ := map_eq_some_iff.1 taken
      exact r.tick (between (Option.isNone_iff_eq_none.1 idle)) done
    · cases taken
  | ret =>
    simp only [timerNext] at taken
    split at taken
    · obtain ⟨out, done, rfl⟩ := map_eq_some_iff.1 taken
      exact r.expire done
    · cases taken

theorem timerInv_of_reach {ok : TimerSys ι φ → TimerLabel ι φ → Prop} (reached : (timerLts ι φ).Reach ok s) : TimerInv s := by
  refine reached.invariant ?_ (fun s l s' inv _ taken => timerInv_step s l s' inv taken)
  exact ⟨⟨0, fun _ => none⟩, ⟨.init, by simp [timerLts, vtInit, span], .nil,
    by simp [timerLts, vtInit, remaining]⟩, fun _ => rfl⟩

/-- The callbacks of every timer in the history of `s` ran exactly as set. -/
structure ExactExpiry (s : TimerSys ι φ) : Prop where
  /-- A callback runs on the delay-th tick after its timer was set. -/
  onTime : ∀ v d newer since older, s.hist = newer ++ .fire v :: (since ++ .set v d :: older) →
    (∀ ev ∈ since, ¬ About v ev) → ticks since = d.toNat
  /-- It runs once for each set, and never after a reset. -/
  once : ∀ v newer older, s.hist = newer ++ .fire v :: older →
    ∃ since d rest, older = since ++ .set v d :: rest ∧ ∀ ev ∈ since, ¬ About v ev
  /-- A timer left alone is not passed over: its delay has not elapsed, or
  elapses with the tick in progress. -/
  notLate : ∀ v d since older, s.hist = since ++ .set v d :: older → (∀ ev ∈ since, ¬ About v ev) →
    ticks since ≤ d.toNat ∧ (s.running = none → ticks since < d.toNat)
  /-- The list holds exactly the absolute expiries that the history gives. -/
  refines : ∃ e, Expiries.Runs s.hist e ∧ ∀ v, e.expiry v = (remaining v s.vt.vtNext).map (e.now + ·)
  /-- Setting or resetting one timer moves no other. -/
  others : ∀ l s' v, timerNext l s = some s' → ((∃ d fn, l = .set v d fn) ∨ l = .reset v) →
    ∀ w, w ≠ v → remaining w s'.vt.vtNext = remaining w s.vt.vtNext

/-- On the list of `s` the 32-bit operations give what integers would give. -/
structure NoWrap (s : TimerSys ι φ) : Prop where
  set : ∀ v d fn, (chVTSetI v d fn s.vt).map VTList.toInt = chVTSetI v (d.toNat : Int) fn s.vt.toInt
  reset : ∀ v, (chVTResetI v s.vt).toInt = chVTResetI v s.vt.toInt
  tick : s.running = none → (chVTDoTickI s.vt).map (fun r => deltas r.1.vtNext) =
    (chVTDoTickI s.vt.toInt).map (fun r => r.1.vtNext)

/-- Callback returns in a run. -/
def rets : List (TimerLabel ι φ) → Nat
  | [] => 0
  | .ret :: ls => rets ls + 1
  | _ :: ls => rets ls

/-- The scans stop, and a tick comes to an end whatever its callbacks set. -/
structure Stops (s : TimerSys ι φ) : Prop where
  set : ∀ v d fn, (chVTSetI v d fn s.vt).isSome = true
  tick : (chVTDoTickI s.vt).isSome = true
  loop : (vtExpire s.vt).isSome = true
  bounded : ∀ ls s', (∀ l ∈ ls, l ≠ .tick) → (timerLts ι φ).run ls s = some s' →
    rets ls ≤ due s.vt.vtNext + 1

theorem TimerInv.exactExpiry (inv : TimerInv s) : ExactExpiry s := by
  obtain ⟨e, r, between⟩ := inv
  refine ⟨fun v d newer since older split quiet => ?_, fun v newer older split => ?_,
    fun v d since older split quiet => ?_, ⟨e, r.runs, r.repr⟩, ?_⟩
  · exact Expiries.Runs.fire_delay (split ▸ r.runs) quiet
  · exact Expiries.Runs.fire_set (split ▸ r.runs)
  · have armed := Expiries.Runs.expiry_of_set since (split ▸ r.runs) quiet
    have now := r.runs.now_eq
    rw [split, TimerEvent.ticks_append] at now
    simp only [ticks] at now
    have notOver := r.runs.not_overdue v _ armed
    refine ⟨by omega, fun idle => ?_⟩
    have nothing := between idle
    rw [r.repr] at armed
    obtain ⟨n, left, sum⟩ := map_eq_some_iff.1 armed
    have pos : 0 < n := by
      cases list : s.vt.vtNext with
      | nil => rw [list] at left; simp [remaining] at left
      | cons a ps =>
        obtain ⟨p, x⟩ := a
        have later : x ≠ 0 := fun zero => by simp [list, due, zero] at nothing
        have := mt toNat_eq_zero.1 later
        rw [list] at left
        simp only [remaining] at left
        split at left
        · cases left; omega
        · obtain ⟨m, _, rfl⟩ := map_eq_some_iff.1 left; omega
    omega
  · rintro l s' v taken (⟨d, fn, rfl⟩ | rfl) w other
    · simp only [timerNext] at taken
      split at taken
      next guard =>
        obtain ⟨vt, done, rfl⟩ := map_eq_some_iff.1 taken
        obtain ⟨l, inserted, rfl⟩ := map_eq_some_iff.1 done
        refine (remaining_vtInsert inserted (fun mem => ?_)).2 w other
        simp [chVTIsArmedI, (r.armed v).2 mem] at guard
      · cases taken
    · simp only [timerNext] at taken
      split at taken
      · cases taken; exact (remaining_vtRemove r.short r.nodup).2 w other
      · cases taken

theorem TimerInv.noWrap (inv : TimerInv s) : NoWrap s := by
  obtain ⟨e, r, between⟩ := inv
  refine ⟨fun v d fn => ?_, fun v => ?_, fun idle => ?_⟩
  · simp only [chVTSetI, VTList.toInt, ← deltas_vtInsert, map_map]
    rfl
  · simp only [chVTResetI, VTList.toInt, deltas_vtRemove r.short]
  · have nothing := between idle
    cases list : s.vt.vtNext with
    | nil => simp [chVTDoTickI, VTList.toInt, list, deltas]
    | cons a ps =>
      obtain ⟨p, d⟩ := a
      have later : d ≠ 0 := fun zero => by simp [list, due, zero] at nothing
      have pos := Nat.one_le_iff_ne_zero.2 (mt toNat_eq_zero.1 later)
      have exact_dec : ((d - 1).toNat : Int) = (d.toNat : Int) - 1 := by
        rw [toNat_sub_of_le d 1 (le_iff_toNat_le.2 (by simpa using pos))]
        simp only [UInt32.toNat_one]; omega
      have zero : ((d.toNat : Int) - 1 = 0) ↔ d - 1 = 0 := by rw [← exact_dec, ← toNat_eq_zero]; omega
      simp only [chVTDoTickI, VTList.toInt, list, deltas, map_cons, vtExpire, zero]
      split <;> simp [exact_dec]

/-- Work left to the tick in progress. -/
def TimerSys.rank (s : TimerSys ι φ) : Nat := due s.vt.vtNext + if s.running.isSome then 1 else 0

/-- Every callback return uses up some of it, and nothing adds to it. -/
theorem rank_step {s' : TimerSys ι φ} {l : TimerLabel ι φ} (inv : TimerInv s) (notTick : l ≠ .tick)
    (taken : timerNext l s = some s') : s'.rank + rets [l] ≤ s.rank := by
  obtain ⟨e, r, -⟩ := inv
  cases l with
  | tick => exact absurd rfl notTick
  | set v d fn =>
    simp only [timerNext] at taken
    split at taken
    next guard =>
      obtain ⟨vt, done, rfl⟩ := map_eq_some_iff.1 taken
      obtain ⟨l, inserted, rfl⟩ := map_eq_some_iff.1 done
      simp [TimerSys.rank, rets, due_vtInsert inserted guard.2]
    · cases taken
  | reset v =>
    simp only [timerNext] at taken
    split at taken <;> cases taken
    have := due_vtRemove (v := v) r.short
    simp only [TimerSys.rank, rets, chVTResetI]; omega
  | ret =>
    simp only [timerNext] at taken
    split at taken
    next running =>
      obtain ⟨out, done, rfl⟩ := map_eq_some_iff.1 taken
      simp only [TimerSys.rank, rets, running, if_true]
      unfold vtExpire at done
      split at done
      · split at done
        · cases done
        · cases done; simp [loop]
      next p d ps list =>
        split at done
        next zero =>
          cases done
          simp [loop, list, due, zero]
        · cases done; simp [loop]
    · cases taken

theorem rets_le_rank : ∀ (ls : List (TimerLabel ι φ)) {s s' : TimerSys ι φ}, TimerInv s →
    (∀ l ∈ ls, l ≠ .tick) → (timerLts ι φ).run ls s = some s' → rets ls ≤ s.rank
  | [], _, _, _, _, _ => Nat.zero_le _
  | l :: ls, s, s', inv, noTick, ran => by
    obtain ⟨m, taken, ran⟩ := Option.bind_eq_some_iff.1 ran
    have rest := rets_le_rank ls (timerInv_step s l m inv taken) (fun k mem => noTick k (by simp [mem])) ran
    have first := rank_step inv (noTick l (by simp)) taken
    have count : rets (l :: ls) = rets [l] + rets ls := by cases l <;> simp [rets]; omega
    omega

theorem TimerInv.stops (inv : TimerInv s) : Stops s := by
  obtain ⟨e, r, between⟩ := id inv
  have loop : (vtExpire s.vt).isSome = true := by
    unfold vtExpire
    split
    · simp [r.header]
    · split <;> simp
  refine ⟨fun v d fn => ?_, ?_, loop, fun ls s' noTick ran => ?_⟩
  · simp [chVTSetI, r.header, vtInsert_isSome]
  · unfold chVTDoTickI
    split
    · simp
    · simp only [vtExpire]; split <;> simp
  · have := rets_le_rank ls inv noTick ran
    simp only [TimerSys.rank] at this
    split at this <;> omega

/-- **Virtual timers refine absolute expiries**, in every state reached by sets
of unarmed timers, resets of armed ones, ticks and callback returns. -/
theorem virtual_timers_refine_expiries {s : TimerSys ι φ}
    (reached : (timerLts ι φ).Reach (fun _ _ => True) s) : ExactExpiry s ∧ NoWrap s ∧ Stops s :=
  have inv := timerInv_of_reach reached
  ⟨inv.exactExpiry, inv.noWrap, inv.stops⟩

/-- Two timers armed, one reset, and two ticks: the other is called back. -/
theorem virtual_timers_refine_expiries_run :
    ∃ s : TimerSys Nat Unit, s.hist = [.fire 0, .tick, .tick, .reset 1, .set 1 5, .set 0 2] ∧
      ExactExpiry s ∧ NoWrap s ∧ Stops s := by
  have ran := @Lts.Reach.of_run _ _ (timerLts Nat Unit) (fun _ _ => true)
    [.set 0 2 (), .set 1 5 (), .reset 1, .tick, .tick] _ rfl rfl
  exact ⟨_, rfl, virtual_timers_refine_expiries (ran.mono fun _ _ _ => trivial)⟩

end System

end ChibiOS.Kernel
