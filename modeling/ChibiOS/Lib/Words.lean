import Mathlib.Data.List.Basic

/-!
# Words

The maximal runs of places at which a predicate holds, below a bound. A word is
known by the place where it starts, so that the words are a filter over the places
and their order is that of the places. A scanner goes over them by `wordStarts_skip`
and `wordStarts_word`.
-/

namespace ChibiOS.Lib

variable {p : Nat → Bool} {a b t e i j m : Nat}

/-- The places from `i` up to `j` are a maximal run below `b`. -/
structure IsWord (p : Nat → Bool) (b i j : Nat) : Prop where
  nonempty : i < j
  bound : j ≤ b
  inside : ∀ m, i ≤ m → m < j → p m = true
  left : i = 0 ∨ p (i - 1) = false
  right : j = b ∨ p j = false

/-- A word starts here. -/
def startsWord (p : Nat → Bool) (i : Nat) : Bool := p i && (i == 0 || !p (i - 1))

theorem startsWord_iff : startsWord p i = true ↔ p i = true ∧ (i = 0 ∨ p (i - 1) = false) := by
  simp [startsWord]

/-- The places from `a` to `b` where words start. -/
def wordStarts (p : Nat → Bool) (a b : Nat) : List Nat := (List.range' a (b - a)).filter (startsWord p)

theorem wordStarts_append (le : a ≤ t) (le' : t ≤ b) : wordStarts p a b = wordStarts p a t ++ wordStarts p t b := by
  unfold wordStarts
  rw [← List.filter_append, show b - a = (t - a) + (b - t) by omega, ← List.range'_append_1,
    show a + (t - a) = t by omega]

theorem mem_wordStarts : i ∈ wordStarts p a b ↔ a ≤ i ∧ i < b ∧ startsWord p i = true := by
  unfold wordStarts
  rw [List.mem_filter, List.mem_range'_1]
  constructor
  · rintro ⟨⟨le, less⟩, starts⟩
    exact ⟨le, by omega, starts⟩
  · rintro ⟨le, less, starts⟩
    exact ⟨⟨le, by omega⟩, starts⟩

theorem wordStarts_sorted : (wordStarts p a b).Pairwise (· < ·) :=
  List.Pairwise.filter _ List.pairwise_lt_range'

theorem wordStarts_eq_nil (none_ : ∀ m, a ≤ m → m < b → startsWord p m = false) : wordStarts p a b = [] := by
  apply List.eq_nil_iff_forall_not_mem.2
  intro i mem
  obtain ⟨le, less, starts⟩ := mem_wordStarts.1 mem
  cases (none_ i le less).symm.trans starts

/-- No word starts in a gap. -/
theorem wordStarts_skip (le : a ≤ t) (le' : t ≤ b) (gap : ∀ m, a ≤ m → m < t → p m = false) :
    wordStarts p a b = wordStarts p t b := by
  rw [wordStarts_append le le', wordStarts_eq_nil, List.nil_append]
  intro m low high
  rw [startsWord, gap m low high]
  rfl

/-- One word starts in a run that has a gap before it. -/
theorem wordStarts_word (less : t < e) (le : e ≤ b) (left : t = 0 ∨ p (t - 1) = false)
    (run : ∀ m, t ≤ m → m < e → p m = true) : wordStarts p t b = t :: wordStarts p e b := by
  have first : wordStarts p t (t + 1) = [t] := by
    unfold wordStarts
    rw [show t + 1 - t = 1 by omega, List.range'_one,
      List.filter_cons_of_pos (startsWord_iff.2 ⟨run t (Nat.le_refl t) less, left⟩)]
    rfl
  have others : wordStarts p (t + 1) e = [] := by
    apply wordStarts_eq_nil
    intro m low high
    rw [startsWord, run (m - 1) (by omega) (by omega), beq_false_of_ne (show m ≠ 0 by omega)]
    simp
  rw [wordStarts_append (Nat.le_of_lt less) le, wordStarts_append (Nat.le_succ t) less, first, others]
  rfl

/-- A run goes on up to some place. -/
theorem exists_run_end (less : i < b) (here : p i = true) :
    ∃ j, i < j ∧ j ≤ b ∧ (∀ m, i ≤ m → m < j → p m = true) ∧ (j = b ∨ p j = false) := by
  induction gap : b - i generalizing i with
  | zero => omega
  | succ n ih =>
    by_cases last : i + 1 = b
    · refine ⟨b, less, Nat.le_refl b, fun m low high => ?_, .inl rfl⟩
      rwa [show m = i by omega]
    · cases next : p (i + 1) with
      | false =>
        refine ⟨i + 1, Nat.lt_succ_self i, less, fun m low high => ?_, .inr next⟩
        rwa [show m = i by omega]
      | true =>
        obtain ⟨j, above, bound, run, right⟩ := ih (by omega) next (by omega)
        refine ⟨j, by omega, bound, fun m low high => ?_, right⟩
        by_cases first : m = i
        · rwa [first]
        · exact run m (by omega) high

/-- The places found are exactly the starts of the maximal runs. -/
theorem mem_wordStarts_iff : i ∈ wordStarts p 0 b ↔ ∃ j, IsWord p b i j := by
  rw [mem_wordStarts, startsWord_iff]
  constructor
  · rintro ⟨-, less, here, left⟩
    obtain ⟨j, above, bound, run, right⟩ := exists_run_end less here
    exact ⟨j, above, bound, run, left, right⟩
  · rintro ⟨j, word⟩
    have := word.nonempty
    have := word.bound
    exact ⟨Nat.zero_le i, by omega, word.inside i (Nat.le_refl i) word.nonempty, word.left⟩

end ChibiOS.Lib
