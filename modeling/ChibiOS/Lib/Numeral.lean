import Mathlib.Data.Nat.Digits.Lemmas

/-!
# Numerals

Texts of digits, with the letters `A` to `Z` from ten on, and what they stand for in a base. The numeral of a number
is the text that stands for it and is shorter than every other one (`numeral_shortest`); one of an integer has a minus
sign if it is negative.
-/

namespace ChibiOS.Lib

variable {b n : Nat} {c : UInt8} {d : Nat} {t : List UInt8} {z : Int}

def digitChar (d : Nat) : UInt8 := UInt8.ofNat (if d < 10 then 48 + d else 55 + d)

def digitOf (b : Nat) (c : UInt8) : Option Nat :=
  if 48 ≤ c.toNat ∧ c.toNat ≤ 57 ∧ c.toNat - 48 < b then some (c.toNat - 48)
  else if 65 ≤ c.toNat ∧ c.toNat ≤ 90 ∧ c.toNat - 55 < b then some (c.toNat - 55)
  else none

def readNat (b : Nat) (t : List UInt8) : Option Nat :=
  if t = [] then none else (t.reverse.mapM (digitOf b)).map (Nat.ofDigits b)

/-- The digits of the numeral, the last one first. -/
def numeralDigits (b n : Nat) : List Nat := if n = 0 then [0] else Nat.digits b n

def numeral (b n : Nat) : List UInt8 := ((numeralDigits b n).map digitChar).reverse

/-! ## Reading -/

theorem digitChar_toNat (small : d < 36) : (digitChar d).toNat = if d < 10 then 48 + d else 55 + d := by
  unfold digitChar
  split <;> rw [UInt8.toNat_ofNat'] <;> omega

/-- Only one character stands for a digit. -/
theorem digitOf_eq_some (high : b ≤ 36) : digitOf b c = some d ↔ c = digitChar d ∧ d < b := by
  have byte := c.toNat_lt
  rw [← UInt8.toNat_inj]
  constructor
  · intro is
    have below : d < b ∧ (c.toNat = 48 + d ∧ d < 10 ∨ c.toNat = 55 + d ∧ 10 ≤ d) := by
      unfold digitOf at is
      split at is
      · cases is
        omega
      · obtain ⟨isLetter, ⟨⟩⟩ := Option.ite_none_right_eq_some.1 is
        omega
    rw [digitChar_toNat (by omega)]
    split <;> omega
  · rintro ⟨is, below⟩
    rw [digitChar_toNat (by omega)] at is
    unfold digitOf
    split at is
    · rw [if_pos (by omega)]
      congr 1
      omega
    · rw [if_neg (by omega), if_pos (by omega)]
      congr 1
      omega

theorem mapM_digitOf (high : b ≤ 36) (ds : List Nat) :
    t.mapM (digitOf b) = some ds ↔ t = ds.map digitChar ∧ ∀ d ∈ ds, d < b := by
  induction t generalizing ds with
  | nil => cases ds <;> simp
  | cons c t ih =>
    rw [List.mapM_cons]
    constructor
    · intro read
      obtain ⟨d, digit, rest⟩ := Option.bind_eq_some_iff.1 read
      obtain ⟨ds', read', ⟨⟩⟩ := Option.bind_eq_some_iff.1 rest
      obtain ⟨rfl, below⟩ := (digitOf_eq_some high).1 digit
      obtain ⟨rfl, all⟩ := (ih ds').1 read'
      exact ⟨rfl, List.forall_mem_cons.2 ⟨below, all⟩⟩
    · rintro ⟨is, all⟩
      cases ds with
      | nil => cases is
      | cons d ds =>
        obtain ⟨rfl, rfl⟩ := List.cons.inj is
        obtain ⟨below, all⟩ := List.forall_mem_cons.1 all
        rw [(digitOf_eq_some high).2 ⟨rfl, below⟩, (ih ds).2 ⟨rfl, all⟩]
        rfl

/-- A text stands for a number if it has its digits, maybe with zeros in front. -/
theorem readNat_eq_some (high : b ≤ 36) : readNat b t = some n ↔
    ∃ ds, ds ≠ [] ∧ (∀ d ∈ ds, d < b) ∧ t = (ds.map digitChar).reverse ∧ Nat.ofDigits b ds = n := by
  unfold readNat
  constructor
  · intro read
    obtain ⟨nonempty, digits⟩ := Option.ite_none_left_eq_some.1 read
    obtain ⟨ds, read', value⟩ := Option.map_eq_some_iff.1 digits
    obtain ⟨is, all⟩ := (mapM_digitOf high ds).1 read'
    rw [List.reverse_eq_iff] at is
    refine ⟨ds, ?_, all, is, value⟩
    rintro rfl
    exact nonempty is
  · rintro ⟨ds, nonempty, all, rfl, value⟩
    rw [if_neg (by simpa using nonempty), List.reverse_reverse, (mapM_digitOf high ds).2 ⟨rfl, all⟩, Option.map_some, value]

/-! ## Numerals -/

theorem numeralDigits_spec (base : 1 < b) (n : Nat) :
    numeralDigits b n ≠ [] ∧ (∀ d ∈ numeralDigits b n, d < b) ∧ Nat.ofDigits b (numeralDigits b n) = n := by
  unfold numeralDigits
  split
  next zero =>
    subst zero
    exact ⟨List.cons_ne_nil _ _, by simpa using Nat.zero_lt_of_lt base, rfl⟩
  next nonzero =>
    exact ⟨Nat.digits_ne_nil_iff_ne_zero.2 nonzero, fun d mem => Nat.digits_lt_base base mem, Nat.ofDigits_digits b n⟩

theorem numeral_length_le {k : Nat} (base : 1 < b) (positive : 0 < k) (below : n < b ^ k) : (numeral b n).length ≤ k := by
  rw [numeral, List.length_reverse, List.length_map]
  unfold numeralDigits
  split
  · exact positive
  · exact (Nat.digits_length_le_iff base n).2 below

theorem numeral_small (below : n < b) : numeral b n = [digitChar n] := by
  unfold numeral numeralDigits
  split
  next zero => rw [zero]; rfl
  next nonzero =>
    rw [Nat.digits_of_lt b n nonzero below]
    rfl

theorem numeral_step (base : 1 < b) (le : b ≤ n) : numeral b n = numeral b (n / b) ++ [digitChar (n % b)] := by
  have quotient : 0 < n / b := Nat.div_pos le (by omega)
  unfold numeral numeralDigits
  rw [if_neg (by omega), if_neg (by omega), Nat.digits_def' base (by omega), List.map_cons, List.reverse_cons]

theorem numeral_ne_nil (b n : Nat) (base : 1 < b) : numeral b n ≠ [] := by
  simpa [numeral] using (numeralDigits_spec base n).1

/-- Every text that stands for a number is at least as long as its numeral, and another text of that length stands for
another number. -/
theorem numeral_shortest (base : 1 < b) (high : b ≤ 36) (reads : readNat b t = some n) :
    (numeral b n).length ≤ t.length ∧ (t.length = (numeral b n).length → t = numeral b n) := by
  obtain ⟨ds, nonempty, all, rfl, rfl⟩ := (readNat_eq_some high).1 reads
  obtain ⟨-, below, value⟩ := numeralDigits_spec base (Nat.ofDigits b ds)
  constructor
  · rw [List.length_reverse, List.length_map]
    exact numeral_length_le base (List.length_pos_iff.2 nonempty) (Nat.ofDigits_lt_base_pow_length base all)
  · intro same
    simp only [numeral, List.length_reverse, List.length_map] at same
    rw [numeral, ← Nat.ofDigits_inj_of_len_eq base same all below value.symm]

/-- The characters of a numeral, also of one with zeros in front, come behind the sign and the blank. -/
theorem le_of_mem_zeros {k : Nat} (base : 1 < b) (high : b ≤ 36) (mem : c ∈ List.replicate k 48 ++ numeral b n) :
    48 ≤ c.toNat := by
  have digit : ∃ d < b, digitChar d = c := by
    rcases List.mem_append.1 mem with zero | mem
    · exact ⟨0, by omega, (List.eq_of_mem_replicate zero).symm⟩
    · obtain ⟨d, isDigit, is⟩ := List.mem_map.1 (List.mem_reverse.1 mem)
      exact ⟨d, (numeralDigits_spec base n).2.1 d isDigit, is⟩
  obtain ⟨d, below, rfl⟩ := digit
  rw [digitChar_toNat (by omega)]
  split <;> omega

/-! ## Integers -/

def readInt (b : Nat) (t : List UInt8) : Option Int :=
  if t.head? = some 45 then (readNat b t.tail).map fun n : Nat => -(n : Int) else (readNat b t).map fun n : Nat => (n : Int)

def sign (z : Int) : List UInt8 := if z < 0 then [45] else []

def intNumeral (b : Nat) (z : Int) : List UInt8 := sign z ++ numeral b z.natAbs

theorem intNumeral_natCast (b n : Nat) : intNumeral b n = numeral b n := by
  rw [intNumeral, sign, if_neg (by omega), Int.natAbs_natCast, List.nil_append]

/-- Zeros behind the sign change nothing. -/
theorem readInt_zeros (base : 1 < b) (high : b ≤ 36) (k : Nat) (z : Int) :
    readInt b (sign z ++ (List.replicate k 48 ++ numeral b z.natAbs)) = some z := by
  have reads : readNat b (List.replicate k 48 ++ numeral b z.natAbs) = some z.natAbs := by
    obtain ⟨nonempty, below, value⟩ := numeralDigits_spec base z.natAbs
    refine (readNat_eq_some high).2 ⟨numeralDigits b z.natAbs ++ List.replicate k 0, by simp [nonempty], ?_, ?_, by simp [value]⟩
    · intro d mem
      rcases List.mem_append.1 mem with mem | zero
      · exact below d mem
      · rw [List.eq_of_mem_replicate zero]
        omega
    · rw [List.map_append, List.reverse_append, List.map_replicate, List.reverse_replicate]
      rfl
  unfold readInt sign
  by_cases negative : z < 0
  · rw [if_pos negative, List.singleton_append, if_pos List.head?_cons, List.tail_cons, reads, Option.map_some]
    congr 1
    omega
  · have head : (List.replicate k 48 ++ numeral b z.natAbs).head? ≠ some 45 := by
      intro minus
      exact absurd (le_of_mem_zeros base high (List.mem_of_mem_head? minus)) (by decide)
    rw [if_neg negative, List.nil_append, if_neg head, reads, Option.map_some]
    congr 1
    omega

theorem readInt_intNumeral (base : 1 < b) (high : b ≤ 36) (z : Int) : readInt b (intNumeral b z) = some z :=
  readInt_zeros base high 0 z

theorem intNumeral_shortest (base : 1 < b) (high : b ≤ 36) (reads : readInt b t = some z) :
    (intNumeral b z).length ≤ t.length ∧ (t.length = (intNumeral b z).length → t = intNumeral b z) := by
  unfold readInt at reads
  split at reads
  next minus =>
    obtain ⟨t, rfl⟩ := List.head?_eq_some_iff.1 minus
    obtain ⟨n, natReads, rfl⟩ := Option.map_eq_some_iff.1 reads
    obtain ⟨shorter, unique⟩ := numeral_shortest base high natReads
    simp only [List.tail_cons] at shorter unique
    by_cases zero : n = 0
    · subst zero
      rw [show intNumeral b (-((0 : Nat) : Int)) = numeral b 0 from intNumeral_natCast b 0]
      exact ⟨by rw [List.length_cons]; omega, fun same => by rw [List.length_cons] at same; omega⟩
    · rw [intNumeral, sign, if_pos (by omega), show (-(n : Int)).natAbs = n by omega, List.singleton_append]
      simp only [List.length_cons]
      exact ⟨by omega, fun same => by rw [unique (by omega)]⟩
  · obtain ⟨n, natReads, rfl⟩ := Option.map_eq_some_iff.1 reads
    rw [intNumeral_natCast]
    exact numeral_shortest base high natReads

end ChibiOS.Lib
