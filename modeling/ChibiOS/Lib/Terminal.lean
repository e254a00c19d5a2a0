import Mathlib.Data.Nat.Digits.Defs

/-!
# A terminal of one unbounded row

Printable characters overwrite the cell under the cursor and advance it; `CSI n C`
and `CSI n D` move it right and left, and `CSI K` erases to the right. Columns are
integers, so that no border hides a wrong move, and an erased cell is different
from a space.
-/

namespace ChibiOS.Lib

open Function

/-- Inside an escape sequence, with the count read so far. -/
inductive Terminal.Mode
  | ground
  | escape
  | csi (n : Option Nat)

structure Terminal where
  cells : Int → Option UInt8
  col : Int
  mode : Terminal.Mode := .ground

namespace Terminal

def blank : Terminal := ⟨fun _ => none, 0, .ground⟩

def printable (c : UInt8) : Bool := decide (32 ≤ c.toNat ∧ c.toNat < 127)

/-- The end of a control sequence; others than the three are ignored. -/
def control (t : Terminal) (n : Option Nat) (c : UInt8) : Terminal :=
  if c = 67 then { t with col := t.col + n.getD 1 }
  else if c = 68 then { t with col := t.col - n.getD 1 }
  else if c = 75 then { t with cells := fun i => if t.col ≤ i then none else t.cells i }
  else t

def feed (t : Terminal) (c : UInt8) : Terminal :=
  match t.mode with
  | .ground =>
    if c = 27 then { t with mode := .escape }
    else if printable c then { t with cells := update t.cells t.col (some c), col := t.col + 1 }
    else t
  | .escape => if c = 91 then { t with mode := .csi none } else { t with mode := .ground }
  | .csi n =>
    if 48 ≤ c.toNat ∧ c.toNat ≤ 57 then { t with mode := .csi (some (10 * n.getD 0 + (c.toNat - 48))) }
    else { t.control n c with mode := .ground }

def feedAll (t : Terminal) (bytes : List UInt8) : Terminal := bytes.foldl feed t

variable {t : Terminal}

theorem feedAll_append (t : Terminal) (xs ys : List UInt8) : t.feedAll (xs ++ ys) = (t.feedAll xs).feedAll ys :=
  List.foldl_append

/-! ## Text -/

/-- A text written over the cells from a column on. -/
def overwrite (cells : Int → Option UInt8) (col : Int) (text : List UInt8) : Int → Option UInt8 := fun i =>
  if col ≤ i ∧ i < col + text.length then text[(i - col).toNat]? else cells i

theorem overwrite_cons (cells : Int → Option UInt8) (col : Int) (c : UInt8) (text : List UInt8) :
    overwrite (update cells col (some c)) (col + 1) text = overwrite cells col (c :: text) := by
  funext i
  simp only [overwrite, List.length_cons, Nat.cast_add, Nat.cast_one]
  by_cases at_ : i = col
  · subst at_
    rw [if_neg (by omega), if_pos (by omega), update_self]
    simp
  · by_cases inside : col + 1 ≤ i ∧ i < col + 1 + text.length
    · rw [if_pos inside, if_pos (by omega)]
      obtain ⟨k, next⟩ : ∃ k, (i - col).toNat = k + 1 := ⟨(i - col).toNat - 1, by omega⟩
      have rest : (i - (col + 1)).toNat = k := by omega
      rw [next, rest, List.getElem?_cons_succ]
    · rw [if_neg inside, if_neg (by omega), update_of_ne at_]

theorem feedAll_text {text : List UInt8} (ground : t.mode = .ground) (shown : ∀ c ∈ text, printable c = true) :
    t.feedAll text = { cells := overwrite t.cells t.col text, col := t.col + text.length, mode := .ground } := by
  induction text generalizing t with
  | nil =>
    obtain ⟨cells, col, mode⟩ := t
    subst ground
    simp only [feedAll, List.foldl_nil, List.length_nil, Nat.cast_zero, Int.add_zero, mk.injEq, and_self, and_true]
    funext i
    rw [overwrite, if_neg (by simp only [List.length_nil, Nat.cast_zero]; omega)]
  | cons c text ih =>
    have first := shown c (.head _)
    have notEsc : c ≠ 27 := by
      rintro rfl
      cases first
    have fed : t.feed c = { t with cells := update t.cells t.col (some c), col := t.col + 1 } := by
      simp [feed, ground, notEsc, first]
    show (t.feed c).feedAll text = _
    rw [fed, ih (t := { t with cells := update t.cells t.col (some c), col := t.col + 1 }) ground
      fun d mem => shown d (.tail _ mem), overwrite_cons]
    simp only [List.length_cons, Nat.cast_add, Nat.cast_one, mk.injEq, and_true, true_and]
    omega

/-! ## Control sequences -/

/-- The character of a decimal digit. -/
def digit (d : Nat) : UInt8 := UInt8.ofNat (48 + d)

/-- `CSI n f`, the count written in decimal. -/
def csi (n : Nat) (f : UInt8) : List UInt8 := [27, 91] ++ (Nat.digits 10 n).reverse.map digit ++ [f]

theorem digit_toNat {d : Nat} (small : d < 10) : (digit d).toNat = 48 + d := by
  simp only [digit, UInt8.toNat_ofNat']
  omega

theorem feed_digit {n : Option Nat} {d : Nat} (inside : t.mode = .csi n) (small : d < 10) :
    t.feed (digit d) = { t with mode := .csi (some (10 * n.getD 0 + d)) } := by
  have range : 48 ≤ (digit d).toNat ∧ (digit d).toNat ≤ 57 := by
    rw [digit_toNat small]
    omega
  have value : (digit d).toNat - 48 = d := by
    rw [digit_toNat small]
    omega
  simp only [feed, inside, range, value, and_self, if_true]

theorem feedAll_digits {a : Nat} {ds : List Nat} (small : ∀ d ∈ ds, d < 10) (inside : t.mode = .csi (some a)) :
    t.feedAll (ds.map digit) = { t with mode := .csi (some (ds.foldl (fun a d => 10 * a + d) a)) } := by
  induction ds generalizing t a with
  | nil =>
    obtain ⟨cells, col, mode⟩ := t
    subst inside
    rfl
  | cons d ds ih =>
    show (t.feed (digit d)).feedAll (ds.map digit) = _
    rw [feed_digit inside (small d (.head _))]
    exact ih (fun e mem => small e (.tail _ mem)) rfl

section

variable {n : Nat} (ground : t.mode = .ground) (positive : 0 < n)
include ground positive

/-- The count is read back as it was written. -/
theorem feedAll_csi {f : UInt8} (final : ¬ (48 ≤ f.toNat ∧ f.toNat ≤ 57)) :
    t.feedAll (csi n f) = { t.control (some n) f with mode := .ground } := by
  have count : (Nat.digits 10 n).reverse.foldl (fun a d => 10 * a + d) 0 = n := by
    have value := Nat.ofDigits_digits 10 n
    rw [Nat.ofDigits_eq_foldr] at value
    rw [List.foldl_reverse]
    simpa [add_comm] using value
  have nonempty : (Nat.digits 10 n).reverse ≠ [] := by
    simp only [ne_eq, List.reverse_eq_nil_iff, Nat.digits_eq_nil_iff_eq_zero]
    omega
  have small : ∀ d ∈ (Nat.digits 10 n).reverse, d < 10 := fun d mem =>
    Nat.digits_lt_base (by decide) (List.mem_reverse.1 mem)
  obtain ⟨d, ds, digits⟩ := List.exists_cons_of_ne_nil nonempty
  have opened : t.feedAll [27, 91] = { t with mode := .csi none } := by
    simp [feedAll, feed, ground]
  have read : t.feedAll ([27, 91] ++ (Nat.digits 10 n).reverse.map digit) = { t with mode := .csi (some n) } := by
    rw [feedAll_append, opened, digits]
    rw [digits] at small count
    show (feed _ (digit d)).feedAll (ds.map digit) = _
    rw [feed_digit (t := { t with mode := .csi none }) rfl (small d (.head _)),
      feedAll_digits (fun e mem => small e (.tail _ mem)) rfl]
    exact congrArg (fun a => { t with mode := .csi (some a) }) count
  rw [csi, feedAll_append, read]
  simp only [feedAll, List.foldl_cons, List.foldl_nil, feed, final, if_false, control]
  split_ifs <;> rfl

theorem feedAll_right : t.feedAll (csi n 67) = { t with col := t.col + n } := by
  rw [feedAll_csi ground positive (by decide), ← ground]
  rfl

theorem feedAll_left : t.feedAll (csi n 68) = { t with col := t.col - n } := by
  rw [feedAll_csi ground positive (by decide), ← ground]
  rfl

end

theorem feedAll_erase (ground : t.mode = .ground) :
    t.feedAll [27, 91, 75] = { t with cells := fun i => if t.col ≤ i then none else t.cells i } := by
  obtain ⟨cells, col, mode⟩ := t
  subst ground
  rfl

end Terminal

end ChibiOS.Lib
