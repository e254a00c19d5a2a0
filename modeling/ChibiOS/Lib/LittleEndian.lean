import Mathlib.Data.List.Basic

/-!
# Words and their bytes, the least significant first

`leBytes` takes a word apart and `orBytes` puts bytes into one; a word made of at most
four bytes starts with them.
-/

namespace ChibiOS.Lib

/-- The byte at place `i`. -/
def wordByte (w : UInt32) (i : Nat) : UInt8 := (w >>> UInt32.ofNat (8 * i)).toUInt8

def leBytes (w : UInt32) : List UInt8 := [wordByte w 0, wordByte w 1, wordByte w 2, wordByte w 3]

/-- The byte `b` is put in at place `i`. -/
def orByte (w : UInt32) (i : Nat) (b : UInt8) : UInt32 := w ||| b.toUInt32 <<< UInt32.ofNat (8 * i)

/-- Bytes are put in from place `i` on. -/
def orBytes (w : UInt32) (i : Nat) : List UInt8 → UInt32
  | [] => w
  | b :: l => orBytes (orByte w i b) (i + 1) l

/-- The word of some bytes. -/
def leWord (l : List UInt8) : UInt32 := orBytes 0 0 l

variable {i j k : Nat}

theorem wordByte_bit (place : i < 4) (lt : k < 8) (w : UInt32) :
    (wordByte w i).toBitVec.getLsbD k = w.toBitVec.getLsbD (8 * i + k) := by
  have small : 8 * i % 32 = 8 * i := Nat.mod_eq_of_lt (by omega)
  simp [wordByte, lt, small]

theorem orByte_bit (place : i < 4) (lt : k < 32) (w : UInt32) (b : UInt8) : (orByte w i b).toBitVec.getLsbD k =
      (w.toBitVec.getLsbD k || decide (8 * i ≤ k) && b.toBitVec.getLsbD (k - 8 * i)) := by
  have small : 8 * i % 32 = 8 * i := Nat.mod_eq_of_lt (by omega)
  have low : (!decide (k < 8 * i)) = decide (8 * i ≤ k) := by simp only [← decide_not, Nat.not_lt]
  simp [orByte, lt, small, low]

/-- The other places are as they were. -/
theorem wordByte_orByte (place : i < 4) (place' : j < 4) (w : UInt32) (b : UInt8) :
    wordByte (orByte w i b) j = if j = i then wordByte w i ||| b else wordByte w j := by
  refine UInt8.toBitVec_inj.1 (BitVec.eq_of_getLsbD_eq fun k lt => ?_)
  rw [wordByte_bit place' lt, orByte_bit place (by omega)]
  split
  · subst j
    simp [wordByte_bit place lt]
  · rw [wordByte_bit place' lt]
    by_cases above : 8 * i ≤ 8 * j + k
    · rw [BitVec.getLsbD_of_ge b.toBitVec _ (by omega), Bool.and_false, Bool.or_false]
    · simp [above]

@[simp] theorem leBytes_length (w : UInt32) : (leBytes w).length = 4 := rfl

@[simp] theorem wordByte_zero (place : i < 4) : wordByte 0 i = 0 := by
  refine UInt8.toBitVec_inj.1 (BitVec.eq_of_getLsbD_eq fun k lt => ?_)
  rw [wordByte_bit place lt]
  simp

/-- A word starts with the bytes it was made of. -/
theorem leBytes_leWord : ∀ {l : List UInt8}, l.length ≤ 4 → (leBytes (leWord l)).take l.length = l
  | [], _ | [_], _ | [_, _], _ | [_, _, _], _ | [_, _, _, _], _ => by
    simp [leBytes, leWord, orBytes, wordByte_orByte]
  | _ :: _ :: _ :: _ :: _ :: _, le => by
    simp only [List.length_cons] at le
    omega

/-- The bytes of a list of words. -/
def wordsBytes (ws : List UInt32) : List UInt8 := ws.flatMap leBytes

@[simp] theorem wordsBytes_append (ws ws' : List UInt32) : wordsBytes (ws ++ ws') = wordsBytes ws ++ wordsBytes ws' :=
  List.flatMap_append

@[simp] theorem wordsBytes_cons (w : UInt32) (ws : List UInt32) : wordsBytes (w :: ws) = leBytes w ++ wordsBytes ws :=
  List.flatMap_cons

@[simp] theorem wordsBytes_length (ws : List UInt32) : (wordsBytes ws).length = 4 * ws.length := by
  induction ws with
  | nil => rfl
  | cons w ws ih =>
    rw [wordsBytes_cons, List.length_append, ih, leBytes_length, List.length_cons]
    omega

theorem wordsBytes_take (ws : List UInt32) (k : Nat) : wordsBytes (ws.take k) = (wordsBytes ws).take (4 * k) := by
  induction ws generalizing k with
  | nil => simp [wordsBytes]
  | cons w ws ih =>
    cases k with
    | zero => rfl
    | succ k =>
      rw [List.take_succ_cons, wordsBytes_cons, wordsBytes_cons, ih, Nat.mul_succ, Nat.add_comm, ← leBytes_length w,
        List.take_length_add_append]

/-- Words for `m` bytes, then words for `m'`: only the last word is incomplete. -/
theorem wordsBytes_take_add {m m' : Nat} {ws : List UInt32} (length : ws.length = (m + 3) / 4) (whole : 4 ∣ m ∨ m' = 0)
    (ws' : List UInt32) :
    (wordsBytes (ws ++ ws')).take (m + m') = (wordsBytes ws).take m ++ (wordsBytes ws').take m' := by
  have enough : m ≤ (wordsBytes ws).length := by
    rw [wordsBytes_length]
    omega
  rw [wordsBytes_append]
  rcases whole with whole | rfl
  · have all : (wordsBytes ws).length = m := by
      rw [wordsBytes_length]
      omega
    rw [← all, List.take_length_add_append, List.take_length]
  · rw [Nat.add_zero, List.take_append_of_le_length enough, List.take_zero, List.append_nil]

end ChibiOS.Lib
