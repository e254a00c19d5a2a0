import Mathlib.Data.List.Basic

/-!
# Cyclic redundancy checks

The bit-serial remainder register, fed with the most significant bit first, and its
table-driven form. A step is linear in the register and in the bit, and a register that is
fed its own bits only moves up: eight steps are those of a zero register on the byte with
the register taken off its top, which is what a table of 256 remainders holds.
-/

namespace ChibiOS.Lib

variable {w : Nat} {p : BitVec w}

/-- One bit into the register. The polynomial `p` is without its leading term. -/
def crcBit (p c : BitVec w) (b : Bool) : BitVec w := (c <<< 1) ^^^ (if c.msb ^^ b then p else 0)

def crcBits (p c : BitVec w) (bits : List Bool) : BitVec w := bits.foldl (crcBit p) c

/-- The bits of a byte, the most significant first. -/
def byteBits (b : BitVec 8) : List Bool := (List.range 8).map b.getMsbD

/-- The register after some bytes. -/
def crcBytes (p c : BitVec w) (bytes : List (BitVec 8)) : BitVec w :=
  bytes.foldl (fun c b => crcBits p c (byteBits b)) c

theorem crcBit_xor (a c : BitVec w) (x y : Bool) : crcBit p (a ^^^ c) (x ^^ y) = crcBit p a x ^^^ crcBit p c y := by
  simp only [crcBit, BitVec.msb_xor, BitVec.shiftLeft_xor_distrib]
  apply BitVec.eq_of_getLsbD_eq
  intro i _
  cases a.msb <;> cases c.msb <;> cases x <;> cases y <;>
    simp [Bool.xor_left_comm, Bool.xor_comm]

theorem crcBits_xor {xs ys : List Bool} (same : xs.length = ys.length) (a c : BitVec w) :
    crcBits p (a ^^^ c) (List.zipWith xor xs ys) = crcBits p a xs ^^^ crcBits p c ys := by
  induction xs generalizing ys a c with
  | nil => cases ys with
    | nil => rfl
    | cons y ys => cases same
  | cons x xs ih => cases ys with
    | nil => cases same
    | cons y ys =>
      simp only [crcBits, List.zipWith_cons_cons, List.foldl_cons, crcBit_xor]
      exact ih (by simpa using same) _ _

/-- The first bits of the register, fed to it, take the register up. -/
theorem crcBits_own (c : BitVec w) (n : Nat) : crcBits p c ((List.range n).map c.getMsbD) = c <<< n := by
  induction n with
  | zero => simp [crcBits]
  | succ n ih =>
    have top : (c <<< n).msb = c.getMsbD n := by
      rw [BitVec.msb_shiftLeft]
    have last := congrArg (fun d => crcBit p d (c.getMsbD n)) ih
    simp only [crcBits] at last ⊢
    rw [List.range_succ, List.map_append, List.foldl_append]
    refine last.trans ?_
    simp [crcBit, top, BitVec.shiftLeft_add]

/-- The register, at the top of a byte. -/
def crcTop (c : BitVec w) : BitVec 8 := c.setWidth 8 <<< (8 - w)

theorem byteBits_crcTop (narrow : w ≤ 8) (c : BitVec w) : byteBits (crcTop c) = (List.range 8).map c.getMsbD := by
  refine List.map_congr_left fun i lt => ?_
  have lt : i < 8 := by simpa using lt
  simp only [crcTop, BitVec.getMsbD, BitVec.getLsbD_shiftLeft, BitVec.getLsbD_setWidth]
  by_cases inside : i < w
  · have place : 8 - 1 - i - (8 - w) = w - 1 - i := by omega
    have high : ¬8 - 1 - i < 8 - w := by omega
    simp [lt, inside, place, high, show 8 - 1 - i < 8 by omega, show w - 1 - i < 8 by omega]
  · have low : 8 - 1 - i < 8 - w := by omega
    simp [inside, low]

theorem byteBits_xor (a b : BitVec 8) : byteBits (a ^^^ b) = List.zipWith xor (byteBits a) (byteBits b) := by
  exact List.map_congr_left fun i _ => BitVec.getMsbD_xor

/-- A byte into the register is a byte into a register of zero. -/
theorem crcBits_byte (narrow : w ≤ 8) (c : BitVec w) (b : BitVec 8) :
    crcBits p c (byteBits b) = crcBits p 0#w (byteBits (crcTop c ^^^ b)) := by
  have parted : crcTop c ^^^ b ^^^ crcTop c = b := by
    rw [BitVec.xor_comm, ← BitVec.xor_assoc, BitVec.xor_self, BitVec.zero_xor]
  have gone : crcBits p c (byteBits (crcTop c)) = 0#w := by
    rw [byteBits_crcTop narrow, crcBits_own, BitVec.shiftLeft_eq_zero narrow]
  calc crcBits p c (byteBits b)
      = crcBits p (0#w ^^^ c) (byteBits (crcTop c ^^^ b ^^^ crcTop c)) := by rw [parted, BitVec.zero_xor]
    _ = crcBits p 0#w (byteBits (crcTop c ^^^ b)) ^^^ crcBits p c (byteBits (crcTop c)) := by
        rw [byteBits_xor (crcTop c ^^^ b), crcBits_xor (by simp [byteBits])]
    _ = crcBits p 0#w (byteBits (crcTop c ^^^ b)) := by rw [gone, BitVec.xor_zero]

end ChibiOS.Lib
