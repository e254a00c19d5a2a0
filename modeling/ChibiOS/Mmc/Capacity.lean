import ChibiOS.Mmc.Driver

/-!
# The capacity of a card

`mmcsdGetCapacity` against the fields of the CSD at their documented places. A field lies
in one word of the record or in two neighbours; `mmcsd_get_slice` gets both right. In a
record of version 1.0 the shift by `READ_BL_LEN - 9` has no meaning for shorter blocks.
-/

namespace ChibiOS.Mmc

open BitVec (getLsbD toNat_sub toNat_add)

variable {csd : Cxd} {last start : BitVec 32} {i n : Nat}

/-- The 128 bits of a card register. -/
def csdValue (csd : Cxd) : BitVec 128 := csd 3 ++ csd 2 ++ csd 1 ++ csd 0

/-- The number in the bits from `start` to `last`. -/
def csdField (csd : Cxd) (last start : Nat) : Nat := (csdValue csd).toNat / 2 ^ start % 2 ^ (last + 1 - start)

def csdStructure (csd : Cxd) : Nat := csdField csd 127 126

def csdReadBlLen (csd : Cxd) : Nat := csdField csd 83 80

/-- The number of blocks of 512 bytes; 0 for the reserved versions. -/
def csdBlocks (csd : Cxd) : Nat :=
  match csdStructure csd with
  | 0 => (csdField csd 73 62 + 1) * 2 ^ (csdField csd 49 47 + 2) * 2 ^ csdReadBlLen csd / 512
  | 1 => (csdField csd 69 48 + 1) * 1024
  | _ => 0

/-- What is documented for `mmcsdGetCapacity`: a number of blocks that 32 bits cannot hold is an error. -/
def csdCapacity (csd : Cxd) : BitVec 32 := if csdBlocks csd < 2 ^ 32 then BitVec.ofNat 32 (csdBlocks csd) else 0

theorem csdValue_bit (inside : i < 128) : (csdValue csd).getLsbD i = (csd (i / 32)).getLsbD (i % 32) := by
  simp only [csdValue, BitVec.getLsbD_append]
  rcases (by omega : i / 32 = 0 ∨ i / 32 = 1 ∨ i / 32 = 2 ∨ i / 32 = 3) with word | word | word | word
  · simp only [word, show i < 32 by omega, if_true, show i % 32 = i by omega]
  · simp only [word, show ¬i < 32 by omega, show i - 32 < 32 by omega, if_true, if_false,
      show i % 32 = i - 32 by omega]
  · simp only [word, show ¬i < 32 by omega, show ¬i - 32 < 32 by omega, show i - 32 - 32 < 32 by omega, if_true,
      if_false, show i % 32 = i - 32 - 32 by omega]
  · simp only [word, show ¬i < 32 by omega, show ¬i - 32 < 32 by omega, show ¬i - 32 - 32 < 32 by omega, if_false,
      show i % 32 = i - 32 - 32 - 32 by omega]

theorem csdField_bit (csd : Cxd) (last start : Nat) :
    (csdField csd last start).testBit i = (decide (i < last + 1 - start) && (csdValue csd).getLsbD (start + i)) := by
  simp [csdField, Nat.testBit_mod_two_pow, Nat.testBit_div_two_pow, getLsbD, add_comm]

theorem csdField_lt (csd : Cxd) (last start : Nat) : csdField csd last start < 2 ^ (last + 1 - start) :=
  Nat.mod_lt _ (Nat.two_pow_pos _)

theorem mask_bit (lt : n < 32) : (1#32 <<< n - 1#32).getLsbD i = decide (i < n) := by
  have pow : 2 ^ n < 2 ^ 32 := Nat.pow_lt_pow_right (by decide) lt
  have pos := Nat.two_pow_pos n
  have value : (1#32 <<< n - 1#32).toNat = 2 ^ n - 1 := by
    simp only [toNat_sub, BitVec.toNat_shiftLeft, BitVec.toNat_ofNat, Nat.shiftLeft_eq]
    omega
  rw [getLsbD, value, Nat.testBit_two_pow_sub_one]

/-- A value with the bits of a field is the field. -/
theorem toNat_of_bits {v : BitVec 32} (fits : last.toNat < 128)
    (bits : ∀ i, v.getLsbD i = (decide (i < last.toNat + 1 - start.toNat) &&
      (csd ((start.toNat + i) / 32)).getLsbD ((start.toNat + i) % 32))) :
    v.toNat = csdField csd last.toNat start.toNat := by
  apply Nat.eq_of_testBit_eq
  intro i
  rw [csdField_bit]
  refine (bits i).trans ?_
  by_cases inside : i < last.toNat + 1 - start.toNat
  · rw [csdValue_bit (by omega)]
  · simp [inside]

/-- A field in one word. -/
theorem mmcsdGetSlice_word (le : start.toNat ≤ last.toNat) (fits : last.toNat < 128)
    (one : start.toNat / 32 = last.toNat / 32) (room : last.toNat % 32 < 31) :
    ∃ v, mmcsdGetSlice csd last start = some v ∧ v.toNat = csdField csd last.toNat start.toNat := by
  have count : (last.toNat % 32 + 1) % 4294967296 = last.toNat % 32 + 1 := by omega
  refine ⟨(csd (start.toNat / 32) &&& (1#32 <<< (last.toNat % 32 + 1) - 1#32)) >>> (start.toNat % 32), ?_,
    toNat_of_bits fits fun i => ?_⟩
  · simp [mmcsdGetSlice, shiftLeft, shiftRight, count, one, show last.toNat % 32 + 1 < 32 by omega,
      show start.toNat % 32 < 32 by omega]
  · rw [BitVec.getLsbD_ushiftRight, BitVec.getLsbD_and, mask_bit (by omega)]
    by_cases inside : i < last.toNat + 1 - start.toNat
    · simp [inside, show (start.toNat + i) / 32 = start.toNat / 32 by omega,
        show (start.toNat + i) % 32 = start.toNat % 32 + i by omega,
        show start.toNat % 32 + i < last.toNat % 32 + 1 by omega]
    · simp [inside, show ¬start.toNat % 32 + i < last.toNat % 32 + 1 by omega]

/-- A field in two neighbouring words. -/
theorem mmcsdGetSlice_words (fits : last.toNat < 128) (two : last.toNat / 32 = start.toNat / 32 + 1)
    (off : last.toNat % 32 < start.toNat % 32) :
    ∃ v, mmcsdGetSlice csd last start = some v ∧ v.toNat = csdField csd last.toNat start.toNat := by
  have count : (last.toNat % 32 + 1) % 4294967296 = last.toNat % 32 + 1 := by omega
  have up : (4294967296 - start.toNat % 32 + 32) % 4294967296 = 32 - start.toNat % 32 := by omega
  refine ⟨csd (start.toNat / 32) >>> (start.toNat % 32) |||
    (csd (last.toNat / 32) &&& (1#32 <<< (last.toNat % 32 + 1) - 1#32)) <<< (32 - start.toNat % 32), ?_,
    toNat_of_bits fits fun i => ?_⟩
  · simp [mmcsdGetSlice, shiftLeft, shiftRight, count, up, two, show last.toNat % 32 + 1 < 32 by omega,
      show start.toNat % 32 < 32 by omega, show 32 - start.toNat % 32 < 32 by omega]
  · rw [BitVec.getLsbD_or, BitVec.getLsbD_ushiftRight, BitVec.getLsbD_shiftLeft, BitVec.getLsbD_and,
      mask_bit (by omega)]
    by_cases low : i < 32 - start.toNat % 32
    · simp [low, show i < last.toNat + 1 - start.toNat by omega, show (start.toNat + i) / 32 = start.toNat / 32 by omega,
        show (start.toNat + i) % 32 = start.toNat % 32 + i by omega]
    · have above : (csd (start.toNat / 32)).getLsbD (start.toNat % 32 + i) = false :=
        BitVec.getLsbD_of_ge _ _ (by omega)
      by_cases inside : i < last.toNat + 1 - start.toNat
      · simp [low, above, inside, show i < 32 by omega, show (start.toNat + i) / 32 = last.toNat / 32 by omega,
          show (start.toNat + i) % 32 = i - (32 - start.toNat % 32) by omega,
          show i - (32 - start.toNat % 32) < last.toNat % 32 + 1 by omega]
      · simp [above, inside, show ¬i - (32 - start.toNat % 32) < last.toNat % 32 + 1 by omega]

theorem structure_eq (csd : Cxd) : (csd 3 >>> 30).toNat = csdStructure csd := by
  refine @toNat_of_bits csd 127 126 _ (by decide) fun i => ?_
  rw [BitVec.getLsbD_ushiftRight]
  by_cases inside : i < 2
  · simp [inside, show (126 + i) / 32 = 3 by omega, show (126 + i) % 32 = 30 + i by omega]
  · simp [inside, BitVec.getLsbD_of_ge (csd 3) (30 + i) (by omega)]

theorem shiftLeft_toNat {a n : BitVec 32} (lt : n.toNat < 32) (fits : a.toNat * 2 ^ n.toNat < 2 ^ 32) :
    ∃ v, shiftLeft a n = some v ∧ v.toNat = a.toNat * 2 ^ n.toNat := by
  refine ⟨a <<< n.toNat, if_pos lt, ?_⟩
  rw [BitVec.toNat_shiftLeft, Nat.shiftLeft_eq, Nat.mod_eq_of_lt fits]

section

variable (csd) (version : csdStructure csd = 0)
include version

/-- The fields of a record of version 1.0, as the code reads them. -/
theorem mmcsdGetCapacity_first :
    ∃ m c : BitVec 32, m.toNat = (csdField csd 73 62 + 1) * 2 ^ (csdField csd 49 47 + 2) ∧ m.toNat ≤ 2 ^ 21 ∧
      c.toNat = csdReadBlLen csd ∧ mmcsdGetCapacity csd = shiftLeft m (c - 9) := by
  obtain ⟨a, gotA, sizeA⟩ : ∃ v, mmcsdGetSlice csd 73 62 = some v ∧ v.toNat = csdField csd 73 62 :=
    mmcsdGetSlice_words (by decide) (by decide) (by decide)
  obtain ⟨b, gotB, sizeB⟩ : ∃ v, mmcsdGetSlice csd 49 47 = some v ∧ v.toNat = csdField csd 49 47 :=
    mmcsdGetSlice_word (by decide) (by decide) (by decide) (by decide)
  obtain ⟨c, gotC, sizeC⟩ : ∃ v, mmcsdGetSlice csd 83 80 = some v ∧ v.toNat = csdField csd 83 80 :=
    mmcsdGetSlice_word (by decide) (by decide) (by decide) (by decide)
  have ltA : a.toNat < 2 ^ 12 := sizeA ▸ csdField_lt csd 73 62
  have ltB : b.toNat < 2 ^ 3 := sizeB ▸ csdField_lt csd 49 47
  have nextA : (a + 1).toNat = a.toNat + 1 := by
    rw [toNat_add, show (1 : BitVec 32).toNat = 1 from rfl, Nat.mod_eq_of_lt (by omega)]
  have nextB : (b + 2).toNat = b.toNat + 2 := by
    rw [toNat_add, show (2 : BitVec 32).toNat = 2 from rfl, Nat.mod_eq_of_lt (by omega)]
  have powB : 2 ^ (b.toNat + 2) ≤ 2 ^ 9 := Nat.pow_le_pow_right (by decide) (by omega)
  have most : (a.toNat + 1) * 2 ^ (b.toNat + 2) ≤ 2 ^ 12 * 2 ^ 9 := Nat.mul_le_mul (by omega) powB
  obtain ⟨m, got, size⟩ : ∃ v, shiftLeft (a + 1) (b + 2) = some v ∧ v.toNat = (a + 1).toNat * 2 ^ (b + 2).toNat :=
    shiftLeft_toNat (by omega) (by rw [nextA, nextB]; omega)
  rw [nextA, nextB] at size
  refine ⟨m, c, by rw [size, sizeA, sizeB], by omega, sizeC, ?_⟩
  simp only [mmcsdGetCapacity, structure_eq, version, gotA, gotB, gotC, got, Option.bind_eq_bind, Option.bind_some]

theorem mmcsdGetCapacity_long (long : 9 ≤ csdReadBlLen csd) : mmcsdGetCapacity csd = some (csdCapacity csd) := by
  obtain ⟨m, c, size, most, len, got⟩ := mmcsdGetCapacity_first csd version
  have ltC : csdReadBlLen csd < 2 ^ 4 := csdField_lt csd 83 80
  have less : (c - 9).toNat = csdReadBlLen csd - 9 := by
    rw [toNat_sub, len, show (9 : BitVec 32).toNat = 9 from rfl]
    omega
  have pow : 2 ^ csdReadBlLen csd = 2 ^ (csdReadBlLen csd - 9) * 512 := by
    rw [show 512 = 2 ^ 9 from rfl, ← Nat.pow_add, Nat.sub_add_cancel long]
  have blocks : csdBlocks csd = m.toNat * 2 ^ (csdReadBlLen csd - 9) := by
    simp only [csdBlocks, version]
    rw [pow, ← Nat.mul_assoc, Nat.mul_div_cancel _ (by decide), size]
  have small : 2 ^ (csdReadBlLen csd - 9) ≤ 2 ^ 6 := Nat.pow_le_pow_right (by decide) (by omega)
  have fits : m.toNat * 2 ^ (csdReadBlLen csd - 9) ≤ 2 ^ 21 * 2 ^ 6 := Nat.mul_le_mul most small
  obtain ⟨v, shifted, value⟩ : ∃ v, shiftLeft m (c - 9) = some v ∧ v.toNat = m.toNat * 2 ^ (c - 9).toNat :=
    shiftLeft_toNat (by omega) (by rw [less]; omega)
  rw [got, shifted, csdCapacity, if_pos (by omega), blocks, ← less, ← value, BitVec.ofNat_toNat, BitVec.setWidth_eq]

/-- The count of the last shift wraps around. -/
theorem mmcsdGetCapacity_short (short : csdReadBlLen csd < 9) : mmcsdGetCapacity csd = none := by
  obtain ⟨m, c, -, -, len, got⟩ := mmcsdGetCapacity_first csd version
  rw [got, shiftLeft, if_neg]
  rw [toNat_sub, len, show (9 : BitVec 32).toNat = 9 from rfl]
  omega

end

theorem mmcsdGetCapacity_second (csd : Cxd) (version : csdStructure csd = 1) :
    mmcsdGetCapacity csd = some (csdCapacity csd) := by
  obtain ⟨a, gotA, sizeA⟩ : ∃ v, mmcsdGetSlice csd 69 48 = some v ∧ v.toNat = csdField csd 69 48 :=
    mmcsdGetSlice_words (by decide) (by decide) (by decide)
  have ltA : a.toNat < 2 ^ 22 := sizeA ▸ csdField_lt csd 69 48
  have blocks : csdBlocks csd = (a.toNat + 1) * 1024 := by
    simp only [csdBlocks, version, sizeA]
  have got : mmcsdGetCapacity csd = some (1024 * (a + 1)) := by
    simp only [mmcsdGetCapacity, structure_eq, version, gotA, Option.bind_eq_bind, Option.bind_some]
    rfl
  have value : (1024 * (a + 1)).toNat = (a.toNat + 1) * 1024 % 2 ^ 32 := by
    simp [BitVec.toNat_mul, toNat_add, Nat.mul_comm]
  rw [got, csdCapacity, blocks]
  refine congrArg some (BitVec.eq_of_toNat_eq (value.trans ?_))
  -- The largest field gives 2^32 blocks, of which nothing is left in 32 bits.
  split
  · exact (BitVec.toNat_ofNat _ _).symm
  · rw [show (a.toNat + 1) * 1024 = 2 ^ 32 by omega]
    rfl

theorem mmcsdGetCapacity_reserved (csd : Cxd) (not0 : csdStructure csd ≠ 0) (not1 : csdStructure csd ≠ 1) :
    mmcsdGetCapacity csd = some (csdCapacity csd) := by
  have blocks : csdBlocks csd = 0 := by
    rw [csdBlocks]
    split
    · exact absurd ‹_› not0
    · exact absurd ‹_› not1
    · rfl
  rw [mmcsdGetCapacity, structure_eq, csdCapacity, blocks]
  split
  · exact absurd ‹_› not0
  · exact absurd ‹_› not1
  · rfl

/-- All shifts of `mmcsdGetCapacity` are defined and it returns the documented number of blocks, unless a record of
version 1.0 has blocks of less than 512 bytes. -/
theorem card_capacity (csd : Cxd) :
    mmcsdGetCapacity csd = some (csdCapacity csd) ↔ (csdStructure csd = 0 → 9 ≤ csdReadBlLen csd) := by
  by_cases first : csdStructure csd = 0
  · by_cases long : 9 ≤ csdReadBlLen csd
    · exact iff_of_true (mmcsdGetCapacity_long csd first long) fun _ => long
    · refine iff_of_false (fun got => ?_) fun all => long (all first)
      cases (mmcsdGetCapacity_short csd first (by omega)).symm.trans got
  · refine iff_of_true ?_ fun zero => absurd zero first
    by_cases second : csdStructure csd = 1
    · exact mmcsdGetCapacity_second csd second
    · exact mmcsdGetCapacity_reserved csd first second

/-- `READ_BL_LEN` is 8: two blocks of 512 bytes. -/
def shortBlocks : Cxd := fun i => if i = 2 then 0x80000 else 0

theorem card_capacity_short : csdCapacity shortBlocks = 2 ∧ mmcsdGetCapacity shortBlocks = none := by
  decide +kernel

end ChibiOS.Mmc
