import ChibiOS.Lib.Crc
import ChibiOS.Mmc.Driver

/-!
# The checksum of a command

`crc7` by its lookup table against the bit-serial register of seven bits. The table holds
the remainders of all bytes, and a register of seven bits, moved up by one, selects one of
its entries; so the loop is the serial one, byte by byte.
-/

namespace ChibiOS.Mmc

open Lib Prog

/-- `x^7 + x^3 + 1`, without the leading term. -/
def crc7Poly : BitVec 7 := 0b0001001#7

/-- A register of seven bits in a `uint8_t`. -/
def widen (r : BitVec 7) : UInt8 := UInt8.ofBitVec (r.setWidth 8)

/-- The register in a `uint8_t` of at most 0x7F. -/
def register (c : UInt8) : BitVec 7 := c.toBitVec.setWidth 7

/-- The bit-serial CRC-7 of some bytes, the most significant bits first. -/
def crc7Serial (crc : UInt8) (buffer : List UInt8) : UInt8 :=
  widen (crcBytes crc7Poly (register crc) (buffer.map UInt8.toBitVec))

theorem widen_le (r : BitVec 7) : widen r ≤ 0x7F := by
  have lt := r.isLt
  simp only [widen, UInt8.le_iff_toNat_le, UInt8.toNat_ofBitVec, BitVec.toNat_setWidth]
  exact Nat.le_trans (Nat.mod_le _ _) (by simp; omega)

theorem widen_register {c : UInt8} (le : c ≤ 0x7F) : widen (register c) = c := by
  have small : c.toNat ≤ 127 := UInt8.le_iff_toNat_le.1 le
  apply UInt8.toNat_inj.1
  simp only [widen, register, UInt8.toNat_ofBitVec, BitVec.toNat_setWidth, UInt8.toNat_toBitVec]
  omega

/-- The table is the remainder after eight steps, for each byte. -/
theorem crc7LookupTable_eq :
    crc7LookupTable = (List.range 256).map fun i => widen (crcBits crc7Poly 0#7 (byteBits (BitVec.ofNat 8 i))) := by
  decide +kernel

theorem crc7LookupTable_length : crc7LookupTable.length = 256 := by
  rw [crc7LookupTable_eq, List.length_map, List.length_range]

theorem crc7Index_widen (r : BitVec 7) (b : UInt8) : crc7Index (widen r) b = (crcTop r ^^^ b.toBitVec).toNat := by
  have lt := r.isLt
  have moved : (widen r).toNat <<< 1 = (crcTop r).toNat := by
    simp only [widen, crcTop, UInt8.toNat_ofBitVec, BitVec.toNat_setWidth, BitVec.toNat_shiftLeft, Nat.shiftLeft_eq]
    omega
  rw [crc7Index, moved, BitVec.toNat_xor]
  rfl

theorem crc7Index_lt (r : BitVec 7) (b : UInt8) : crc7Index (widen r) b < crc7LookupTable.length := by
  rw [crc7Index_widen, crc7LookupTable_length]
  exact BitVec.isLt _

/-- One round of the loop: eight steps of the register. -/
theorem crc7LookupTable_get (r : BitVec 7) (b : UInt8) :
    crc7LookupTable.getD (crc7Index (widen r) b) 0 = widen (crcBits crc7Poly r (byteBits b.toBitVec)) := by
  have lt : (crcTop r ^^^ b.toBitVec).toNat < 256 := BitVec.isLt _
  rw [crcBits_byte (by decide), crc7Index_widen, crc7LookupTable_eq, List.getD_eq_getElem?_getD, List.getElem?_map,
    List.getElem?_range lt, Option.map_some, Option.getD_some, BitVec.ofNat_toNat, BitVec.setWidth_eq]

theorem crc7_widen (r : BitVec 7) (buffer : List UInt8) :
    crc7 (widen r) buffer = widen (crcBytes crc7Poly r (buffer.map UInt8.toBitVec)) := by
  induction buffer generalizing r with
  | nil => rfl
  | cons b buffer ih =>
    simp only [crc7, crcBytes, List.map_cons, List.foldl_cons, crc7LookupTable_get] at ih ⊢
    exact ih _

theorem crc7_eq_serial {crc : UInt8} (le : crc ≤ 0x7F) (buffer : List UInt8) : crc7 crc buffer = crc7Serial crc buffer := by
  rw [crc7Serial, ← crc7_widen, widen_register le]

theorem crc7_le {crc : UInt8} (le : crc ≤ 0x7F) (buffer : List UInt8) : crc7 crc buffer ≤ 0x7F := by
  rw [crc7_eq_serial le]
  exact widen_le _

theorem crc7_append (crc : UInt8) (a b : List UInt8) : crc7 (crc7 crc a) b = crc7 crc (a ++ b) := by
  simp [crc7]

/-- The last byte of a frame: the CRC-7 of the others, and the stop bit. -/
theorem frame_last (cmd : UInt8) (arg : UInt32) :
    frame cmd arg = header cmd arg ++ [crc7Serial 0 (header cmd arg) <<< 1 ||| 1] := by
  have masked {c : UInt8} (le : c ≤ 0x7F) : c &&& 0x7F = c := by
    rw [← widen_register le]
    generalize register c = r
    revert r
    decide
  rw [frame, masked (crc7_le (by decide) _), crc7_eq_serial (by decide)]

/-- What `send_hdr` sends: six bytes, the last of them made from the five before it. -/
theorem sendHdr_sends {cmd : UInt8} {arg : UInt32} {d d' : MMCDriver} (done : sendHdr cmd arg d = some ((), d')) :
    ∃ log, d'.log = .send (header cmd arg ++ [crc7Serial 0 (header cmd arg) <<< 1 ||| 1]) :: log := by
  obtain ⟨_, e, waited, ⟨⟩⟩ := bind_eq_some.1 done
  exact ⟨_, by rw [frame_last]⟩

/-- `crc7` is the serial checksum, within its table and its seven bits, and can be continued; so a
command ends in the checksum of its first five bytes. -/
theorem command_checksum (crc : UInt8) (le : crc ≤ 0x7F) :
    (∀ buffer, crc7 crc buffer = crc7Serial crc buffer ∧ crc7 crc buffer ≤ 0x7F) ∧
      (∀ seen b, crc7Index (crc7 crc seen) b < crc7LookupTable.length) ∧ crc7LookupTable.length = 256 ∧
      (∀ a b, crc7 (crc7 crc a) b = crc7 crc (a ++ b)) ∧
      ∀ cmd arg d d', sendHdr cmd arg d = some ((), d') → ∃ head log, head.length = 5 ∧
        d'.log = .send (head ++ [crc7Serial 0 head <<< 1 ||| 1]) :: log := by
  refine ⟨fun buffer => ⟨crc7_eq_serial le buffer, crc7_le le buffer⟩, fun seen _ => ?_, crc7LookupTable_length,
    crc7_append crc, ?_⟩
  · rw [crc7_eq_serial le seen]
    exact crc7Index_lt _ _
  intro cmd arg d d' done
  obtain ⟨log, sent⟩ := sendHdr_sends done
  exact ⟨header cmd arg, log, rfl, sent⟩

/-- The command GO_IDLE_STATE ends in 0x95. -/
theorem command_checksum_idle :
    crc7 0 [0x40, 0, 0, 0, 0] = crc7Serial 0 [0x40, 0, 0, 0, 0] ∧ frame 0 0 = [0x40, 0, 0, 0, 0, 0x95] :=
  ⟨((command_checksum 0 (by decide)).1 _).1, by decide⟩

end ChibiOS.Mmc
