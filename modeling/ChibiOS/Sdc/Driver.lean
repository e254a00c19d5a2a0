import ChibiOS.Mmc.Driver

/-!
# Block transfers of the SDC driver

`sdcRead` and `sdcWrite` of `sdc.c` down to the low level driver, of which nothing is
assumed. They check the range of blocks in one expression of 32 bits, that compares the
last block with the capacity: it takes the block behind the last one for a block of the
card, and ranges that wrap around for short ones.
-/

namespace ChibiOS.Sdc

open Mmc (BlkState)

/-- `sdc_lld_read` and `sdc_lld_write`. -/
inductive Access
  | read
  | write
  deriving DecidableEq

/-- A call of the low level driver. The buffer is its address. -/
structure Transfer where
  access : Access
  startblk : BitVec 32
  buf : Nat
  n : BitVec 32
  deriving DecidableEq

/-- `SDCDriver`. `transfers` has the calls of the low level driver, the last first, and is not in the source. -/
structure SDCDriver where
  state : BlkState
  errors : BitVec 32
  capacity : BitVec 32
  transfers : List Transfer := []
  deriving DecidableEq

/-- `SDC_OVERFLOW_ERROR`. -/
def overflowError : BitVec 32 := 128

/-- What the low level driver makes of a transfer: the status, `true` for `CH_SUCCESS`, and the error flags. -/
abbrev Lld := Transfer → SDCDriver → Bool × BitVec 32

namespace SDCDriver

variable (lld : Lld)

def sdcLld (t : Transfer) (d : SDCDriver) : Bool × SDCDriver :=
  ((lld t d).1, { d with errors := (lld t d).2, transfers := t :: d.transfers })

/-- The state while the low level driver works. -/
def busy : Access → BlkState
  | .read => .reading
  | .write => .writing

/-- The common body of `sdcRead` and `sdcWrite`. -/
def sdcTransfer (t : Transfer) (d : SDCDriver) : Bool × SDCDriver :=
  if d.capacity < t.startblk + t.n - 1 then (false, { d with errors := d.errors ||| overflowError })
  else
    let (status, d) := sdcLld lld t { d with state := busy t.access }
    (status, { d with state := .ready })

def sdcRead (startblk : BitVec 32) (buf : Nat) (n : BitVec 32) : SDCDriver → Bool × SDCDriver :=
  sdcTransfer lld ⟨.read, startblk, buf, n⟩

def sdcWrite (startblk : BitVec 32) (buf : Nat) (n : BitVec 32) : SDCDriver → Bool × SDCDriver :=
  sdcTransfer lld ⟨.write, startblk, buf, n⟩

/-- The blocks of `t` are blocks of the card. -/
def Fits (t : Transfer) (d : SDCDriver) : Prop := t.startblk.toNat + t.n.toNat ≤ d.capacity.toNat

instance (t : Transfer) (d : SDCDriver) : Decidable (Fits t d) := inferInstanceAs (Decidable (_ ≤ _))

/-- A call for the transfer `t` has the result `r`: the low level driver is reached for the blocks of the card, any other
range is refused and nothing but the error flag changes. -/
structure RangeChecked (t : Transfer) (d : SDCDriver) (r : Bool × SDCDriver) : Prop where
  reaches : r.2.transfers = t :: d.transfers ↔ Fits t d
  refuses : ¬Fits t d → r = (false, { d with errors := d.errors ||| overflowError })

variable {lld} {t : Transfer} {d : SDCDriver}

theorem sdcTransfer_refused (past : d.capacity < t.startblk + t.n - 1) :
    sdcTransfer lld t d = (false, { d with errors := d.errors ||| overflowError }) :=
  if_pos past

theorem sdcTransfer_transfers (within : ¬d.capacity < t.startblk + t.n - 1) :
    (sdcTransfer lld t d).2.transfers = t :: d.transfers := by
  rw [sdcTransfer, if_neg within]
  rfl

/-- The range check is right where the expression of 32 bits says what fits. -/
theorem rangeChecked_iff : RangeChecked t d (sdcTransfer lld t d) ↔
    (d.capacity < t.startblk + t.n - 1 ↔ ¬Fits t d) := by
  by_cases past : d.capacity < t.startblk + t.n - 1
  · have stays : (sdcTransfer lld t d).2.transfers ≠ t :: d.transfers := by
      rw [sdcTransfer_refused past]
      exact fun same => absurd (congrArg List.length same) (by simp)
    refine ⟨fun checked => iff_of_true past (stays ∘ checked.reaches.2), fun right => ?_⟩
    exact ⟨iff_of_false stays (right.1 past), fun _ => sdcTransfer_refused past⟩
  · have goes := @sdcTransfer_transfers lld t d past
    refine ⟨fun checked => iff_of_false past (not_not.2 (checked.reaches.1 goes)), fun right => ?_⟩
    have fits : Fits t d := not_not.1 (past ∘ right.2)
    exact ⟨iff_of_true goes fits, fun not => absurd fits not⟩

/-- The last block in 32 bits: once behind the end of the numbers it starts again. -/
theorem last_toNat (pos : 1 ≤ t.n.toNat) : (t.startblk + t.n - 1).toNat =
    if t.startblk.toNat + t.n.toNat ≤ 2 ^ 32 then t.startblk.toNat + t.n.toNat - 1
    else t.startblk.toNat + t.n.toNat - 1 - 2 ^ 32 := by
  have s := t.startblk.isLt
  have n := t.n.isLt
  rw [BitVec.toNat_sub, BitVec.toNat_add, show (1 : BitVec 32).toNat = 1 from rfl]
  split <;> omega

/-- The ranges that the check takes wrongly for blocks of the card: one block too many, or wrapped around. -/
def Mistaken (startblk n capacity : BitVec 32) : Prop :=
  startblk.toNat + n.toNat = capacity.toNat + 1 ∨
    2 ^ 32 < startblk.toNat + n.toNat ∧ startblk.toNat + n.toNat ≤ 2 ^ 32 + capacity.toNat + 1

theorem check_iff (pos : 1 ≤ t.n.toNat) :
    (d.capacity < t.startblk + t.n - 1 ↔ ¬Fits t d) ↔ ¬Mistaken t.startblk t.n d.capacity := by
  have c := d.capacity.isLt
  rw [BitVec.lt_def, last_toNat pos, Fits, Mistaken]
  split <;> omega

/-- `sdcRead` and `sdcWrite` check the range rightly but for the mistaken ranges. -/
theorem block_range (lld : Lld) (d : SDCDriver) (startblk n : BitVec 32) (buf : Nat) (pos : 1 ≤ n.toNat) :
    (RangeChecked ⟨.read, startblk, buf, n⟩ d (sdcRead lld startblk buf n d) ∧
      RangeChecked ⟨.write, startblk, buf, n⟩ d (sdcWrite lld startblk buf n d)) ↔
      ¬Mistaken startblk n d.capacity := by
  have reads := @check_iff ⟨.read, startblk, buf, n⟩ d pos
  have writes := @check_iff ⟨.write, startblk, buf, n⟩ d pos
  rw [sdcRead, sdcWrite, rangeChecked_iff, rangeChecked_iff, reads, writes]
  exact and_self_iff

/-- A connected card of eight blocks. -/
def eightBlocks : SDCDriver := { state := .ready, errors := 0, capacity := 8 }

theorem block_range_all : RangeChecked ⟨.read, 0, 0, 8⟩ eightBlocks (sdcRead (fun _ _ => (true, 0)) 0 0 8 eightBlocks) :=
  ((block_range (fun _ _ => (true, 0)) eightBlocks 0 8 0 (by decide)).2 (by unfold Mistaken; decide)).1

/-- Block 8 is read from a card with the blocks 0 to 7, and so are two blocks from the last number on. -/
theorem block_range_behind : ¬Fits ⟨.read, 8, 0, 1⟩ eightBlocks ∧ ¬Fits ⟨.write, 0xFFFFFFFF, 0, 2⟩ eightBlocks ∧
    sdcRead (fun _ _ => (true, 0)) 8 0 1 eightBlocks = (true, { eightBlocks with transfers := [⟨.read, 8, 0, 1⟩] }) ∧
    sdcWrite (fun _ _ => (true, 0)) 0xFFFFFFFF 0 2 eightBlocks =
      (true, { eightBlocks with transfers := [⟨.write, 0xFFFFFFFF, 0, 2⟩] }) := by
  decide

end SDCDriver

end ChibiOS.Sdc
