import ChibiOS.Lib.Program

/-!
# The MMC/SD over SPI driver

`mmc_spi.c` with the parts of `spi.c` and `mmcsd.c` that it uses. The card enters
as the bytes that it answers: a call consumes them one by one, and a loop that
waits for a byte which never comes has no outcome. A capacity that C leaves undefined
is arbitrary. The log of the bus and the list of replies are not in the source.
-/

namespace ChibiOS.Mmc

open Lib Prog

/-! ## The bus -/

/-- `spistate_t`, as far as the blocking functions leave it. -/
inductive SpiState
  | stop
  | ready
  deriving DecidableEq

/-- `lscfg` and `hscfg` of `MMCConfig`. -/
inductive SpiConfig
  | low
  | high
  deriving DecidableEq

/-- The calls of the SPI driver, with the bytes that they exchange. -/
inductive SpiOp
  | start (config : SpiConfig)
  | stop
  | select
  | unselect
  | send (bytes : List UInt8)
  | receive (bytes : List UInt8)
  | ignore (n : Nat)
  deriving DecidableEq

/-- `blkstate_t`. -/
inductive BlkState
  | uninit
  | stop
  | active
  | connecting
  | disconnecting
  | ready
  | reading
  | writing
  | syncing
  deriving DecidableEq

/-- The reply of the card to a command: its first byte, and the four that follow in an R3. -/
structure Reply where
  cmd : UInt8
  arg : UInt32
  r1 : UInt8
  data : List UInt8
  deriving DecidableEq

/-- A card register: `uint32_t [4]`, the least significant word first. -/
abbrev Cxd := Nat → BitVec 32

/-- `MMCDriver` with the SPI driver below it. `card` is what the card is still going to answer, `undefined` what a shift gives
that has no meaning; `log` and `replies` have the latest entry first. -/
structure MMCDriver where
  state : BlkState
  blockAddresses : Bool
  csd : Cxd
  cid : Cxd
  capacity : BitVec 32
  spi : SpiState := .stop
  selected : Bool := false
  card : List UInt8 := []
  undefined : BitVec 32 := 0
  log : List SpiOp := []
  replies : List Reply := []

/-- Code of the driver. A result of type `Bool` is `true` for `CH_SUCCESS`. -/
abbrev Code := Prog MMCDriver

def spiStart (config : SpiConfig) : Code Unit :=
  modify fun d => { d with spi := .ready, log := .start config :: d.log }

def spiStop : Code Unit :=
  modify fun d => { d with spi := .stop, selected := false, log := .stop :: d.log }

def spiSelect : Code Unit :=
  modify fun d => { d with selected := true, log := .select :: d.log }

def spiUnselect : Code Unit :=
  modify fun d => { d with selected := false, log := .unselect :: d.log }

def spiIgnore (n : Nat) : Code Unit :=
  modify fun d => { d with log := .ignore n :: d.log }

def spiSend (bytes : List UInt8) : Code Unit :=
  modify fun d => { d with log := .send bytes :: d.log }

def spiReceive (n : Nat) : Code (List UInt8) := fun d =>
  if n ≤ d.card.length then
    let bytes := d.card.take n
    some (bytes, { d with card := d.card.drop n, log := .receive bytes :: d.log })
  else none

def spiReceiveByte : Code UInt8 := do
  return (← spiReceive 1).headD 0

/-! ## Card registers -/

/-- `a << n`, which C defines for `n < 32`. -/
def shiftLeft (a : BitVec 32) (n : BitVec 32) : Option (BitVec 32) :=
  if n.toNat < 32 then some (a <<< n.toNat) else none

def shiftRight (a : BitVec 32) (n : BitVec 32) : Option (BitVec 32) :=
  if n.toNat < 32 then some (a >>> n.toNat) else none

def mmcsdGetSlice (data : Cxd) (last start : BitVec 32) : Option (BitVec 32) := do
  let startidx := (start / 32).toNat
  let startoff := start % 32
  let endidx := (last / 32).toNat
  let endmask := (← shiftLeft 1 (last % 32 + 1)) - 1
  if startidx < endidx then
    return (← shiftRight (data startidx) startoff) ||| (← shiftLeft (data endidx &&& endmask) (32 - startoff))
  else
    shiftRight (data startidx &&& endmask) startoff

def mmcsdGetCapacity (csd : Cxd) : Option (BitVec 32) := do
  match (csd 3 >>> 30).toNat with
  | 0 =>
    let a ← mmcsdGetSlice csd 73 62
    let b ← mmcsdGetSlice csd 49 47
    let c ← mmcsdGetSlice csd 83 80
    shiftLeft (← shiftLeft (a + 1) (b + 2)) (c - 9)
  | 1 => return 1024 * ((← mmcsdGetSlice csd 69 48) + 1)
  | _ => return 0

/-! ## Commands -/

def crc7LookupTable : List UInt8 := [
  0x00, 0x09, 0x12, 0x1b, 0x24, 0x2d, 0x36, 0x3f, 0x48, 0x41, 0x5a, 0x53, 0x6c, 0x65, 0x7e, 0x77,
  0x19, 0x10, 0x0b, 0x02, 0x3d, 0x34, 0x2f, 0x26, 0x51, 0x58, 0x43, 0x4a, 0x75, 0x7c, 0x67, 0x6e,
  0x32, 0x3b, 0x20, 0x29, 0x16, 0x1f, 0x04, 0x0d, 0x7a, 0x73, 0x68, 0x61, 0x5e, 0x57, 0x4c, 0x45,
  0x2b, 0x22, 0x39, 0x30, 0x0f, 0x06, 0x1d, 0x14, 0x63, 0x6a, 0x71, 0x78, 0x47, 0x4e, 0x55, 0x5c,
  0x64, 0x6d, 0x76, 0x7f, 0x40, 0x49, 0x52, 0x5b, 0x2c, 0x25, 0x3e, 0x37, 0x08, 0x01, 0x1a, 0x13,
  0x7d, 0x74, 0x6f, 0x66, 0x59, 0x50, 0x4b, 0x42, 0x35, 0x3c, 0x27, 0x2e, 0x11, 0x18, 0x03, 0x0a,
  0x56, 0x5f, 0x44, 0x4d, 0x72, 0x7b, 0x60, 0x69, 0x1e, 0x17, 0x0c, 0x05, 0x3a, 0x33, 0x28, 0x21,
  0x4f, 0x46, 0x5d, 0x54, 0x6b, 0x62, 0x79, 0x70, 0x07, 0x0e, 0x15, 0x1c, 0x23, 0x2a, 0x31, 0x38,
  0x41, 0x48, 0x53, 0x5a, 0x65, 0x6c, 0x77, 0x7e, 0x09, 0x00, 0x1b, 0x12, 0x2d, 0x24, 0x3f, 0x36,
  0x58, 0x51, 0x4a, 0x43, 0x7c, 0x75, 0x6e, 0x67, 0x10, 0x19, 0x02, 0x0b, 0x34, 0x3d, 0x26, 0x2f,
  0x73, 0x7a, 0x61, 0x68, 0x57, 0x5e, 0x45, 0x4c, 0x3b, 0x32, 0x29, 0x20, 0x1f, 0x16, 0x0d, 0x04,
  0x6a, 0x63, 0x78, 0x71, 0x4e, 0x47, 0x5c, 0x55, 0x22, 0x2b, 0x30, 0x39, 0x06, 0x0f, 0x14, 0x1d,
  0x25, 0x2c, 0x37, 0x3e, 0x01, 0x08, 0x13, 0x1a, 0x6d, 0x64, 0x7f, 0x76, 0x49, 0x40, 0x5b, 0x52,
  0x3c, 0x35, 0x2e, 0x27, 0x18, 0x11, 0x0a, 0x03, 0x74, 0x7d, 0x66, 0x6f, 0x50, 0x59, 0x42, 0x4b,
  0x17, 0x1e, 0x05, 0x0c, 0x33, 0x3a, 0x21, 0x28, 0x5f, 0x56, 0x4d, 0x44, 0x7b, 0x72, 0x69, 0x60,
  0x0e, 0x07, 0x1c, 0x15, 0x2a, 0x23, 0x38, 0x31, 0x46, 0x4f, 0x54, 0x5d, 0x62, 0x6b, 0x70, 0x79]

/-- The place in the table that a byte selects. -/
def crc7Index (crc b : UInt8) : Nat := (crc.toNat <<< 1) ^^^ b.toNat

def crc7 (crc : UInt8) (buffer : List UInt8) : UInt8 :=
  buffer.foldl (fun crc b => crc7LookupTable.getD (crc7Index crc b) 0) crc

/-- The loop of `wait` and of `sync`: bytes are received until the bus is idle. The first sixteen
rounds of `wait` differ in nothing but that they do not sleep. -/
def pollIdle : List UInt8 → List SpiOp → Option (List UInt8 × List SpiOp)
  | [], _ => none
  | b :: card, log =>
    if b = 0xFF then some (card, .receive [b] :: log) else pollIdle card (.receive [b] :: log)

def wait : Code Unit := fun d => do
  let (card, log) ← pollIdle d.card d.log
  return ((), { d with card := card, log := log })

/-- The first five bytes of a command. -/
def header (cmd : UInt8) (arg : UInt32) : List UInt8 :=
  [0x40 ||| cmd, (arg >>> 24).toUInt8, (arg >>> 16).toUInt8, (arg >>> 8).toUInt8, arg.toUInt8]

/-- `buf` of `send_hdr`. -/
def frame (cmd : UInt8) (arg : UInt32) : List UInt8 :=
  header cmd arg ++ [((crc7 0 (header cmd arg) &&& 0x7F) <<< 1) ||| 0x01]

def sendHdr (cmd : UInt8) (arg : UInt32) : Code Unit := do
  wait
  spiSend (frame cmd arg)

/-- At most `n` bytes are looked at. -/
def recvByte (n : Nat) : Code UInt8 :=
  match n with
  | 0 => return 0xFF
  | n + 1 => do
    let b ← spiReceiveByte
    if b ≠ 0xFF then return b else recvByte n

def recvr1 : Code UInt8 := recvByte 9

def recvr3 : Code (UInt8 × List UInt8) := do
  let r1 ← recvr1
  return (r1, ← spiReceive 4)

def record (reply : Reply) : Code Unit :=
  modify fun d => { d with replies := reply :: d.replies }

def sendCommandR1 (cmd : UInt8) (arg : UInt32) : Code UInt8 := do
  spiSelect
  sendHdr cmd arg
  let r1 ← recvr1
  spiUnselect
  record ⟨cmd, arg, r1, []⟩
  return r1

def sendCommandR3 (cmd : UInt8) (arg : UInt32) : Code (UInt8 × List UInt8) := do
  spiSelect
  sendHdr cmd arg
  let (r1, response) ← recvr3
  spiUnselect
  record ⟨cmd, arg, r1, response⟩
  return (r1, response)

/-- `cxd[3]` is the first word received. -/
def cxdOfBytes (bytes : List UInt8) : Cxd := fun i =>
  let bp := bytes.drop (4 * (3 - i))
  ((bp.getD 0 0).toBitVec.setWidth 32 <<< 24) ||| ((bp.getD 1 0).toBitVec.setWidth 32 <<< 16) |||
    ((bp.getD 2 0).toBitVec.setWidth 32 <<< 8) ||| (bp.getD 3 0).toBitVec.setWidth 32

/-- Waits for the data token; `store` writes the register. The last round leaves the card selected. -/
def readCxdRound (store : Cxd → MMCDriver → MMCDriver) : Code Round := do
  if (← spiReceiveByte) = 0xFE then
    let buf ← spiReceive 16
    modify (store (cxdOfBytes buf))
    spiIgnore 2
    spiUnselect
    return .done
  else return .again

def mmcWaitData : Nat := 10000

def readCxd (cmd : UInt8) (store : Cxd → MMCDriver → MMCDriver) : Code Bool := do
  spiSelect
  sendHdr cmd 0
  if (← recvr1) ≠ 0x00 then
    spiUnselect
    return false
  else retry mmcWaitData (readCxdRound store)

def sync : Code Unit := do
  spiSelect
  wait
  spiUnselect

def setState (state : BlkState) : Code Unit := modify fun d => { d with state := state }

/-! ## Connection -/

/-- `mmcObjectInit` and `mmcStart`. -/
def mmcStarted : MMCDriver where
  state := .active
  blockAddresses := false
  csd := fun _ => 0
  cid := fun _ => 0
  capacity := 0

/-- One round of the SPI mode selection. -/
def goIdleRound : Code Round := do
  if (← sendCommandR1 0 0) = 0x01 then return .done else return .again

/-- One round of the switch to SDHC mode. -/
def appOpCondRound : Code Round := do
  if (← sendCommandR1 55 0) = 0x01 then
    if (← sendCommandR3 41 0x400001aa).1 = 0x00 then return .done else return .again
  else return .again

/-- `r3[0] & 0x40`, the card capacity status. -/
def ccs (r3 : List UInt8) : Bool := r3.headD 0 &&& 0x40 ≠ 0

/-- The dedicated read of the OCR register. -/
def readOcr : Code Bool := do
  let (_, r3) ← sendCommandR3 58 0
  if ccs r3 then modify fun d => { d with blockAddresses := true }
  return true

/-- The detection of a high capacity card. -/
def detectCapacity : Code Bool := do
  if (← sendCommandR3 8 0x000001AA).1 ≠ 0x05 then (retry 100 appOpCondRound).andThen readOcr
  else return true

/-- One round of the initialization. -/
def initRound : Code Round := do
  let b ← sendCommandR1 1 0
  if b = 0x00 then return .done
  else if b ≠ 0x01 then return .failed
  else return .again

def setBlockLen : Code Bool := do
  spiStart .high
  return (← sendCommandR1 16 512) = 0x00

def determineCapacity : Code Bool := do
  let d ← get
  let capacity := (mmcsdGetCapacity d.csd).getD d.undefined
  modify fun d => { d with capacity := capacity }
  return capacity ≠ 0

/-- The steps of `mmcConnect`, each of which may jump to `failed`. -/
def connectSteps : Code Bool :=
  (retry 10 goIdleRound).andThen <|
  detectCapacity.andThen <|
  (retry 100 initRound).andThen <|
  setBlockLen.andThen <|
  (readCxd 9 fun csd d => { d with csd := csd }).andThen <|
  determineCapacity.andThen <|
  readCxd 10 fun cid d => { d with cid := cid }

def mmcConnect : Code Bool := do
  setState .connecting
  spiStart .low
  spiIgnore 16
  if ← connectSteps then
    setState .ready
    return true
  else
    spiStop
    setState .active
    return false

def mmcDisconnect : Code Bool := do
  if (← get).state = .active then return true
  else
    setState .disconnecting
    spiStart .high
    sync
    spiStop
    setState .active
    return true

/-! ## Reading, writing, erasing -/

/-- The address of a block in the unit that `blockAddresses` stands for. -/
def address (blockAddresses : Bool) (blk : UInt32) : UInt32 :=
  if blockAddresses then blk else blk * 512

/-- `mmcStartSequentialRead` and `mmcStartSequentialWrite`. -/
def startSequential (state : BlkState) (cmd : UInt8) (startblk : UInt32) : Code Bool := do
  setState state
  spiStart .high
  spiSelect
  sendHdr cmd (address (← get).blockAddresses startblk)
  if (← recvr1) ≠ 0x00 then
    spiStop
    setState .ready
    return false
  else return true

def mmcStartSequentialRead (startblk : UInt32) : Code Bool := startSequential .reading 18 startblk

def mmcStartSequentialWrite (startblk : UInt32) : Code Bool := startSequential .writing 25 startblk

/-- The error exit of `mmcSequentialRead` and `mmcSequentialWrite`. -/
def abortSequential : Code Unit := do
  spiUnselect
  spiStop
  setState .ready

def readRound : Code Round := do
  if (← spiReceiveByte) = 0xFE then
    let _ ← spiReceive 512
    spiIgnore 2
    return .done
  else return .again

/-- The block that is read is in the log. -/
def mmcSequentialRead : Code Bool := do
  if (← get).state ≠ .reading then return false
  else if ← retry mmcWaitData readRound then return true
  else
    abortSequential
    return false

def mmcStopSequentialRead : Code Bool := do
  if (← get).state ≠ .reading then return false
  else
    spiSend [0x40 ||| 12, 0, 0, 0, 0, 1, 0xFF]
    let _ ← recvr1
    spiUnselect
    setState .ready
    return true

def mmcSequentialWrite (buffer : List UInt8) : Code Bool := do
  if (← get).state ≠ .writing then return false
  else
    spiSend [0xFF, 0xFC]
    spiSend buffer
    spiIgnore 2
    if (← spiReceiveByte) &&& 0x1F = 0x05 then
      wait
      return true
    else
      abortSequential
      return false

def mmcStopSequentialWrite : Code Bool := do
  if (← get).state ≠ .writing then return false
  else
    spiSend [0xFD, 0xFF]
    spiUnselect
    setState .ready
    return true

def mmcSync : Code Bool := do
  if (← get).state ≠ .ready then return false
  else
    setState .syncing
    spiStart .high
    sync
    setState .ready
    return true

/-- A command of `mmcErase`. -/
def eraseCommand (cmd : UInt8) (arg : UInt32) : Code Bool := do
  return (← sendCommandR1 cmd arg) = 0x00

def mmcErase (startblk endblk : UInt32) : Code Bool := do
  setState .writing
  let blockAddresses := (← get).blockAddresses
  if ← (eraseCommand 32 (address blockAddresses startblk)).andThen <|
      (eraseCommand 33 (address blockAddresses endblk)).andThen <|
      eraseCommand 38 0 then
    setState .ready
    return true
  else
    spiStop
    setState .ready
    return false

end ChibiOS.Mmc
