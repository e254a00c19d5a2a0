import ChibiOS.Lib.Ring
import ChibiOS.Usb.SerialReceive

/-!
# Serial-over-USB transmission

Any number of writers of the output queue, the data pump thread and the completion
interrupt, at the granularity of the lock zones, while the device stays configured.
The pump thread copies a packet from the queue into the FIFO, then frees its place in
the queue, then counts it; writers may run between any two of these, USB interrupts are
suspended.
`onotify` has the window of `inotify`: a second writer that passes the test in it
starts a transaction under the first. While writers pass the test one at a time, what
has been handed to the FIFO and what the queue still holds are what was written.
-/

namespace ChibiOS.Usb

open Lib USBDriver
open Function (update update_self update_of_ne)

/-- The pump thread in `otg_txfifo_handler`: a packet is in the FIFO and not yet freed, or not yet counted. -/
inductive Pump
  | idle
  | pushed (k : Nat)
  | freed (k : Nat)
  deriving DecidableEq

/-- Bytes in the FIFO and not yet in `txcnt`. -/
def Pump.uncounted : Pump → Nat
  | .idle => 0
  | .pushed k => k
  | .freed k => k

/-- Bytes in the FIFO whose place in the queue is not yet free. -/
def Pump.unfreed : Pump → Nat
  | .pushed k => k
  | _ => 0

/-- The output queue is `buf`, `rd`, `wr` and `counter`. `fed` is what the controller was given since the transaction was
prepared. `written` and `handed` are the bytes stored by writers and copied into the FIFO, and `reprepared` says that the
endpoint was prepared while it was transmitting; they are not in the source. -/
structure SduTx where
  usb : USBDriver
  buf : Buf
  rd : Nat
  wr : Nat
  counter : Nat
  writer : Nat → Notify
  fed : Nat
  pump : Pump
  written : List UInt8
  handed : List UInt8
  reprepared : Bool

inductive TxLabel
  /-- A lock zone of `chOQPutTimeout` or `chOQWriteTimeout` that stores a byte, with `onotify`. -/
  | write (t : Nat) (b : UInt8)
  /-- `usbPrepareQueuedTransmit`, without the lock. -/
  | prepare (t : Nat)
  /-- The lock is taken again. -/
  | start (t : Nat)
  /-- The pump thread copies a packet into the FIFO. -/
  | push
  /-- It updates the queue. -/
  | free
  /-- It updates `txcnt`. -/
  | count
  /-- The completion interrupt, when the controller has sent all it was armed for. -/
  | complete

namespace SduTx

/-- `usbGetTransmitStatusI`. -/
def transmitting (s : SduTx) : Bool := s.usb.usbGetTransmitStatusI USBDriver.dataEp

/-- `chOQGetFullI`. -/
def full (s : SduTx) : Nat := sduBufferSize - s.counter

/-- The byte is stored in the queue. -/
def put (b : UInt8) (s : SduTx) : SduTx :=
  { s with
    buf := update s.buf s.wr b
    wr := ringNext sduBufferSize s.wr
    counter := s.counter - 1
    written := s.written ++ [b] }

def prepare (n : Nat) (s : SduTx) : SduTx :=
  { s with
    usb := s.usb.usbPrepareQueuedTransmit USBDriver.dataEp n
    fed := 0
    reprepared := s.reprepared || s.transmitting }

def start (s : SduTx) : SduTx := { s with usb := s.usb.usbStartTransmitI USBDriver.dataEp }

/-- The test of `onotify`. -/
def admits (s : SduTx) : Bool := !s.transmitting && decide (0 < s.full)

/-- `sduDataTransmitted`; the interrupt is one step. -/
def sduDataTransmitted (s : SduTx) : SduTx :=
  if 0 < s.full then (s.prepare s.full).start
  else if 0 < s.usb.tx.size ∧ s.usb.tx.size &&& (dataMaxsize - 1) = 0 then (s.prepare 0).start
  else s

/-- `n` bytes of the queue, from the read pointer on. -/
def fetch (n : Nat) (s : SduTx) : List UInt8 := (List.range n).map fun i => s.buf ((s.rd + i) % sduBufferSize)

/-- `otg_fifo_write_from_queue`, before it takes the lock. -/
def push (n : Nat) (s : SduTx) : SduTx :=
  { s with rd := (s.rd + n) % sduBufferSize, fed := s.fed + n, pump := .pushed n, handed := s.handed ++ s.fetch n }

/-- Its end. -/
def free (k : Nat) (s : SduTx) : SduTx := { s with counter := s.counter + k, pump := .freed k }

/-- The end of a round of `otg_txfifo_handler`. -/
def count (k : Nat) (s : SduTx) : SduTx :=
  { s with
    usb := { s.usb with epState := update s.usb.epState .ep1in { s.usb.tx with cnt := s.usb.tx.cnt + k } }
    pump := .idle }

def next (l : TxLabel) (s : SduTx) : Option SduTx :=
  match l with
  | .write t b =>
    if s.writer t = .out ∧ 0 < s.counter then
      let s := s.put b
      some (if s.admits then { s with writer := update s.writer t (.tested s.full) } else s)
    else none
  | .prepare t =>
    match s.writer t with
    | .tested n => some { s.prepare n with writer := update s.writer t .prepared }
    | _ => none
  | .start t =>
    match s.writer t with
    | .prepared => some { s.start with writer := update s.writer t .out }
    | _ => none
  | .push =>
    if s.pump = .idle ∧ s.usb.tx.cnt < s.usb.tx.size then some (s.push (min (s.usb.tx.size - s.usb.tx.cnt) dataMaxsize))
    else none
  | .free =>
    match s.pump with
    | .pushed k => some (s.free k)
    | _ => none
  | .count =>
    match s.pump with
    | .freed k => some (s.count k)
    | _ => none
  | .complete =>
    if s.transmitting ∧ s.usb.tx.size ≤ s.fed ∧ s.pump = .idle then some { s with usb := s.usb.inEnded }.sduDataTransmitted else none

end SduTx

/-- A driver that has just been configured. -/
def sduConfiguredTx (d : USBDriver) : SduTx where
  usb := d
  buf := null
  rd := 0
  wr := 0
  counter := sduBufferSize
  writer _ := .out
  fed := 0
  pump := .idle
  written := []
  handed := []
  reprepared := false

def serialTransmit (d : USBDriver) : Lts SduTx TxLabel where
  init := sduConfiguredTx d
  next := SduTx.next

/-! ## Bytes are sent once -/

/-- Bytes of the queue that are not in the FIFO. -/
def SduTx.stored (s : SduTx) : Nat := s.full - s.pump.unfreed

/-- Bytes of the transaction that are not in the FIFO. -/
def SduTx.remaining (s : SduTx) : Nat := s.usb.tx.size - (s.usb.tx.cnt + s.pump.uncounted)

open SduTx (remaining)

/-- No running transaction was prepared again, the rest of an armed one is in the queue, and the FIFO and the queue hold what
was written. -/
structure SentOnce (s : SduTx) : Prop where
  once : s.reprepared = false
  covered : s.transmitting = true → s.remaining ≤ s.stored
  order : s.written = s.handed ++ s.fetch s.stored

/-- A writer passes the test of `onotify` only while no other is between its test and its start. -/
def OneWriter (s : SduTx) (l : TxLabel) : Prop :=
  ∀ t b, l = .write t b → (s.put b).admits = true → ∀ t', s.writer t' = .out

/-- The queue holds what was written and not handed on. -/
def SduTx.QueueOk (s : SduTx) : Prop :=
  ∃ l, Ring sduBufferSize s.buf s.rd s.wr l ∧ s.written = s.handed ++ l ∧
    l.length + s.pump.unfreed + s.counter = sduBufferSize

structure TxOk (s : SduTx) : Prop where
  bulk : s.usb.Bulk
  once : s.reprepared = false
  single : ∃ t, Alone s.writer t
  /-- In the window of a writer nothing is transmitted. -/
  quiet : ∀ t, s.writer t ≠ .out → s.transmitting = false
  queue : s.QueueOk
  tested : ∀ t n, s.writer t = .tested n → n ≤ s.stored
  covered : s.remaining ≤ s.stored
  /-- Between transactions the pump thread has nothing to copy and nothing to free. -/
  ended : s.transmitting = false → (∀ t, s.writer t ≠ .prepared) → s.remaining = 0 ∧ s.pump.unfreed = 0
  fed : s.fed ≤ s.usb.tx.cnt + s.pump.uncounted

namespace SduTx

variable {s : SduTx} {n : Nat}

theorem transmitting_prepare (bulk : s.usb.Bulk) : (s.prepare n).transmitting = s.transmitting := by
  simp only [prepare, transmitting, bulk.prepareTransmit]
  rfl

theorem tx_prepare (bulk : s.usb.Bulk) : (s.prepare n).usb.tx = { queued := true, size := n, cnt := 0 } := by
  simp only [prepare, tx, bulk.prepareTransmit, update_self]

theorem remaining_prepare (bulk : s.usb.Bulk) : (s.prepare n).remaining = n - s.pump.uncounted := by
  simp only [remaining, tx_prepare bulk, Nat.zero_add]
  rfl

theorem bulk_prepare (bulk : s.usb.Bulk) : (s.prepare n).usb.Bulk := by
  simp only [prepare, bulk.prepareTransmit]
  exact bulk

theorem transmitting_start : s.start.transmitting = true := startTransmit_status

theorem tx_start : s.start.usb.tx = s.usb.tx := by
  simp only [start, tx, startTransmit_epState]

theorem bulk_start (bulk : s.usb.Bulk) : s.start.usb.Bulk := by
  simp only [start, USBDriver.Bulk, startTransmit_epc]
  exact bulk

theorem QueueOk.stored_put (queue : s.QueueOk) (room : 0 < s.counter) (b : UInt8) : (s.put b).stored = s.stored + 1 := by
  obtain ⟨l, -, -, count⟩ := queue
  show sduBufferSize - (s.counter - 1) - s.pump.unfreed = sduBufferSize - s.counter - s.pump.unfreed + 1
  omega

theorem QueueOk.put (queue : s.QueueOk) (room : 0 < s.counter) (b : UInt8) : (s.put b).QueueOk := by
  obtain ⟨l, ring, order, count⟩ := queue
  refine ⟨l ++ [b], ring.pushBack (by omega) b, ?_, ?_⟩
  · show s.written ++ [b] = s.handed ++ (l ++ [b])
    rw [order, List.append_assoc]
  · show (l ++ [b]).length + s.pump.unfreed + (s.counter - 1) = sduBufferSize
    rw [List.length_append, List.length_singleton]
    omega

/-- A packet goes from the queue to the FIFO. -/
theorem QueueOk.push (queue : s.QueueOk) (idle : s.pump = .idle) (le : n ≤ s.stored) : (s.push n).QueueOk := by
  obtain ⟨l, ring, order, count⟩ := queue
  have none : s.pump.unfreed = 0 := by rw [idle]; rfl
  have short : n ≤ l.length := by
    simp only [stored, full] at le
    omega
  obtain ⟨read, rest⟩ := ring.takeFront short
  refine ⟨l.drop n, rest, ?_, ?_⟩
  · show s.written = s.handed ++ s.fetch n ++ l.drop n
    rw [fetch, read, order, List.append_assoc, List.take_append_drop]
  · show (l.drop n).length + n + s.counter = sduBufferSize
    rw [List.length_drop]
    omega

theorem QueueOk.order (queue : s.QueueOk) : s.written = s.handed ++ s.fetch s.stored := by
  obtain ⟨l, ring, order, count⟩ := queue
  have length : s.stored = l.length := by
    simp only [stored, full]
    omega
  rw [order, length, fetch, (ring.takeFront le_rfl).1, List.take_length]

end SduTx

variable {s s' : SduTx} {l : TxLabel} {n t : Nat}

/-- While a transaction runs no writer is in its window. -/
theorem TxOk.out (ok : TxOk s) (on : s.transmitting = true) (t : Nat) : s.writer t = .out := by
  by_contra inside
  cases (ok.quiet t inside).symm.trans on

/-- More bytes in the queue hurt nobody. -/
theorem TxOk.put (ok : TxOk s) (room : 0 < s.counter) (b : UInt8) : TxOk (s.put b) := by
  have more := ok.queue.stored_put room b
  exact { ok with
    queue := ok.queue.put room b
    tested := fun t n at_ => by
      have le := ok.tested t n at_
      omega
    covered := by
      have le := ok.covered
      show s.remaining ≤ (s.put b).stored
      omega }

theorem TxOk.write (ok : TxOk s) (admits : s.admits = true) (out : ∀ t', s.writer t' = .out) :
    TxOk { s with writer := update s.writer t (.tested s.full) } := by
  have off : s.transmitting = false := by
    simp only [SduTx.admits, Bool.and_eq_true, Bool.not_eq_true'] at admits
    exact admits.1
  have ended := ok.ended off fun t' at_ => by cases (out t').symm.trans at_
  have alone : Alone s.writer t := fun t' _ => out t'
  refine { ok with
    single := ⟨t, alone.update _⟩
    quiet := fun _ _ => off
    tested := fun t' n at_ => ?_
    ended := fun _ _ => ended }
  obtain ⟨-, ⟨⟩⟩ := alone.is at_ nofun
  show s.full ≤ s.full - s.pump.unfreed
  rw [ended.2, Nat.sub_zero]

theorem TxOk.prepare (ok : TxOk s) (is : s.writer t = .tested n) :
    TxOk { s.prepare n with writer := update s.writer t .prepared } := by
  have inside : s.writer t ≠ .out := by rw [is]; nofun
  have alone := Alone.of_single ok.single inside
  have off := ok.quiet t inside
  have still : (s.prepare n).transmitting = false := (SduTx.transmitting_prepare ok.bulk).trans off
  refine {
    bulk := SduTx.bulk_prepare ok.bulk
    once := Bool.or_eq_false_iff.2 ⟨ok.once, off⟩
    single := ⟨t, alone.update _⟩
    quiet := fun _ _ => still
    queue := ok.queue
    tested := fun t' n' at_ => ?_
    covered := ?_
    ended := fun _ nobody => absurd (update_self ..) (nobody t)
    fed := Nat.zero_le _ }
  · obtain ⟨-, ⟨⟩⟩ := alone.is at_ nofun
  · show (s.prepare n).remaining ≤ s.stored
    rw [SduTx.remaining_prepare ok.bulk]
    exact le_trans (Nat.sub_le _ _) (ok.tested t n is)

/-- A prepared transaction is started. -/
theorem TxOk.started (bulk : s.usb.Bulk) (once : s.reprepared = false) (out : ∀ t, s.writer t = .out) (queue : s.QueueOk)
    (covered : s.remaining ≤ s.stored) (fed : s.fed ≤ s.usb.tx.cnt + s.pump.uncounted) : TxOk s.start where
  bulk := SduTx.bulk_start bulk
  once := once
  single := ⟨0, fun t _ => out t⟩
  quiet t inside := absurd (out t) inside
  queue := queue
  tested t n at_ := by cases (out t).symm.trans at_
  covered := by
    rwa [remaining, SduTx.tx_start]
  ended off := absurd (SduTx.transmitting_start.symm.trans off) nofun
  fed := by
    rwa [SduTx.tx_start]

theorem TxOk.start (ok : TxOk s) (is : s.writer t = .prepared) :
    TxOk { s.start with writer := update s.writer t .out } := by
  have inside : s.writer t ≠ .out := by rw [is]; nofun
  have out := (Alone.of_single ok.single inside).leaves
  exact started (s := { s with writer := update s.writer t .out }) ok.bulk ok.once out ok.queue ok.covered ok.fed

/-- The pump thread copies only bytes of the transaction. -/
theorem TxOk.push (ok : TxOk s) (idle : s.pump = .idle) (pos : 0 < n) (le : n ≤ s.usb.tx.size - s.usb.tx.cnt) :
    TxOk (s.push n) := by
  have uncounted : s.pump.uncounted = 0 := by rw [idle]; rfl
  have unfreed : s.pump.unfreed = 0 := by rw [idle]; rfl
  have covered := ok.covered
  have fed := ok.fed
  have rest : s.remaining = s.usb.tx.size - s.usb.tx.cnt := by rw [remaining, uncounted, add_zero]
  have armed : ∀ t m, s.writer t ≠ .tested m := by
    intro t m is
    have alone := Alone.of_single ok.single (by rw [is]; nofun)
    have none := ok.ended (ok.quiet t (by rw [is]; nofun)) fun t' at_ => by
      have same : t' = t := by
        by_contra other
        cases (alone t' other).symm.trans at_
      rw [same, is] at at_
      cases at_
    omega
  have less : (s.push n).remaining = s.remaining - n := by
    show s.usb.tx.size - (s.usb.tx.cnt + n) = s.remaining - n
    omega
  have stored : (s.push n).stored = s.stored - n := by
    simp only [SduTx.stored, unfreed]
    rfl
  refine { ok with
    queue := ok.queue.push idle (by omega)
    tested := fun t m at_ => absurd at_ (armed t m)
    covered := by omega
    ended := fun off nobody => ?_
    fed := ?_ }
  · have none := (ok.ended off nobody).1
    omega
  · show s.fed + n ≤ s.usb.tx.cnt + n
    omega

theorem TxOk.free {k : Nat} (ok : TxOk s) (is : s.pump = .pushed k) : TxOk (s.free k) := by
  have unfreed : s.pump.unfreed = k := by rw [is]; rfl
  have uncounted : s.pump.uncounted = k := by rw [is]; rfl
  have stored : (s.free k).stored = s.stored := by
    show sduBufferSize - (s.counter + k) - 0 = sduBufferSize - s.counter - s.pump.unfreed
    omega
  have rest : (s.free k).remaining = s.remaining := by
    rw [remaining, remaining, uncounted]
    rfl
  refine { ok with
    queue := ?_
    tested := fun t n at_ => stored ▸ ok.tested t n at_
    covered := by rw [rest, stored]; exact ok.covered
    ended := fun off nobody => ⟨rest ▸ (ok.ended off nobody).1, rfl⟩
    fed := ?_ }
  · obtain ⟨l, ring, order, count⟩ := ok.queue
    refine ⟨l, ring, order, ?_⟩
    show l.length + 0 + (s.counter + k) = sduBufferSize
    omega
  · have fed := ok.fed
    rwa [uncounted] at fed

theorem TxOk.count {k : Nat} (ok : TxOk s) (is : s.pump = .freed k) : TxOk (s.count k) := by
  have unfreed : s.pump.unfreed = 0 := by rw [is]; rfl
  have uncounted : s.pump.uncounted = k := by rw [is]; rfl
  have tx : (s.count k).usb.tx = { s.usb.tx with cnt := s.usb.tx.cnt + k } := by
    simp only [SduTx.count, tx, update_self]
  have stored : (s.count k).stored = s.stored := by
    rw [SduTx.stored, SduTx.stored, unfreed]
    rfl
  have rest : (s.count k).remaining = s.remaining := by
    rw [remaining, remaining, tx, uncounted]
    rfl
  refine { ok with
    queue := ?_
    tested := fun t n at_ => stored ▸ ok.tested t n at_
    covered := by rw [rest, stored]; exact ok.covered
    ended := fun off nobody => ⟨rest ▸ (ok.ended off nobody).1, rfl⟩
    fed := ?_ }
  · have queue := ok.queue
    rwa [SduTx.QueueOk, unfreed] at queue
  · have fed := ok.fed
    rw [uncounted] at fed
    rwa [tx]

/-- `sduDataTransmitted` starts a transaction of `n` bytes. -/
theorem TxOk.restart (bulk : s.usb.Bulk) (once : s.reprepared = false) (out : ∀ t, s.writer t = .out)
    (queue : s.QueueOk) (off : s.transmitting = false) (le : n ≤ s.stored) : TxOk (s.prepare n).start := by
  refine started (SduTx.bulk_prepare bulk) (Bool.or_eq_false_iff.2 ⟨once, off⟩) out queue ?_ (Nat.zero_le _)
  rw [SduTx.remaining_prepare bulk]
  exact le_trans (Nat.sub_le _ _) le

theorem TxOk.complete (ok : TxOk s) (on : s.transmitting = true) (sent : s.usb.tx.size ≤ s.fed) (idle : s.pump = .idle) :
    TxOk { s with usb := s.usb.inEnded }.sduDataTransmitted := by
  have out := ok.out on
  have off : { s with usb := s.usb.inEnded }.transmitting = false := inEnded_status
  have bulk : s.usb.inEnded.Bulk := ok.bulk
  have unfreed : s.pump.unfreed = 0 := by rw [idle]; rfl
  have fed := ok.fed
  rw [SduTx.sduDataTransmitted]
  split_ifs with data packet
  · refine restart bulk ok.once out ok.queue off ?_
    show s.full ≤ s.full - s.pump.unfreed
    rw [unfreed, Nat.sub_zero]
  · exact restart bulk ok.once out ok.queue off (Nat.zero_le _)
  · refine { ok with
      bulk := bulk
      quiet := fun _ _ => off
      tested := fun t n at_ => by cases (out t).symm.trans at_
      ended := fun _ _ => ⟨?_, unfreed⟩ }
    show s.usb.tx.size - (s.usb.tx.cnt + s.pump.uncounted) = 0
    omega

theorem TxOk.step (ok : TxOk s) (one : OneWriter s l) (taken : s.next l = some s') : TxOk s' := by
  cases l with
  | write t b =>
    obtain ⟨⟨-, room⟩, ⟨⟩⟩ := Option.ite_none_right_eq_some.1 taken
    have put := ok.put room b
    split
    next admits => exact put.write admits (one t b rfl admits)
    · exact put
  | prepare t =>
    simp only [SduTx.next] at taken
    split at taken <;> cases taken
    next n is => exact ok.prepare is
  | start t =>
    simp only [SduTx.next] at taken
    split at taken <;> cases taken
    next is => exact ok.start is
  | push =>
    obtain ⟨⟨idle, less⟩, ⟨⟩⟩ := Option.ite_none_right_eq_some.1 taken
    have packet : 0 < dataMaxsize := by decide
    exact ok.push idle (by omega) (Nat.min_le_left _ _)
  | free =>
    simp only [SduTx.next] at taken
    split at taken <;> cases taken
    next is => exact ok.free is
  | count =>
    simp only [SduTx.next] at taken
    split at taken <;> cases taken
    next is => exact ok.count is
  | complete =>
    obtain ⟨⟨on, sent, idle⟩, ⟨⟩⟩ := Option.ite_none_right_eq_some.1 taken
    exact ok.complete on sent idle

theorem txOk_configured {d : USBDriver} (bulk : d.Bulk) (none : d.tx.size = 0) : TxOk (sduConfiguredTx d) where
  bulk := bulk
  once := rfl
  single := ⟨0, fun _ _ => rfl⟩
  quiet _ inside := absurd rfl inside
  queue := ⟨[], .empty (by decide) _, rfl, rfl⟩
  tested _ _ at_ := by cases at_
  covered := by
    show d.tx.size - (d.tx.cnt + 0) ≤ _
    rw [none, Nat.zero_sub]
    exact Nat.zero_le _
  ended _ _ := ⟨by
    show d.tx.size - (d.tx.cnt + 0) = 0
    rw [none, Nat.zero_sub], rfl⟩
  fed := Nat.zero_le _

/-- In every run in which writers pass the test of `onotify` one at a time, the endpoint is never prepared while it is
transmitting, the queue holds the rest of an armed transaction, and the FIFO is handed what was written, in order and
once. -/
theorem serial_transmit_once {d : USBDriver} (bulk : d.Bulk) (none : d.tx.size = 0)
    (reached : (serialTransmit d).Reach OneWriter s) : SentOnce s := by
  have ok : TxOk s := reached.invariant (txOk_configured bulk none) fun _ _ _ ok one taken => ok.step one taken
  exact ⟨ok.once, fun _ => ok.covered, ok.queue.order⟩

/-! ## Two writers -/

/-- A writer goes through `onotify` when the other one is behind it. -/
theorem serial_transmit_two : ∃ s, (serialTransmit bulkDriver).run [.write 0 65, .prepare 0, .start 0, .push, .free, .count,
      .complete, .write 1 66, .prepare 1, .start 1, .push, .free] (serialTransmit bulkDriver).init = some s ∧
    s.handed = [65, 66] ∧ s.counter = 256 ∧ SentOnce s := by
  have first : (serialTransmit bulkDriver).Reach OneWriter _ := .step .init (l := .write 0 65) (fun _ _ _ _ _ => rfl) rfl
  have sent := (((((first.step (l := .prepare 0) nofun rfl).step (l := .start 0) nofun rfl).step (l := .push) nofun rfl).step
    (l := .free) nofun rfl).step (l := .count) nofun rfl).step (l := .complete) nofun rfl
  have second := sent.step (l := .write 1 66) (fun _ _ _ _ t => by
    show update (update (update (fun _ => Notify.out) 0 (.tested 1)) 0 .prepared) 0 .out t = .out
    simp only [Function.update_apply]
    split <;> rfl) rfl
  have reached := (((second.step (l := .prepare 1) nofun rfl).step (l := .start 1) nofun rfl).step
    (l := .push) nofun rfl).step (l := .free) nofun rfl
  exact ⟨_, rfl, rfl, rfl, serial_transmit_once (show bulkDriver.Bulk from rfl) rfl reached⟩

/-- What is seen of a state. -/
structure TxShown where
  transmitting : Bool
  remaining : Nat
  stored : Nat
  written : List UInt8
  handed : List UInt8
  reprepared : Bool
  deriving DecidableEq

def SduTx.shows (s : SduTx) : TxShown := ⟨s.transmitting, s.remaining, s.stored, s.written, s.handed, s.reprepared⟩

/-- Two writers store a byte each and find the endpoint idle. The first to have passed the test prepares it after the
bytes of both have gone to the FIFO. -/
def twoWriters : List TxLabel :=
  [.write 0 65, .write 1 66, .prepare 1, .start 1, .push, .free, .count, .prepare 0]

/-- The transaction is armed again with nothing in the queue, and the FIFO is handed a byte that nobody wrote. -/
theorem serial_transmit_stale : ((serialTransmit bulkDriver).run twoWriters (serialTransmit bulkDriver).init).map SduTx.shows =
      some { transmitting := true, remaining := 1, stored := 0, written := [65, 66], handed := [65, 66], reprepared := true } ∧
    ((serialTransmit bulkDriver).run (twoWriters ++ [.push]) (serialTransmit bulkDriver).init).map (·.handed) =
      some [65, 66, 0] := by
  decide +kernel

end ChibiOS.Usb
