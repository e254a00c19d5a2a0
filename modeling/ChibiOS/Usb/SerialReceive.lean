import ChibiOS.Usb.Ep0
import ChibiOS.Usb.Serial

/-!
# Serial-over-USB reception

Any number of readers of the input queue, the data pump thread and the completion
interrupt, at the granularity of the lock zones, while the device stays configured.
A transaction is armed for whole packets that the free space can hold. `inotify`
computes the size under the lock and prepares the transaction without it. If a
second reader passes the test in that window it computes a size of its own, and the
slower of the two prepares the endpoint again under a running transaction. While
readers pass the test one at a time, an armed transaction always fits.
-/

namespace ChibiOS.Usb

open Lib USBDriver
open Function (update update_self update_of_ne)

/-- `left` is what the packets of the transaction can still bring (`DOEPTSIZ_PKTCNT`), `short` that a short packet has
ended it; `rxfifo` are the packets received and not yet read, `stored` one that the pump thread has put into the
queue and not yet counted in `rxcnt`. `reprepared` says that the endpoint was prepared while it was receiving; it is
not in the source. -/
structure SduRx where
  usb : USBDriver
  counter : Nat
  reader : Nat → Notify
  left : Nat
  short : Bool
  rxfifo : List Nat
  stored : Option Nat
  reprepared : Bool

inductive RxLabel
  /-- The start of a lock zone of `chIQGetTimeout` or `chIQReadTimeout`, with `inotify`. -/
  | read (t : Nat)
  /-- `usbPrepareQueuedReceive`, without the lock. -/
  | prepare (t : Nat)
  /-- The lock is taken again. -/
  | start (t : Nat)
  /-- A reader that waited for data goes on. -/
  | resume (t : Nat)
  /-- The controller receives a packet. -/
  | packet (k : Nat)
  /-- The pump thread stores a packet in the queue. -/
  | store
  /-- It counts the packet. -/
  | count
  /-- The completion interrupt, which follows the last packet out of the receive FIFO. The controller may end the
  transaction after any packet: `DOEPTSIZ_XFRSIZ` is one packet whatever the size. -/
  | complete

namespace SduRx

/-- `usbGetReceiveStatusI`. -/
def receiving (s : SduRx) : Bool := s.usb.usbGetReceiveStatusI dataEp

/-- `chIQGetEmptyI`. -/
def space (s : SduRx) : Nat := sduBufferSize - s.counter

/-- The end of a lock zone: a byte is taken from the queue, or the reader goes to sleep. -/
def take (s : SduRx) : SduRx := { s with counter := s.counter - 1 }

/-- `usbPrepareQueuedReceive` for whole packets; the size register is written with it. -/
def prepare (n : Nat) (s : SduRx) : SduRx :=
  { s with
    usb := s.usb.usbPrepareQueuedReceive dataEp n
    left := n
    short := false
    reprepared := s.reprepared || s.receiving }

def start (s : SduRx) : SduRx := { s with usb := s.usb.usbStartReceiveI dataEp }

/-- The test of `inotify`. -/
def admits (s : SduRx) : Bool := !s.receiving && decide (dataMaxsize ≤ s.space)

/-- The size of the transaction. -/
def wholePackets (s : SduRx) : Nat := s.space / dataMaxsize * dataMaxsize

/-- `sduDataReceived`; the interrupt is one step. -/
def sduDataReceived (s : SduRx) : SduRx :=
  if dataMaxsize ≤ s.space then (s.prepare s.wholePackets).start else s

/-- The controller accepts packets of the transaction. -/
def open_ (s : SduRx) : Bool := s.receiving && !s.short && decide (0 < s.left)

def next (l : RxLabel) (s : SduRx) : Option SduRx :=
  match l with
  | .read t =>
    if s.reader t = .out then
      some (if s.admits then { s with reader := update s.reader t (.tested s.wholePackets) } else s.take)
    else none
  | .prepare t =>
    match s.reader t with
    | .tested n => some { s.prepare n with reader := update s.reader t .prepared }
    | _ => none
  | .start t =>
    match s.reader t with
    | .prepared => some { s.start.take with reader := update s.reader t .out }
    | _ => none
  | .resume t => if s.reader t = .out then some s.take else none
  | .packet k =>
    if s.open_ ∧ k ≤ min dataMaxsize s.left then
      some { s with left := s.left - k, short := decide (k < dataMaxsize), rxfifo := s.rxfifo ++ [k] }
    else none
  | .store =>
    match s.rxfifo, s.stored with
    | k :: rest, none => some { s with rxfifo := rest, stored := some k, counter := s.counter + k }
    | _, _ => none
  | .count =>
    match s.stored with
    | some k => some { s with
        stored := none
        usb := { s.usb with epState := update s.usb.epState .ep1out { s.usb.rx with cnt := s.usb.rx.cnt + k } } }
    | none => none
  | .complete =>
    if s.receiving ∧ s.rxfifo = [] ∧ s.stored = none then some { s with usb := s.usb.outEnded }.sduDataReceived
    else none

end SduRx

/-- `sduConfigureHookI` for a driver that has just been configured. -/
def sduConfiguredRx (d : USBDriver) : SduRx where
  usb := d.sduConfigureHookI
  counter := 0
  reader _ := .out
  left := dataMaxsize
  short := false
  rxfifo := []
  stored := none
  reprepared := false

def serialReceive (d : USBDriver) : Lts SduRx RxLabel where
  init := sduConfiguredRx d
  next := SduRx.next

/-! ## Transactions fit -/

/-- Bytes of the transaction that are already in the queue. -/
def SduRx.received (s : SduRx) : Nat := s.usb.rx.cnt + s.stored.getD 0

/-- An armed transaction fits, the queue does not overflow, and no running transaction was prepared again. -/
structure ReceiveFits (s : SduRx) : Prop where
  fits : s.receiving = true → s.usb.rx.size - s.received ≤ s.space
  bounded : s.counter ≤ sduBufferSize
  once : s.reprepared = false

/-- A reader passes the test of `inotify` only while no other is between its test and its start. -/
def OneReader (s : SduRx) (l : RxLabel) : Prop :=
  ∀ t, l = .read t → s.admits = true → ∀ t', s.reader t' = .out

structure RxOk (s : SduRx) : Prop where
  bulk : s.usb.Bulk
  bounded : s.counter ≤ sduBufferSize
  once : s.reprepared = false
  single : ∃ t, Alone s.reader t
  /-- In the window of a reader nothing is received. -/
  quiet : ∀ t, s.reader t ≠ .out → s.receiving = false
  tested : ∀ t n, s.reader t = .tested n → n ≤ s.space
  prepared : ∀ t, s.reader t = .prepared → s.usb.rx.cnt = 0 ∧ s.left = s.usb.rx.size ∧ s.left ≤ s.space
  idle : s.receiving = false → s.rxfifo = [] ∧ s.stored = none
  size : s.receiving = true → s.usb.rx.size = s.received + s.rxfifo.sum + s.left
  fits : s.receiving = true → s.rxfifo.sum + s.left ≤ s.space

namespace SduRx

variable {s : SduRx} {n : Nat}

theorem receiving_prepare (bulk : s.usb.Bulk) : (s.prepare n).receiving = s.receiving := by
  simp only [prepare, receiving, bulk.prepareReceive]
  rfl

theorem rx_prepare (bulk : s.usb.Bulk) : (s.prepare n).usb.rx = { queued := true, size := n, cnt := 0 } := by
  simp only [prepare, rx, bulk.prepareReceive, update_self]

theorem bulk_prepare (bulk : s.usb.Bulk) : (s.prepare n).usb.Bulk := by
  simp only [prepare, bulk.prepareReceive]
  exact bulk

theorem receiving_start : s.start.receiving = true := startReceive_status

theorem rx_start : s.start.usb.rx = s.usb.rx := by
  simp only [start, rx, startReceive_epState]

theorem bulk_start (bulk : s.usb.Bulk) : s.start.usb.Bulk := by
  simp only [start, USBDriver.Bulk, startReceive_epc]
  exact bulk

theorem wholePackets_le (s : SduRx) : s.wholePackets ≤ s.space := Nat.div_mul_le_self _ _

theorem space_take (s : SduRx) : s.space ≤ s.take.space := by
  simp only [space, take]
  omega

end SduRx

variable {s s' : SduRx} {l : RxLabel} {k t : Nat}

/-- More space hurts nobody. -/
theorem RxOk.take (ok : RxOk s) : RxOk s.take where
  bulk := ok.bulk
  bounded := le_trans (Nat.sub_le _ _) ok.bounded
  once := ok.once
  single := ok.single
  quiet := ok.quiet
  tested t n is := le_trans (ok.tested t n is) s.space_take
  prepared t is := by
    obtain ⟨cnt, left, le⟩ := ok.prepared t is
    exact ⟨cnt, left, le_trans le s.space_take⟩
  idle := ok.idle
  size := ok.size
  fits on := le_trans (ok.fits on) s.space_take

/-- While a transaction runs no reader is in its window. -/
theorem RxOk.out (ok : RxOk s) (on : s.receiving = true) (t : Nat) : s.reader t = .out := by
  by_contra inside
  cases (ok.quiet t inside).symm.trans on

theorem RxOk.read (ok : RxOk s) (admits : s.admits = true) (alone : Alone s.reader t) :
    RxOk { s with reader := update s.reader t (.tested s.wholePackets) } := by
  have off : s.receiving = false := by
    simp only [SduRx.admits, Bool.and_eq_true, Bool.not_eq_true'] at admits
    exact admits.1
  refine { ok with
    single := ⟨t, alone.update _⟩
    quiet := fun _ _ => off
    tested := fun t' n at_ => ?_
    prepared := fun t' at_ => ?_ }
  · obtain ⟨-, ⟨⟩⟩ := alone.is at_ nofun
    exact s.wholePackets_le
  · obtain ⟨-, ⟨⟩⟩ := alone.is at_ nofun

theorem RxOk.prepare {n : Nat} (ok : RxOk s) (is : s.reader t = .tested n) :
    RxOk { s.prepare n with reader := update s.reader t .prepared } := by
  have inside : s.reader t ≠ .out := by rw [is]; nofun
  have alone := Alone.of_single ok.single inside
  have off := ok.quiet t inside
  have still : (s.prepare n).receiving = false := (SduRx.receiving_prepare ok.bulk).trans off
  have rx := SduRx.rx_prepare (n := n) ok.bulk
  refine {
    bulk := SduRx.bulk_prepare ok.bulk
    bounded := ok.bounded
    once := ?_
    single := ⟨t, alone.update _⟩
    quiet := fun _ _ => still
    tested := fun t' n' at_ => ?_
    prepared := fun _ _ => ⟨congrArg EpState.cnt rx, (congrArg EpState.size rx).symm, ok.tested t n is⟩
    idle := fun _ => ok.idle off
    size := fun on => absurd (on.symm.trans still) nofun
    fits := fun on => absurd (on.symm.trans still) nofun }
  · exact Bool.or_eq_false_iff.2 ⟨ok.once, off⟩
  · obtain ⟨-, ⟨⟩⟩ := alone.is at_ nofun

/-- A prepared transaction is started. -/
theorem RxOk.started (bulk : s.usb.Bulk) (bounded : s.counter ≤ sduBufferSize) (once : s.reprepared = false)
    (out : ∀ t, s.reader t = .out) (idle : s.rxfifo = [] ∧ s.stored = none)
    (prepared : s.usb.rx.cnt = 0 ∧ s.left = s.usb.rx.size ∧ s.left ≤ s.space) : RxOk s.start where
  bulk := SduRx.bulk_start bulk
  bounded := bounded
  once := once
  single := ⟨0, fun t _ => out t⟩
  quiet t inside := absurd (out t) inside
  tested t n at_ := by cases (out t).symm.trans at_
  prepared t at_ := by cases (out t).symm.trans at_
  idle off := absurd (SduRx.receiving_start.symm.trans off) nofun
  size _ := by
    show s.start.usb.rx.size = s.start.usb.rx.cnt + s.stored.getD 0 + s.rxfifo.sum + s.left
    rw [SduRx.rx_start, prepared.1, idle.1, idle.2, prepared.2.1]
    simp
  fits _ := by
    show s.rxfifo.sum + s.left ≤ s.space
    rw [idle.1, List.sum_nil, zero_add]
    exact prepared.2.2

theorem RxOk.start (ok : RxOk s) (is : s.reader t = .prepared) :
    RxOk { s.start.take with reader := update s.reader t .out } := by
  have inside : s.reader t ≠ .out := by rw [is]; nofun
  have out := (Alone.of_single ok.single inside).leaves
  have started := started (s := { s with reader := update s.reader t .out }) ok.bulk ok.bounded ok.once out
    (ok.idle (ok.quiet t inside)) (ok.prepared t is)
  exact started.take

theorem RxOk.packet (ok : RxOk s) (accepts : s.open_ = true) (le : k ≤ min dataMaxsize s.left) :
    RxOk { s with left := s.left - k, short := decide (k < dataMaxsize), rxfifo := s.rxfifo ++ [k] } := by
  have on : s.receiving = true := by
    simp only [SduRx.open_, Bool.and_eq_true] at accepts
    exact accepts.1.1
  have out := ok.out on
  have sum : (s.rxfifo ++ [k]).sum = s.rxfifo.sum + k := by simp
  refine { ok with
    prepared := fun t at_ => by cases (out t).symm.trans at_
    idle := fun off => absurd (off.symm.trans on) nofun
    size := fun _ => ?_
    fits := fun _ => ?_ }
  · have size := ok.size on
    show s.usb.rx.size = s.received + (s.rxfifo ++ [k]).sum + (s.left - k)
    omega
  · have fits := ok.fits on
    show (s.rxfifo ++ [k]).sum + (s.left - k) ≤ s.space
    omega

theorem RxOk.store {rest : List Nat} (ok : RxOk s) (fifo : s.rxfifo = k :: rest) (empty : s.stored = none) :
    RxOk { s with rxfifo := rest, stored := some k, counter := s.counter + k } := by
  have on : s.receiving = true := by
    by_contra off
    cases ((ok.idle (Bool.eq_false_iff.2 off)).1).symm.trans fifo
  have out := ok.out on
  have size := ok.size on
  have fits := ok.fits on
  rw [fifo, List.sum_cons] at size fits
  have bounded := ok.bounded
  simp only [SduRx.received, empty, Option.getD_none, SduRx.space] at size fits
  refine { ok with
    bounded := ?_
    tested := fun t n at_ => by cases (out t).symm.trans at_
    prepared := fun t at_ => by cases (out t).symm.trans at_
    idle := fun off => absurd (off.symm.trans on) nofun
    size := fun _ => ?_
    fits := fun _ => ?_ }
  · show s.counter + k ≤ sduBufferSize
    omega
  · show s.usb.rx.size = s.usb.rx.cnt + k + rest.sum + s.left
    omega
  · show rest.sum + s.left ≤ sduBufferSize - (s.counter + k)
    omega

theorem RxOk.count (ok : RxOk s) (is : s.stored = some k) : RxOk { s with
    stored := none
    usb := { s.usb with epState := update s.usb.epState .ep1out { s.usb.rx with cnt := s.usb.rx.cnt + k } } } := by
  have on : s.receiving = true := by
    by_contra off
    cases ((ok.idle (Bool.eq_false_iff.2 off)).2).symm.trans is
  have out := ok.out on
  refine { ok with
    prepared := fun t at_ => by cases (out t).symm.trans at_
    idle := fun off => absurd (off.symm.trans on) nofun
    size := fun _ => ?_ }
  have size := ok.size on
  simp only [SduRx.received, is, Option.getD_some] at size
  simp only [SduRx.received, rx, update_self, Option.getD_none]
  simp only [rx] at size
  omega

theorem RxOk.complete (ok : RxOk s) (on : s.receiving = true) (empty : s.rxfifo = []) (counted : s.stored = none) :
    RxOk { s with usb := s.usb.outEnded }.sduDataReceived := by
  have out := ok.out on
  have off : { s with usb := s.usb.outEnded }.receiving = false := outEnded_status
  have bulk : s.usb.outEnded.Bulk := ok.bulk
  rw [SduRx.sduDataReceived]
  split
  · have rx := SduRx.rx_prepare (s := { s with usb := s.usb.outEnded })
      (n := { s with usb := s.usb.outEnded }.wholePackets) bulk
    refine started (SduRx.bulk_prepare bulk) ok.bounded ?_ out ⟨empty, counted⟩ ⟨?_, ?_, ?_⟩
    · exact Bool.or_eq_false_iff.2 ⟨ok.once, off⟩
    · exact congrArg EpState.cnt rx
    · exact (congrArg EpState.size rx).symm
    · exact SduRx.wholePackets_le _
  · exact { ok with
      bulk := bulk
      quiet := fun _ _ => off
      tested := fun t n at_ => by cases (out t).symm.trans at_
      prepared := fun t at_ => by cases (out t).symm.trans at_
      idle := fun _ => ⟨empty, counted⟩
      size := fun on => absurd (on.symm.trans off) nofun
      fits := fun on => absurd (on.symm.trans off) nofun }

theorem RxOk.step (ok : RxOk s) (one : OneReader s l) (taken : s.next l = some s') : RxOk s' := by
  cases l with
  | read t =>
    obtain ⟨-, ⟨⟩⟩ := Option.ite_none_right_eq_some.1 taken
    split
    next admits => exact ok.read admits fun t' _ => one t rfl admits t'
    · exact ok.take
  | prepare t =>
    simp only [SduRx.next] at taken
    split at taken <;> cases taken
    next n is => exact ok.prepare is
  | start t =>
    simp only [SduRx.next] at taken
    split at taken <;> cases taken
    next is => exact ok.start is
  | resume t =>
    obtain ⟨-, ⟨⟩⟩ := Option.ite_none_right_eq_some.1 taken
    exact ok.take
  | packet k =>
    obtain ⟨⟨accepts, le⟩, ⟨⟩⟩ := Option.ite_none_right_eq_some.1 taken
    exact ok.packet accepts le
  | store =>
    simp only [SduRx.next] at taken
    split at taken <;> cases taken
    next fifo empty => exact ok.store fifo empty
  | count =>
    simp only [SduRx.next] at taken
    split at taken <;> cases taken
    next is => exact ok.count is
  | complete =>
    obtain ⟨⟨on, empty, counted⟩, ⟨⟩⟩ := Option.ite_none_right_eq_some.1 taken
    exact ok.complete on empty counted

/-- The first transaction, of one packet, on an empty queue. -/
theorem rxOk_configured {d : USBDriver} (bulk : d.Bulk) (off : d.usbGetReceiveStatusI dataEp = false) :
    RxOk (sduConfiguredRx d) := by
  let s : SduRx := { sduConfiguredRx d with usb := d }
  have hook : d.sduConfigureHookI = (d.usbPrepareQueuedReceive dataEp dataMaxsize).usbStartReceiveI dataEp := by
    rw [sduConfigureHookI, bulk]
    rfl
  have first : sduConfiguredRx d = (s.prepare dataMaxsize).start := by
    have quiet : s.receiving = false := off
    simp only [sduConfiguredRx, SduRx.start, SduRx.prepare, quiet, hook]
    rfl
  have rx := SduRx.rx_prepare (s := s) (n := dataMaxsize) bulk
  rw [first]
  refine RxOk.started (SduRx.bulk_prepare bulk) (Nat.zero_le _) ?_ (fun _ => rfl) ⟨rfl, rfl⟩ ⟨?_, ?_, ?_⟩
  · show (false || s.receiving) = false
    exact off
  · exact congrArg EpState.cnt rx
  · exact (congrArg EpState.size rx).symm
  · show dataMaxsize ≤ sduBufferSize - 0
    decide

/-- In every run in which readers pass the test of `inotify` one at a time, an armed transaction fits into the free
space of the input queue, the queue does not overflow, and the endpoint is never prepared while it is receiving. -/
theorem serial_receive_fits {d : USBDriver} (bulk : d.Bulk) (off : d.usbGetReceiveStatusI dataEp = false)
    (reached : (serialReceive d).Reach OneReader s) : ReceiveFits s := by
  have ok : RxOk s := reached.invariant (rxOk_configured bulk off) fun _ _ _ ok one taken => ok.step one taken
  refine ⟨fun on => ?_, ok.bounded, ok.once⟩
  have size := ok.size on
  have fits := ok.fits on
  omega

/-! ## Two readers -/

/-- The driver when the data endpoint has been initialized. -/
def bulkDriver : USBDriver := USBDriver.powerOn.usbInitEndpointI dataEp USBDriver.ep1config

/-- A first packet. -/
theorem serial_receive_first : ∃ s, (serialReceive bulkDriver).run [.packet 64, .store, .count, .complete]
      (serialReceive bulkDriver).init = some s ∧ s.counter = 64 ∧ s.usb.rx.size = 192 ∧ ReceiveFits s := by
  have reached := @Lts.Reach.of_run _ _ (serialReceive bulkDriver) (fun _ l => match l with | .read _ => false | _ => true)
    [.packet 64, .store, .count, .complete] _ rfl rfl
  refine ⟨_, rfl, rfl, rfl, serial_receive_fits (show bulkDriver.Bulk from rfl) rfl (reached.mono ?_)⟩
  rintro s l quiet t rfl
  cases quiet

/-- What is seen of a state. -/
structure RxShown where
  receiving : Bool
  size : Nat
  received : Nat
  space : Nat
  reprepared : Bool
  deriving DecidableEq

def SduRx.shows (s : SduRx) : RxShown := ⟨s.receiving, s.usb.rx.size, s.received, s.space, s.reprepared⟩

/-- Four packets, which end their transactions, leave no room for another; a byte is read, and two readers find room for
one. The first to have passed the test prepares the endpoint after the other has received its packet. -/
def twoReaders : List RxLabel :=
  [.packet 64, .store, .count, .complete, .packet 64, .store, .count, .complete, .packet 64, .store, .count, .complete,
    .packet 1, .store, .count, .complete, .read 0, .read 0, .read 1, .prepare 1, .start 1, .packet 64, .store, .count, .prepare 0]

/-- The transaction of 64 bytes is armed again with one byte left in the queue. -/
theorem serial_receive_overrun : ((serialReceive bulkDriver).run twoReaders (serialReceive bulkDriver).init).map SduRx.shows =
      some { receiving := true, size := 64, received := 0, space := 1, reprepared := true } ∧
    ((serialReceive bulkDriver).run (twoReaders ++ [.packet 64, .store]) (serialReceive bulkDriver).init).map (·.counter) =
      some 319 ∧ sduBufferSize < 319 := by
  decide +kernel

end ChibiOS.Usb
