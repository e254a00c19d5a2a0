import Mathlib.Data.List.Chain
import ChibiOS.Usb.SerialTransmit

/-!
# Packets of the bulk IN endpoint

One writer of the output queue, the data pump thread, the completion interrupt and the
controller, which sends packets of the size programmed, the last of a transaction being
what is left. `sduDataTransmitted` tells from the size of the transaction that has ended
whether its last packet was a whole one, and sends one of no length behind it: what the
host sees always ends in a short packet.
-/

namespace ChibiOS.Usb

open Lib USBDriver
open Function (update update_self)

/-- `pktcnt` and `xfrsiz` are `DIEPTSIZ`, `txfifo` the bytes in the FIFO. The queue is its number of free places. `sent` has the
sizes of the packets that the host has taken, and is not in the source. -/
structure BulkTx where
  usb : USBDriver
  counter : Nat
  writer : Notify
  pump : Pump
  pktcnt : Nat
  xfrsiz : Nat
  txfifo : Nat
  sent : List Nat

inductive BulkLabel
  /-- A lock zone of `chOQPutTimeout` or `chOQWriteTimeout` that stores a byte, with `onotify`. -/
  | write
  /-- `usbPrepareQueuedTransmit`, without the lock. -/
  | prepare
  /-- The lock is taken again. -/
  | start
  /-- The pump thread copies a packet into the FIFO. -/
  | push
  /-- It updates the queue. -/
  | free
  /-- It updates `txcnt`. -/
  | count
  /-- The host takes a packet. -/
  | send
  /-- The completion interrupt. -/
  | complete

namespace BulkTx

/-- `usbGetTransmitStatusI`. -/
def transmitting (s : BulkTx) : Bool := s.usb.usbGetTransmitStatusI dataEp

/-- `chOQGetFullI`. -/
def full (s : BulkTx) : Nat := sduBufferSize - s.counter

/-- `in_maxsize`. -/
def maxsize (s : BulkTx) : Nat := ((s.usb.epc dataEp).map (·.inMaxsize)).getD 0

/-- `usbPrepareQueuedTransmit` with `usb_lld_prepare_transmit`. -/
def prepare (n : Nat) (s : BulkTx) : BulkTx :=
  { s with
    usb := s.usb.usbPrepareQueuedTransmit dataEp n
    pktcnt := if n = 0 then 1 else (n + s.maxsize - 1) / s.maxsize
    xfrsiz := n }

def start (s : BulkTx) : BulkTx := { s with usb := s.usb.usbStartTransmitI dataEp }

/-- The test of `onotify`. -/
def admits (s : BulkTx) : Bool := !s.transmitting && decide (0 < s.full)

/-- `sduDataTransmitted`; the interrupt is one step. -/
def sduDataTransmitted (s : BulkTx) : BulkTx :=
  if 0 < s.full then (s.prepare s.full).start
  else if 0 < s.usb.tx.size ∧ s.usb.tx.size &&& (s.maxsize - 1) = 0 then (s.prepare 0).start
  else s

def next (l : BulkLabel) (s : BulkTx) : Option BulkTx :=
  match l with
  | .write =>
    if s.writer = .out ∧ 0 < s.counter then
      let s := { s with counter := s.counter - 1 }
      some (if s.admits then { s with writer := .tested s.full } else s)
    else none
  | .prepare =>
    match s.writer with
    | .tested n => some { s.prepare n with writer := .prepared }
    | _ => none
  | .start => if s.writer = .prepared then some { s.start with writer := .out } else none
  | .push =>
    if s.pump = .idle ∧ s.usb.tx.cnt < s.usb.tx.size then
      let n := min (s.usb.tx.size - s.usb.tx.cnt) s.maxsize
      some { s with txfifo := s.txfifo + n, pump := .pushed n }
    else none
  | .free =>
    match s.pump with
    | .pushed n => some { s with counter := s.counter + n, pump := .freed n }
    | _ => none
  | .count =>
    match s.pump with
    | .freed n => some { s with
        usb := { s.usb with epState := update s.usb.epState .ep1in { s.usb.tx with cnt := s.usb.tx.cnt + n } }
        pump := .idle }
    | _ => none
  | .send =>
    let n := min s.xfrsiz s.maxsize
    if s.transmitting ∧ 0 < s.pktcnt ∧ n ≤ s.txfifo then
      some { s with pktcnt := s.pktcnt - 1, xfrsiz := s.xfrsiz - n, txfifo := s.txfifo - n, sent := s.sent ++ [n] }
    else none
  | .complete =>
    if s.transmitting ∧ s.pktcnt = 0 ∧ s.pump = .idle then some { s with usb := s.usb.inEnded }.sduDataTransmitted else none

end BulkTx

/-- A driver that has just been configured. -/
def bulkConfigured (d : USBDriver) : BulkTx where
  usb := d
  counter := sduBufferSize
  writer := .out
  pump := .idle
  pktcnt := 0
  xfrsiz := 0
  txfifo := 0
  sent := []

def bulkIn (d : USBDriver) : Lts BulkTx BulkLabel where
  init := bulkConfigured d
  next := BulkTx.next

/-- What the host sees: at rest the last packet is a short one, and no two packets without data follow each other. -/
structure Delimited (size : Nat) (s : BulkTx) : Prop where
  short : s.transmitting = false → s.full = 0 → s.sent ≠ [] → ∃ n, s.sent.getLast? = some n ∧ n < size
  single : s.sent.IsChain fun a b => ¬(a = 0 ∧ b = 0)

/-! ## The packet history -/

/-- A transaction in progress. For data, what is left is as long as the transaction but for whole packets, and once all is
sent the last packet says how long it was; a packet of no length is sent behind a whole one. -/
inductive Sending (size : Nat) (s : BulkTx) : Prop
  | data (pos : 0 < s.usb.tx.size) (left : 0 < s.xfrsiz → s.xfrsiz % size = s.usb.tx.size % size)
      (count : s.pktcnt = (s.xfrsiz + size - 1) / size)
      (last : s.xfrsiz = 0 → ∃ n, s.sent.getLast? = some n ∧ 0 < n ∧ n ≤ size ∧ n % size = s.usb.tx.size % size)
  | empty (zero : s.usb.tx.size = 0) (none : s.xfrsiz = 0)
      (last : s.pktcnt = 1 ∧ s.sent.getLast? = some size ∨ s.pktcnt = 0 ∧ s.sent.getLast? = some 0)

/-- The last packet was a short one. -/
def EndsShort (size : Nat) (sent : List Nat) : Prop := ∀ n ∈ sent.getLast?, n < size

structure BulkOk (c : USBEndpointConfig) (s : BulkTx) : Prop where
  config : s.usb.epc dataEp = some c
  single : s.sent.IsChain fun a b => ¬(a = 0 ∧ b = 0)
  /-- In the window of the writer nothing is transmitted. -/
  quiet : s.writer ≠ .out → s.transmitting = false
  tested : ∀ n, s.writer = .tested n → 0 < n
  prepared : s.writer = .prepared → Sending c.inMaxsize s
  sending : s.transmitting = true → Sending c.inMaxsize s
  rest : s.transmitting = false → EndsShort c.inMaxsize s.sent

/-- The configuration of a bulk IN endpoint: its packet size is a power of two. -/
structure BulkConfig (c : USBEndpointConfig) : Prop where
  state : c.inState = some .ep1in
  power : ∃ k, c.inMaxsize = 2 ^ k

variable {c : USBEndpointConfig} {s s' : BulkTx} {n : Nat}

theorem BulkConfig.pos (bulk : BulkConfig c) : 0 < c.inMaxsize := by
  obtain ⟨k, is⟩ := bulk.power
  rw [is]
  exact Nat.two_pow_pos k

/-- The mask of `sduDataTransmitted` is a remainder. -/
theorem BulkConfig.mask (bulk : BulkConfig c) (n : Nat) : n &&& (c.inMaxsize - 1) = n % c.inMaxsize := by
  obtain ⟨k, is⟩ := bulk.power
  rw [is, Nat.and_two_pow_sub_one_eq_mod]

theorem Sending.congr {size : Nat} (sending : Sending size s) (tx : s'.usb.tx.size = s.usb.tx.size)
    (xfrsiz : s'.xfrsiz = s.xfrsiz) (pktcnt : s'.pktcnt = s.pktcnt) (sent : s'.sent = s.sent) : Sending size s' := by
  cases sending with
  | data pos left count last =>
    exact .data (by rw [tx]; exact pos) (by rw [tx, xfrsiz]; exact left) (by rw [pktcnt, xfrsiz]; exact count)
      (by rw [tx, xfrsiz, sent]; exact last)
  | empty zero none last => exact .empty (by rw [tx]; exact zero) (by rw [xfrsiz]; exact none) (by rw [pktcnt, sent]; exact last)

/-- The host takes a packet of a transaction. -/
theorem Sending.send {size : Nat} (sending : Sending size s) (whole : 0 < size) (more : 0 < s.pktcnt)
    (packet : n = min s.xfrsiz size) (tx : s'.usb.tx.size = s.usb.tx.size) (xfrsiz : s'.xfrsiz = s.xfrsiz - n)
    (pktcnt : s'.pktcnt = s.pktcnt - 1) (sent : s'.sent = s.sent ++ [n]) :
    Sending size s' ∧ ∀ m ∈ s.sent.getLast?, ¬(m = 0 ∧ n = 0) := by
  have last : s'.sent.getLast? = some n := by rw [sent, List.getLast?_append]; rfl
  cases sending with
  | data pos left count =>
    have some_ : 0 < s.xfrsiz := by
      rcases Nat.eq_zero_or_pos s.xfrsiz with zero | pos
      · rw [count, zero, zero_add, Nat.div_eq_of_lt (by omega)] at more
        cases more
      · exact pos
    refine ⟨?_, fun m _ none => by omega⟩
    rcases lt_or_ge size s.xfrsiz with part | all
    · have taken : n = size := by rw [packet, Nat.min_eq_right (by omega)]
      refine .data (by rw [tx]; exact pos) ?_ ?_ fun none => by omega
      · intro _
        rw [tx, xfrsiz, taken, ← Nat.mod_eq_sub_mod (by omega), left some_]
      · rw [pktcnt, count, xfrsiz, taken, show s.xfrsiz + size - 1 = s.xfrsiz - size + size - 1 + size by omega,
          Nat.add_div_right _ whole, Nat.succ_sub_one]
    -- The last packet takes all that is left.
    · have one : (s.xfrsiz + size - 1) / size = 1 := Nat.div_eq_of_lt_le (by omega) (by omega)
      have taken : n = s.xfrsiz := by rw [packet, Nat.min_eq_left all]
      have gone : s'.xfrsiz = 0 := by rw [xfrsiz, taken, Nat.sub_self]
      refine .data (by rw [tx]; exact pos) (fun more => absurd gone (ne_of_gt more)) ?_ fun _ =>
        ⟨n, last, taken ▸ some_, taken ▸ all, by rw [tx, taken, left some_]⟩
      rw [pktcnt, count, one, gone, zero_add, Nat.div_eq_of_lt (Nat.sub_lt whole Nat.one_pos)]
  | empty zero none was =>
    have nothing : n = 0 := by omega
    obtain ⟨one, behind⟩ : s.pktcnt = 1 ∧ s.sent.getLast? = some size := was.resolve_right (by omega)
    refine ⟨.empty (by rw [tx]; exact zero) (by omega) (.inr ⟨by omega, by rw [last, nothing]⟩), fun m at_ both => ?_⟩
    cases behind.symm.trans at_
    omega

namespace BulkTx

theorem inState_eq (bulk : BulkConfig c) (config : s.usb.epc dataEp = some c) :
    s.usb.inState dataEp = some .ep1in := by
  rw [inState, config]
  exact bulk.state

theorem maxsize_eq (config : s.usb.epc dataEp = some c) : s.maxsize = c.inMaxsize := by
  rw [maxsize, config]
  rfl

section

variable (bulk : BulkConfig c) (config : s.usb.epc dataEp = some c)
include bulk config

theorem tx_prepare : (s.prepare n).usb.tx.size = n := by
  simp only [prepare, tx, prepareTransmit_eq (inState_eq bulk config), update_self]

theorem epc_prepare : (s.prepare n).usb.epc dataEp = some c := by
  simp only [prepare, prepareTransmit_eq (inState_eq bulk config)]
  exact config

theorem transmitting_prepare : (s.prepare n).transmitting = s.transmitting := by
  simp only [prepare, transmitting, prepareTransmit_eq (inState_eq bulk config)]
  rfl

/-- What is prepared is a transaction with all packets to be sent. -/
theorem prepare_data (pos : 0 < n) : Sending c.inMaxsize (s.prepare n) := by
  have size := tx_prepare (n := n) bulk config
  refine .data (by rw [size]; exact pos) (fun _ => by rw [size]; rfl) ?_ fun none => absurd none (ne_of_gt pos)
  show (if n = 0 then 1 else (n + s.maxsize - 1) / s.maxsize) = (n + c.inMaxsize - 1) / c.inMaxsize
  rw [if_neg (ne_of_gt pos), maxsize_eq config]

end

end BulkTx

namespace BulkOk

/-- While a transaction runs the writer is not in its window. -/
theorem out (ok : BulkOk c s) (on : s.transmitting = true) : s.writer = .out := by
  by_contra inside
  cases (ok.quiet inside).symm.trans on

/-- A prepared transaction is started. -/
theorem started (config : s.usb.epc dataEp = some c) (single : s.sent.IsChain fun a b => ¬(a = 0 ∧ b = 0))
    (sending : Sending c.inMaxsize s) (out : s.writer = .out) : BulkOk c s.start where
  config := by
    rwa [BulkTx.start, startTransmit_epc]
  single := single
  quiet inside := absurd out inside
  tested n at_ := by cases out.symm.trans at_
  prepared at_ := by cases out.symm.trans at_
  sending _ := by
    refine sending.congr ?_ rfl rfl rfl
    rw [BulkTx.start, tx, startTransmit_epState]
    rfl
  rest off := absurd (startTransmit_status.symm.trans off) nofun

theorem write (ok : BulkOk c s) (k : Nat) (admits : { s with counter := k }.admits = true) :
    BulkOk c { s with counter := k, writer := .tested { s with counter := k }.full } := by
  simp only [BulkTx.admits, Bool.and_eq_true, Bool.not_eq_true', decide_eq_true_eq] at admits
  exact { ok with
    quiet := fun _ => admits.1
    tested := fun n at_ => by cases at_; exact admits.2
    prepared := nofun
    sending := fun on => absurd (admits.1.symm.trans on) nofun }

theorem prepare (bulk : BulkConfig c) (ok : BulkOk c s) (is : s.writer = .tested n) :
    BulkOk c { s.prepare n with writer := .prepared } := by
  have off : (s.prepare n).transmitting = false :=
    (BulkTx.transmitting_prepare bulk ok.config).trans (ok.quiet (by rw [is]; nofun))
  exact {
    config := BulkTx.epc_prepare bulk ok.config
    single := ok.single
    quiet := fun _ => off
    tested := nofun
    prepared := fun _ => (BulkTx.prepare_data bulk ok.config (ok.tested n is)).congr rfl rfl rfl rfl
    sending := fun on => absurd (off.symm.trans on) nofun
    rest := fun _ => ok.rest (ok.quiet (by rw [is]; nofun)) }

/-- Neither the queue nor the FIFO nor `txcnt` matters. -/
theorem congr (ok : BulkOk c s) (epc : s'.usb.epc = s.usb.epc) (on : s'.transmitting = s.transmitting)
    (writer : s'.writer = s.writer) (tx : s'.usb.tx.size = s.usb.tx.size) (xfrsiz : s'.xfrsiz = s.xfrsiz)
    (pktcnt : s'.pktcnt = s.pktcnt) (sent : s'.sent = s.sent) : BulkOk c s' where
  config := by rw [epc]; exact ok.config
  single := by rw [sent]; exact ok.single
  quiet inside := by rw [on]; exact ok.quiet (writer ▸ inside)
  tested n at_ := ok.tested n (writer ▸ at_)
  prepared at_ := (ok.prepared (writer ▸ at_)).congr tx xfrsiz pktcnt sent
  sending at_ := (ok.sending (on ▸ at_)).congr tx xfrsiz pktcnt sent
  rest at_ := by rw [sent]; exact ok.rest (on ▸ at_)

section

variable (bulk : BulkConfig c)
include bulk

theorem send (ok : BulkOk c s) (on : s.transmitting = true) (more : 0 < s.pktcnt)
    (packet : n = min s.xfrsiz s.maxsize) : BulkOk c { s with
      pktcnt := s.pktcnt - 1, xfrsiz := s.xfrsiz - n, txfifo := s.txfifo - n, sent := s.sent ++ [n] } := by
  have out := ok.out on
  rw [BulkTx.maxsize_eq ok.config] at packet
  obtain ⟨sending, pair⟩ : Sending c.inMaxsize { s with
      pktcnt := s.pktcnt - 1, xfrsiz := s.xfrsiz - n, txfifo := s.txfifo - n, sent := s.sent ++ [n] } ∧
      ∀ m ∈ s.sent.getLast?, ¬(m = 0 ∧ n = 0) := (ok.sending on).send bulk.pos more packet rfl rfl rfl rfl
  exact { ok with
    single := ok.single.append (.singleton n) fun m last k first => by
      cases first
      exact pair m last
    prepared := fun at_ => by cases out.symm.trans at_
    sending := fun _ => sending
    rest := fun off => absurd (on.symm.trans off) nofun }

/-- The last packet of a transaction that has ended. -/
theorem ended (ok : BulkOk c s) (on : s.transmitting = true) (all : s.pktcnt = 0) :
    ∃ n, s.sent.getLast? = some n ∧ n ≤ c.inMaxsize ∧ (n = c.inMaxsize ↔ 0 < s.usb.tx.size ∧ s.usb.tx.size % c.inMaxsize = 0) := by
  have pos := bulk.pos
  cases ok.sending on with
  | data some_ left count last =>
    have none : s.xfrsiz = 0 := by
      rw [all, eq_comm, Nat.div_eq_zero_iff_lt pos] at count
      omega
    obtain ⟨n, is, more, le, rest⟩ := last none
    refine ⟨n, is, le, fun whole => ⟨some_, by rw [← rest, whole, Nat.mod_self]⟩, fun ⟨_, zero⟩ => ?_⟩
    rw [zero] at rest
    rcases Nat.lt_or_eq_of_le le with less | whole
    · rw [Nat.mod_eq_of_lt less] at rest
      omega
    · exact whole
  | empty zero none last =>
    obtain ⟨-, is⟩ := last.resolve_left (by omega)
    exact ⟨0, is, Nat.zero_le _, fun whole => by omega, fun ⟨some_, _⟩ => by omega⟩

/-- The callback, when the last packet of the transaction had `n` bytes. -/
theorem transmitted (config : s.usb.epc dataEp = some c)
    (single : s.sent.IsChain fun a b => ¬(a = 0 ∧ b = 0)) (out : s.writer = .out) (off : s.transmitting = false)
    (last : s.sent.getLast? = some n) (le : n ≤ c.inMaxsize)
    (whole : n = c.inMaxsize ↔ 0 < s.usb.tx.size ∧ s.usb.tx.size % c.inMaxsize = 0) : BulkOk c s.sduDataTransmitted := by
  rw [BulkTx.sduDataTransmitted, BulkTx.maxsize_eq config, bulk.mask]
  split_ifs with data full
  · exact started (BulkTx.epc_prepare bulk config) single (BulkTx.prepare_data bulk config data) out
  -- The packet of no length goes behind a whole one.
  · refine started (BulkTx.epc_prepare bulk config) single ?_ out
    exact .empty (BulkTx.tx_prepare bulk config) rfl (.inl ⟨rfl, by rw [← whole.2 full]; exact last⟩)
  · exact {
      config := config
      single := single
      quiet := fun _ => off
      tested := fun _ at_ => by cases out.symm.trans at_
      prepared := fun at_ => by cases out.symm.trans at_
      sending := fun on => absurd (off.symm.trans on) nofun
      rest := fun _ m is => by
        cases last.symm.trans is
        exact Nat.lt_of_le_of_ne le (full ∘ whole.1) }

theorem complete (ok : BulkOk c s) (on : s.transmitting = true) (all : s.pktcnt = 0) :
    BulkOk c { s with usb := s.usb.inEnded }.sduDataTransmitted := by
  obtain ⟨n, last, le, whole⟩ := ok.ended bulk on all
  exact transmitted bulk ok.config ok.single (ok.out on) inEnded_status
    last le whole

theorem step (ok : BulkOk c s) {l : BulkLabel} (taken : s.next l = some s') : BulkOk c s' := by
  cases l with
  | write =>
    obtain ⟨-, ⟨⟩⟩ := Option.ite_none_right_eq_some.1 taken
    split
    next admits => exact ok.write _ admits
    · exact ok.congr rfl rfl rfl rfl rfl rfl rfl
  | prepare =>
    simp only [BulkTx.next] at taken
    split at taken <;> cases taken
    next n is => exact ok.prepare bulk is
  | start =>
    obtain ⟨is, ⟨⟩⟩ := Option.ite_none_right_eq_some.1 taken
    have ready : Sending c.inMaxsize { s with writer := .out } := (ok.prepared is).congr rfl rfl rfl rfl
    exact started (s := { s with writer := .out }) ok.config ok.single ready rfl
  | push =>
    obtain ⟨-, ⟨⟩⟩ := Option.ite_none_right_eq_some.1 taken
    exact ok.congr rfl rfl rfl rfl rfl rfl rfl
  | free =>
    simp only [BulkTx.next] at taken
    split at taken <;> cases taken
    exact ok.congr rfl rfl rfl rfl rfl rfl rfl
  | count =>
    simp only [BulkTx.next] at taken
    split at taken <;> cases taken
    exact ok.congr rfl rfl rfl (by simp only [tx, update_self]) rfl rfl rfl
  | send =>
    obtain ⟨⟨on, more, -⟩, ⟨⟩⟩ := Option.ite_none_right_eq_some.1 taken
    exact ok.send bulk on more rfl
  | complete =>
    obtain ⟨⟨on, all, -⟩, ⟨⟩⟩ := Option.ite_none_right_eq_some.1 taken
    exact ok.complete bulk on all

end

end BulkOk

/-- In every run, whenever the endpoint is at rest with nothing to send, the last packet was a short one, and no two packets
of no length were sent in a row. -/
theorem bulk_in_delimited {d : USBDriver} (bulk : BulkConfig c) (config : d.epc dataEp = some c)
    (off : d.usbGetTransmitStatusI dataEp = false) (reached : (bulkIn d).Reach (fun _ _ => True) s) :
    Delimited c.inMaxsize s := by
  have start : BulkOk c (bulkConfigured d) := {
    config := config
    single := .nil
    quiet := fun _ => off
    tested := nofun
    prepared := nofun
    sending := fun on => absurd (off.symm.trans on) nofun
    rest := nofun }
  have ok : BulkOk c s := reached.invariant start fun _ _ _ ok _ taken => ok.step bulk taken
  refine ⟨fun idle _ some_ => ?_, ok.single⟩
  obtain ⟨n, last⟩ := Option.isSome_iff_exists.1 (List.getLast?_isSome.2 some_)
  exact ⟨n, last, ok.rest idle n last⟩

/-- While a byte is sent, 64 others are written. -/
def wholePacket : List BulkLabel :=
  [.write, .prepare, .start] ++ List.replicate 64 .write ++
    [.push, .free, .count, .send, .complete, .push, .free, .count, .send, .complete, .send, .complete]

/-- They fill their packet, and one of no length follows. -/
theorem bulk_in_delimited_whole : ∃ s, (bulkIn bulkDriver).run wholePacket (bulkIn bulkDriver).init = some s ∧
    s.transmitting = false ∧ s.full = 0 ∧ s.sent = [1, 64, 0] ∧ Delimited 64 s := by
  exact Lts.exists_run (by rfl) rfl fun reached =>
    ⟨rfl, rfl, rfl, bulk_in_delimited ⟨rfl, 6, rfl⟩ (show bulkDriver.epc dataEp = _ from rfl) rfl reached⟩

end ChibiOS.Usb
