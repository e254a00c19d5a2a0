import ChibiOS.Usb.Takeover
import ChibiOS.Lib.Chunks

/-!
# Control-IN transfers

The answer to a request goes through three parts of the driver: the SETUP callback that
prepares it, the pump thread that fills the transmit FIFO as far as there is room, and
the IN callback that decides on a last packet of size zero. The controller sends what is
in the FIFO and reports the end of a transfer when all of it is sent.
-/

namespace ChibiOS.Usb

open Function
open Lib USBDriver
open BitVec (twoPow)
open List (drop_eq_nil_iff append_assoc prefix_rfl)

/-- The first bytes from a pointer on. -/
def Buf.bytes (buf : Buf) (n : Nat) : List UInt8 := (List.range n).map buf

/-- `otg_do_push`: the bytes of `n` words. -/
def otgDoPush (buf : Buf) (n : Nat) : List UInt8 := buf.bytes (4 * n)

namespace USBDriver

/-- `otg_fifo_write_from_buffer`, and the progress of the transaction. -/
def otgFifoWriteFromBuffer (ep : Nat) (i : EpStateId) (n : Nat) (d : USBDriver) : USBDriver :=
  let st := d.epState i
  { d with
    txfifo := update d.txfifo ep (d.txfifo ep ++ [⟨otgDoPush st.buf ((n + 3) / 4), n⟩])
    epState := update d.epState i { st with buf := fun k => st.buf (k + n), cnt := st.cnt + n } }

/-- `otg_txfifo_handler` for a linear buffer: `spaces` are the readings of `DTXFSTS`, in
words; behind the last one there is no room. -/
def otgTxfifoHandler (ep : Nat) (i : EpStateId) : List Nat → USBDriver → Bool × USBDriver
  | spaces, d =>
    if (d.epState i).size ≤ (d.epState i).cnt then (true, d)
    else
      let n := min ((d.epState i).size - (d.epState i).cnt) (d.inMaxsize ep)
      match spaces with
      | [] => (false, d)
      | space :: spaces =>
        if space * 4 < n then (false, d) else otgTxfifoHandler ep i spaces (d.otgFifoWriteFromBuffer ep i n)

/-- `usb_lld_pump` at endpoint zero, which has a transmit FIFO to be filled. -/
def pumpEp0 (spaces : List Nat) (d : USBDriver) : USBDriver :=
  let (done, d) := { d with txpending := update d.txpending 0 false }.otgTxfifoHandler 0 .ep0 spaces
  if done then d else { d with diepempmsk := update d.diepempmsk 0 true }

/-- `otg_epin_handler` on a TXFE interrupt. -/
def txfeEp0 (d : USBDriver) : USBDriver :=
  { d with txpending := update d.txpending 0 true, diepempmsk := update d.diepempmsk 0 false }

end USBDriver

/-- The driver, and the packets that the controller has sent on endpoint zero. -/
structure ControlState extends USBDriver where
  sent : List (List UInt8)

/-- What happens between two SETUP packets: the transmit FIFO is found empty, the pump
thread runs, the controller sends a packet, and it reports a transfer as complete. -/
inductive ControlLabel
  | txfe
  | pump (spaces : List Nat)
  | send
  | inComplete
  | outComplete (n : Nat)
  deriving DecidableEq, Repr

namespace ControlState

/-- The controller sends from the FIFO of a started endpoint, or an empty packet. -/
def send (s : ControlState) : Option ControlState :=
  if (s.diepctl 0).started then
    match s.txfifo 0 with
    | pk :: rest => some { s with txfifo := update s.txfifo 0 rest, sent := s.sent ++ [pk.bytes] }
    | [] => if s.zlp 0 then some { s with zlp := update s.zlp 0 false, sent := s.sent ++ [[]] } else none
  else none

/-- All the packets of the transfer have been sent. -/
def allSent (s : ControlState) : Bool :=
  (s.diepctl 0).started && (s.txfifo 0).isEmpty && !s.zlp 0 && decide ((s.epState .ep0).size ≤ (s.epState .ep0).cnt)

def onDriver (f : USBDriver → USBDriver) (s : ControlState) : ControlState := { s with toUSBDriver := f s.toUSBDriver }

def next (cfg : USBConfig) : ControlLabel → ControlState → Option ControlState
  | .txfe, s => if s.diepempmsk 0 then some (s.onDriver .txfeEp0) else none
  | .pump spaces, s => if s.txpending 0 then some (s.onDriver (.pumpEp0 spaces)) else none
  | .send, s => s.send
  | .inComplete, s => if s.allSent then some (s.onDriver .ep0inComplete) else none
  | .outComplete n, s =>
    if (s.doepctl 0).started then (s.toUSBDriver.next cfg (.outComplete n)).map fun d => { s with toUSBDriver := d } else none

end ControlState

open ControlState (onDriver)

/-- The transfer that a SETUP packet begins, with no other SETUP packet. -/
def controlLts (cfg : USBConfig) (p : SetupPacket) (s : ControlState) : Lts ControlState ControlLabel :=
  ⟨s.onDriver (.usbEp0setup cfg p), ControlState.next cfg⟩

/-! ## The stages of the transfer -/

/-- A control-IN transfer: the answer, of which `len` bytes are sent, what the host asked for,
the callback at the end, and what had been sent and called back before. -/
structure InTransfer where
  size : Nat
  buf : Buf
  len : Nat
  want : Nat
  endcb : Option Nat
  sent : List (List UInt8)
  ended : List Nat

namespace InTransfer

def packets (x : InTransfer) : List (List UInt8) := chunks x.size (x.buf.bytes x.len)

/-- The host cannot tell the end of the answer from its packets. -/
def short (x : InTransfer) : Prop := x.len < x.want ∧ x.len % x.size = 0

instance (x : InTransfer) : Decidable x.short := inferInstanceAs (Decidable (_ ∧ _))

/-- The packets, and an empty one where the host needs it. -/
def expected (x : InTransfer) : List (List UInt8) := x.packets ++ if x.short then [[]] else []

end InTransfer

def Ep0State.sends : Ep0State → Bool
  | .tx | .waitingTx0 => true
  | _ => false

def Ep0State.receives : Ep0State → Bool
  | .waitingSts => true
  | _ => false

/-- The transfer is at a state of endpoint zero; only the stage that the state announces is
going on. -/
structure InTransfer.At (x : InTransfer) (st : Ep0State) (s : USBDriver) : Prop where
  epc : ∃ cfg, s.epc 0 = some (ep0config cfg) ∧ cfg.ep0Maxsize = x.size
  want : s.setup.length = x.want
  len : s.ep0n = x.len
  endcb : s.ep0endcb = x.endcb
  state : s.ep0state = st
  busyIn : s.ep0busy .inp = st.sends
  busyOut : s.ep0busy .out = st.receives
  startedIn : (s.diepctl 0).started = st.sends
  startedOut : (s.doepctl 0).started = st.receives

/-- The stages. `c` bytes of the answer are in the FIFO or sent. -/
inductive InTransfer.Stage (x : InTransfer) (s : ControlState) : Prop
  | data (c : Nat) (pos : x.At .tx s.toUSBDriver) (le : c ≤ x.len) (zlp : s.zlp 0 = false)
      (slot : s.epState .ep0 = ⟨false, x.len, c, fun k => x.buf (k + c)⟩)
      (sent : s.sent ++ (s.txfifo 0).map Packet.bytes ++ chunks x.size ((x.buf.bytes x.len).drop c) = x.sent ++ x.packets)
      (woken : c < x.len → s.txpending 0 = true ∨ s.diepempmsk 0 = true) (ended : s.ended = x.ended)
  | zero (pos : x.At .waitingTx0 s.toUSBDriver) (short : x.short) (slot : (s.epState .ep0).size = 0) (empty : s.txfifo 0 = [])
      (sent : s.sent = x.sent ++ x.packets ++ if s.zlp 0 then [] else [[]]) (ended : s.ended = x.ended)
  | status (pos : x.At .waitingSts s.toUSBDriver) (slot : s.epState .ep0 = ⟨false, 0, 0, null⟩) (empty : s.txfifo 0 = [])
      (zlp : s.zlp 0 = false) (sent : s.sent = x.sent ++ x.expected) (ended : s.ended = x.ended)
  | finished (pos : x.At .waitingSetup s.toUSBDriver) (slot : (s.epState .ep0).size = 0) (empty : s.txfifo 0 = [])
      (zlp : s.zlp 0 = false) (sent : s.sent = x.sent ++ x.expected) (ended : s.ended = x.endcb.toList ++ x.ended)

variable {cfg : USBConfig} {d : USBDriver} {x : InTransfer} {s s' : ControlState} {buf : Buf} {n m c : Nat}

/-! ### Bytes -/

theorem Buf.take_bytes (buf : Buf) (n m : Nat) : (buf.bytes m).take n = buf.bytes (min n m) := by
  simp [bytes, ← List.map_take, List.take_range]

theorem Buf.drop_bytes (buf : Buf) (c m : Nat) : (buf.bytes m).drop c = Buf.bytes (fun k => buf (k + c)) (m - c) := by
  apply List.ext_getElem <;> simp [bytes, add_comm]

theorem Buf.length_bytes (buf : Buf) (n : Nat) : (buf.bytes n).length = n := by simp [bytes]

/-- A packet is sent as it stands in the buffer. -/
theorem Packet.bytes_push (buf : Buf) (n : Nat) : Packet.bytes ⟨otgDoPush buf ((n + 3) / 4), n⟩ = buf.bytes n := by
  show (buf.bytes (4 * ((n + 3) / 4))).take n = buf.bytes n
  rw [Buf.take_bytes, Nat.min_eq_left (by omega)]

/-! ### The pump thread -/

/-- Packets enter the FIFO of endpoint zero, up to byte `c` of an answer. -/
def USBDriver.fill (pks : List Packet) (m c : Nat) (buf : Buf) (d : USBDriver) : USBDriver :=
  { d with
    txfifo := update d.txfifo 0 (d.txfifo 0 ++ pks)
    epState := update d.epState .ep0 ⟨false, m, c, fun k => buf (k + c)⟩ }

theorem fill_nil (slot : d.epState .ep0 = ⟨false, m, c, fun k => buf (k + c)⟩) : d.fill [] m c buf = d := by
  simp [fill, ← slot]

theorem fill_slot (pks : List Packet) : (d.fill pks m c buf).epState .ep0 = ⟨false, m, c, fun k => buf (k + c)⟩ := by
  simp [fill]

theorem otgFifoWriteFromBuffer_eq (slot : d.epState .ep0 = ⟨false, m, c, fun k => buf (k + c)⟩) (n : Nat) :
    d.otgFifoWriteFromBuffer 0 .ep0 n = d.fill [⟨otgDoPush (fun k => buf (k + c)) ((n + 3) / 4), n⟩] m (c + n) buf := by
  simp only [otgFifoWriteFromBuffer, fill, slot]
  simp only [Nat.add_assoc, Nat.add_comm n c]

theorem fill_fill (pks pks' : List Packet) (c c' : Nat) : (d.fill pks m c buf).fill pks' m c' buf = d.fill
    (pks ++ pks') m c' buf := by
  simp [fill]

/-- However often it is stopped for want of room, the pump thread cuts the answer in the same
places. -/
theorem otgTxfifoHandler_fills (size : 0 < n) (is : d.inMaxsize 0 = n)
    (slot : d.epState .ep0 = ⟨false, m, c, fun k => buf (k + c)⟩) (le : c ≤ m) (spaces : List Nat) :
    ∃ done pks c', d.otgTxfifoHandler 0 .ep0 spaces = (done, d.fill pks m c' buf) ∧ c' ≤ m ∧
      pks.map Packet.bytes ++ chunks n ((buf.bytes m).drop c') = chunks n ((buf.bytes m).drop c) ∧ (done = true → c' = m) := by
  induction spaces generalizing d c with
  | nil =>
    rw [otgTxfifoHandler, slot]
    split
    next done =>
      exact ⟨true, [], c, by rw [fill_nil slot], le, rfl, fun _ => le_antisymm le done⟩
    · exact ⟨false, [], c, by rw [fill_nil slot], le, rfl, nofun⟩
  | cons space spaces ih =>
    rw [otgTxfifoHandler, slot]
    split
    next done =>
      exact ⟨true, [], c, by rw [fill_nil slot], le, rfl, fun _ => le_antisymm le done⟩
    next more =>
      dsimp only at more ⊢
      rw [is]
      split
      · exact ⟨false, [], c, by rw [fill_nil slot], le, rfl, nofun⟩
      · rw [otgFifoWriteFromBuffer_eq slot]
        obtain ⟨done, pks, c', ran, le', cut, all⟩ := ih
          (d := d.fill [⟨otgDoPush (fun k => buf (k + c)) ((min (m - c) n + 3) / 4), min (m - c) n⟩] m (c + min (m - c) n) buf)
          is (fill_slot _) (by omega)
        refine ⟨done, _, c', by rw [ran, fill_fill], le', ?_, all⟩
        have some : (buf.bytes m).drop c ≠ [] := fun none => by
          have := drop_eq_nil_iff.1 none
          rw [Buf.length_bytes] at this
          omega
        have rest : (buf.bytes m).drop (c + min (m - c) n) = (buf.bytes m).drop (c + n) := by
          rcases Nat.le_total n (m - c) with full | last
          · rw [Nat.min_eq_right full]
          · rw [Nat.min_eq_left last, drop_eq_nil_iff.2 (by rw [Buf.length_bytes]; omega),
              drop_eq_nil_iff.2 (by rw [Buf.length_bytes]; omega)]
        rw [chunks_of_ne_nil size some, List.drop_drop, List.singleton_append, List.map_cons, List.cons_append, cut, rest,
          Packet.bytes_push, Buf.drop_bytes buf c m, Buf.take_bytes, Nat.min_comm n]

/-! ### The callbacks -/

theorem ep0transmit_eq (epc : d.epc 0 = some (ep0config cfg)) (idle : d.ep0busy .inp = false) (buf : Buf) (n : Nat) :
    d.ep0transmit buf n = { d with
      epState := update d.epState .ep0 ⟨false, n, 0, buf⟩
      zlp := update d.zlp 0 (decide (n = 0))
      transmitting := d.transmitting ||| twoPow 16 0
      starts := ⟨.inp, 0, false⟩ :: d.starts
      diepctl := update d.diepctl 0 { d.diepctl 0 with started := true }
      diepempmsk := update d.diepempmsk 0 true } := by
  have state : d.inState 0 = some .ep0 := by simp [inState, epc, ep0config]
  rw [ep0transmit, usbPrepareTransmit, state]
  exact if_neg (Bool.eq_false_iff.1 idle)

theorem ep0receive_eq (epc : d.epc 0 = some (ep0config cfg)) (idle : d.ep0busy .out = false) (buf : Buf) (n : Nat) :
    d.ep0receive buf n = { d with
      epState := update d.epState .ep0 ⟨false, n, 0, buf⟩
      receiving := d.receiving ||| twoPow 16 0
      starts := ⟨.out, 0, false⟩ :: d.starts
      doepctl := update d.doepctl 0 { d.doepctl 0 with started := true } } := by
  have state : d.outState 0 = some .ep0 := by simp [outState, epc, ep0config]
  rw [ep0receive, usbPrepareReceive, state]
  exact if_neg (Bool.eq_false_iff.1 idle)

/-- The bit of endpoint zero is set, and cleared. -/
theorem getLsbD_set (b : BitVec 16) : (b ||| twoPow 16 0).getLsbD 0 = true := by simp

theorem getLsbD_clear (b : BitVec 16) : (b &&& ~~~twoPow 16 0).getLsbD 0 = false := by simp

/-! ### The steps -/

namespace InTransfer

variable {st : Ep0State}

theorem At.touch (pos : x.At st d) (e : EpStateId → EpState) (pending mask zlp : Nat → Bool) (fifo : Nat → List Packet) :
    x.At st { d with epState := e, txpending := pending, diepempmsk := mask, txfifo := fifo, zlp := zlp } :=
  ⟨pos.epc, pos.want, pos.len, pos.endcb, pos.state, pos.busyIn, pos.busyOut, pos.startedIn, pos.startedOut⟩

theorem At.inMaxsize (pos : x.At st d) : d.inMaxsize 0 = x.size := by
  obtain ⟨cfg, epc, size⟩ := pos.epc
  simp [USBDriver.inMaxsize, epc, ep0config, size]

/-- Without a transaction the pump thread has nothing to do. -/
theorem pumpEp0_idle (slot : (d.epState .ep0).size = 0) (spaces : List Nat) :
    d.pumpEp0 spaces = { d with txpending := update d.txpending 0 false } := by
  have spent : (d.epState .ep0).size ≤ (d.epState .ep0).cnt :=
    Nat.le_trans (Nat.le_of_eq slot) (Nat.zero_le _)
  have stop : { d with txpending := update d.txpending 0 false }.otgTxfifoHandler 0 .ep0 spaces =
      (true, { d with txpending := update d.txpending 0 false }) := by
    cases spaces <;> exact if_pos spent
  rw [pumpEp0, stop]
  rfl

theorem Stage.txfe (stage : x.Stage s) : x.Stage (s.onDriver .txfeEp0) := by
  cases stage with
  | data c pos le zlp slot sent woken ended =>
    exact .data c (pos.touch ..) le zlp slot sent (fun _ => .inl (by simp [onDriver, txfeEp0])) ended
  | zero pos short slot empty sent ended => exact .zero (pos.touch ..) short slot empty sent ended
  | status pos slot empty zlp sent ended => exact .status (pos.touch ..) slot empty zlp sent ended
  | finished pos slot empty zlp sent ended => exact .finished (pos.touch ..) slot empty zlp sent ended

theorem Stage.pump (size : 0 < x.size) (spaces : List Nat) (stage : x.Stage s) : x.Stage (s.onDriver (.pumpEp0 spaces)) := by
  cases stage with
  | data c pos le zlp slot sent woken ended =>
    obtain ⟨done, pks, c', ran, le', cut, all⟩ := otgTxfifoHandler_fills size
      (d := { s.toUSBDriver with txpending := update s.txpending 0 false }) pos.inMaxsize slot le spaces
    have sent' : s.sent ++ (s.txfifo 0 ++ pks).map Packet.bytes ++ chunks x.size ((x.buf.bytes x.len).drop c') =
        x.sent ++ x.packets := by
      rw [← sent, List.map_append, ← append_assoc, append_assoc _ (pks.map _), cut]
    rw [onDriver, pumpEp0, ran]
    cases done with
    | true =>
      refine .data c' (pos.touch ..) le' zlp (fill_slot _) ?_ (fun more => absurd (all rfl) more.ne) ended
      simpa [fill] using sent'
    | false =>
      refine .data c' (pos.touch ..) le' zlp (by simp [fill]) ?_ (fun _ => .inr (by simp)) ended
      simpa [fill] using sent'
  | zero pos short slot empty sent ended =>
    rw [onDriver, pumpEp0_idle slot]
    exact .zero (pos.touch ..) short slot empty sent ended
  | status pos slot empty zlp sent ended =>
    rw [onDriver, pumpEp0_idle (congrArg EpState.size slot)]
    exact .status (pos.touch ..) slot empty zlp sent ended
  | finished pos slot empty zlp sent ended =>
    rw [onDriver, pumpEp0_idle slot]
    exact .finished (pos.touch ..) slot empty zlp sent ended

theorem Stage.send (stage : x.Stage s) (sent' : s.send = some s') : x.Stage s' := by
  unfold ControlState.send at sent'
  rw [Option.ite_none_right_eq_some] at sent'
  obtain ⟨started, sent'⟩ := sent'
  cases stage with
  | data c pos le zlp slot sent woken ended =>
    cases fifo : s.txfifo 0 with
    | nil => simp [fifo, zlp] at sent'
    | cons pk rest =>
      simp only [fifo, Option.some.injEq] at sent'
      subst sent'
      refine .data c (pos.touch ..) le zlp slot ?_ woken ended
      simpa [fifo] using sent
  | zero pos short slot empty sent ended =>
    simp only [empty, Option.ite_none_right_eq_some, Option.some.injEq] at sent'
    obtain ⟨pending, rfl⟩ := sent'
    refine .zero (pos.touch ..) short slot empty ?_ ended
    simp [sent, pending]
  | status pos => cases pos.startedIn.symm.trans started
  | finished pos => cases pos.startedIn.symm.trans started

/-- The driver when the controller has reported the end of an IN transfer. -/
def inEnded (d : USBDriver) : USBDriver :=
  { d with
    diepctl := update d.diepctl 0 { d.diepctl 0 with started := false }
    transmitting := d.transmitting &&& ~~~twoPow 16 0 }

theorem usbEp0in_tx (is : d.ep0state = .tx) : d.usbEp0in =
    if d.ep0n < d.setup.length ∧ d.ep0n % d.inMaxsize 0 = 0 then { d.ep0transmit null 0 with ep0state := .waitingTx0 }
    else d.ep0awaitStatus := by
  rw [usbEp0in, is]

theorem usbEp0in_waitingTx0 (is : d.ep0state = .waitingTx0) : d.usbEp0in = d.ep0awaitStatus := by
  rw [usbEp0in, is]

/-- All is sent: the status packet is awaited. -/
theorem Stage.awaitStatus (pos : x.At st s.toUSBDriver) (sends : st.sends = true) (empty : s.txfifo 0 = [])
    (zlp : s.zlp 0 = false)
    (sent : s.sent = x.sent ++ x.expected) (ended : s.ended = x.ended)
    (is : s.ep0inComplete = (inEnded s.toUSBDriver).ep0awaitStatus) :
    x.Stage (s.onDriver .ep0inComplete) := by
  obtain ⟨cfg, epc, size⟩ := pos.epc
  have idle : s.ep0busy .out = false := pos.busyOut.trans (by cases st <;> first | rfl | cases sends)
  have receive := ep0receive_eq (d := { inEnded s.toUSBDriver with ep0state := .waitingSts }) epc idle null 0
  rw [onDriver, is, ep0awaitStatus, receive]
  refine .status ⟨⟨cfg, epc, size⟩, pos.want, pos.len, pos.endcb, rfl, ?_, ?_, ?_, ?_⟩ ?_ empty zlp sent ended
  · exact getLsbD_clear _
  · exact getLsbD_set _
  · simp [inEnded, Ep0State.sends]
  · simp [Ep0State.receives]
  · simp

/-- An empty packet is needed. -/
theorem Stage.awaitTx0 (pos : x.At .tx s.toUSBDriver) (empty : s.txfifo 0 = []) (short : x.short)
    (sent : s.sent = x.sent ++ x.packets) (ended : s.ended = x.ended) : x.Stage (s.onDriver .ep0inComplete) := by
  obtain ⟨cfg, epc, size⟩ := pos.epc
  have needed : s.ep0n < s.setup.length ∧ s.ep0n % s.inMaxsize 0 = 0 := by
    rwa [pos.len, pos.want, pos.inMaxsize]
  have is : s.ep0inComplete = { (inEnded s.toUSBDriver).ep0transmit null 0 with ep0state := .waitingTx0 } :=
    (usbEp0in_tx (d := inEnded s.toUSBDriver) pos.state).trans (if_pos needed)
  have transmit := ep0transmit_eq (d := inEnded s.toUSBDriver) epc (getLsbD_clear _) null 0
  rw [onDriver, is, transmit]
  refine .zero ⟨⟨cfg, epc, size⟩, pos.want, pos.len, pos.endcb, rfl, ?_, pos.busyOut, ?_, pos.startedOut⟩ short ?_ empty ?_ ended
  · exact getLsbD_set _
  · simp [Ep0State.sends]
  · simp
  · simpa using sent

theorem Stage.inComplete (stage : x.Stage s) (all : s.allSent = true) : x.Stage (s.onDriver .ep0inComplete) := by
  simp only [ControlState.allSent, Bool.and_eq_true, List.isEmpty_iff, Bool.not_eq_true', decide_eq_true_eq] at all
  obtain ⟨⟨⟨started, empty⟩, zlp⟩, done⟩ := all
  cases stage with
  | data c pos le zlp slot sent woken ended =>
    rw [slot] at done
    have sent' : s.sent = x.sent ++ x.packets := by
      rw [← sent, empty, drop_eq_nil_iff.2 (by rw [Buf.length_bytes]; exact done), chunks_nil]
      simp
    by_cases short : x.short
    · exact awaitTx0 pos empty short sent' ended
    · have enough : ¬ (s.ep0n < s.setup.length ∧ s.ep0n % s.inMaxsize 0 = 0) := by
        rwa [pos.len, pos.want, pos.inMaxsize]
      exact awaitStatus pos rfl empty zlp (by rw [sent', expected, if_neg short, List.append_nil]) ended
        ((usbEp0in_tx (d := inEnded s.toUSBDriver) pos.state).trans (if_neg enough))
  | zero pos short slot empty sent ended =>
    refine awaitStatus pos rfl empty zlp ?_ ended (usbEp0in_waitingTx0 pos.state)
    rw [sent, expected, if_pos short, zlp, append_assoc]
    rfl
  | status pos => cases pos.startedIn.symm.trans started
  | finished pos => cases pos.startedIn.symm.trans started

/-- The driver when the controller has reported the end of an OUT transfer. -/
def outEnded (d : USBDriver) : USBDriver :=
  { d with
    doepctl := update d.doepctl 0 { d.doepctl 0 with started := false }
    receiving := d.receiving &&& ~~~twoPow 16 0 }

theorem ep0outComplete_status (is : d.ep0state = .waitingSts) (epc : d.epc 0 = some (ep0config cfg))
    (none : (d.epState .ep0).cnt = 0) : d.ep0outComplete = (outEnded d).ep0end := by
  have size : (outEnded d).usbGetReceiveTransactionSizeI 0 = 0 := by
    simpa [usbGetReceiveTransactionSizeI, outState, outEnded, epc, ep0config] using none
  have state : (outEnded d).ep0state = .waitingSts := is
  rw [show d.ep0outComplete = (outEnded d).usbEp0out from rfl, usbEp0out, state]
  exact if_neg (not_not_intro size)

theorem next_status (pos : x.At .waitingSts s.toUSBDriver) (slot : s.epState .ep0 = ⟨false, 0, 0, null⟩) :
    s.next cfg (.outComplete 0) = some (s.onDriver fun d => (outEnded d).ep0end) := by
  obtain ⟨cfg', epc, -⟩ := pos.epc
  have same : { s.toUSBDriver with
      epState := update s.epState .ep0 { s.epState .ep0 with cnt := (s.epState .ep0).cnt + 0 } } = s.toUSBDriver := by simp
  simp only [ControlState.next, next, same, if_pos (show (s.doepctl 0).started = true from pos.startedOut),
    ep0outComplete_status pos.state epc (congrArg EpState.cnt slot)]
  rfl

/-- The host's empty packet ends the transfer. -/
theorem Stage.outComplete (stage : x.Stage s) (taken : s.next cfg (.outComplete 0) = some s') : x.Stage s' := by
  have stopped : (s.doepctl 0).started = true := (Option.ite_none_right_eq_some.1 taken).1
  cases stage with
  | data c pos => cases pos.startedOut.symm.trans stopped
  | zero pos => cases pos.startedOut.symm.trans stopped
  | finished pos => cases pos.startedOut.symm.trans stopped
  | status pos slot empty zlp sent ended =>
    cases (next_status pos slot).symm.trans taken
    refine .finished ⟨pos.epc, pos.want, pos.len, pos.endcb, rfl, pos.busyIn, getLsbD_clear _, pos.startedIn, ?_⟩
      (congrArg EpState.size slot) empty zlp sent ?_
    · simp [onDriver, ep0end, outEnded, Ep0State.receives]
    · simp [onDriver, ep0end, outEnded, pos.endcb, ended]

/-- Endpoint zero has nothing to do. -/
structure Idle (cfg : USBConfig) (d : USBDriver) : Prop where
  epc : d.epc 0 = some (ep0config cfg)
  busyIn : d.ep0busy .inp = false
  busyOut : d.ep0busy .out = false
  startedOut : (d.doepctl 0).started = false
  fifo : d.txfifo 0 = []
  zlp : d.zlp 0 = false

/-- As after a bus reset. -/
theorem Idle.reset (cfg : USBConfig) (d : USBDriver) : Idle cfg (d.usbReset cfg) := by
  constructor <;>
    simp [usbReset, usbEvent, usbLldReset, ep0busy, usbGetTransmitStatusI,
      usbGetReceiveStatusI, otgTxfifoFlush, otgRamReset, otgRamAlloc]

/-- The transfer of an answer `d` that a handler has prepared. -/
def of (cfg : USBConfig) (s : ControlState) (p : SetupPacket) (d : USBDriver) : InTransfer where
  size := cfg.ep0Maxsize
  buf := d.ep0next
  len := min d.ep0n p.length
  want := p.length
  endcb := d.ep0endcb
  sent := s.sent
  ended := s.ended

theorem Stage.start {p : SetupPacket} {d' : USBDriver} (idle : Idle cfg s.toUSBDriver) (asks : p.dev2host = true)
    (wants : 1 ≤ p.length) (handled : (s.received p).handleRequest cfg = some d') (answers : 0 < d'.ep0n) :
    (of cfg s p d').Stage (s.onDriver (.usbEp0setup cfg p)) := by
  have started : s.usbEp0setup cfg p = d'.ep0stage := by
    simp only [usbEp0setup, show { s.toUSBDriver with ep0state := .waitingSetup, setup := p } = s.received p from rfl, handled]
  rcases handleRequest_cases handled with ⟨same, inCtl, outCtl⟩ | ⟨-, rfl⟩
  · have epc : d'.epc 0 = some (ep0config cfg) := (congrFun (congrArg epc same) 0).trans idle.epc
    have setup : d'.setup = p := congrArg setup same
    have busyIn : d'.ep0busy .inp = false := (handleRequest_ep0busy _ handled).trans idle.busyIn
    have busyOut : d'.ep0busy .out = false := (handleRequest_ep0busy _ handled).trans idle.busyOut
    have fifo : d'.txfifo 0 = [] := (congrFun (congrArg (·.txfifo) same) 0).trans idle.fifo
    have ended : d'.ended = s.ended := (congrArg USBDriver.ended same).trans rfl
    have some : 0 < min d'.ep0n p.length := Nat.lt_min.2 ⟨answers, wants⟩
    rw [← setup] at asks some
    have transmit := ep0transmit_eq (d := { d' with ep0n := min d'.ep0n d'.setup.length, ep0state := .tx }) epc busyIn d'.ep0next
      (min d'.ep0n d'.setup.length)
    rw [onDriver, started, ep0stage, if_pos asks, if_pos some, transmit]
    refine .data 0 ⟨⟨cfg, epc, rfl⟩, congrArg SetupPacket.length setup, ?_, rfl, rfl, getLsbD_set _, busyOut, ?_, ?_⟩ (Nat.zero_le _) ?_ ?_
      ?_ (fun _ => .inr ?_) ended
    · simp [of, setup]
    · simp [Ep0State.sends]
    · exact (congrArg EpCtl.started outCtl).trans idle.startedOut
    · simp [Nat.ne_of_gt some]
    · simp [of, setup]
    · simp [of, packets, fifo]
    · simp
  · exact absurd answers (Nat.lt_irrefl 0)

end InTransfer

/-- The host's status packet is empty. -/
def ControlLabel.proper : ControlLabel → Bool
  | .outComplete n => n = 0
  | _ => true

open ControlLabel (proper)

namespace InTransfer

theorem Stage.step {l : ControlLabel} (size : 0 < x.size) (stage : x.Stage s) (proper : l.proper = true)
    (taken : s.next cfg l = some s') : x.Stage s' := by
  cases l with
  | txfe =>
    obtain ⟨-, ⟨⟩⟩ := Option.ite_none_right_eq_some.1 taken
    exact stage.txfe
  | pump spaces =>
    obtain ⟨-, ⟨⟩⟩ := Option.ite_none_right_eq_some.1 taken
    exact stage.pump size spaces
  | send => exact stage.send taken
  | inComplete =>
    obtain ⟨all, ⟨⟩⟩ := Option.ite_none_right_eq_some.1 taken
    exact stage.inComplete all
  | outComplete n =>
    cases of_decide_eq_true proper
    exact stage.outComplete taken

/-! ### The end of the transfer -/

/-- What is left to do. -/
def weight (s : ControlState) : Nat :=
  match s.ep0state with
  | .tx => 4 + (s.txfifo 0).length + 3 * ((s.epState .ep0).size - (s.epState .ep0).cnt) + if s.txpending 0 then 0 else 1
  | .waitingTx0 => if s.zlp 0 then 3 else 2
  | .waitingSts => 1
  | _ => 0

/-- With room for the answer the pump thread writes a packet. -/
theorem otgTxfifoHandler_one (is : d.inMaxsize 0 = n) (slot : d.epState .ep0 = ⟨false, m, c, fun k => buf (k + c)⟩)
    (more : c < m) : ∃ done pk, d.otgTxfifoHandler 0 .ep0 [m] = (done, d.fill [pk] m (c + min (m - c) n) buf) := by
  have room : ¬ m * 4 < min (m - c) n := by omega
  rw [otgTxfifoHandler, slot, if_neg (not_le.2 more)]
  dsimp only
  rw [is, if_neg room, otgFifoWriteFromBuffer_eq slot, otgTxfifoHandler]
  split
  · exact ⟨true, _, rfl⟩
  · exact ⟨false, _, rfl⟩

theorem weight_tx (is : s.ep0state = .tx) : weight s =
    4 + (s.txfifo 0).length + 3 * ((s.epState .ep0).size - (s.epState .ep0).cnt) + if s.txpending 0 then 0 else 1 := by
  rw [weight, is]

/-- Within the data stage. -/
theorem weight_tx_lt (is : s.ep0state = .tx) (is' : s'.ep0state = .tx)
    (less : (s'.txfifo 0).length + 3 * ((s'.epState .ep0).size - (s'.epState .ep0).cnt) + (if s'.txpending 0 then 0 else 1) <
      (s.txfifo 0).length + 3 * ((s.epState .ep0).size - (s.epState .ep0).cnt) + if s.txpending 0 then 0 else 1) :
    weight s' < weight s := by
  rw [weight_tx is, weight_tx is']
  omega

theorem weight_sts (is : s.ep0state = .waitingSts) : weight s = 1 := by rw [weight, is]

theorem weight_tx0 (is : s.ep0state = .waitingTx0) : weight s = if s.zlp 0 then 3 else 2 := by rw [weight, is]

theorem ep0awaitStatus_state (d : USBDriver) : d.ep0awaitStatus.ep0state = .waitingSts := (ep0receive_starts ..).2

/-- The data stage is behind. -/
theorem weight_inComplete (is : s.ep0state = .tx) : weight (s.onDriver .ep0inComplete) < 4 := by
  have cases := usbEp0in_tx (d := inEnded s.toUSBDriver) is
  split at cases
  · rw [weight_tx0 (congrArg ep0state cases)]
    split <;> simp
  · rw [weight_sts ((congrArg ep0state cases).trans (ep0awaitStatus_state _))]
    simp

/-- As long as the transfer is not over something brings it nearer to its end. -/
theorem Stage.progress (size : 0 < x.size) (stage : x.Stage s) (going : s.ep0state ≠ .waitingSetup) (cfg : USBConfig) :
    ∃ l s', proper l = true ∧ s.next cfg l = some s' ∧ weight s' < weight s := by
  cases stage with
  | data c pos le zlp slot sent woken ended =>
    have started : (s.diepctl 0).started = true := pos.startedIn
    cases fifo : s.txfifo 0 with
    | cons pk rest =>
      refine ⟨.send, { s with txfifo := update s.txfifo 0 rest, sent := s.sent ++ [pk.bytes] }, rfl, ?_, ?_⟩
      · simp [ControlState.next, ControlState.send, started, fifo]
      · exact weight_tx_lt pos.state pos.state (by simp [fifo])
    | nil =>
      rcases lt_or_ge c x.len with more | done
      · cases pending : s.txpending 0 with
        | false =>
          have mask : s.diepempmsk 0 = true := (woken more).resolve_left (by simp [pending])
          refine ⟨.txfe, s.onDriver .txfeEp0, rfl, if_pos mask, weight_tx_lt pos.state pos.state ?_⟩
          simp [onDriver, txfeEp0, pending]
        | true =>
          refine ⟨.pump [x.len], s.onDriver (.pumpEp0 [x.len]), rfl, if_pos pending, ?_⟩
          obtain ⟨done, pk, ran⟩ := otgTxfifoHandler_one
            (d := { s.toUSBDriver with txpending := update s.txpending 0 false }) pos.inMaxsize slot more
          rw [onDriver, pumpEp0, ran]
          cases done <;> refine weight_tx_lt pos.state pos.state ?_ <;> simp [fill, fifo, pending, slot] <;> omega
      · refine ⟨.inComplete, s.onDriver .ep0inComplete, rfl, if_pos ?_, ?_⟩
        · simp [ControlState.allSent, started, fifo, zlp, slot, done]
        · have := weight_inComplete pos.state
          rw [weight_tx pos.state]
          omega
  | zero pos short slot empty sent ended =>
    have started : (s.diepctl 0).started = true := pos.startedIn
    cases zlp : s.zlp 0 with
    | true =>
      refine ⟨.send, { s with zlp := update s.zlp 0 false, sent := s.sent ++ [[]] }, rfl, ?_, ?_⟩
      · simp [ControlState.next, ControlState.send, started, empty, zlp]
      · refine lt_of_le_of_lt (le_of_eq (weight_tx0 pos.state)) ?_
        rw [weight_tx0 pos.state]
        simp [zlp]
    | false =>
      refine ⟨.inComplete, s.onDriver .ep0inComplete, rfl, if_pos ?_, ?_⟩
      · simp [ControlState.allSent, started, empty, zlp, slot]
      · have state := congrArg ep0state (usbEp0in_waitingTx0 (d := inEnded s.toUSBDriver) pos.state)
        rw [weight_sts (state.trans (ep0awaitStatus_state _)), weight_tx0 pos.state]
        simp [zlp]
  | status pos slot empty zlp sent ended =>
    refine ⟨.outComplete 0, _, rfl, next_status pos slot, ?_⟩
    rw [weight_sts pos.state]
    exact Nat.zero_lt_one
  | finished pos => exact absurd pos.state going

/-- The transfer can always be brought to its end. -/
theorem Stage.ends {p : SetupPacket} {s₀ : ControlState} (size : 0 < x.size) (stage : x.Stage s) :
    ∃ ls s', (∀ l ∈ ls, proper l = true) ∧ (controlLts cfg p s₀).run ls s = some s' ∧
      s'.ep0state = .waitingSetup := by
  induction left : weight s using Nat.strongRecOn generalizing s with
  | ind n ih =>
    by_cases finished : s.ep0state = .waitingSetup
    · exact ⟨[], s, nofun, rfl, finished⟩
    · obtain ⟨l, s₁, proper, taken, less⟩ := stage.progress size finished cfg
      obtain ⟨ls, s', propers, ran, ended⟩ := ih _ (left ▸ less) (stage.step size proper taken) rfl
      refine ⟨l :: ls, s', List.forall_mem_cons.2 ⟨proper, propers⟩, ?_, ended⟩
      rwa [Lts.run, show (controlLts cfg p s₀).next l s = some s₁ from taken]

end InTransfer

/-! ## Control-IN transfers -/

/-- What holds at every moment of a control-IN transfer: no packet is sent that should not be,
the status packet is awaited when all are sent, it ends the transfer with one call of the end
callback, and the transfer can be brought to its end. -/
structure ControlInOk (cfg : USBConfig) (p : SetupPacket) (s₀ : ControlState) (x : InTransfer) (s : ControlState) : Prop where
  sent : s.sent <+: x.sent ++ x.expected
  status : s.ep0state = .waitingSts → s.sent = x.sent ++ x.expected ∧
    ∃ s', s.next cfg (.outComplete 0) = some s' ∧ s'.ep0state = .waitingSetup
  going : s.ep0state ≠ .waitingSetup → s.ended = x.ended
  finished : s.ep0state = .waitingSetup → s.sent = x.sent ++ x.expected ∧ s.ended = x.endcb.toList ++ x.ended ∧
    InTransfer.Idle cfg s.toUSBDriver
  ends : ∃ ls s', (∀ l ∈ ls, proper l = true) ∧ (controlLts cfg p s₀).run ls s = some s' ∧
    s'.ep0state = .waitingSetup

theorem InTransfer.Stage.ok {p : SetupPacket} {s₀ : ControlState} (size : 0 < x.size) (is : cfg.ep0Maxsize = x.size)
    (stage : x.Stage s) : ControlInOk cfg p s₀ x s := by
  have ends : ∃ ls s', (∀ l ∈ ls, proper l = true) ∧ (controlLts cfg p s₀).run ls s = some s' ∧
      s'.ep0state = .waitingSetup := stage.ends size
  cases stage with
  | data c pos le zlp slot sent woken ended =>
    have off : s.ep0state = .tx := pos.state
    refine ⟨?_, fun here => ?_, fun _ => ended, fun here => ?_, ends⟩
    · rw [expected, ← append_assoc, ← sent, append_assoc, append_assoc]
      exact List.prefix_append ..
    · cases off.symm.trans here
    · cases off.symm.trans here
  | zero pos short slot empty sent ended =>
    have off : s.ep0state = .waitingTx0 := pos.state
    refine ⟨?_, fun here => ?_, fun _ => ended, fun here => ?_, ends⟩
    · rw [expected, if_pos short, sent, ← append_assoc]
      split
      · rw [List.append_nil]
        exact List.prefix_append ..
      · exact prefix_rfl
    · cases off.symm.trans here
    · cases off.symm.trans here
  | status pos slot empty zlp sent ended =>
    have off : s.ep0state = .waitingSts := pos.state
    refine ⟨sent ▸ prefix_rfl, fun _ => ⟨sent, _, next_status pos slot, rfl⟩, fun _ => ended, fun here => ?_, ends⟩
    cases off.symm.trans here
  | finished pos slot empty zlp sent ended =>
    have off : s.ep0state = .waitingSetup := pos.state
    obtain ⟨cfg', epc, same⟩ := pos.epc
    have config : ep0config cfg' = ep0config cfg := by simp [ep0config, same, is]
    refine ⟨sent ▸ prefix_rfl, fun here => ?_, fun here => absurd off here, fun _ => ⟨sent, ended, ?_⟩, ends⟩
    · cases off.symm.trans here
    · exact ⟨epc.trans (congrArg some config), pos.busyIn, pos.busyOut, pos.startedOut, empty, zlp⟩

/-- A control-IN transfer with no other SETUP packet sends the answer, as far as the host asked
for it, in packets of the endpoint's size. -/
theorem control_in {p : SetupPacket} {d' : USBDriver} (idle : InTransfer.Idle cfg s.toUSBDriver) (size : 0 < cfg.ep0Maxsize)
    (asks : p.dev2host = true) (wants : 1 ≤ p.length) (handled : (s.received p).handleRequest cfg = some d')
    (answers : 0 < d'.ep0n) (reached : (controlLts cfg p s).Reach (fun _ l => l.proper = true) s') :
    ControlInOk cfg p s (.of cfg s p d') s' := by
  have stage : (InTransfer.of cfg s p d').Stage s' := reached.invariant
    (.start idle asks wants handled answers) fun s l s' stage proper taken => stage.step size proper taken
  exact stage.ok size rfl

/-- Packets of four bytes, and an answer of eight to every request. -/
def smallAnswer : USBConfig where
  getDescriptorCb := fun _ _ _ => none
  requestsHookCb := fun _ => some ⟨bufOf [1, 2, 3, 4, 5, 6, 7, 8], 8, some 7⟩
  ep0Maxsize := 4

/-- A vendor request for 64 bytes. -/
def vendorRequest : SetupPacket := ⟨0xC0, 1, 0, 0, 0, 0, 64, 0⟩

/-- The driver after a bus reset. -/
def afterReset : ControlState := ⟨USBDriver.powerOn.usbReset smallAnswer, []⟩

/-- The first packet goes out before the second one is in the FIFO; an empty one follows. -/
theorem control_in_eight : ∃ s d, (controlLts smallAnswer vendorRequest afterReset).run
    [.txfe, .pump [1, 0], .send, .txfe, .pump [1], .send, .inComplete, .send, .inComplete, .outComplete 0]
      (afterReset.onDriver (.usbEp0setup smallAnswer vendorRequest)) = some s ∧
    (afterReset.received vendorRequest).handleRequest smallAnswer = some d ∧
    s.sent = [[1, 2, 3, 4], [5, 6, 7, 8], []] ∧ s.ended = [7] ∧ s.ep0state = .waitingSetup ∧
    ControlInOk smallAnswer vendorRequest afterReset (.of smallAnswer afterReset vendorRequest d) s :=
  Lts.exists_run₂ (by rfl) rfl fun reached =>
    ⟨_, rfl, rfl, rfl, rfl, control_in (.reset ..) (by decide) (by decide) (by decide) rfl (by decide) reached⟩

end ChibiOS.Usb
