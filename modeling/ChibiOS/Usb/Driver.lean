import Mathlib.Tactic

/-!
# The USB driver (`usb.c`, `OTGv1/usb_lld.c`, `usbcfg.c`)

The driver object, the registers of the controller that the driver reads back or that
decide what is sent, and the functions that work on them. The endpoint states are the
static objects of the program: the two directions of endpoint zero share one, a union.
Assertions are compiled out, as `chconf.h` says.
-/

namespace ChibiOS.Usb

open Function

/-- `usbstate_t`. -/
inductive UsbState
  | uninit | stop | ready | selected | active
  deriving DecidableEq, Repr

/-- `usbep0state_t`. -/
inductive Ep0State
  | waitingSetup | tx | waitingTx0 | waitingSts | rx | sendingSts | error
  deriving DecidableEq, Repr

/-- `usbevent_t`. -/
inductive Event
  | reset | address | configured | suspend | wakeup | stalled
  deriving DecidableEq, Repr

/-- `usbepstatus_t`. -/
inductive EpStatus
  | disabled | stalled | active
  deriving DecidableEq, Repr

/-- The bytes from a pointer on. -/
abbrev Buf := Nat → UInt8

def null : Buf := fun _ => 0

/-- The endpoint callbacks of the program. -/
inductive EpCallback
  | ep0setup | ep0in | ep0out | sduDataTransmitted | sduDataReceived | sduInterruptTransmitted
  deriving DecidableEq, Repr

/-- `ep0_state`, `ep1instate`, `ep1outstate` and `ep2instate`. -/
inductive EpStateId
  | ep0 | ep1in | ep1out | ep2in
  deriving DecidableEq, Repr

/-- `USBInEndpointState` and `USBOutEndpointState`, whose layout is the same. The queue
of a queued transaction is the one of the endpoint. -/
structure EpState where
  queued : Bool := false
  size : Nat := 0
  cnt : Nat := 0
  buf : Buf := null

inductive EpMode
  | ctrl | isoc | bulk | intr
  deriving DecidableEq, Repr

structure USBEndpointConfig where
  epMode : EpMode
  setupCb : Option EpCallback
  inCb : Option EpCallback
  outCb : Option EpCallback
  inMaxsize : Nat
  outMaxsize : Nat
  inState : Option EpStateId
  outState : Option EpStateId
  inMultiplier : Nat

/-- The eight bytes of a SETUP packet. -/
structure SetupPacket where
  setup0 : UInt8
  setup1 : UInt8
  setup2 : UInt8
  setup3 : UInt8
  setup4 : UInt8
  setup5 : UInt8
  setup6 : UInt8
  setup7 : UInt8
  deriving DecidableEq, Repr

/-- `usbFetchWord`. -/
def usbFetchWord (lo hi : UInt8) : Nat := lo.toNat + 256 * hi.toNat

/-- What a request handler hands to `usbSetupTransfer`. The callbacks of the application
are numbered. -/
structure Transfer where
  buf : Buf
  n : Nat
  endcb : Option Nat

/-- `USBDescriptor`. -/
structure USBDescriptor where
  udSize : Nat
  udString : Buf

/-- The application's side of `USBConfig` and the packet size of `ep0config`. A hook that
returns TRUE has called `usbSetupTransfer`; the hooks read nothing but their arguments. -/
structure USBConfig where
  getDescriptorCb : (dtype dindex : UInt8) → (lang : Nat) → Option USBDescriptor
  requestsHookCb : SetupPacket → Option Transfer
  ep0Maxsize : Nat

/-- The bits of `DIEPCTL` and `DOEPCTL` that matter: the endpoint is active, stalled,
and has been started. -/
structure EpCtl where
  usbaep : Bool := false
  stall : Bool := false
  started : Bool := false
  deriving DecidableEq, Repr

/-- A packet in a transmit FIFO: the bytes of the words pushed, and how many are sent. -/
structure Packet where
  words : List UInt8
  len : Nat
  deriving DecidableEq, Repr

def Packet.bytes (p : Packet) : List UInt8 := p.words.take p.len

/-- The controller. A FIFO is its start and its depth, in words; `zlp` is a transfer of
`DIEPTSIZ_PKTCNT(1) | DIEPTSIZ_XFRSIZ(0)`, a packet that no FIFO holds. -/
structure Otg where
  grxfsiz : Nat
  dieptxf : Nat → Nat × Nat
  diepctl : Nat → EpCtl
  doepctl : Nat → EpCtl
  diepempmsk : Nat → Bool
  txfifo : Nat → List Packet
  zlp : Nat → Bool

inductive Dir
  | inp | out
  deriving DecidableEq, Repr

/-- A call of `usbStartTransmitI` or `usbStartReceiveI`, and its result. -/
structure StartCall where
  dir : Dir
  ep : Nat
  busy : Bool
  deriving DecidableEq, Repr

/-- `USBDriver` with its endpoint states. `starts` and `ended` record the start calls and
the end callbacks that have run, the last first. -/
structure USBDriver extends Otg where
  state : UsbState
  transmitting : BitVec 16
  receiving : BitVec 16
  epc : Nat → Option USBEndpointConfig
  ep0state : Ep0State
  ep0next : Buf
  ep0n : Nat
  ep0endcb : Option Nat
  setup : SetupPacket
  status : BitVec 16
  address : UInt8
  configuration : UInt8
  pmnext : Nat
  txpending : Nat → Bool
  epState : EpStateId → EpState
  starts : List StartCall
  ended : List Nat

/-! ## The low level driver -/

/-- `STM32_USB_OTG1_RX_FIFO_SIZE / 4`. -/
def rxFifoSize : Nat := 512 / 4

/-- `STM32_OTG1_FIFO_MEM_SIZE`. -/
def otgRamSize : Nat := 384

/-- `STM32_OTG1_ENDOPOINTS_NUMBER`. -/
def numEndpoints : Nat := 3

def usbMaxEndpoints : Nat := 3

/-- `ep0config`. -/
def ep0config (cfg : USBConfig) : USBEndpointConfig where
  epMode := .ctrl
  setupCb := some .ep0setup
  inCb := some .ep0in
  outCb := some .ep0out
  inMaxsize := cfg.ep0Maxsize
  outMaxsize := cfg.ep0Maxsize
  inState := some .ep0
  outState := some .ep0
  inMultiplier := 1

namespace USBDriver

def otgRamReset (d : USBDriver) : USBDriver := { d with pmnext := rxFifoSize }

def otgRamAlloc (size : Nat) (d : USBDriver) : Nat × USBDriver :=
  (d.pmnext, { d with pmnext := (d.pmnext + size) % 2 ^ 32 })

def otgTxfifoFlush (ep : Nat) (d : USBDriver) : USBDriver := { d with txfifo := update d.txfifo ep [] }

/-- Endpoint zero is not spared. -/
def otgDisableEp (d : USBDriver) : USBDriver :=
  { d with
    diepctl := fun i => if i ≤ numEndpoints then {} else d.diepctl i
    doepctl := fun i => if i ≤ numEndpoints then {} else d.doepctl i
    zlp := fun i => if i ≤ numEndpoints then false else d.zlp i }

def usbLldReset (cfg : USBConfig) (d : USBDriver) : USBDriver :=
  let d := d.otgTxfifoFlush 0
  let d := { d with
    diepctl := fun i => if i ≤ numEndpoints then {} else d.diepctl i
    doepctl := fun i => if i ≤ numEndpoints then {} else d.doepctl i }
  let d := d.otgRamReset
  let d := { d with
    grxfsiz := rxFifoSize
    epc := update d.epc 0 (some (ep0config cfg))
    doepctl := update d.doepctl 0 { usbaep := true }
    diepctl := update d.diepctl 0 { usbaep := true }
    zlp := update d.zlp 0 false }
  let (start, d) := d.otgRamAlloc (cfg.ep0Maxsize / 4)
  { d with dieptxf := update d.dieptxf 0 (start, cfg.ep0Maxsize / 4) }

/-- `fsize`. -/
def fifoSize (c : USBEndpointConfig) : Nat :=
  if 1 < c.inMultiplier then c.inMaxsize / 4 * c.inMultiplier else c.inMaxsize / 4

/-- The type of the endpoint only picks the bits of `ctl` that are not modelled. -/
def usbLldInitEndpoint (ep : Nat) (d : USBDriver) : USBDriver :=
  match d.epc ep with
  | none => d
  | some c =>
    let ctl := if c.outCb.isSome then { usbaep := true } else { d.doepctl ep with usbaep := false }
    let d := { d with doepctl := update d.doepctl ep ctl }
    if c.inCb.isSome then
      let (start, d) := d.otgRamAlloc (fifoSize c)
      let d := { d with dieptxf := update d.dieptxf ep (start, fifoSize c) }.otgTxfifoFlush ep
      { d with diepctl := update d.diepctl ep { usbaep := true }, zlp := update d.zlp ep false }
    else
      let d := { d with dieptxf := update d.dieptxf ep (0x400, 0x200) }.otgTxfifoFlush ep
      { d with diepctl := update d.diepctl ep { d.diepctl ep with usbaep := false }, zlp := update d.zlp ep false }

def usbLldDisableEndpoints (d : USBDriver) : USBDriver := d.otgRamReset.otgDisableEp

/-- `usb_lld_get_status_in` and `usb_lld_get_status_out`. -/
def epStatus (ctl : EpCtl) : EpStatus :=
  if ctl.usbaep then if ctl.stall then .stalled else .active else .disabled

def usbLldGetStatusIn (ep : Nat) (d : USBDriver) : EpStatus := epStatus (d.diepctl ep)

def usbLldGetStatusOut (ep : Nat) (d : USBDriver) : EpStatus := epStatus (d.doepctl ep)

def usbLldStartOut (ep : Nat) (d : USBDriver) : USBDriver :=
  { d with doepctl := update d.doepctl ep { d.doepctl ep with started := true } }

def usbLldStartIn (ep : Nat) (d : USBDriver) : USBDriver :=
  { d with
    diepctl := update d.diepctl ep { d.diepctl ep with started := true }
    diepempmsk := update d.diepempmsk ep true }

def usbLldStallOut (ep : Nat) (d : USBDriver) : USBDriver :=
  { d with doepctl := update d.doepctl ep { d.doepctl ep with stall := true } }

def usbLldStallIn (ep : Nat) (d : USBDriver) : USBDriver :=
  { d with diepctl := update d.diepctl ep { d.diepctl ep with stall := true } }

def usbLldClearOut (ep : Nat) (d : USBDriver) : USBDriver :=
  { d with doepctl := update d.doepctl ep { d.doepctl ep with stall := false } }

def usbLldClearIn (ep : Nat) (d : USBDriver) : USBDriver :=
  { d with diepctl := update d.diepctl ep { d.diepctl ep with stall := false } }

/-! ## The driver -/

/-- The state object of an IN endpoint. -/
def inState (ep : Nat) (d : USBDriver) : Option EpStateId := (d.epc ep).bind (·.inState)

def outState (ep : Nat) (d : USBDriver) : Option EpStateId := (d.epc ep).bind (·.outState)

def setEpState (i : Option EpStateId) (v : EpState) (d : USBDriver) : USBDriver :=
  match i with
  | none => d
  | some i => { d with epState := update d.epState i v }

/-- `usbGetTransmitStatusI`. -/
def usbGetTransmitStatusI (ep : Nat) (d : USBDriver) : Bool := d.transmitting.getLsbD ep

/-- `usbGetReceiveStatusI`. -/
def usbGetReceiveStatusI (ep : Nat) (d : USBDriver) : Bool := d.receiving.getLsbD ep

def usbInitEndpointI (ep : Nat) (epcp : USBEndpointConfig) (d : USBDriver) : USBDriver :=
  let d := (d.setEpState epcp.inState {}).setEpState epcp.outState {}
  { d with epc := update d.epc ep (some epcp) }.usbLldInitEndpoint ep

def usbDisableEndpointsI (d : USBDriver) : USBDriver :=
  { d with
    transmitting := d.transmitting &&& ~~~BitVec.twoPow 16 0
    receiving := d.receiving &&& ~~~BitVec.twoPow 16 0
    epc := fun i => if 1 ≤ i ∧ i ≤ usbMaxEndpoints then none else d.epc i }.usbLldDisableEndpoints

/-- The size register that `usb_lld_prepare_receive` writes is the controller's. -/
def usbPrepareReceive (ep : Nat) (buf : Buf) (n : Nat) (d : USBDriver) : USBDriver :=
  d.setEpState (d.outState ep) { queued := false, buf := buf, size := n, cnt := 0 }

/-- With `usb_lld_prepare_transmit`, whose size register matters for an empty transfer. -/
def usbPrepareTransmit (ep : Nat) (buf : Buf) (n : Nat) (d : USBDriver) : USBDriver :=
  let d := d.setEpState (d.inState ep) { queued := false, buf := buf, size := n, cnt := 0 }
  { d with zlp := update d.zlp ep (decide (n = 0)) }

def usbPrepareQueuedReceive (ep : Nat) (n : Nat) (d : USBDriver) : USBDriver :=
  d.setEpState (d.outState ep) { queued := true, size := n, cnt := 0 }

def usbPrepareQueuedTransmit (ep : Nat) (n : Nat) (d : USBDriver) : USBDriver :=
  let d := d.setEpState (d.inState ep) { queued := true, size := n, cnt := 0 }
  { d with zlp := update d.zlp ep (decide (n = 0)) }

/-- A busy endpoint is left alone. The result is the last entry of `starts`. -/
def usbStartReceiveI (ep : Nat) (d : USBDriver) : USBDriver :=
  if d.usbGetReceiveStatusI ep then { d with starts := ⟨.out, ep, true⟩ :: d.starts }
  else { d with receiving := d.receiving ||| BitVec.twoPow 16 ep, starts := ⟨.out, ep, false⟩ :: d.starts }.usbLldStartOut ep

def usbStartTransmitI (ep : Nat) (d : USBDriver) : USBDriver :=
  if d.usbGetTransmitStatusI ep then { d with starts := ⟨.inp, ep, true⟩ :: d.starts }
  else { d with transmitting := d.transmitting ||| BitVec.twoPow 16 ep, starts := ⟨.inp, ep, false⟩ :: d.starts }.usbLldStartIn ep

def usbSetupTransfer (t : Transfer) (d : USBDriver) : USBDriver :=
  { d with ep0next := t.buf, ep0n := t.n, ep0endcb := t.endcb }

/-! ## The application (`usbcfg.c`) -/

def ep1config : USBEndpointConfig where
  epMode := .bulk
  setupCb := none
  inCb := some .sduDataTransmitted
  outCb := some .sduDataReceived
  inMaxsize := 0x40
  outMaxsize := 0x40
  inState := some .ep1in
  outState := some .ep1out
  inMultiplier := 2

def ep2config : USBEndpointConfig where
  epMode := .intr
  setupCb := none
  inCb := some .sduInterruptTransmitted
  outCb := none
  inMaxsize := 0x10
  outMaxsize := 0
  inState := some .ep2in
  outState := none
  inMultiplier := 1

/-- `USBD1_DATA_REQUEST_EP` and `USBD1_DATA_AVAILABLE_EP`. -/
def dataEp : Nat := 1

/-- `USBD1_INTERRUPT_REQUEST_EP`. -/
def interruptEp : Nat := 2

/-- What `sduConfigureHookI` does to the USB driver. -/
def sduConfigureHookI (d : USBDriver) : USBDriver :=
  match d.epc dataEp with
  | none => d
  | some c => (d.usbPrepareQueuedReceive dataEp c.outMaxsize).usbStartReceiveI dataEp

/-- The application ignores the configuration value. -/
def usbEvent (event : Event) (d : USBDriver) : USBDriver :=
  match event with
  | .configured => ((d.usbInitEndpointI dataEp ep1config).usbInitEndpointI interruptEp ep2config).sduConfigureHookI
  | _ => d

end USBDriver

end ChibiOS.Usb
