import ChibiOS.Usb.Driver
import ChibiOS.Lib.Lts

/-!
# Endpoint zero (`usb.c`)

The standard requests, the state machine of the control transfers, and the system of
the events that drive it. A bus reset puts the driver in its first state.
-/

namespace ChibiOS.Usb

open Function
open Lib

/-- The bytes of a constant. -/
def bufOf (bytes : List UInt8) : Buf := fun i => bytes.getD i 0

namespace SetupPacket

/-- `(setup[0] & USB_RTYPE_DIR_MASK) == USB_RTYPE_DIR_DEV2HOST`. -/
def dev2host (p : SetupPacket) : Bool := p.setup0 &&& 0x80 == 0x80

/-- `(setup[0] & USB_RTYPE_TYPE_MASK) == USB_RTYPE_TYPE_STD`. -/
def standard (p : SetupPacket) : Bool := p.setup0 &&& 0x60 == 0

/-- `usbFetchWord(&setup[6])`. -/
def length (p : SetupPacket) : Nat := usbFetchWord p.setup6 p.setup7

/-- A SET_CONFIGURATION request of any kind of direction. -/
def setsConfiguration (p : SetupPacket) : Bool := p.setup0 &&& 0x7F == 0 && p.setup1 == 9

end SetupPacket

namespace USBDriver

/-- With `USB_EARLY_SET_ADDRESS`. -/
def setAddress (d : USBDriver) : USBDriver :=
  { { d with address := d.setup.setup2 }.usbEvent .address with state := .selected }

/-- The answer to a GET_STATUS of an endpoint. -/
def statusReply (status : EpStatus) (d : USBDriver) : Option USBDriver :=
  match status with
  | .stalled => some (d.usbSetupTransfer ⟨bufOf [1, 0], 2, none⟩)
  | .active => some (d.usbSetupTransfer ⟨bufOf [0, 0], 2, none⟩)
  | .disabled => none

/-- `usbSetupTransfer(usbp, NULL, 0, NULL)`. -/
def noTransfer (d : USBDriver) : USBDriver := d.usbSetupTransfer ⟨null, 0, none⟩

/-- FALSE is `none`. The cases are the recipient and type, and the request. -/
def defaultHandler (cfg : USBConfig) (d : USBDriver) : Option USBDriver :=
  let p := d.setup
  let ep := (p.setup4 &&& 0x0F).toNat
  match (p.setup0 &&& 0x7F).toNat, p.setup1.toNat with
  | 0, 0 => some (d.usbSetupTransfer ⟨bufOf [UInt8.ofBitVec (d.status.setWidth 8), UInt8.ofBitVec ((d.status >>> 8).setWidth 8)], 2, none⟩)
  | 0, 1 => if p.setup2 = 1 then some { d with status := d.status &&& ~~~2 }.noTransfer else none
  | 0, 3 => if p.setup2 = 1 then some { d with status := d.status ||| 2 }.noTransfer else none
  | 0, 5 => some (if p.setup0 = 0 ∧ p.setup1 = 5 then d.setAddress else d).noTransfer
  | 0, 6 =>
    match cfg.getDescriptorCb p.setup3 p.setup2 (usbFetchWord p.setup4 p.setup5) with
    | none => none
    | some dp => some (d.usbSetupTransfer ⟨dp.udString, dp.udSize, none⟩)
  | 0, 8 => some (d.usbSetupTransfer ⟨bufOf [d.configuration], 1, none⟩)
  | 0, 9 =>
    let d := { d with configuration := p.setup2, state := if p.setup2 = 0 then .selected else .active }
    some (d.usbEvent .configured).noTransfer
  | 1, 0 | 2, 12 => some (d.usbSetupTransfer ⟨bufOf [0, 0], 2, none⟩)
  | 2, 0 =>
    if p.setup4 &&& 0x80 ≠ 0 then d.statusReply (d.usbLldGetStatusIn ep) else d.statusReply (d.usbLldGetStatusOut ep)
  | 2, 1 =>
    if p.setup2 ≠ 0 then none
    else some (if 0 < ep then if p.setup4 &&& 0x80 ≠ 0 then d.usbLldClearIn ep else d.usbLldClearOut ep else d).noTransfer
  | 2, 3 =>
    if p.setup2 ≠ 0 then none
    else some (if 0 < ep then if p.setup4 &&& 0x80 ≠ 0 then d.usbLldStallIn ep else d.usbLldStallOut ep else d).noTransfer
  | _, _ => none

/-- `_usb_reset` and the event. -/
def usbReset (cfg : USBConfig) (d : USBDriver) : USBDriver :=
  let d := { d with
    state := .ready
    status := 0
    address := 0
    configuration := 0
    transmitting := 0
    receiving := 0
    epc := fun i => if i ≤ usbMaxEndpoints then none else d.epc i
    ep0state := .waitingSetup }
  (d.usbLldReset cfg).usbEvent .reset

/-- The error response of the three callbacks. -/
def ep0stall (d : USBDriver) : USBDriver :=
  { ((d.usbLldStallIn 0).usbLldStallOut 0).usbEvent .stalled with ep0state := .error }

/-- `usbPrepareTransmit` and `usbStartTransmitI` for endpoint zero. -/
def ep0transmit (buf : Buf) (n : Nat) (d : USBDriver) : USBDriver := (d.usbPrepareTransmit 0 buf n).usbStartTransmitI 0

def ep0receive (buf : Buf) (n : Nat) (d : USBDriver) : USBDriver := (d.usbPrepareReceive 0 buf n).usbStartReceiveI 0

/-- The hook, and the default handler where it declines. -/
def handleRequest (cfg : USBConfig) (d : USBDriver) : Option USBDriver :=
  match cfg.requestsHookCb d.setup with
  | some t => some (d.usbSetupTransfer t)
  | none => if d.setup.standard then d.defaultHandler cfg else none

/-- `_usb_ep0setup` from the transfer preparation on. -/
def ep0stage (d : USBDriver) : USBDriver :=
  let d := { d with ep0n := min d.ep0n d.setup.length }
  if d.setup.dev2host then
    if 0 < d.ep0n then { d with ep0state := .tx }.ep0transmit d.ep0next d.ep0n
    else { d with ep0state := .waitingSts }.ep0receive null 0
  else
    if 0 < d.ep0n then { d with ep0state := .rx }.ep0receive d.ep0next d.ep0n
    else { d with ep0state := .sendingSts }.ep0transmit null 0

/-- `_usb_ep0setup`. -/
def usbEp0setup (cfg : USBConfig) (p : SetupPacket) (d : USBDriver) : USBDriver :=
  let d := { d with ep0state := .waitingSetup, setup := p }
  match d.handleRequest cfg with
  | none => d.ep0stall
  | some d => d.ep0stage

/-- `if (usbp->ep0endcb != NULL) usbp->ep0endcb(usbp); usbp->ep0state = USB_EP0_WAITING_SETUP`. -/
def ep0end (d : USBDriver) : USBDriver := { d with ended := d.ep0endcb.toList ++ d.ended, ep0state := .waitingSetup }

/-- The packet size of an IN endpoint. -/
def inMaxsize (ep : Nat) (d : USBDriver) : Nat := ((d.epc ep).map (·.inMaxsize)).getD 0

/-- The status packet of a control-IN transfer. -/
def ep0awaitStatus (d : USBDriver) : USBDriver := { d with ep0state := .waitingSts }.ep0receive null 0

/-- `_usb_ep0in`. -/
def usbEp0in (d : USBDriver) : USBDriver :=
  match d.ep0state with
  | .tx =>
    if d.ep0n < d.setup.length ∧ d.ep0n % d.inMaxsize 0 = 0 then { d.ep0transmit null 0 with ep0state := .waitingTx0 }
    else d.ep0awaitStatus
  | .waitingTx0 => d.ep0awaitStatus
  | .sendingSts => d.ep0end
  | _ => d.ep0stall

/-- `usbGetReceiveTransactionSizeI`. -/
def usbGetReceiveTransactionSizeI (ep : Nat) (d : USBDriver) : Nat :=
  match d.outState ep with
  | none => 0
  | some i => (d.epState i).cnt

/-- `_usb_ep0out`. -/
def usbEp0out (d : USBDriver) : USBDriver :=
  match d.ep0state with
  | .rx => { d with ep0state := .sendingSts }.ep0transmit null 0
  | .waitingSts => if d.usbGetReceiveTransactionSizeI 0 ≠ 0 then d.ep0stall else d.ep0end
  | _ => d.ep0stall

/-- `_usb_isr_invoke_in_cb` for endpoint zero; the controller has stopped the endpoint. -/
def ep0inComplete (d : USBDriver) : USBDriver :=
  { d with
    diepctl := update d.diepctl 0 { d.diepctl 0 with started := false }
    transmitting := d.transmitting &&& ~~~BitVec.twoPow 16 0 }.usbEp0in

/-- `_usb_isr_invoke_out_cb` for endpoint zero. -/
def ep0outComplete (d : USBDriver) : USBDriver :=
  { d with
    doepctl := update d.doepctl 0 { d.doepctl 0 with started := false }
    receiving := d.receiving &&& ~~~BitVec.twoPow 16 0 }.usbEp0out

/-- The driver after `usbStart`, before the first bus reset. -/
def powerOn : USBDriver where
  grxfsiz := 0
  dieptxf := fun _ => (0, 0)
  diepctl := fun _ => {}
  doepctl := fun _ => {}
  diepempmsk := fun _ => false
  txfifo := fun _ => []
  zlp := fun _ => false
  state := .ready
  transmitting := 0
  receiving := 0
  epc := fun _ => none
  ep0state := .waitingSetup
  ep0next := null
  ep0n := 0
  ep0endcb := none
  setup := ⟨0, 0, 0, 0, 0, 0, 0, 0⟩
  status := 0
  address := 0
  configuration := 0
  pmnext := 0
  txpending := fun _ => false
  epState := fun _ => {}
  starts := []
  ended := []

end USBDriver

/-! ## The events -/

/-- A completed OUT transfer on endpoint zero has received `n` bytes. The application
calls `usbDisableEndpointsI` in the state USB_SELECTED. -/
inductive UsbLabel
  | reset
  | setup (p : SetupPacket)
  | inComplete
  | outComplete (n : Nat)
  | disableEndpoints
  deriving DecidableEq, Repr

def USBDriver.next (cfg : USBConfig) : UsbLabel → USBDriver → Option USBDriver
  | .reset, d => some (d.usbReset cfg)
  | .setup p, d => some (d.usbEp0setup cfg p)
  | .inComplete, d => some d.ep0inComplete
  | .outComplete n, d =>
    some { d with epState := update d.epState .ep0 { d.epState .ep0 with cnt := (d.epState .ep0).cnt + n } }.ep0outComplete
  | .disableEndpoints, d => if d.state = .selected then some d.usbDisableEndpointsI else none

/-- The events in any order, from a bus reset on. -/
def usbLts (cfg : USBConfig) : Lts USBDriver UsbLabel := ⟨USBDriver.powerOn.usbReset cfg, USBDriver.next cfg⟩

/-! ## The application's configuration (`usbcfg.c`, `sduRequestsHook`) -/

/-- `vcom_device_descriptor_data`. -/
def vcomDeviceDescriptor : List UInt8 :=
  [18, 1, 0x10, 0x01, 0x02, 0, 0, 0x40, 0x83, 0x04, 0x40, 0x57, 0x00, 0x02, 1, 2, 3, 1]

/-- `vcom_configuration_descriptor_data`: the configuration, and the interfaces with their
functional and endpoint descriptors. -/
def vcomConfigurationDescriptor : List UInt8 :=
  [9, 2, 67, 0, 2, 1, 0, 0xC0, 50] ++
  [9, 4, 0, 0, 1, 2, 2, 1, 0] ++
  [5, 0x24, 0, 0x10, 0x01] ++ [5, 0x24, 1, 0, 1] ++ [4, 0x24, 2, 2] ++ [5, 0x24, 6, 0, 1] ++
  [7, 5, 0x82, 3, 8, 0, 0xFF] ++
  [9, 4, 1, 0, 2, 0x0A, 0, 0, 0] ++
  [7, 5, 0x01, 2, 0x40, 0, 0] ++ [7, 5, 0x81, 2, 0x40, 0, 0]

/-- The characters of a string descriptor. -/
def stringDescriptor (text : List Char) : List UInt8 :=
  [UInt8.ofNat (2 * text.length + 2), 3] ++ text.flatMap fun c => [UInt8.ofNat c.toNat, 0]

/-- `vcom_strings`. -/
def vcomStrings : List (List UInt8) :=
  [[4, 3, 0x09, 0x04], stringDescriptor "STMicroelectronics".toList, stringDescriptor "ChibiOS/RT Virtual COM Port".toList,
    stringDescriptor "260".toList]

def descriptorOf (data : List UInt8) : USBDescriptor := ⟨data.length, bufOf data⟩

/-- `get_descriptor`. -/
def getDescriptor (dtype dindex : UInt8) (_lang : Nat) : Option USBDescriptor :=
  match dtype.toNat with
  | 1 => some (descriptorOf vcomDeviceDescriptor)
  | 2 => some (descriptorOf vcomConfigurationDescriptor)
  | 3 => vcomStrings[dindex.toNat]?.map descriptorOf
  | _ => none

/-- `linecoding` holds seven bytes. -/
def sduRequestsHook (linecoding : Buf) (p : SetupPacket) : Option Transfer :=
  if p.setup0 &&& 0x60 = 0x20 then
    match p.setup1.toNat with
    | 0x21 => some ⟨linecoding, 7, none⟩
    | 0x20 => some ⟨linecoding, 7, none⟩
    | 0x22 => some ⟨null, 0, none⟩
    | _ => none
  else none

/-- `usbcfg`. -/
def usbcfg (linecoding : Buf) : USBConfig where
  getDescriptorCb := getDescriptor
  requestsHookCb := sduRequestsHook linecoding
  ep0Maxsize := 0x40

/-- `linecoding` as it is initialised. -/
def defaultLinecoding : Buf := bufOf [0x00, 0x96, 0x00, 0x00, 0, 0, 8]

example : vcomConfigurationDescriptor.length = 67 := by decide

end ChibiOS.Usb
