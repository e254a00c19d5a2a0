import ChibiOS.Usb.Takeover

/-!
# Endpoints after a deconfiguration

`usbDisableEndpointsI` clears the busy bits of endpoint zero and keeps those of the
endpoints it disables. No completion comes for them any more, so that a transfer of such
an endpoint is refused for good, and a stage of endpoint zero is forgotten.
-/

namespace ChibiOS.Usb

open BitVec (getLsbD getLsbD_zero)

namespace USBDriver

/-- `usbGetTransmitStatusI` and `usbGetReceiveStatusI`. -/
def busy (dir : Dir) (ep : Nat) (d : USBDriver) : Bool :=
  match dir with
  | .inp => d.usbGetTransmitStatusI ep
  | .out => d.usbGetReceiveStatusI ep

/-- `usbStartTransmitI` and `usbStartReceiveI`. -/
def usbStartI (dir : Dir) (ep : Nat) (d : USBDriver) : USBDriver :=
  match dir with
  | .inp => d.usbStartTransmitI ep
  | .out => d.usbStartReceiveI ep

end USBDriver

/-- All endpoints but zero can be used again after `usbDisableEndpointsI`, and a stage of endpoint zero goes on. -/
structure EndpointsRestart (d : USBDriver) : Prop where
  idle : ∀ dir ep, ep ≠ 0 → d.usbDisableEndpointsI.busy dir ep = false
  zero : ∀ dir, d.usbDisableEndpointsI.busy dir 0 = d.busy dir 0
  accepted : ∀ dir ep c, ep ≠ 0 → ((d.usbDisableEndpointsI.usbInitEndpointI ep c).usbStartI dir ep).starts =
    ⟨dir, ep, false⟩ :: d.starts

variable {d : USBDriver} {dir : Dir} {ep : Nat}

/-- The bit that is cleared is that of endpoint zero. -/
theorem getLsbD_clear_zero (m : BitVec 16) (ep : Nat) :
    (m &&& ~~~BitVec.twoPow 16 0).getLsbD ep = (m.getLsbD ep && decide (ep ≠ 0)) := by
  by_cases inside : ep < 16
  · simp [inside]
  · simp [BitVec.getLsbD_of_ge m ep (by omega)]

theorem usbDisableEndpointsI_busy : d.usbDisableEndpointsI.busy dir ep = (d.busy dir ep && decide (ep ≠ 0)) := by
  cases dir with
  | inp => exact getLsbD_clear_zero d.transmitting ep
  | out => exact getLsbD_clear_zero d.receiving ep

theorem usbInitEndpointI_busy_eq (c : USBEndpointConfig) : (d.usbInitEndpointI ep c).busy dir ep = d.busy dir ep := by
  have same := usbInitEndpointI_busy (d := d) ep c
  cases dir with
  | inp => exact congrArg (getLsbD · ep) same.transmitting
  | out => exact congrArg (getLsbD · ep) same.receiving

/-- An idle endpoint takes a transfer. -/
theorem usbStartI_starts (idle : d.busy dir ep = false) : (d.usbStartI dir ep).starts = ⟨dir, ep, false⟩ :: d.starts := by
  cases dir with
  | inp =>
    have idle : d.usbGetTransmitStatusI ep = false := idle
    simp only [USBDriver.usbStartI, USBDriver.usbStartTransmitI, idle]
    rfl
  | out =>
    have idle : d.usbGetReceiveStatusI ep = false := idle
    simp only [USBDriver.usbStartI, USBDriver.usbStartReceiveI, idle]
    rfl

/-- The endpoints are idle when both masks are zero. -/
theorem busy_eq_false_iff : (∀ dir ep, d.busy dir ep = false) ↔ d.transmitting = 0 ∧ d.receiving = 0 := by
  constructor
  · intro idle
    constructor
    · exact BitVec.eq_of_getLsbD_eq fun ep _ => (idle .inp ep).trans getLsbD_zero.symm
    · exact BitVec.eq_of_getLsbD_eq fun ep _ => (idle .out ep).trans getLsbD_zero.symm
  · rintro ⟨transmitting, receiving⟩ dir ep
    cases dir with
    | inp => exact (congrArg (getLsbD · ep) transmitting).trans getLsbD_zero
    | out => exact (congrArg (getLsbD · ep) receiving).trans getLsbD_zero

/-- Endpoints restart exactly where none was busy. -/
theorem endpoints_restart (d : USBDriver) : EndpointsRestart d ↔ d.transmitting = 0 ∧ d.receiving = 0 := by
  rw [← busy_eq_false_iff]
  constructor
  · intro restart dir ep
    by_cases zero : ep = 0
    · rw [zero, ← restart.zero, usbDisableEndpointsI_busy]
      exact Bool.and_false _
    · rw [← restart.idle dir ep zero, usbDisableEndpointsI_busy, decide_eq_true zero, Bool.and_true]
  · intro idle
    have stays (dir : Dir) (ep : Nat) : d.usbDisableEndpointsI.busy dir ep = false := by
      rw [usbDisableEndpointsI_busy, idle, Bool.false_and]
    refine ⟨fun dir ep _ => stays dir ep, fun dir => (stays dir 0).trans (idle dir 0).symm, fun dir ep c _ => ?_⟩
    rw [usbStartI_starts ((usbInitEndpointI_busy_eq c).trans (stays dir ep)), (usbInitEndpointI_busy ep c).starts]
    rfl

/-- A stage of endpoint zero and the bulk IN endpoint are transmitting. -/
def busyDriver : USBDriver := { USBDriver.powerOn with state := .selected, transmitting := 0b11 }

/-- The stage is forgotten, the bulk endpoint stays busy and refuses the next transfer. -/
theorem endpoints_restart_busy : busyDriver.busy .inp 0 = true ∧ busyDriver.usbDisableEndpointsI.busy .inp 0 = false ∧
    busyDriver.usbDisableEndpointsI.busy .inp 1 = true ∧
    ((busyDriver.usbDisableEndpointsI.usbInitEndpointI 1 USBDriver.ep1config).usbStartTransmitI 1).starts =
      [⟨.inp, 1, true⟩] := by
  decide +kernel

end ChibiOS.Usb
