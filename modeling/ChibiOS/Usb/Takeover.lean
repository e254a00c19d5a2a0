import ChibiOS.Usb.Ep0

/-!
# What a SETUP packet does to endpoint zero

`_usb_ep0setup` starts over from USB_EP0_WAITING_SETUP, but the bits that say that a
transfer is going on are those of the request before: a start call that finds its bit
set is refused, and its result is dropped.
-/

namespace ChibiOS.Usb

open Function
open Lib USBDriver

/-- What a request may change of the driver: its state, the answer, and the stalls of
endpoints. -/
def USBDriver.answer (d d' : USBDriver) : USBDriver :=
  { d with
    diepctl := d'.diepctl
    doepctl := d'.doepctl
    state := d'.state
    ep0next := d'.ep0next
    ep0n := d'.ep0n
    ep0endcb := d'.ep0endcb
    status := d'.status
    address := d'.address
    configuration := d'.configuration }

/-- The driver when a SET_CONFIGURATION has selected its configuration. -/
def USBDriver.configured (d : USBDriver) : USBDriver :=
  { d with
    configuration := d.setup.setup2
    state := if d.setup.setup2 = 0 then .selected else .active }.usbEvent .configured

/-- A request is answered without touching endpoint zero. -/
structure Answers (d d' : USBDriver) : Prop where
  answer : d' = d.answer d'
  diepctl : d'.diepctl 0 = d.diepctl 0
  doepctl : d'.doepctl 0 = d.doepctl 0

variable {cfg : USBConfig} {d d' : USBDriver} {p : SetupPacket}

theorem Answers.statusReply {st : EpStatus} (is : d.statusReply st = some d') : Answers d d' := by
  cases st with
  | disabled => cases is
  | stalled => cases is; exact ⟨rfl, rfl, rfl⟩
  | active => cases is; exact ⟨rfl, rfl, rfl⟩

/-- What a standard request can do. -/
theorem defaultHandler_cases (is : d.defaultHandler cfg = some d') :
    Answers d d' ∨ (d.setup.setsConfiguration = true ∧ d' = d.configured.noTransfer) := by
  unfold defaultHandler at is
  dsimp only at is
  split at is
  · cases is; exact .inl ⟨rfl, rfl, rfl⟩
  · rw [Option.ite_none_right_eq_some, Option.some.injEq] at is
    exact .inl (is.2 ▸ ⟨rfl, rfl, rfl⟩)
  · rw [Option.ite_none_right_eq_some, Option.some.injEq] at is
    exact .inl (is.2 ▸ ⟨rfl, rfl, rfl⟩)
  · cases is
    split <;> exact .inl ⟨rfl, rfl, rfl⟩
  · split at is
    · cases is
    · cases is; exact .inl ⟨rfl, rfl, rfl⟩
  · cases is; exact .inl ⟨rfl, rfl, rfl⟩
  next kind request =>
    cases is
    refine .inr ⟨?_, rfl⟩
    simp [SetupPacket.setsConfiguration, ← UInt8.toNat_inj, kind, request]
  · cases is; exact .inl ⟨rfl, rfl, rfl⟩
  · cases is; exact .inl ⟨rfl, rfl, rfl⟩
  · split at is <;> exact .inl (.statusReply is)
  · rw [Option.ite_none_left_eq_some, Option.some.injEq] at is
    refine .inl (is.2 ▸ ?_)
    split
    next other =>
      split
      · exact ⟨rfl, update_of_ne other.ne .., rfl⟩
      · exact ⟨rfl, rfl, update_of_ne other.ne ..⟩
    · exact ⟨rfl, rfl, rfl⟩
  · rw [Option.ite_none_left_eq_some, Option.some.injEq] at is
    refine .inl (is.2 ▸ ?_)
    split
    next other =>
      split
      · exact ⟨rfl, update_of_ne other.ne .., rfl⟩
      · exact ⟨rfl, rfl, update_of_ne other.ne ..⟩
    · exact ⟨rfl, rfl, rfl⟩
  · cases is

/-- What the hook or a standard request can do. -/
theorem handleRequest_cases (is : d.handleRequest cfg = some d') :
    Answers d d' ∨ (d.setup.setsConfiguration = true ∧ d' = d.configured.noTransfer) := by
  unfold handleRequest at is
  split at is
  · cases is; exact .inl ⟨rfl, rfl, rfl⟩
  · rw [Option.ite_none_right_eq_some] at is
    exact defaultHandler_cases is.2

/-! ## The busy bits -/

/-- A transfer of endpoint zero is going on. -/
def USBDriver.ep0busy (dir : Dir) (d : USBDriver) : Bool :=
  match dir with
  | .inp => d.usbGetTransmitStatusI 0
  | .out => d.usbGetReceiveStatusI 0

theorem ep0busy_congr (transmitting : d'.transmitting = d.transmitting) (receiving : d'.receiving = d.receiving) (dir : Dir) :
    d'.ep0busy dir = d.ep0busy dir := by
  cases dir with
  | inp => rw [ep0busy, usbGetTransmitStatusI, transmitting]; rfl
  | out => rw [ep0busy, usbGetReceiveStatusI, receiving]; rfl

/-- Only the endpoint states change. -/
theorem setEpState_eq (i : Option EpStateId) (v : EpState) : ∃ e, d.setEpState i v = { d with epState := e } := by
  cases i with
  | none => exact ⟨d.epState, rfl⟩
  | some i => exact ⟨_, rfl⟩

theorem setEpState_ep0busy (i : Option EpStateId) (v : EpState) (dir : Dir) : (d.setEpState i v).ep0busy dir = d.ep0busy dir := by
  obtain ⟨e, is⟩ := setEpState_eq i v
  rw [is]
  exact ep0busy_congr rfl rfl dir

/-- Which endpoints are busy, and what was started, stays. -/
structure SameBusy (d d' : USBDriver) : Prop where
  transmitting : d'.transmitting = d.transmitting
  receiving : d'.receiving = d.receiving
  starts : d'.starts = d.starts

theorem usbInitEndpointI_busy (ep : Nat) (c : USBEndpointConfig) : SameBusy d (d.usbInitEndpointI ep c) := by
  obtain ⟨e, inp⟩ := setEpState_eq (d := d) c.inState {}
  obtain ⟨e', out⟩ := setEpState_eq (d := { d with epState := e }) c.outState {}
  simp only [usbInitEndpointI, inp, out, usbLldInitEndpoint, update_self]
  split <;> exact ⟨rfl, rfl, rfl⟩

theorem usbInitEndpointI_ep0busy (ep : Nat) (c : USBEndpointConfig) (dir : Dir) :
    (d.usbInitEndpointI ep c).ep0busy dir = d.ep0busy dir :=
  have same := usbInitEndpointI_busy ep c
  ep0busy_congr same.transmitting same.receiving dir

/-- The bit of one endpoint is not the bit of another. -/
theorem usbStartReceiveI_ep0busy (ep : Nat) (other : ep ≠ 0) (dir : Dir) :
    (d.usbStartReceiveI ep).ep0busy dir = d.ep0busy dir := by
  unfold usbStartReceiveI
  split
  · cases dir <;> rfl
  · cases dir with
    | inp => rfl
    | out => simp [ep0busy, usbGetReceiveStatusI, usbLldStartOut, other.symm]

theorem sduConfigureHookI_ep0busy (dir : Dir) : d.sduConfigureHookI.ep0busy dir = d.ep0busy dir := by
  unfold sduConfigureHookI
  split
  · rfl
  · rw [usbStartReceiveI_ep0busy _ (by decide), usbPrepareQueuedReceive, setEpState_ep0busy]

/-- The endpoints of the application are not endpoint zero. -/
theorem configured_ep0busy (dir : Dir) : d.configured.noTransfer.ep0busy dir = d.ep0busy dir := by
  have hooked : d.configured.ep0busy dir = d.ep0busy dir := by
    simp only [configured, usbEvent, sduConfigureHookI_ep0busy, usbInitEndpointI_ep0busy]
    exact ep0busy_congr rfl rfl dir
  exact (ep0busy_congr rfl rfl dir).trans hooked

theorem handleRequest_ep0busy (dir : Dir) (is : d.handleRequest cfg = some d') : d'.ep0busy dir = d.ep0busy dir := by
  rcases handleRequest_cases is with same | ⟨-, rfl⟩
  · rw [same.answer]
    exact ep0busy_congr rfl rfl dir
  · exact configured_ep0busy dir

/-! ## The stage that a request begins with -/

/-- The direction of the stage that a state announces. -/
def Ep0State.dir : Ep0State → Option Dir
  | .tx | .waitingTx0 | .sendingSts => some .inp
  | .rx | .waitingSts => some .out
  | .waitingSetup | .error => none

/-- Endpoint zero answers with a stall. -/
def USBDriver.Ep0Stalled (d : USBDriver) : Prop :=
  d.ep0state = .error ∧ (d.diepctl 0).stall = true ∧ (d.doepctl 0).stall = true

/-- The last start call is the one of the stage that the state announces, and was accepted. -/
def USBDriver.Ep0Started (d : USBDriver) : Prop :=
  ∃ dir, d.ep0state.dir = some dir ∧ d.starts.head? = some ⟨dir, 0, false⟩

/-- The direction of the first stage of a request that has been handled: a data stage, or
the status stage of a request without data. -/
def USBDriver.firstDir (d : USBDriver) : Dir :=
  if d.setup.dev2host = decide (0 < min d.ep0n d.setup.length) then .inp else .out

/-- The driver when a SETUP packet has been read. -/
def USBDriver.received (p : SetupPacket) (d : USBDriver) : USBDriver := { d with ep0state := .waitingSetup, setup := p }

/-- No stage of an earlier request is still going on in the direction that the new
request begins with. -/
def USBDriver.Ep0Free (cfg : USBConfig) (p : SetupPacket) (d : USBDriver) : Prop :=
  ∀ d', (d.received p).handleRequest cfg = some d' → d.ep0busy d'.firstDir = false

theorem ep0transmit_starts (buf : Buf) (n : Nat) : (d.ep0transmit buf n).starts.head? = some ⟨.inp, 0, d.ep0busy .inp⟩ ∧
    (d.ep0transmit buf n).ep0state = d.ep0state := by
  obtain ⟨e, is⟩ := setEpState_eq (d.inState 0) { queued := false, buf := buf, size := n, cnt := 0 }
  rw [ep0transmit, usbPrepareTransmit, is, usbStartTransmitI]
  split
  next busy =>
    exact ⟨by rw [show d.ep0busy .inp = true from busy]; rfl, rfl⟩
  next idle =>
    exact ⟨by rw [show d.ep0busy .inp = false from Bool.eq_false_iff.2 idle]; rfl, rfl⟩

theorem ep0receive_starts (buf : Buf) (n : Nat) : (d.ep0receive buf n).starts.head? = some ⟨.out, 0, d.ep0busy .out⟩ ∧
    (d.ep0receive buf n).ep0state = d.ep0state := by
  obtain ⟨e, is⟩ := setEpState_eq (d.outState 0) { queued := false, buf := buf, size := n, cnt := 0 }
  rw [ep0receive, usbPrepareReceive, is, usbStartReceiveI]
  split
  next busy =>
    exact ⟨by rw [show d.ep0busy .out = true from busy]; rfl, rfl⟩
  next idle =>
    exact ⟨by rw [show d.ep0busy .out = false from Bool.eq_false_iff.2 idle]; rfl, rfl⟩

/-- The start call of the first stage. -/
theorem ep0stage_starts : d.ep0stage.starts.head? = some ⟨d.firstDir, 0, d.ep0busy d.firstDir⟩ ∧
    d.ep0stage.ep0state.dir = some d.firstDir := by
  unfold ep0stage firstDir
  dsimp only
  split <;> rename_i dev2host <;> split <;> rename_i some <;>
    simp only [dev2host, some, ep0transmit_starts, ep0receive_starts, decide_true, decide_false, if_true,
      Bool.false_eq_true, Bool.true_eq_false, if_false] <;>
    exact ⟨rfl, rfl⟩

/-- A SETUP packet takes over endpoint zero exactly when no stage is going on in the way
of the one that it begins with. -/
theorem setup_takes_over (cfg : USBConfig) (d : USBDriver) (p : SetupPacket) :
    (d.usbEp0setup cfg p).Ep0Stalled ∨ (d.usbEp0setup cfg p).Ep0Started ↔ d.Ep0Free cfg p := by
  cases handled : (d.received p).handleRequest cfg with
  | none =>
    have is : d.usbEp0setup cfg p = (d.received p).ep0stall := by
      simp only [usbEp0setup, show { d with ep0state := .waitingSetup, setup := p } = d.received p from rfl, handled]
    refine iff_of_true (.inl ?_) fun d' is => by cases handled.symm.trans is
    rw [is]
    exact ⟨rfl, rfl, rfl⟩
  | some d' =>
    have is : d.usbEp0setup cfg p = d'.ep0stage := by
      simp only [usbEp0setup, show { d with ep0state := .waitingSetup, setup := p } = d.received p from rfl, handled]
    obtain ⟨starts, dir⟩ := ep0stage_starts
    have same : d'.ep0busy d'.firstDir = d.ep0busy d'.firstDir :=
      (handleRequest_ep0busy _ handled).trans (ep0busy_congr rfl rfl _)
    rw [is]
    constructor
    · rintro (⟨error, -⟩ | ⟨dir', announced, accepted⟩) d'' handled'
      · rw [error] at dir
        cases dir
      · cases handled.symm.trans handled'
        cases dir.symm.trans announced
        rw [starts, same] at accepted
        simpa using accepted
    · intro free
      refine .inr ⟨_, dir, ?_⟩
      rw [starts, same, free d' handled]

/-- GET_DESCRIPTOR of the device descriptor. -/
def getDeviceDescriptor : SetupPacket := ⟨0x80, 6, 0, 1, 0, 0, 18, 0⟩

/-- The host repeats a request before its data stage has completed: the state says that data
are being transmitted, but the start call was refused. -/
theorem setup_takes_over_refused : ∃ d, (usbLts (usbcfg defaultLinecoding)).run [.setup getDeviceDescriptor]
      (usbLts (usbcfg defaultLinecoding)).init = some d ∧
    (d.usbEp0setup (usbcfg defaultLinecoding) getDeviceDescriptor).ep0state = .tx ∧
    (d.usbEp0setup (usbcfg defaultLinecoding) getDeviceDescriptor).starts = [⟨.inp, 0, true⟩, ⟨.inp, 0, false⟩] ∧
    ¬ ((d.usbEp0setup (usbcfg defaultLinecoding) getDeviceDescriptor).Ep0Stalled ∨
      (d.usbEp0setup (usbcfg defaultLinecoding) getDeviceDescriptor).Ep0Started) := by
  refine ⟨_, rfl, rfl, rfl, ?_⟩
  rintro (⟨error, -⟩ | ⟨dir, -, accepted⟩)
  · cases error
  · cases accepted

end ChibiOS.Usb
