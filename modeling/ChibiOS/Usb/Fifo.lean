import ChibiOS.Usb.Takeover

/-!
# The FIFO memory of the controller

The receive FIFO is at the start of the memory and the transmit FIFO of endpoint zero
behind it. The allocator only counts up: a SET_CONFIGURATION takes 36 words each time, a
bus reset starts over, and so does `usbDisableEndpointsI`, but without the words of
endpoint zero.
-/

namespace ChibiOS.Usb

open Function
open Lib USBDriver

inductive FifoId
  | rx
  | tx (ep : Nat)
  deriving DecidableEq, Repr

/-- What the driver knows of the FIFO memory. -/
structure Layout where
  grxfsiz : Nat
  dieptxf : Nat → Nat × Nat
  epc : Nat → Option USBEndpointConfig
  pmnext : Nat

def USBDriver.layout (d : USBDriver) : Layout := ⟨d.grxfsiz, d.dieptxf, d.epc, d.pmnext⟩

def Layout.inEnabled (ep : Nat) (y : Layout) : Bool :=
  match y.epc ep with
  | none => false
  | some c => c.inCb.isSome

/-- The start and the size of a FIFO in use. Endpoint zero always has one. -/
def Layout.fifo (y : Layout) : FifoId → Option (Nat × Nat)
  | .rx => some (0, y.grxfsiz)
  | .tx ep => if ep = 0 ∨ y.inEnabled ep then some (y.dieptxf ep) else none

open Layout (fifo)

/-- The FIFOs in use are inside the memory and do not overlap. -/
structure Partitioned (y : Layout) : Prop where
  inside : ∀ i f, y.fifo i = some f → f.1 + f.2 ≤ otgRamSize
  disjoint : ∀ i j f g, i ≠ j → y.fifo i = some f → y.fifo j = some g → f.1 + f.2 ≤ g.1 ∨ g.1 + g.2 ≤ f.1

/-- The words behind the transmit FIFO of endpoint zero. -/
def fifoBase : Nat := rxFifoSize + 0x40 / 4

/-- What a configuration takes: `fsize` of both endpoints. -/
def configSize : Nat := fifoSize USBDriver.ep1config + fifoSize USBDriver.ep2config

/-- The event is a SET_CONFIGURATION. -/
def UsbLabel.configures : UsbLabel → Bool
  | .setup p => p.setsConfiguration
  | _ => false

/-- A SET_CONFIGURATION comes when the allocator is past the FIFO of endpoint zero and has
room for the endpoints: not after `usbDisableEndpointsI`, and at most six times after a bus
reset. -/
def Roomy (d : USBDriver) (l : UsbLabel) : Prop :=
  l.configures = true → fifoBase ≤ d.pmnext ∧ d.pmnext + configSize ≤ otgRamSize

instance (d : USBDriver) (l : UsbLabel) : Decidable (Roomy d l) := inferInstanceAs (Decidable (_ → _))

/-- The FIFO allocation. The endpoints of the application are enabled together. -/
structure FifoOk (y : Layout) : Prop where
  rx : y.grxfsiz = rxFifoSize
  ep0 : y.dieptxf 0 = (rxFifoSize, 0x40 / 4)
  next : y.pmnext = rxFifoSize ∨ fifoBase ≤ y.pmnext ∧ y.pmnext ≤ otgRamSize
  beyond : ∀ ep, usbMaxEndpoints < ep → y.epc ep = none
  enabled : ∀ ep, ep ≠ 0 → y.inEnabled ep = true → (ep = 1 ∨ ep = 2) ∧ ∃ base, fifoBase ≤ base ∧
    base + configSize ≤ otgRamSize ∧ y.dieptxf 1 = (base, 32) ∧ y.dieptxf 2 = (base + 32, 4)

/-- A configuration takes its endpoints' words where the allocator stands. -/
def Layout.configure (y : Layout) : Layout where
  grxfsiz := y.grxfsiz
  dieptxf := update (update y.dieptxf 1 (y.pmnext, 32)) 2 ((y.pmnext + 32) % 2 ^ 32, 4)
  epc := update (update y.epc 1 (some USBDriver.ep1config)) 2 (some USBDriver.ep2config)
  pmnext := ((y.pmnext + 32) % 2 ^ 32 + 4) % 2 ^ 32

variable {cfg : USBConfig} {d d' : USBDriver} {y : Layout} {ep : Nat} {linecoding : Buf}

@[simp] theorem configure_ep0 : y.configure.dieptxf 0 = y.dieptxf 0 := by simp [Layout.configure]

@[simp] theorem configure_data : y.configure.dieptxf 1 = (y.pmnext, 32) := by simp [Layout.configure]

@[simp] theorem configure_interrupt : y.configure.dieptxf 2 = ((y.pmnext + 32) % 2 ^ 32, 4) := by simp [Layout.configure]

@[simp] theorem configure_pmnext : y.configure.pmnext = ((y.pmnext + 32) % 2 ^ 32 + 4) % 2 ^ 32 := rfl

theorem configure_epc (other : ep ≠ 1 ∧ ep ≠ 2) : y.configure.epc ep = y.epc ep := by
  simp [Layout.configure, other.1, other.2]

theorem configure_inEnabled : y.configure.inEnabled ep = (decide (ep = 1 ∨ ep = 2) || y.inEnabled ep) := by
  by_cases one : ep = 1
  · subst one; rfl
  · by_cases two : ep = 2
    · subst two; rfl
    · simp only [Layout.inEnabled, configure_epc ⟨one, two⟩, one, two, or_self, decide_false, Bool.false_or]

theorem setEpState_layout (i : Option EpStateId) (v : EpState) : (d.setEpState i v).layout = d.layout := by
  obtain ⟨e, is⟩ := setEpState_eq i v
  rw [is]
  rfl

theorem usbInitEndpointI_layout (ep : Nat) (c : USBEndpointConfig) (inp : c.inCb.isSome = true) :
    (d.usbInitEndpointI ep c).layout = ⟨d.grxfsiz, update d.dieptxf ep (d.pmnext, fifoSize c),
      update d.epc ep (some c), (d.pmnext + fifoSize c) % 2 ^ 32⟩ := by
  obtain ⟨e, is⟩ := setEpState_eq (d := d) c.inState {}
  obtain ⟨e', is'⟩ := setEpState_eq (d := { d with epState := e }) c.outState {}
  simp only [usbInitEndpointI, usbLldInitEndpoint, is, is', update_self, inp]
  rfl

theorem usbStartReceiveI_layout (ep : Nat) : (d.usbStartReceiveI ep).layout = d.layout := by
  unfold usbStartReceiveI
  split <;> rfl

theorem usbStartTransmitI_layout (ep : Nat) : (d.usbStartTransmitI ep).layout = d.layout := by
  unfold usbStartTransmitI
  split <;> rfl

theorem sduConfigureHookI_layout : d.sduConfigureHookI.layout = d.layout := by
  unfold sduConfigureHookI
  split
  · rfl
  · rw [usbStartReceiveI_layout, usbPrepareQueuedReceive, setEpState_layout]

theorem configured_layout : d.configured.noTransfer.layout = d.layout.configure := by
  have events : d.configured.layout = d.layout.configure := by
    rw [configured, usbEvent, sduConfigureHookI_layout, usbInitEndpointI_layout _ _ rfl]
    have data := usbInitEndpointI_layout (d := { d with configuration := d.setup.setup2, state := if d.setup.setup2 = 0 then
      .selected else .active }) dataEp ep1config rfl
    injection data with rx tx epc next
    rw [rx, tx, epc, next]
    rfl
  exact events

theorem ep0transmit_layout (buf : Buf) (n : Nat) : (d.ep0transmit buf n).layout = d.layout := by
  rw [ep0transmit, usbStartTransmitI_layout]
  exact setEpState_layout ..

theorem ep0receive_layout (buf : Buf) (n : Nat) : (d.ep0receive buf n).layout = d.layout := by
  rw [ep0receive, usbStartReceiveI_layout]
  exact setEpState_layout ..

theorem ep0stage_layout : d.ep0stage.layout = d.layout := by
  unfold ep0stage
  dsimp only
  split <;> split
  · exact ep0transmit_layout ..
  · exact ep0receive_layout ..
  · exact ep0receive_layout ..
  · exact ep0transmit_layout ..

/-- Only a configuration moves the FIFOs. -/
theorem usbEp0setup_layout (cfg : USBConfig) (p : SetupPacket) : (d.usbEp0setup cfg p).layout = d.layout ∨
    p.setsConfiguration = true ∧ (d.usbEp0setup cfg p).layout = d.layout.configure := by
  unfold usbEp0setup
  dsimp only
  split
  · exact .inl rfl
  next d' handled =>
    rw [ep0stage_layout]
    rcases handleRequest_cases handled with same | ⟨sets, rfl⟩
    · rw [same.answer]
      exact .inl rfl
    · exact .inr ⟨sets, configured_layout⟩

theorem usbEp0in_layout : d.usbEp0in.layout = d.layout := by
  unfold usbEp0in
  split
  · split
    · exact ep0transmit_layout ..
    · exact ep0receive_layout ..
  · exact ep0receive_layout ..
  · rfl
  · rfl

theorem usbEp0out_layout : d.usbEp0out.layout = d.layout := by
  unfold usbEp0out
  split
  · exact ep0transmit_layout ..
  · split <;> rfl
  · rfl

/-! ## The steps -/

theorem usbReset_layout (small : cfg.ep0Maxsize = 0x40) : (d.usbReset cfg).layout =
    ⟨rxFifoSize, update d.dieptxf 0 (rxFifoSize, 0x40 / 4),
      update (fun i => if i ≤ usbMaxEndpoints then none else d.epc i) 0 (some (ep0config cfg)), fifoBase⟩ := by
  simp only [usbReset, usbLldReset, usbEvent, otgTxfifoFlush, otgRamReset,
    otgRamAlloc, small]
  rfl

theorem usbDisableEndpointsI_layout : d.usbDisableEndpointsI.layout =
    ⟨d.grxfsiz, d.dieptxf, fun i => if 1 ≤ i ∧ i ≤ usbMaxEndpoints then none else d.epc i, rxFifoSize⟩ := rfl

theorem FifoOk.reset (beyond : ∀ ep, usbMaxEndpoints < ep → d.epc ep = none) (small : cfg.ep0Maxsize = 0x40) :
    FifoOk (d.usbReset cfg).layout := by
  rw [usbReset_layout small]
  have none : ∀ ep, ep ≠ 0 → update (fun i => if i ≤ usbMaxEndpoints then none else d.epc i) 0 (some (ep0config cfg)) ep = none :=
    fun ep other => by
      rw [update_of_ne other]
      exact ite_eq_left_iff.2 fun high => beyond ep (not_le.1 high)
  refine ⟨rfl, by simp, .inr ⟨le_rfl, ?_⟩, fun ep high => none ep (ne_of_gt (Nat.zero_lt_of_lt high)),
    fun ep other enabled => ?_⟩
  · show fifoBase ≤ otgRamSize
    decide
  · simp only [Layout.inEnabled, none ep other] at enabled
    cases enabled

theorem FifoOk.disable (ok : FifoOk d.layout) : FifoOk d.usbDisableEndpointsI.layout := by
  rw [usbDisableEndpointsI_layout]
  refine ⟨ok.rx, ok.ep0, .inl rfl, fun ep high => ite_eq_left_iff.2 fun _ => ok.beyond ep high, fun ep other enabled => ?_⟩
  simp only [Layout.inEnabled] at enabled
  split at enabled
  · cases enabled
  next is =>
    split at is
    · cases is
    · exact ok.enabled ep other (by simpa only [Layout.inEnabled, layout, is] using enabled)

theorem FifoOk.configure (ok : FifoOk y) (past : fifoBase ≤ y.pmnext) (room : y.pmnext + configSize ≤ otgRamSize) :
    FifoOk y.configure := by
  have size : configSize = 36 := rfl
  have ram : otgRamSize = 384 := rfl
  have base : fifoBase = 144 := rfl
  have most : usbMaxEndpoints = 3 := rfl
  have first : (y.pmnext + 32) % 2 ^ 32 = y.pmnext + 32 := Nat.mod_eq_of_lt (by omega)
  have second : (y.pmnext + 32 + 4) % 2 ^ 32 = y.pmnext + 36 := Nat.mod_eq_of_lt (by omega)
  refine ⟨ok.rx, by simpa using ok.ep0, .inr ?_, fun ep high => ?_, fun ep other enabled => ⟨?_, y.pmnext, past, room, ?_, ?_⟩⟩
  · rw [configure_pmnext, first, second]
    omega
  · rw [configure_epc (by omega)]
    exact ok.beyond ep high
  · rw [configure_inEnabled, Bool.or_eq_true, decide_eq_true_eq] at enabled
    exact enabled.elim id fun enabled => (ok.enabled ep other enabled).1
  · exact configure_data
  · rw [configure_interrupt, first]

/-- A FIFO in use is one of four. -/
theorem FifoOk.fifo_cases (ok : FifoOk y) {i : FifoId} {f : Nat × Nat} (is : y.fifo i = some f) :
    i = .rx ∧ f = (0, rxFifoSize) ∨ i = .tx 0 ∧ f = (rxFifoSize, 0x40 / 4) ∨
      ∃ base, fifoBase ≤ base ∧ base + configSize ≤ otgRamSize ∧ y.dieptxf 1 = (base, 32) ∧
        (i = .tx 1 ∧ f = (base, 32) ∨ i = .tx 2 ∧ f = (base + 32, 4)) := by
  cases i with
  | rx => exact .inl ⟨rfl, by simpa [fifo, ok.rx] using is.symm⟩
  | tx ep =>
    simp only [fifo, Option.ite_none_right_eq_some, Option.some.injEq] at is
    obtain ⟨used, rfl⟩ := is
    by_cases zero : ep = 0
    · subst zero
      exact .inr (.inl ⟨rfl, ok.ep0⟩)
    · obtain ⟨rfl | rfl, base, past, room, data, interrupt⟩ := ok.enabled ep zero (used.resolve_left zero)
      · exact .inr (.inr ⟨base, past, room, data, .inl ⟨rfl, data⟩⟩)
      · exact .inr (.inr ⟨base, past, room, data, .inr ⟨rfl, interrupt⟩⟩)

theorem FifoOk.partitioned (ok : FifoOk y) : Partitioned y := by
  have rx : rxFifoSize = 128 := rfl
  have base : fifoBase = 144 := rfl
  have size : configSize = 36 := rfl
  have ram : otgRamSize = 384 := rfl
  constructor
  · intro i f is
    rcases ok.fifo_cases is with ⟨-, rfl⟩ | ⟨-, rfl⟩ | ⟨b, past, room, -, ⟨-, rfl⟩ | ⟨-, rfl⟩⟩ <;> dsimp only <;> omega
  · intro i j f g other left right
    rcases ok.fifo_cases left with ⟨rfl, rfl⟩ | ⟨rfl, rfl⟩ | ⟨b, past, room, data, ⟨rfl, rfl⟩ | ⟨rfl, rfl⟩⟩ <;>
      rcases ok.fifo_cases right with ⟨rfl, rfl⟩ | ⟨rfl, rfl⟩ | ⟨b', past', room', data', ⟨rfl, rfl⟩ | ⟨rfl, rfl⟩⟩ <;>
      first | exact absurd rfl other | (dsimp only; omega) | (cases data.symm.trans data'; dsimp only; omega)

/-- A configuration that keeps the FIFOs apart had room for its endpoints. -/
theorem FifoOk.of_configure (ok : FifoOk y) (parts : Partitioned y.configure) :
    fifoBase ≤ y.pmnext ∧ y.pmnext + configSize ≤ otgRamSize := by
  have rx : rxFifoSize = 128 := rfl
  have base : fifoBase = 144 := rfl
  have size : configSize = 36 := rfl
  have ram : otgRamSize = 384 := rfl
  have ep0 : y.configure.fifo (.tx 0) = some (rxFifoSize, 0x40 / 4) := by simp [fifo, ok.ep0]
  have data : y.configure.fifo (.tx 1) = some (y.pmnext, 32) := by simp [fifo, configure_inEnabled]
  have interrupt : y.configure.fifo (.tx 2) = some ((y.pmnext + 32) % 2 ^ 32, 4) := by
    simp [fifo, configure_inEnabled]
  have apart := parts.disjoint _ _ _ _ (by decide) ep0 data
  have inside := parts.inside _ _ interrupt
  dsimp only at apart inside
  rcases ok.next with start | ⟨past, most⟩
  · omega
  · rw [Nat.mod_eq_of_lt (by omega)] at inside
    omega

/-- The application's hook leaves the standard requests alone. -/
theorem handleRequest_configures (sets : d.setup.setsConfiguration = true) :
    d.handleRequest (usbcfg linecoding) = some d.configured.noTransfer := by
  obtain ⟨kind, request⟩ : d.setup.setup0 &&& 0x7F = 0 ∧ d.setup.setup1 = 9 := by
    simpa [SetupPacket.setsConfiguration] using sets
  have type : d.setup.setup0 &&& 0x60 = 0 := by
    rw [show (0x60 : UInt8) = 0x7F &&& 0x60 from rfl, ← UInt8.and_assoc, kind]
    rfl
  have declined : (usbcfg linecoding).requestsHookCb d.setup = none := if_neg (by rw [type]; decide)
  have standard : d.setup.standard = true := beq_iff_eq.2 type
  simp only [handleRequest, declined, if_pos standard, defaultHandler, kind, request]
  rfl

theorem usbEp0setup_configures {p : SetupPacket} (sets : p.setsConfiguration = true) :
    (d.usbEp0setup (usbcfg linecoding) p).layout = d.layout.configure := by
  have handled : (d.received p).handleRequest (usbcfg linecoding) = some (d.received p).configured.noTransfer :=
    handleRequest_configures sets
  have is : d.usbEp0setup (usbcfg linecoding) p = (d.received p).configured.noTransfer.ep0stage := by
    simp only [usbEp0setup, show { d with ep0state := .waitingSetup, setup := p } = d.received p from rfl, handled]
  rw [is, ep0stage_layout]
  exact configured_layout

theorem ep0inComplete_layout : d.ep0inComplete.layout = d.layout := by
  rw [ep0inComplete, usbEp0in_layout]
  rfl

theorem ep0outComplete_layout : d.ep0outComplete.layout = d.layout := by
  rw [ep0outComplete, usbEp0out_layout]
  rfl

/-- What an event does to the FIFO memory. -/
theorem FifoOk.step {l : UsbLabel} (ok : FifoOk d.layout) (taken : d.next (usbcfg linecoding) l = some d') :
    l.configures = false ∧ FifoOk d'.layout ∨ l.configures = true ∧ d'.layout = d.layout.configure := by
  cases l with
  | reset => cases taken; exact .inl ⟨rfl, .reset ok.beyond rfl⟩
  | setup p =>
    cases taken
    cases sets : p.setsConfiguration with
    | true => exact .inr ⟨sets, usbEp0setup_configures sets⟩
    | false =>
      rcases usbEp0setup_layout (d := d) (usbcfg linecoding) p with same | ⟨sets', -⟩
      · exact .inl ⟨sets, same ▸ ok⟩
      · cases sets.symm.trans sets'
  | inComplete =>
    cases taken
    refine .inl ⟨rfl, ?_⟩
    rwa [ep0inComplete_layout]
  | outComplete n =>
    cases taken
    refine .inl ⟨rfl, ?_⟩
    rwa [ep0outComplete_layout]
  | disableEndpoints =>
    obtain ⟨-, ⟨⟩⟩ := Option.ite_none_right_eq_some.1 taken
    exact .inl ⟨rfl, ok.disable⟩

theorem FifoOk.keep {l : UsbLabel} (ok : FifoOk d.layout) (roomy : Roomy d l)
    (taken : d.next (usbcfg linecoding) l = some d') : FifoOk d'.layout := by
  rcases ok.step taken with ⟨-, ok'⟩ | ⟨configures, is⟩
  · exact ok'
  · rw [is]
    exact ok.configure (roomy configures).1 (roomy configures).2

/-- In every run whose SET_CONFIGURATION requests find room, the FIFOs partition the memory;
and a step keeps them so exactly when it finds room. -/
theorem fifo_partition {linecoding : Buf} (reached : (usbLts (usbcfg linecoding)).Reach Roomy d) :
    Partitioned d.layout ∧ ∀ l d', d.next (usbcfg linecoding) l = some d' → (Partitioned d'.layout ↔ Roomy d l) := by
  have ok : FifoOk d.layout := reached.invariant (I := fun d => FifoOk d.layout) (.reset (fun _ _ => rfl) rfl)
    fun d l d' ok roomy taken => ok.keep roomy taken
  refine ⟨ok.partitioned, fun l d' taken => ⟨fun parts configures => ?_, fun roomy => (ok.keep roomy taken).partitioned⟩⟩
  rcases ok.step taken with ⟨other, -⟩ | ⟨-, is⟩
  · cases other.symm.trans configures
  · exact ok.of_configure (is ▸ parts)

/-- SET_CONFIGURATION of a configuration. -/
def setConfiguration (n : UInt8) : SetupPacket := ⟨0, 9, n, 0, 0, 0, 0, 0⟩

/-- Six configurations find room, and the host's next request finds none. -/
theorem fifo_partition_six : ∃ d, (usbLts (usbcfg defaultLinecoding)).run (List.replicate 6 (.setup (setConfiguration 1)))
      (usbLts (usbcfg defaultLinecoding)).init = some d ∧ d.pmnext = 360 ∧ Partitioned d.layout ∧
    ¬ Partitioned (d.usbEp0setup (usbcfg defaultLinecoding) (setConfiguration 1)).layout := by
  refine @Lts.exists_run _ _ _ Roomy _ _ _ _ rfl rfl fun reached => ?_
  obtain ⟨parts, exact⟩ := fifo_partition reached
  exact ⟨rfl, parts, fun parts' => absurd (((exact (.setup (setConfiguration 1)) _ rfl).1 parts') rfl).2 (by decide)⟩

/-- The host selects configuration zero, the application disables the endpoints, and the host
selects configuration one: the FIFO of endpoint one overlaps the one of endpoint zero. -/
theorem fifo_partition_overlap : ∃ d, (usbLts (usbcfg defaultLinecoding)).run
      [.setup (setConfiguration 0), .disableEndpoints, .setup (setConfiguration 1)]
      (usbLts (usbcfg defaultLinecoding)).init = some d ∧
    d.layout.fifo (.tx 0) = some (128, 16) ∧ d.layout.fifo (.tx 1) = some (128, 32) ∧ ¬ Partitioned d.layout := by
  refine ⟨_, rfl, rfl, rfl, fun parts => ?_⟩
  exact absurd (parts.disjoint (.tx 0) (.tx 1) _ _ (by decide) rfl rfl) (by decide)

end ChibiOS.Usb
