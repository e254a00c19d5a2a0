import ChibiOS.Mmc.AddressUnits

/-!
# The driver and its bus

Sequences of calls of the driver, seen from the SPI bus: whether the card is deselected
when the driver is at rest, and whether the bus is started when it is used. On the error
paths the driver relies on `spiStop`, which releases the slave select line as well. All
calls start the bus before they use it, but for `mmcErase`: after a failed operation it
works on a stopped bus.
-/

namespace ChibiOS.Mmc

open Lib Prog Preserves Triple

/-- The state of the bus after the operations of a log, the latest of which comes first. -/
def busAfter (spi : SpiState) : List SpiOp → SpiState
  | [] => spi
  | .start _ :: _ => .ready
  | .stop :: _ => .stop
  | _ :: log => busAfter spi log

/-- The bus was in SPI_READY whenever that was needed. -/
def startedUse (spi : SpiState) : List SpiOp → Bool
  | [] => true
  | op :: log => startedUse spi log && (!op.needsStart || decide (busAfter spi log = .ready))

/-- The states that the assertions of the driver admit for a call; of `mmcErase`, that it is at rest. -/
def Call.admitted (c : Call) (state : BlkState) : Bool :=
  match c with
  | .connect | .disconnect => state = .active || state = .ready
  | .startRead _ | .startWrite _ | .erase _ _ => state = .ready
  | _ => true

/-- The call returns because of the state of the driver. -/
def Call.refused (c : Call) (state : BlkState) : Bool :=
  match c with
  | .read | .stopRead => state ≠ .reading
  | .write _ | .stopWrite => state ≠ .writing
  | .sync => state ≠ .ready
  | _ => false

def Call.erases : Call → Bool
  | .erase _ _ => true
  | _ => false

/-- The driver after some calls. `failed` says that the last of them that was not refused has failed, `started` that the bus
was always started when it was used. -/
structure BusUse where
  driver : MMCDriver
  failed : Bool := false
  started : Bool := true

def BusUse.begin (r : Request) (s : BusUse) : MMCDriver :=
  { s.driver with card := r.answers, undefined := r.undefined, log := [] }

def BusUse.next (r : Request) (s : BusUse) : Option BusUse := do
  let (ok, d) ← r.call.code (s.begin r)
  return {
    driver := d
    failed := if r.call.refused s.driver.state then s.failed else !ok
    started := s.started && startedUse s.driver.spi d.log }

def busUse : Lts BusUse Request where
  init := { driver := mmcStarted }
  next := BusUse.next

/-- `P` survives the whole connection. -/
structure Steady (P : MMCDriver → Prop) : Prop extends Learns P where
  detect : ∀ (d : MMCDriver) blockAddresses replies, P d → P { d with blockAddresses := blockAddresses, replies := replies }

namespace Steady

variable {P : MMCDriver → Prop} (steady : Steady P)
include steady

theorem detectCapacity : Preserves P detectCapacity := by
  have asks {cmd : UInt8} {arg : UInt32} : Preserves P (sendCommandR3 cmd arg) :=
    steady.sendCommandR3 fun _ => .modify fun d => steady.detect d d.blockAddresses _
  refine asks.bind fun _ => .ite (fun _ => ?_) fun _ => .stay
  refine andThen (steady.appOpCondRound.retry 100) (asks.bind fun _ => .ite (fun _ => ?_) fun _ => .stay)
  exact (modify fun d => steady.detect d true d.replies).bind fun _ => .stay

theorem connectSteps : Preserves P connectSteps :=
  andThen (steady.goIdleRound.retry 10) (steady.detectCapacity.andThen steady.afterDetection)

end Steady

/-! ## The slave select line -/

/-- The driver is in the course of a sequential operation, or at rest with the card deselected. -/
def Proper (d : MMCDriver) : Prop :=
  d.state = .reading ∨ d.state = .writing ∨ (d.state = .ready ∨ d.state = .active) ∧ d.selected = false

theorem state_steady (state : BlkState) : Steady fun d => d.state = state where
  use _ _ _ _ _ _ at_ := at_
  start _ _ at_ := at_
  send _ _ at_ := at_
  store _ _ _ _ at_ := at_
  reply _ _ _ at_ := at_
  detect _ _ _ at_ := at_

variable {P : MMCDriver → Prop} {state : BlkState} {spi : SpiState} {ok : Bool}

theorem spiUnselect_released : Triple P spiUnselect fun _ d => d.selected = false := .modify fun _ _ => rfl

theorem spiStop_released : Triple P spiStop fun _ d => d.selected = false := .modify fun _ _ => rfl

theorem setState_proper (rest : state = .ready ∨ state = .active) :
    Triple (fun d => d.selected = false) (setState state) fun _ => Proper :=
  .modify fun _ released => .inr (.inr ⟨rest, released⟩)

/-- The error exits. -/
theorem stop_proper {b : Bool} (rest : state = .ready ∨ state = .active) :
    Triple P (do spiStop; setState state; return b) fun _ => Proper :=
  spiStop_released.bind fun _ => (setState_proper rest).bind fun _ => .stay

theorem sync_released : Triple P sync fun _ d => d.selected = false :=
  any.bind fun _ => any.bind fun _ => spiUnselect_released

theorem sendCommandR1_released (cmd : UInt8) (arg : UInt32) : Triple P (sendCommandR1 cmd arg) fun _ d => d.selected = false := by
  refine any.bind fun _ => any.bind fun _ => any.bind fun _ => spiUnselect_released.bind fun _ => ?_
  exact Triple.bind (.modify fun _ released => released) fun _ => .stay

/-- A register that was not received leaves the card selected. -/
theorem readCxd_released (cmd : UInt8) (store : Cxd → MMCDriver → MMCDriver) :
    Triple P (readCxd cmd store) fun ok d => ok = true → d.selected = false := by
  refine any.bind fun _ => any.bind fun _ => any.bind fun _ => .ite (fun _ => ?_) fun _ => ?_
  · exact any.bind fun _ => .pure nofun
  · refine retry (fun _ _ => nofun) ?_ _
    refine any.bind fun _ => .ite (fun _ => ?_) fun _ => .pure fun _ _ => trivial
    exact any.bind fun _ => any.bind fun _ => any.bind fun _ =>
      spiUnselect_released.bind fun _ => .pure fun _ released _ => released

/-- Only the last step of a successful connection matters. -/
theorem andThen_released {p q : Code Bool} (last : Triple (fun _ => True) q fun ok d => ok = true → d.selected = false) :
    Triple P (p.andThen q) fun ok d => ok = true → d.selected = false :=
  andThen any last fun _ _ => nofun

theorem connectSteps_released : Triple P connectSteps fun ok d => ok = true → d.selected = false :=
  andThen_released <| andThen_released <| andThen_released <| andThen_released <| andThen_released <| andThen_released <|
    readCxd_released _ _

theorem mmcConnect_proper : Triple P mmcConnect fun _ => Proper := by
  refine any.bind fun _ => any.bind fun _ => any.bind fun _ => connectSteps_released.bind fun ok => ?_
  refine .ite (fun yes => ?_) fun _ => stop_proper (.inr rfl)
  exact Triple.bind (.weaken (setState_proper (.inl rfl)) (fun d released => released yes) fun _ _ at_ => at_)
    fun _ => .stay

theorem startSequential_proper (busy : state = .reading ∨ state = .writing) (cmd : UInt8) (blk : UInt32) :
    Triple P (startSequential state cmd blk) fun _ => Proper := by
  have steady := state_steady state
  have set : Triple P (setState state) fun _ d => d.state = state := .modify fun _ _ => rfl
  refine set.bind fun _ => (steady.spiStart _).bind fun _ => steady.spiSelect.bind fun _ => .read fun _ _ => ?_
  refine (steady.sendHdr _ _).bind fun _ => steady.recvr1.bind fun _ => .ite (fun _ => stop_proper (.inl rfl)) fun _ =>
    .pure fun d at_ => ?_
  rcases busy with rfl | rfl
  · exact .inl at_
  · exact .inr (.inl at_)

/-- The end of a sequential operation. -/
theorem abortSequential_proper : Triple P abortSequential fun _ => Proper :=
  any.bind fun _ => spiStop_released.bind fun _ => setState_proper (.inl rfl)

/-- A call that returns from any state but one. -/
theorem checked_proper {state : BlkState} {body : Code Bool} (run : Triple (fun d => d.state = state) body fun _ => Proper) :
    Preserves Proper (do if (← get).state ≠ state then return false else body) := by
  refine get.bind fun m => .ite (fun _ => .pure fun _ at_ => at_.2) fun is => ?_
  exact run.weaken (fun d at_ => at_.1 ▸ not_not.1 is) fun _ _ at_ => at_

theorem mmcSequentialRead_proper : Preserves Proper mmcSequentialRead := by
  have steady := state_steady .reading
  refine checked_proper ((steady.readRound.retry _).bind fun _ => .ite (fun _ => ?_) fun _ => ?_)
  · exact .pure fun _ at_ => .inl at_
  · exact abortSequential_proper.bind fun _ => .stay

theorem mmcStopSequentialRead_proper : Preserves Proper mmcStopSequentialRead :=
  checked_proper (any.bind fun _ => any.bind fun _ => spiUnselect_released.bind fun _ =>
    (setState_proper (.inl rfl)).bind fun _ => .stay)

theorem mmcSequentialWrite_proper (buffer : List UInt8) : Preserves Proper (mmcSequentialWrite buffer) := by
  have steady := state_steady .writing
  refine checked_proper ((steady.spiSend _).bind fun _ => (steady.spiSend _).bind fun _ => (steady.spiIgnore _).bind fun _ =>
    steady.spiReceiveByte.bind fun _ => .ite (fun _ => ?_) fun _ => ?_)
  · exact steady.wait.bind fun _ => .pure fun _ at_ => .inr (.inl at_)
  · exact abortSequential_proper.bind fun _ => .stay

theorem mmcStopSequentialWrite_proper : Preserves Proper mmcStopSequentialWrite :=
  checked_proper (any.bind fun _ => spiUnselect_released.bind fun _ => (setState_proper (.inl rfl)).bind fun _ =>
    .stay)

theorem mmcSync_proper : Preserves Proper mmcSync :=
  checked_proper (any.bind fun _ => any.bind fun _ => sync_released.bind fun _ =>
    (setState_proper (.inl rfl)).bind fun _ => .stay)

theorem mmcDisconnect_proper : Preserves Proper mmcDisconnect := by
  refine get.bind fun m => .ite (fun _ => .pure fun _ at_ => at_.2) fun _ => ?_
  exact any.bind fun _ => any.bind fun _ => any.bind fun _ => stop_proper (.inr rfl)

theorem mmcErase_proper (startblk endblk : UInt32) : Preserves Proper (mmcErase startblk endblk) := by
  have last (cmd : UInt8) (arg : UInt32) : Triple (fun _ => True) (eraseCommand cmd arg) fun ok d => ok = true → d.selected = false :=
    (sendCommandR1_released cmd arg).bind fun _ => .pure fun _ released _ => released
  refine any.bind fun _ => any.bind fun m => Triple.bind (andThen_released (andThen_released (last _ _))) fun ok => ?_
  refine .ite (fun yes => ?_) fun _ => stop_proper (.inl rfl)
  exact Triple.bind (.weaken (setState_proper (.inl rfl)) (fun d released => released yes) fun _ _ at_ => at_)
    fun _ => .stay

/-- Every call leaves the driver properly, if it found it so. -/
theorem code_proper (c : Call) : Preserves Proper c.code := by
  cases c with
  | connect => exact mmcConnect_proper
  | disconnect => exact mmcDisconnect_proper
  | startRead startblk => exact startSequential_proper (.inl rfl) _ _
  | read => exact mmcSequentialRead_proper
  | stopRead => exact mmcStopSequentialRead_proper
  | startWrite startblk => exact startSequential_proper (.inr rfl) _ _
  | write buffer => exact mmcSequentialWrite_proper buffer
  | stopWrite => exact mmcStopSequentialWrite_proper
  | sync => exact mmcSync_proper
  | erase startblk endblk => exact mmcErase_proper startblk endblk

theorem BusUse.next_eq {r : Request} {s s' : BusUse} (taken : s.next r = some s') :
    ∃ ok d, r.call.code (s.begin r) = some (ok, d) ∧ s' = {
      driver := d
      failed := if r.call.refused s.driver.state then s.failed else !ok
      started := s.started && startedUse s.driver.spi d.log } := by
  simp only [next, Option.bind_eq_bind, Option.bind_eq_some_iff, Prod.exists] at taken
  obtain ⟨ok, d, ran, eq⟩ := taken
  exact ⟨ok, d, ran, (Option.some.inj eq).symm⟩

/-- After any calls the driver is in a sequential operation, or it is ready or active and the card is not selected. -/
theorem chip_select_released {discipline : BusUse → Request → Prop} {s : BusUse} (reached : busUse.Reach discipline s)
    (read : s.driver.state ≠ .reading) (write : s.driver.state ≠ .writing) :
    (s.driver.state = .ready ∨ s.driver.state = .active) ∧ s.driver.selected = false := by
  have proper : Proper s.driver := by
    refine reached.invariant (I := fun s => Proper s.driver) (.inr (.inr ⟨.inr rfl, rfl⟩)) fun s r s' proper _ taken => ?_
    obtain ⟨ok, d, ran, rfl⟩ := BusUse.next_eq taken
    exact code_proper r.call (show Proper (s.begin r) from proper) ran
  exact (proper.resolve_left read).resolve_left write

/-! ## The state of the bus -/

/-- So far the bus was used rightly, from the state `spi` on. -/
def Clean (spi : SpiState) (d : MMCDriver) : Prop := startedUse spi d.log = true ∧ d.spi = busAfter spi d.log

/-- And it is started. -/
def Up (spi : SpiState) (d : MMCDriver) : Prop := Clean spi d ∧ d.spi = .ready

theorem busAfter_use {op : SpiOp} (use : op.needsStart = true) (spi : SpiState) (log : List SpiOp) :
    busAfter spi (op :: log) = busAfter spi log := by
  cases op with
  | start c => cases use
  | stop => cases use
  | _ => rfl

/-- Starting and stopping the bus is right at any time. -/
theorem startedUse_switch {op : SpiOp} (switch : op.needsStart = false) (spi : SpiState) (log : List SpiOp) :
    startedUse spi (op :: log) = startedUse spi log := by
  rw [startedUse, switch, Bool.not_false, Bool.true_or, Bool.and_true]

theorem Up.use {spi : SpiState} {d : MMCDriver} {op : SpiOp} (up : Up spi d) (use : op.needsStart = true) (selected : Bool)
    (card : List UInt8) : Up spi { d with selected := selected, card := card, log := op :: d.log } := by
  obtain ⟨⟨used, is⟩, ready⟩ := up
  have same := busAfter_use use spi d.log
  refine ⟨⟨?_, is.trans same.symm⟩, ready⟩
  simp only [startedUse, used, ← is, ready, decide_true, Bool.or_true, Bool.and_true]

/-- What a call leaves: a used bus is started unless the driver has failed. -/
structure Leaves (spi : SpiState) (ok : Bool) (d : MMCDriver) : Prop where
  clean : Clean spi d
  known : d.state = .reading ∨ d.state = .writing ∨ d.state = .ready ∨ d.state = .active
  busy : d.state = .reading ∨ d.state = .writing → d.spi = .ready
  rest : d.state = .ready → ok = true → d.spi = .ready

/-- The bus is started in the state `state` of the driver. -/
def UpIn (spi : SpiState) (state : BlkState) (d : MMCDriver) : Prop := Up spi d ∧ d.state = state

theorem upIn_steady : Steady (UpIn spi state) where
  use _ _ selected card use _ up := ⟨up.1.use use selected card, up.2⟩
  start d _ up := ⟨⟨⟨(startedUse_switch rfl spi d.log).trans up.1.1.1, rfl⟩, rfl⟩, up.2⟩
  send d _ up := ⟨up.1.use rfl d.selected d.card, up.2⟩
  store _ _ _ _ up := up
  reply _ _ _ up := up
  detect _ _ _ up := up

theorem UpIn.leaves {d : MMCDriver} (up : UpIn spi state d)
    (known : state = .reading ∨ state = .writing ∨ state = .ready) : Leaves spi ok d where
  clean := up.1.1
  known := by
    rw [up.2]
    rcases known with is | is | is
    · exact .inl is
    · exact .inr (.inl is)
    · exact .inr (.inr (.inl is))
  busy _ := up.1.2
  rest _ _ := up.1.2

/-- The bus may be stopped. -/
theorem Leaves.stopped {d : MMCDriver} (clean : Clean spi d)
    (rest : d.state = .active ∨ d.state = .ready ∧ ok = false) : Leaves spi ok d where
  clean := clean
  known := by
    rcases rest with active | ⟨ready, -⟩
    · exact .inr (.inr (.inr active))
    · exact .inr (.inr (.inl ready))
  busy busy := by
    rcases rest with is | ⟨is, -⟩
    · rcases busy with b | b <;> cases is.symm.trans b
    · rcases busy with b | b <;> cases is.symm.trans b
  rest ready succeeded := by
    rcases rest with active | ⟨-, failed⟩
    · cases active.symm.trans ready
    · cases failed.symm.trans succeeded

theorem setState_up (state' : BlkState) : Triple (UpIn spi state) (setState state') fun _ => UpIn spi state' :=
  .modify fun _ up => ⟨up.1, rfl⟩

theorem setState_clean : Triple (Clean spi) (setState state) fun _ d => Clean spi d ∧ d.state = state :=
  .modify fun _ clean => ⟨clean, rfl⟩

/-- The bus is started, in whatever state it was. -/
theorem spiStart_up (c : SpiConfig) : Triple (fun d => Clean spi d ∧ d.state = state) (spiStart c) fun _ => UpIn spi state := by
  refine .modify fun d at_ => ⟨⟨⟨?_, rfl⟩, rfl⟩, at_.2⟩
  exact (startedUse_switch rfl spi d.log).trans at_.1.1

/-- The exits that stop the bus. -/
theorem stop_leaves {state' : BlkState} (rest : state' = .active ∨ state' = .ready ∧ ok = false) :
    Triple (UpIn spi state) (do spiStop; setState state'; return ok) (Leaves spi) := by
  refine bind (Q := fun _ => Clean spi) (.modify fun d up => ⟨?_, rfl⟩) fun _ => ?_
  · exact (startedUse_switch rfl spi d.log).trans up.1.1.1
  · refine setState_clean.bind fun _ => .pure ?_
    rintro d ⟨clean, rfl⟩
    exact .stopped clean rest

/-- The exits to BLK_READY. -/
theorem ready_leaves : Triple (UpIn spi state) (do setState .ready; return ok) (Leaves spi) :=
  (setState_up .ready).bind fun _ => .pure fun _ up => up.leaves (.inr (.inr rfl))

theorem mmcConnect_leaves : Triple (Clean spi) mmcConnect (Leaves spi) := by
  have steady : Steady (UpIn spi .connecting) := upIn_steady
  refine setState_clean.bind fun _ => (spiStart_up _).bind fun _ => (steady.spiIgnore _).bind fun _ =>
    steady.connectSteps.bind fun _ => .ite (fun _ => ready_leaves) fun _ => stop_leaves (.inl rfl)

theorem startSequential_leaves (busy : state = .reading ∨ state = .writing) (cmd : UInt8) (blk : UInt32) :
    Triple (Clean spi) (startSequential state cmd blk) (Leaves spi) := by
  have steady : Steady (UpIn spi state) := upIn_steady
  refine setState_clean.bind fun _ => (spiStart_up _).bind fun _ => steady.spiSelect.bind fun _ => .read fun _ _ => ?_
  refine (steady.sendHdr _ _).bind fun _ => steady.recvr1.bind fun _ => .ite (fun _ => stop_leaves (.inr ⟨rfl, rfl⟩)) fun _ =>
    .pure fun d up => up.leaves ?_
  rcases busy with is | is
  · exact .inl is
  · exact .inr (.inl is)

theorem abortSequential_leaves : Triple (UpIn spi state) (do abortSequential; return false) (Leaves spi) := by
  have steady : Steady (UpIn spi state) := upIn_steady
  intro d ok d' up ran
  have same : (do abortSequential; return false : Code Bool) = do spiUnselect; spiStop; setState .ready; return false := by
    simp only [abortSequential, bind_assoc]
  rw [same] at ran
  exact steady.spiUnselect.bind (fun _ => stop_leaves (.inr ⟨rfl, rfl⟩)) up ran

/-- A call that goes on with the state it has checked. -/
theorem checked_leaves {body : Code Bool} (run : Triple (UpIn spi state) body (Leaves spi)) :
    Triple (UpIn spi state) (do if (← get).state ≠ state then return false else body) (Leaves spi) := by
  exact .read fun m up => .ite (fun other => absurd up.2 other) fun _ => run

theorem mmcSequentialRead_leaves : Triple (UpIn spi .reading) mmcSequentialRead (Leaves spi) := by
  have steady : Steady (UpIn spi .reading) := upIn_steady
  refine checked_leaves ((steady.readRound.retry _).bind fun _ => .ite (fun _ => ?_) fun _ => abortSequential_leaves)
  exact .pure fun _ up => up.leaves (.inl rfl)

theorem mmcStopSequentialRead_leaves : Triple (UpIn spi .reading) mmcStopSequentialRead (Leaves spi) := by
  have steady : Steady (UpIn spi .reading) := upIn_steady
  exact checked_leaves ((steady.spiSend _).bind fun _ => steady.recvr1.bind fun _ => steady.spiUnselect.bind fun _ => ready_leaves)

theorem mmcSequentialWrite_leaves (buffer : List UInt8) :
    Triple (UpIn spi .writing) (mmcSequentialWrite buffer) (Leaves spi) := by
  have steady : Steady (UpIn spi .writing) := upIn_steady
  refine checked_leaves ((steady.spiSend _).bind fun _ => (steady.spiSend _).bind fun _ => (steady.spiIgnore _).bind fun _ =>
    steady.spiReceiveByte.bind fun _ => .ite (fun _ => ?_) fun _ => abortSequential_leaves)
  exact steady.wait.bind fun _ => .pure fun _ up => up.leaves (.inr (.inl rfl))

theorem mmcStopSequentialWrite_leaves : Triple (UpIn spi .writing) mmcStopSequentialWrite (Leaves spi) := by
  have steady : Steady (UpIn spi .writing) := upIn_steady
  exact checked_leaves ((steady.spiSend _).bind fun _ => steady.spiUnselect.bind fun _ => ready_leaves)

theorem mmcSync_leaves : Triple (fun d => Clean spi d ∧ d.state = .ready) mmcSync (Leaves spi) := by
  have steady : Steady (UpIn spi .syncing) := upIn_steady
  refine .read fun m at_ => .ite (fun other => absurd at_.2 other) fun _ => ?_
  exact bind (.weaken setState_clean (fun _ at_ => at_.1) fun _ _ at_ => at_) fun _ => (spiStart_up _).bind fun _ =>
    steady.sync.bind fun _ => ready_leaves

theorem mmcDisconnect_leaves : Triple (Clean spi) mmcDisconnect (Leaves spi) := by
  have steady : Steady (UpIn spi .disconnecting) := upIn_steady
  refine get.bind fun m => .ite (fun active => .pure fun d at_ => ?_) fun _ => ?_
  · exact .stopped at_.2 (.inl (at_.1 ▸ active))
  · exact bind (.weaken setState_clean (fun _ at_ => at_.2) fun _ _ at_ => at_) fun _ => (spiStart_up _).bind fun _ =>
      steady.sync.bind fun _ => stop_leaves (.inl rfl)

theorem mmcErase_leaves (startblk endblk : UInt32) : Triple (UpIn spi state) (mmcErase startblk endblk) (Leaves spi) := by
  have steady : Steady (UpIn spi .writing) := upIn_steady
  exact (setState_up _).bind fun _ => .read fun _ _ => (steady.erase _ _).bind fun _ => .ite (fun _ => ready_leaves) fun _ =>
    stop_leaves (.inr ⟨rfl, rfl⟩)

/-- What a call needs of the bus. -/
structure Enters (spi : SpiState) (c : Call) (d : MMCDriver) : Prop where
  clean : Clean spi d
  admitted : c.admitted d.state = true
  accepted : c.refused d.state = false
  busy : d.state = .reading ∨ d.state = .writing → d.spi = .ready
  erases : c.erases = true → d.spi = .ready

theorem code_leaves (c : Call) : Triple (Enters spi c) c.code (Leaves spi) := by
  intro d ok d' enters ran
  have state : ∀ {state : BlkState}, decide (d.state ≠ state) = false → d.state = state := by
    intro state is
    simpa using is
  cases c with
  | connect => exact mmcConnect_leaves enters.clean ran
  | disconnect => exact mmcDisconnect_leaves enters.clean ran
  | startRead startblk => exact startSequential_leaves (.inl rfl) _ _ enters.clean ran
  | read =>
    have is := state enters.accepted
    exact mmcSequentialRead_leaves ⟨⟨enters.clean, enters.busy (.inl is)⟩, is⟩ ran
  | stopRead =>
    have is := state enters.accepted
    exact mmcStopSequentialRead_leaves ⟨⟨enters.clean, enters.busy (.inl is)⟩, is⟩ ran
  | startWrite startblk => exact startSequential_leaves (.inr rfl) _ _ enters.clean ran
  | write buffer =>
    have is := state enters.accepted
    exact mmcSequentialWrite_leaves buffer ⟨⟨enters.clean, enters.busy (.inr is)⟩, is⟩ ran
  | stopWrite =>
    have is := state enters.accepted
    exact mmcStopSequentialWrite_leaves ⟨⟨enters.clean, enters.busy (.inr is)⟩, is⟩ ran
  | sync => exact mmcSync_leaves ⟨enters.clean, state enters.accepted⟩ ran
  | erase startblk endblk => exact mmcErase_leaves startblk endblk ⟨⟨enters.clean, enters.erases rfl⟩, rfl⟩ ran

/-- A call that is refused does nothing. -/
theorem code_refused {c : Call} {d d' : MMCDriver} {ok : Bool} (refused : c.refused d.state = true)
    (ran : c.code d = some (ok, d')) : d' = d := by
  have returns {p : Code Bool} {state : BlkState} (other : decide (d.state ≠ state) = true)
      (ran : (do if (← get).state ≠ state then return false else p : Code Bool) d = some (ok, d')) : d' = d := by
    obtain ⟨m, e, got, rest⟩ := bind_eq_some.1 ran
    obtain ⟨rfl, rfl⟩ := get_eq_some.1 got
    rw [if_pos (of_decide_eq_true other)] at rest
    exact (pure_eq_some.1 rest).2.symm
  cases c with
  | read | stopRead | write | stopWrite | sync => exact returns refused ran
  | connect | disconnect | startRead | startWrite | erase => cases refused

/-- The call is made in a state that it admits, and no erase follows a failed call. -/
def Careful (s : BusUse) (r : Request) : Prop :=
  r.call.admitted s.driver.state = true ∧ (r.call.erases = true → s.failed = false)

/-- What holds between calls. -/
structure BusOk (s : BusUse) : Prop where
  started : s.started = true
  busy : s.driver.state = .reading ∨ s.driver.state = .writing → s.driver.spi = .ready
  rest : s.driver.state = .ready → s.failed = false → s.driver.spi = .ready

theorem BusOk.step {r : Request} {s s' : BusUse} (ok : BusOk s) (careful : Careful s r) (taken : s.next r = some s') :
    BusOk s' := by
  obtain ⟨good, d, ran, rfl⟩ := BusUse.next_eq taken
  cases refused : r.call.refused s.driver.state with
  | true =>
    have same := code_refused (d := s.begin r) refused ran
    subst same
    refine ⟨?_, ok.busy, ok.rest⟩
    rw [ok.started]
    rfl
  | false =>
    have enters : Enters s.driver.spi r.call (s.begin r) := {
      clean := ⟨rfl, rfl⟩
      admitted := careful.1
      accepted := refused
      busy := ok.busy
      erases := fun erases => by
        refine ok.rest ?_ (careful.2 erases)
        have admitted := careful.1
        cases is : r.call with
        | erase startblk endblk =>
          rw [is] at admitted
          exact of_decide_eq_true admitted
        | _ =>
          rw [is] at erases
          cases erases }
    have leaves := code_leaves r.call enters ran
    refine ⟨?_, leaves.busy, fun ready succeeded => leaves.rest ready ?_⟩
    · rw [ok.started, leaves.clean.1]
      rfl
    · simpa using succeeded

/-- In every run in which no erase follows a failed call, the bus is started whenever it is used. -/
theorem bus_started {s : BusUse} (reached : busUse.Reach Careful s) : s.started = true := by
  have start : BusOk busUse.init := ⟨rfl, fun busy => (by rcases busy with b | b <;> cases b), nofun⟩
  exact (reached.invariant start fun _ _ _ ok careful taken => ok.step careful taken).started

/-! ## Failed reads -/

/-- The state of the driver, the slave select line, whether the last call failed and whether the bus was used rightly. -/
def BusUse.shows (s : BusUse) : BlkState × Bool × Bool × Bool := (s.driver.state, s.driver.selected, s.failed, s.started)

/-- A card is connected, and does not take the command of a read. -/
def failedRead : List Request := [⟨.connect, oldCard, 0⟩, ⟨.startRead 3, [0xFF, 0x04], 0⟩]

theorem failedRead_shows : (busUse.run failedRead busUse.init).map BusUse.shows = some (.ready, false, true, true) := by
  decide +kernel

theorem chip_select_released_failed : ∃ s, busUse.run failedRead busUse.init = some s ∧ s.driver.state = .ready ∧
    s.driver.selected = false := by
  obtain ⟨s, ran, shown⟩ := Option.map_eq_some_iff.1 failedRead_shows
  simp only [BusUse.shows, Prod.mk.injEq] at shown
  have reached : busUse.Reach (fun _ _ => true = true) s := .of_run failedRead (by decide +kernel) ran
  exact ⟨s, ran, shown.1, (chip_select_released reached (by rw [shown.1]; decide) (by rw [shown.1]; decide)).2⟩

/-- A synchronization starts the bus again for an erase. -/
theorem bus_started_synced : ∃ s, busUse.run (failedRead ++ [⟨.sync, [0xFF], 0⟩, ⟨.erase 0 1, [0xFF, 0, 0xFF, 0, 0xFF, 0], 0⟩])
    busUse.init = some s ∧ s.failed = false ∧ s.started = true := by
  have shows : (busUse.run (failedRead ++ [⟨.sync, [0xFF], 0⟩, ⟨.erase 0 1, [0xFF, 0, 0xFF, 0, 0xFF, 0], 0⟩]) busUse.init).map
      BusUse.shows = some (.ready, false, false, true) := by decide +kernel
  obtain ⟨s, ran, shown⟩ := Option.map_eq_some_iff.1 shows
  simp only [BusUse.shows, Prod.mk.injEq] at shown
  have meets : busUse.runOk (fun s r => r.call.admitted s.driver.state && (!r.call.erases || !s.failed))
      (failedRead ++ [⟨.sync, [0xFF], 0⟩, ⟨.erase 0 1, [0xFF, 0, 0xFF, 0, 0xFF, 0], 0⟩]) busUse.init = true := by decide +kernel
  have reached := Lts.Reach.of_run _ meets ran
  refine ⟨s, ran, shown.2.2.1, bus_started (reached.mono fun s r careful => ?_)⟩
  simp only [Bool.and_eq_true, Bool.or_eq_true, Bool.not_eq_true'] at careful
  exact ⟨careful.1, fun erases => careful.2.resolve_left (by rw [erases]; decide)⟩

/-- An erase after the failed read is sent over a stopped bus. -/
theorem bus_started_erase : (busUse.run (failedRead ++ [⟨.erase 0 1, [0xFF, 0, 0xFF, 0, 0xFF, 0], 0⟩]) busUse.init).map BusUse.shows =
      some (.ready, false, false, false) ∧
    busUse.runOk (fun s r => r.call.admitted s.driver.state)
      (failedRead ++ [⟨.erase 0 1, [0xFF, 0, 0xFF, 0, 0xFF, 0], 0⟩]) busUse.init = true := by
  decide +kernel

end ChibiOS.Mmc
