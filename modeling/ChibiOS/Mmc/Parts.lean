import ChibiOS.Mmc.Driver

/-!
# What the parts of the driver keep

A condition on the driver that survives the single operations on the bus survives the
functions made of them. The structures below sort the conditions by what they survive.
-/

namespace ChibiOS.Mmc

open Lib Prog Preserves Triple

/-- `spiStart` and `spiStop` work in either state, the others in SPI_READY only. -/
def SpiOp.needsStart : SpiOp → Bool
  | .start _ => false
  | .stop => false
  | _ => true

def SpiOp.sends : SpiOp → Bool
  | .send _ => true
  | _ => false

theorem spiReceive_eq_some {d d' : MMCDriver} {n : Nat} {bytes : List UInt8} (ran : spiReceive n d = some (bytes, d')) :
    ∃ card, d' = { d with card := card, log := .receive bytes :: d.log } := by
  obtain ⟨-, ⟨⟩⟩ := Option.ite_none_right_eq_some.1 ran
  exact ⟨_, rfl⟩

theorem pollIdle_rule {Q : List UInt8 → List SpiOp → Prop}
    (receive : ∀ b card log, Q (b :: card) log → Q card (.receive [b] :: log)) {card card' : List UInt8}
    {log log' : List SpiOp} (ran : pollIdle card log = some (card', log')) (start : Q card log) : Q card' log' := by
  induction card generalizing log with
  | nil => cases ran
  | cons b card ih =>
    have received := receive b card log start
    simp only [pollIdle] at ran
    split at ran
    · cases ran
      exact received
    · exact ih ran received

/-- `P` survives the start of the bus and its use, sending apart. -/
structure Listens (P : MMCDriver → Prop) : Prop where
  use : ∀ (d : MMCDriver) op selected card, op.needsStart = true → op.sends = false → P d →
    P { d with selected := selected, card := card, log := op :: d.log }
  start : ∀ (d : MMCDriver) c, P d → P { d with spi := .ready, log := .start c :: d.log }

namespace Listens

variable {P : MMCDriver → Prop} (listens : Listens P)
include listens

theorem spiStart (c : SpiConfig) : Preserves P (spiStart c) := .modify fun d => listens.start d c

theorem spiSelect : Preserves P spiSelect := .modify fun d => listens.use d .select true d.card rfl rfl

theorem spiUnselect : Preserves P spiUnselect := .modify fun d => listens.use d .unselect false d.card rfl rfl

theorem spiIgnore (n : Nat) : Preserves P (spiIgnore n) :=
  .modify fun d => listens.use d (.ignore n) d.selected d.card rfl rfl

theorem spiReceive (n : Nat) : Preserves P (spiReceive n) := by
  intro d bytes d' at_ ran
  obtain ⟨card, rfl⟩ := spiReceive_eq_some ran
  exact listens.use d _ d.selected card rfl rfl at_

theorem spiReceiveByte : Preserves P spiReceiveByte := (listens.spiReceive 1).bind fun _ => .stay

/-- What every byte received keeps, waiting keeps. -/
theorem wait : Preserves P wait := by
  intro d u d' at_ ran
  simp only [Mmc.wait, Option.bind_eq_bind, Option.bind_eq_some_iff, Prod.exists] at ran
  obtain ⟨card, log, polled, ⟨⟩⟩ := ran
  exact pollIdle_rule (Q := fun card log => P { d with card := card, log := log })
    (fun b card log => listens.use { d with card := b :: card, log := log } (.receive [b]) d.selected card rfl rfl) polled at_

theorem recvByte : ∀ n, Preserves P (recvByte n)
  | 0 => .stay
  | n + 1 => listens.spiReceiveByte.bind fun _ => .ite (fun _ => .stay) fun _ => recvByte n

theorem recvr1 : Preserves P recvr1 := listens.recvByte 9

theorem recvr3 : Preserves P recvr3 := listens.recvr1.bind fun _ => (listens.spiReceive 4).bind fun _ => .stay

theorem sync : Preserves P sync := listens.spiSelect.bind fun _ => listens.wait.bind fun _ => listens.spiUnselect

theorem readRound : Preserves P readRound := by
  refine listens.spiReceiveByte.bind fun _ => .ite (fun _ => ?_) fun _ => .stay
  exact (listens.spiReceive 512).bind fun _ => (listens.spiIgnore 2).bind fun _ => .stay

end Listens

/-- `P` survives sending as well. -/
structure Talks (P : MMCDriver → Prop) : Prop extends Listens P where
  send : ∀ (d : MMCDriver) bytes, P d → P { d with log := .send bytes :: d.log }

namespace Talks

variable {P : MMCDriver → Prop} (talks : Talks P) {cmd : UInt8} {arg : UInt32}
include talks

theorem spiSend (bytes : List UInt8) : Preserves P (spiSend bytes) := .modify fun d => talks.send d bytes

theorem sendHdr (cmd : UInt8) (arg : UInt32) : Preserves P (sendHdr cmd arg) := talks.wait.bind fun _ => talks.spiSend _

theorem sendCommandR1 {Q : UInt8 → MMCDriver → Prop} (recorded : ∀ r1, Triple P (record ⟨cmd, arg, r1, []⟩) fun _ => Q r1) :
    Triple P (sendCommandR1 cmd arg) Q :=
  talks.spiSelect.bind fun _ => (talks.sendHdr _ _).bind fun _ => talks.recvr1.bind fun r1 =>
    talks.spiUnselect.bind fun _ => (recorded r1).bind fun _ => .pure fun _ at_ => at_

theorem sendCommandR3 {Q : UInt8 × List UInt8 → MMCDriver → Prop}
    (recorded : ∀ r, Triple P (record ⟨cmd, arg, r.1, r.2⟩) fun _ => Q r) : Triple P (sendCommandR3 cmd arg) Q :=
  talks.spiSelect.bind fun _ => (talks.sendHdr _ _).bind fun _ => talks.recvr3.bind fun r =>
    talks.spiUnselect.bind fun _ => (recorded r).bind fun _ => .pure fun _ at_ => at_

theorem readCxdRound {store : Cxd → MMCDriver → MMCDriver} (stored : ∀ c d, P d → P (store c d)) :
    Preserves P (readCxdRound store) := by
  refine talks.spiReceiveByte.bind fun _ => .ite (fun _ => ?_) fun _ => .stay
  exact (talks.spiReceive 16).bind fun _ => (modify fun d => stored _ d).bind fun _ =>
    (talks.spiIgnore 2).bind fun _ => talks.spiUnselect.bind fun _ => .stay

theorem readCxd {store : Cxd → MMCDriver → MMCDriver} (cmd : UInt8) (stored : ∀ c d, P d → P (store c d)) :
    Preserves P (readCxd cmd store) := by
  refine talks.spiSelect.bind fun _ => (talks.sendHdr _ _).bind fun _ => talks.recvr1.bind fun _ => .ite (fun _ => ?_) fun _ => ?_
  · exact talks.spiUnselect.bind fun _ => .stay
  · exact (talks.readCxdRound stored).retry _

end Talks

/-- `P` survives what the driver learns about the card, other than by CMD8 and CMD58. -/
structure Learns (P : MMCDriver → Prop) : Prop extends Talks P where
  store : ∀ (d : MMCDriver) csd cid capacity, P d → P { d with csd := csd, cid := cid, capacity := capacity }
  reply : ∀ (d : MMCDriver) r, r.cmd ∉ [8, 58] → P d → P { d with replies := r :: d.replies }

namespace Learns

variable {P : MMCDriver → Prop} (learns : Learns P)
include learns

theorem command {cmd : UInt8} {arg : UInt32} (plain : cmd ∉ [8, 58]) : Preserves P (sendCommandR1 cmd arg) :=
  learns.sendCommandR1 fun _ => .modify fun d => learns.reply d _ plain

theorem goIdleRound : Preserves P goIdleRound :=
  (learns.command (by decide)).bind fun _ => .ite (fun _ => .stay) fun _ => .stay

theorem appOpCondRound : Preserves P appOpCondRound := by
  refine (learns.command (by decide)).bind fun _ => .ite (fun _ => ?_) fun _ => .stay
  have plain : (41 : UInt8) ∉ [8, 58] := by decide
  refine Triple.bind (learns.sendCommandR3 fun _ => .modify fun d => learns.reply d _ plain) fun _ => ?_
  exact .ite (fun _ => .stay) fun _ => .stay

theorem initRound : Preserves P initRound :=
  (learns.command (by decide)).bind fun _ => .ite (fun _ => .stay) fun _ =>
    .ite (fun _ => .stay) fun _ => .stay

theorem setBlockLen : Preserves P setBlockLen :=
  (learns.spiStart _).bind fun _ => (learns.command (by decide)).bind fun _ => .stay

theorem determineCapacity : Preserves P determineCapacity := by
  refine .read fun m _ => Triple.bind ?_ fun _ => .stay
  exact .modify fun d => learns.store d d.csd d.cid _

/-- The connection after the detection of the card. -/
theorem afterDetection : Preserves P ((Prog.retry 100 Mmc.initRound).andThen <| Mmc.setBlockLen.andThen <|
    (readCxd 9 fun csd d => { d with csd := csd }).andThen <| Mmc.determineCapacity.andThen <|
    readCxd 10 fun cid d => { d with cid := cid }) :=
  andThen (learns.initRound.retry 100) <| learns.setBlockLen.andThen <|
    (learns.readCxd 9 fun c d => learns.store d c d.cid d.capacity).andThen <|
    learns.determineCapacity.andThen <| learns.readCxd 10 fun c d => learns.store d d.csd c d.capacity

/-- The commands of an erase. -/
theorem erase (first last : UInt32) :
    Preserves P ((eraseCommand 32 first).andThen <| (eraseCommand 33 last).andThen <| eraseCommand 38 0) := by
  have command {cmd : UInt8} {arg : UInt32} (plain : cmd ∉ [8, 58]) : Preserves P (eraseCommand cmd arg) :=
    (learns.command plain).bind fun _ => .stay
  exact (command (by decide)).andThen <| (command (by decide)).andThen <| command (by decide)

end Learns

/-- `P` survives the stop of the bus and a change of the driver's state. -/
structure Resting (P : MMCDriver → Prop) : Prop extends Listens P where
  stop : ∀ (d : MMCDriver), P d → P { d with spi := .stop, selected := false, log := .stop :: d.log }
  state : ∀ (d : MMCDriver) state, P d → P { d with state := state }

namespace Resting

variable {P : MMCDriver → Prop} (resting : Resting P)
include resting

theorem setState (state : BlkState) : Preserves P (setState state) := .modify fun d => resting.state d state

theorem spiStop : Preserves P spiStop := .modify fun d => resting.stop d

theorem abortSequential : Preserves P abortSequential :=
  resting.spiUnselect.bind fun _ => resting.spiStop.bind fun _ => resting.setState _

/-- The exits of a call. -/
theorem exit (state : BlkState) (b : Bool) : Preserves P (do Mmc.setState state; return b) :=
  (resting.setState _).bind fun _ => .stay

theorem stopExit (state : BlkState) (b : Bool) : Preserves P (do Mmc.spiStop; Mmc.setState state; return b) :=
  resting.spiStop.bind fun _ => resting.exit state b

end Resting

end ChibiOS.Mmc
