import ChibiOS.Lib.Lts
import ChibiOS.Mmc.Parts

/-!
# The unit of block addresses

High capacity cards take block numbers, the others byte addresses. `mmcConnect`
notes what the card is in `block_addresses`, which the reading, writing and erasing
commands consult. The flag is set by a high capacity card and cleared by nothing:
it says whether such a card was ever connected. It is right for the card that is
connected now if that card has high capacity, or none before it had.
-/

namespace ChibiOS.Mmc

open Lib Prog Preserves Triple

/-- The calls of the driver that exchange bytes with the card. -/
inductive Call
  | connect
  | disconnect
  | startRead (startblk : UInt32)
  | read
  | stopRead
  | startWrite (startblk : UInt32)
  | write (buffer : List UInt8)
  | stopWrite
  | sync
  | erase (startblk endblk : UInt32)
  deriving DecidableEq

def Call.code : Call → Code Bool
  | .connect => mmcConnect
  | .disconnect => mmcDisconnect
  | .startRead startblk => mmcStartSequentialRead startblk
  | .read => mmcSequentialRead
  | .stopRead => mmcStopSequentialRead
  | .startWrite startblk => mmcStartSequentialWrite startblk
  | .write buffer => mmcSequentialWrite buffer
  | .stopWrite => mmcStopSequentialWrite
  | .sync => mmcSync
  | .erase startblk endblk => mmcErase startblk endblk

/-- The card did not answer CMD8 as an illegal command. -/
def accepted (replies : List Reply) : Bool := replies.any fun r => r.cmd == 8 && r.r1 != 0x05

/-- The card capacity status is set in the OCR response. -/
def ocrCcs (replies : List Reply) : Bool := replies.any fun r => r.cmd == 58 && ccs r.data

def highCapacity (replies : List Reply) : Bool := accepted replies && ocrCcs replies

/-- A call, with the bytes that the card present answers in its course, and what becomes of an undefined shift. -/
structure Request where
  call : Call
  answers : List UInt8
  undefined : BitVec 32

/-- The driver; whether the card connected last has high capacity, after a successful connection;
whether a card with high capacity answered any connection so far. -/
structure Session where
  driver : MMCDriver
  card : Option Bool := none
  detected : Bool := false

def Session.begin (r : Request) (s : Session) : MMCDriver :=
  { s.driver with card := r.answers, undefined := r.undefined, log := [], replies := [] }

def Session.next (r : Request) (s : Session) : Option Session := do
  let (ok, d) ← r.call.code (s.begin r)
  match r.call with
  | .connect => return {
      driver := d
      card := if ok then some (highCapacity d.replies) else none
      detected := s.detected || highCapacity d.replies }
  | _ => return { s with driver := d }

def sessions : Lts Session Request where
  init := { driver := mmcStarted }
  next := Session.next

/-- The bytes sent in the course of the last call, one list for each `spiSend`. -/
def MMCDriver.sent (d : MMCDriver) : List (List UInt8) :=
  (d.log.filterMap fun | .send bytes => some bytes | _ => none).reverse

/-- The commands of a call that addresses blocks; an error ends it early. -/
def Call.frames (blockAddresses : Bool) : Call → List (List UInt8)
  | .startRead startblk => [frame 18 (address blockAddresses startblk)]
  | .startWrite startblk => [frame 25 (address blockAddresses startblk)]
  | .erase startblk endblk =>
    [frame 32 (address blockAddresses startblk), frame 33 (address blockAddresses endblk), frame 38 0]
  | _ => []

/-! ## What a connection learns about the card -/

variable {d : MMCDriver} {cmd : UInt8} {arg : UInt32} {s : Session} {before flag : Bool} {sent : List (List UInt8)}

/-- What the connection has learnt so far. -/
def view (d : MMCDriver) : Bool × Bool × Bool := (d.blockAddresses, accepted d.replies, ocrCcs d.replies)

theorem view_reply (d : MMCDriver) (r : Reply) : view { d with replies := r :: d.replies } =
    (d.blockAddresses, (r.cmd == 8 && r.r1 != 0x05 || accepted d.replies), (r.cmd == 58 && ccs r.data || ocrCcs d.replies)) :=
  rfl

/-- Only CMD8 and CMD58 tell something about the capacity. -/
theorem view_learns (C : Bool × Bool × Bool → Prop) : Learns fun d => C (view d) where
  use _ _ _ _ _ _ at_ := at_
  start _ _ at_ := at_
  send _ _ at_ := at_
  store _ _ _ _ at_ := at_
  reply d r plain at_ := by
    simp only [List.mem_cons, List.not_mem_nil, or_false, not_or] at plain
    rwa [view_reply, beq_false_of_ne plain.1, beq_false_of_ne plain.2]

theorem view_resting (C : Bool × Bool × Bool → Prop) : Resting fun d => C (view d) where
  toListens := (view_learns C).toListens
  stop _ at_ := at_
  state _ _ at_ := at_

/-- The flag is set, or left, as the replies to this connection say. -/
def Noted (before : Bool) (d : MMCDriver) : Prop := d.blockAddresses = (before || highCapacity d.replies)

/-- A card that has not shown its OCR is taken for one with byte addresses. -/
theorem Noted.of_unread {accepts : Bool} (seen : view d = (before, accepts, false)) : Noted before d := by
  simp only [view, Prod.mk.injEq] at seen
  rw [Noted, highCapacity, seen.1, seen.2.2, Bool.and_false, Bool.or_false]

theorem readOcr_noted : Triple (fun d => view d = (before, true, false)) readOcr fun _ => Noted before := by
  have replied : Triple (fun d => view d = (before, true, false)) (sendCommandR3 58 0)
      fun r d => view d = (before, true, ccs r.2) := by
    refine (view_learns (· = (before, true, false))).sendCommandR3 fun r => .modify fun d seen => ?_
    simp only [view, Prod.mk.injEq] at seen
    rw [view_reply, seen.1, seen.2.1, seen.2.2, Bool.or_true, Bool.or_false]
    rfl
  refine replied.bind fun r => .ite (fun set => ?_) fun unset => .pure fun d seen => ?_
  · refine Triple.bind (.modify fun d seen => ?_) fun _ => .stay
    simp only [view, Prod.mk.injEq] at seen
    show true = (before || (accepted d.replies && ocrCcs d.replies))
    rw [seen.2.1, seen.2.2, set, Bool.and_true, Bool.or_true]
  · rw [Bool.not_eq_true] at unset
    rw [unset] at seen
    exact .of_unread seen

theorem detectCapacity_noted : Triple (fun d => view d = (before, false, false)) detectCapacity fun _ => Noted before := by
  have replied : Triple (fun d => view d = (before, false, false)) (sendCommandR3 8 0x000001AA)
      fun r d => view d = (before, r.1 != 0x05, false) := by
    refine (view_learns (· = (before, false, false))).sendCommandR3 fun r => .modify fun d seen => ?_
    simp only [view, Prod.mk.injEq] at seen
    rw [view_reply, seen.1, seen.2.1, seen.2.2, Bool.or_false, Bool.or_false]
    rfl
  refine replied.bind fun r => .ite (fun answered => ?_) fun _ => .pure fun _ => Noted.of_unread
  rw [bne_iff_ne.2 answered]
  exact andThen ((view_learns (· = _)).appOpCondRound.retry 100) readOcr_noted fun _ => .of_unread

theorem connectSteps_noted : Triple (fun d => view d = (before, false, false)) connectSteps fun _ => Noted before := by
  have learns : Learns (Noted before) := view_learns fun v => v.1 = (before || (v.2.1 && v.2.2))
  refine andThen ((view_learns (· = _)).goIdleRound.retry 10) ?_ fun _ => .of_unread
  exact andThen detectCapacity_noted learns.afterDetection fun _ noted => noted

theorem mmcConnect_noted : Triple (fun d => view d = (before, false, false)) mmcConnect fun _ => Noted before := by
  have resting := view_resting (· = (before, false, false))
  have noted : Resting (Noted before) := view_resting fun v => v.1 = (before || (v.2.1 && v.2.2))
  refine (resting.setState _).bind fun _ => (resting.spiStart _).bind fun _ => (resting.spiIgnore _).bind fun _ =>
    connectSteps_noted.bind fun _ => .ite (fun _ => ?_) fun _ => ?_
  · exact noted.exit _ _
  · exact noted.stopExit _ _

/-! ## The other calls -/

/-- Only `mmcConnect` writes the flag. -/
theorem code_flag {c : Call} (other : c ≠ .connect) (flag : Bool) : Preserves (fun d => d.blockAddresses = flag) c.code := by
  have learns : Learns fun d => d.blockAddresses = flag := view_learns (·.1 = flag)
  have resting : Resting fun d => d.blockAddresses = flag := view_resting (·.1 = flag)
  have starting (state : BlkState) (cmd : UInt8) (blk : UInt32) :
      Preserves (fun d => d.blockAddresses = flag) (startSequential state cmd blk) := by
    refine (resting.setState _).bind fun _ => (resting.spiStart _).bind fun _ => resting.spiSelect.bind fun _ =>
      .read fun _ _ => (learns.sendHdr _ _).bind fun _ => resting.recvr1.bind fun _ => .ite (fun _ => ?_) fun _ => .stay
    exact resting.stopExit _ _
  have checked {state : BlkState} {body : Code Bool} (run : Preserves (fun d => d.blockAddresses = flag) body) :
      Preserves (fun d => d.blockAddresses = flag) (do if (← get).state ≠ state then return false else body) :=
    .read fun _ _ => .ite (fun _ => .stay) fun _ => run
  have aborting := resting.abortSequential.bind fun _ => Triple.stay (a := false)
  cases c with
  | connect => exact absurd rfl other
  | disconnect =>
    refine .read fun _ _ => .ite (fun _ => .stay) fun _ => ?_
    exact (resting.setState _).bind fun _ => (resting.spiStart _).bind fun _ => resting.sync.bind fun _ => resting.stopExit _ _
  | startRead blk => exact starting _ _ _
  | read => exact checked ((resting.readRound.retry _).bind fun _ => .ite (fun _ => .stay) fun _ => aborting)
  | stopRead =>
    exact checked ((learns.spiSend _).bind fun _ => resting.recvr1.bind fun _ => resting.spiUnselect.bind fun _ =>
      resting.exit _ _)
  | startWrite blk => exact starting _ _ _
  | write buffer =>
    refine checked ((learns.spiSend _).bind fun _ => (learns.spiSend _).bind fun _ => (resting.spiIgnore _).bind fun _ =>
      resting.spiReceiveByte.bind fun _ => .ite (fun _ => ?_) fun _ => aborting)
    exact resting.wait.bind fun _ => .stay
  | stopWrite => exact checked ((learns.spiSend _).bind fun _ => resting.spiUnselect.bind fun _ => resting.exit _ _)
  | sync =>
    exact checked ((resting.setState _).bind fun _ => (resting.spiStart _).bind fun _ => resting.sync.bind fun _ =>
      resting.exit _ _)
  | erase startblk endblk =>
    refine (resting.setState _).bind fun _ => .read fun _ _ => (learns.erase _ _).bind fun _ => .ite (fun _ => ?_) fun _ => ?_
    · exact resting.exit _ _
    · exact resting.stopExit _ _

/-! ## The addresses sent -/

/-- What was sent, and the flag. -/
def Sent (sent : List (List UInt8)) (flag : Bool) (d : MMCDriver) : Prop := d.sent = sent ∧ d.blockAddresses = flag

theorem sent_resting (C : List (List UInt8) → Bool → Prop) : Resting fun d => C d.sent d.blockAddresses where
  use d op selected card _ silent at_ := by
    cases op with
    | send bytes => cases silent
    | _ => exact at_
  start _ _ at_ := at_
  stop _ at_ := at_
  state _ _ at_ := at_

theorem sendHdr_sent : Triple (Sent sent flag) (sendHdr cmd arg) fun _ => Sent (sent ++ [frame cmd arg]) flag := by
  have resting : Resting (Sent sent flag) := sent_resting fun l b => l = sent ∧ b = flag
  refine resting.wait.bind fun _ => .modify fun d at_ => ⟨?_, at_.2⟩
  rw [← at_.1]
  simp [MMCDriver.sent]

theorem startSequential_sent {state : BlkState} {blk : UInt32} : Triple (Sent sent flag) (startSequential state cmd blk)
    fun _ => Sent (sent ++ [frame cmd (address flag blk)]) flag := by
  have resting (sent : List (List UInt8)) : Resting (Sent sent flag) := sent_resting fun l b => l = sent ∧ b = flag
  refine ((resting sent).setState _).bind fun _ => ((resting sent).spiStart _).bind fun _ => (resting sent).spiSelect.bind fun _ =>
    .read fun m at_ => ?_
  rw [at_.2]
  refine sendHdr_sent.bind fun _ => (resting _).recvr1.bind fun _ => .ite (fun _ => ?_) fun _ => .stay
  exact (resting _).stopExit _ _

theorem eraseCommand_sent : Triple (Sent sent flag) (eraseCommand cmd arg) fun _ => Sent (sent ++ [frame cmd arg]) flag := by
  have resting (sent : List (List UInt8)) : Resting (Sent sent flag) := sent_resting fun l b => l = sent ∧ b = flag
  have command : Triple (Sent sent flag) (sendCommandR1 cmd arg) fun _ => Sent (sent ++ [frame cmd arg]) flag := by
    refine (resting _).spiSelect.bind fun _ => sendHdr_sent.bind fun _ => (resting _).recvr1.bind fun _ =>
      (resting _).spiUnselect.bind fun _ => Triple.bind ?_ fun _ => .stay
    exact .modify fun _ at_ => at_
  exact command.bind fun _ => .stay

/-- An erase that fails sends the first commands only. -/
theorem mmcErase_sent {startblk endblk : UInt32} : Triple (Sent sent flag) (mmcErase startblk endblk)
    fun _ d => ∃ n, 0 < n ∧ d.sent = sent ++ ((Call.erase startblk endblk).frames flag).take n := by
  have resting : Resting (Sent sent flag) := sent_resting fun l b => l = sent ∧ b = flag
  have ended := sent_resting fun l _ => ∃ n, 0 < n ∧ l = sent ++ ((Call.erase startblk endblk).frames flag).take n
  refine (resting.setState _).bind fun _ => .read fun m at_ => ?_
  rw [at_.2]
  refine Triple.bind (andThen eraseCommand_sent (andThen eraseCommand_sent ?_ ?_) ?_) fun _ =>
    .ite (fun _ => ended.exit _ _) fun _ => ended.stopExit _ _
  · refine eraseCommand_sent.weaken (fun _ at_ => at_) fun _ d at_ => ⟨3, by decide, ?_⟩
    rw [at_.1]
    simp [Call.frames]
  · refine fun d at_ => ⟨2, by decide, ?_⟩
    rw [at_.1]
    simp [Call.frames]
  · exact fun d at_ => ⟨1, by decide, at_.1⟩

/-- A call that addresses blocks sends its commands, with the addresses that the flag asks for. -/
theorem code_sent {c : Call} {d' : MMCDriver} {b : Bool} (ran : c.code d = some (b, d')) (new : d.log = [])
    (addresses : c.frames d.blockAddresses ≠ []) : d'.sent ≠ [] ∧ d'.sent <+: c.frames d.blockAddresses := by
  have start : Sent [] d.blockAddresses d := ⟨by simp [MMCDriver.sent, new], rfl⟩
  cases c with
  | startRead blk =>
    rw [(startSequential_sent start ran).1]
    exact ⟨nofun, List.prefix_rfl⟩
  | startWrite blk =>
    rw [(startSequential_sent start ran).1]
    exact ⟨nofun, List.prefix_rfl⟩
  | erase startblk endblk =>
    obtain ⟨n, some, sends⟩ := mmcErase_sent start ran
    rw [sends]
    refine ⟨fun empty => ?_, List.take_prefix _ _⟩
    cases n with
    | zero => cases some
    | succ n => cases empty
  | _ => exact absurd rfl addresses

/-! ## Whole sessions -/

/-- A card without high capacity is connected only if no card so far had it. -/
def CardsAlike (s : Session) (r : Request) : Prop :=
  r.call = .connect → ∀ s', s.next r = some s' → highCapacity s'.driver.replies = true ∨ s.detected = false

/-- The driver in which a call starts. -/
theorem next_connect {r : Request} {s' : Session} (connects : r.call = .connect) (taken : s.next r = some s') :
    ∃ ok d, mmcConnect (s.begin r) = some (ok, d) ∧ s' = {
      driver := d
      card := if ok then some (highCapacity d.replies) else none
      detected := s.detected || highCapacity d.replies } := by
  simp only [Session.next, connects, Option.bind_eq_bind, Option.bind_eq_some_iff, Prod.exists] at taken
  obtain ⟨ok, d, ran, eq⟩ := taken
  exact ⟨ok, d, ran, (Option.some.inj eq).symm⟩

theorem next_other {r : Request} {s' : Session} (other : r.call ≠ .connect) (taken : s.next r = some s') :
    ∃ ok d, r.call.code (s.begin r) = some (ok, d) ∧ s' = { s with driver := d } := by
  simp only [Session.next, Option.bind_eq_bind, Option.bind_eq_some_iff, Prod.exists] at taken
  obtain ⟨ok, d, ran, eq⟩ := taken
  exact ⟨ok, d, ran, (Option.some.inj eq).symm⟩

/-- The flag is a memory of all cards. -/
theorem flag_detected {ok : Session → Request → Prop} (reached : sessions.Reach ok s) :
    s.driver.blockAddresses = s.detected := by
  refine reached.invariant (I := fun s => s.driver.blockAddresses = s.detected) rfl ?_
  intro s r s' same _ taken
  by_cases connects : r.call = .connect
  · obtain ⟨_, d, ran, rfl⟩ := next_connect connects taken
    have noted : Noted s.driver.blockAddresses d := mmcConnect_noted rfl ran
    rwa [Noted, same] at noted
  · obtain ⟨_, d, ran, rfl⟩ := next_other connects taken
    exact (code_flag connects _ rfl ran).trans same

/-- While the cards are alike the flag is that of the card connected. -/
theorem flag_card (reached : sessions.Reach CardsAlike s) : ∀ hc, s.card = some hc → s.detected = hc := by
  refine reached.invariant (I := fun s => ∀ hc, s.card = some hc → s.detected = hc) nofun ?_
  intro s r s' same alike taken hc card
  by_cases connects : r.call = .connect
  · have known := alike connects s' taken
    obtain ⟨ok, d, ran, rfl⟩ := next_connect connects taken
    cases ok with
    | false => cases card
    | true =>
      cases card
      rcases known with high | none
      · simp only at high
        rw [high, Bool.or_true]
      · rw [none, Bool.false_or]
  · obtain ⟨_, d, ran, rfl⟩ := next_other connects taken
    exact same hc card

/-- After a successful connection the flag is right exactly if the card has high capacity or no card
before it had. While that is so at every connection, the flag is that of the card connected, and every
sequential read, sequential write and erase addresses its blocks in the unit of that card. -/
theorem address_units (s : Session) (hc : Bool) :
    (∀ (s' : Session) (r : Request), sessions.Reach (fun _ _ => True) s → r.call = .connect →
      s.next r = some s' → s'.card = some hc →
      hc = highCapacity s'.driver.replies ∧
      (s'.driver.blockAddresses = hc ↔ hc = true ∨ s.detected = false)) ∧
    (sessions.Reach CardsAlike s → s.card = some hc →
      s.driver.blockAddresses = hc ∧
      ∀ (r : Request) (s' : Session), s.next r = some s' → r.call.frames hc ≠ [] →
        s'.driver.sent ≠ [] ∧ s'.driver.sent <+: r.call.frames hc) := by
  constructor
  · intro s' r reached connects taken card
    have flag := flag_detected (.step reached trivial taken)
    obtain ⟨ok, d, ran, rfl⟩ := next_connect connects taken
    cases ok with
    | false => cases card
    | true =>
      cases card
      refine ⟨rfl, ?_⟩
      rw [flag]
      cases s.detected <;> cases highCapacity d.replies <;> simp
  · intro reached card
    have flag := (flag_detected reached).trans (flag_card reached hc card)
    refine ⟨flag, fun r s' taken addresses => ?_⟩
    have other : r.call ≠ .connect := fun connects => addresses (by rw [connects]; rfl)
    obtain ⟨_, d, ran, rfl⟩ := next_other other taken
    have unit : (s.begin r).blockAddresses = hc := flag
    rw [← unit] at addresses ⊢
    exact code_sent ran rfl addresses

/-! ## Two cards -/

/-- A card that knows no CMD8, of four blocks. -/
def oldCard : List UInt8 :=
  [0xFF, 0x01, 0xFF, 0x05, 0, 0, 0, 0, 0xFF, 0x00, 0xFF, 0x00,
    0xFF, 0x00, 0xFE, 0, 0, 0, 0, 0, 9, 0, 0, 0, 0, 0, 0, 0, 0, 0, 0,
    0xFF, 0x00, 0xFE, 0, 0, 0, 0, 0, 0, 0, 0, 0, 0, 0, 0, 0, 0, 0, 0]

/-- A card of 1024 blocks that takes block addresses. -/
def sdhcCard : List UInt8 :=
  [0xFF, 0x01, 0xFF, 0x01, 0, 0, 0, 0, 0xFF, 0x01, 0xFF, 0x00, 0, 0, 0, 0, 0xFF, 0x00, 0x40, 0, 0, 0, 0xFF, 0x00, 0xFF, 0x00,
    0xFF, 0x00, 0xFE, 0x40, 0, 0, 0, 0, 0, 0, 0, 0, 0, 0, 0, 0, 0, 0, 0,
    0xFF, 0x00, 0xFE, 0, 0, 0, 0, 0, 0, 0, 0, 0, 0, 0, 0, 0, 0, 0, 0]

/-- The card connected, the flag, and what a read of block 3 sends next. -/
structure Shown where
  card : Option Bool
  blockAddresses : Bool
  sent : Option (List (List UInt8))
  deriving DecidableEq

def Session.shows (s : Session) : Shown where
  card := s.card
  blockAddresses := s.driver.blockAddresses
  sent := (s.next ⟨.startRead 3, [0xFF, 0x00], 0⟩).map (·.driver.sent)

/-- Block 3 of the old card is at byte 1536. -/
theorem address_units_old : ∃ (s s' : Session), sessions.Reach CardsAlike s ∧ s.card = some false ∧
    s.next ⟨.startRead 3, [0xFF, 0x00], 0⟩ = some s' ∧ s.driver.blockAddresses = false ∧
    s'.driver.sent <+: [frame 18 1536] := by
  have connected : (sessions.next ⟨.connect, oldCard, 0⟩ sessions.init).map Session.shows =
      some ⟨some false, false, some [frame 18 1536]⟩ := by decide +kernel
  obtain ⟨s, taken, shown⟩ := Option.map_eq_some_iff.1 connected
  simp only [Session.shows, Shown.mk.injEq] at shown
  obtain ⟨s', read, -⟩ := Option.map_eq_some_iff.1 shown.2.2
  have reached : sessions.Reach CardsAlike s := .step .init (fun _ _ _ => .inr rfl) taken
  obtain ⟨flag, sends⟩ := (address_units s false).2 reached shown.1
  exact ⟨s, s', reached, shown.1, read, flag, (sends _ _ read nofun).2⟩

/-- The old card after the other one: block 3 is asked for at byte 3. -/
theorem address_units_exchanged :
    (sessions.run [⟨.connect, sdhcCard, 0⟩, ⟨.disconnect, [0xFF], 0⟩, ⟨.connect, oldCard, 0⟩] sessions.init).map Session.shows =
      some ⟨some false, true, some [frame 18 3]⟩ ∧
    frame 18 3 ≠ frame 18 (address false 3) := by
  decide +kernel

end ChibiOS.Mmc
