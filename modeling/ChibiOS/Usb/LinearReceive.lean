import ChibiOS.Usb.FifoCopy
import Mathlib.Data.List.GetD

/-!
# Receiving into a linear buffer (`usb_lld.c`)

`otg_rxfifo_handler` moves the packets of an OUT endpoint from the FIFO to memory. Words
are stored whole, and what is left of the buffer is rounded up to words for each packet,
so the last word may go beyond the end. Once more than three bytes too many have come,
what is left is an unsigned number below zero, and packets are stored behind the buffer.
-/

namespace ChibiOS.Usb

open Function
open Kernel Lib
open UInt32 (toNat_add ofNat_add toNat_sub toNat_div)
open List (length_cons append_assoc length_take)

/-! ## The handler -/

def grxstspPktstsMask : UInt32 := (15 : UInt32) <<< 17
def grxstspOutData : UInt32 := (2 : UInt32) <<< 17
def grxstspSetupData : UInt32 := (6 : UInt32) <<< 17
def grxstspBcntMask : UInt32 := (0x7FF : UInt32) <<< 4
def grxstspBcntOff : UInt32 := 4
def grxstspEpnumMask : UInt32 := (15 : UInt32) <<< 0
def grxstspEpnumOff : UInt32 := 0

def grxstspBcnt (sts : UInt32) : UInt32 := (sts &&& grxstspBcntMask) >>> grxstspBcntOff
def grxstspEpnum (sts : UInt32) : UInt32 := (sts &&& grxstspEpnumMask) >>> grxstspEpnumOff

/-- The union `mode`, with `rxqueued`, which says what is in it. -/
inductive RxMode
  | queue (rxqueue : Nat)
  | linear (rxbuf : UInt32)

/-- `USBOutEndpointState`. -/
structure OutState where
  mode : RxMode
  rxsize : UInt32
  rxcnt : UInt32

/-- The memory and the FIFO, with the endpoints that have been configured. `stored` are the addresses that bytes have been
stored at; it is not in the source. -/
structure RxSys where
  fifo : List UInt32
  mem : UInt32 → UInt8
  stored : List UInt32
  outState : UInt32 → OutState
  setupBuf : UInt32 → UInt32
  sys : Sys

namespace RxSys

def usbPrepareReceive (ep buf n : UInt32) (x : RxSys) : RxSys :=
  { x with outState := update x.outState ep ⟨.linear buf, n, 0⟩ }

/-- `*((uint32_t *)buf) = w`. -/
def storeWord (buf w : UInt32) (x : RxSys) : RxSys :=
  { x with
    mem := fun a => if (a - buf).toNat < 4 then wordByte w (a - buf).toNat else x.mem a
    stored := x.stored ++ [buf, buf + 1, buf + 2, buf + 3] }

/-- `while (n)`, with `max` words to store. An empty FIFO is not read. -/
def readLoop : Nat → Nat → UInt32 → RxSys → Option RxSys
  | 0, _, _, x => some x
  | n + 1, max, buf, x =>
    match x.fifo, max with
    | [], _ => none
    | _ :: ws, 0 => readLoop n 0 buf { x with fifo := ws }
    | w :: ws, max + 1 => readLoop n max (buf + 4) ({ x with fifo := ws }.storeWord buf w)

def otgFifoReadToBuffer (buf n max : UInt32) (x : RxSys) : Option RxSys :=
  x.readLoop ((n + 3) / 4).toNat ((max + 3) / 4).toNat buf

def otgRxfifoHandler (sts : UInt32) (x : RxSys) : Option RxSys :=
  let pktsts := sts &&& grxstspPktstsMask
  let cnt := grxstspBcnt sts
  let ep := grxstspEpnum sts
  if pktsts = grxstspSetupData then x.otgFifoReadToBuffer (x.setupBuf ep) cnt 8
  else if pktsts = grxstspOutData then do
    let osp := x.outState ep
    let (x, mode) ← match osp.mode with
      | .queue k => do
        let (fifo, s) ← otgFifoReadToQueue k cnt.toNat cnt.toNat x.fifo x.sys
        some ({ x with fifo := fifo, sys := s }, RxMode.queue k)
      | .linear rxbuf => do
        let x ← x.otgFifoReadToBuffer rxbuf cnt (osp.rxsize - osp.rxcnt)
        some (x, RxMode.linear (rxbuf + cnt))
    some { x with outState := update x.outState ep ⟨mode, osp.rxsize, osp.rxcnt + cnt⟩ }
  else some x

/-- The handler, called for one status after the other. -/
def receive : List UInt32 → RxSys → Option RxSys
  | [], x => some x
  | sts :: stss, x => (x.otgRxfifoHandler sts).bind (receive stss)

end RxSys

/-- A data packet for the endpoint `ep`: what the controller reports of it, and its words in the FIFO. -/
structure OutPacket (ep : UInt32) where
  sts : UInt32
  words : List UInt32
  data : sts &&& grxstspPktstsMask = grxstspOutData
  endpoint : grxstspEpnum sts = ep
  length : words.length = ((grxstspBcnt sts).toNat + 3) / 4

def OutPacket.cnt {ep : UInt32} (p : OutPacket ep) : Nat := (grxstspBcnt p.sts).toNat

open OutPacket (cnt)

def OutPacket.bytes {ep : UInt32} (p : OutPacket ep) : List UInt8 := (wordsBytes p.words).take p.cnt

/-! ## Words in memory -/

/-- Words are stored one after the other. -/
def RxSys.storeWords (buf : UInt32) : List UInt32 → RxSys → RxSys
  | [], x => x
  | w :: ws, x => storeWords (buf + 4) ws (x.storeWord buf w)

variable {ep buf n a : UInt32} {x y : RxSys} {ws rest : List UInt32} {o : Nat}

theorem storeWords_outState (buf : UInt32) (ws : List UInt32) (x : RxSys) :
    (x.storeWords buf ws).outState = x.outState := by
  induction ws generalizing buf x with
  | nil => rfl
  | cons w ws ih => exact ih (buf + 4) (x.storeWord buf w)

/-- The FIFO does not matter to the stores. -/
theorem storeWords_fifo (fifo : List UInt32) (buf : UInt32) (ws : List UInt32) (x : RxSys) :
    { x with fifo := fifo }.storeWords buf ws = { x.storeWords buf ws with fifo := fifo } := by
  induction ws generalizing buf x with
  | nil => rfl
  | cons w ws ih => exact ih (buf + 4) (x.storeWord buf w)

theorem storeWords_stored (buf : UInt32) (ws : List UInt32) (x : RxSys) : (x.storeWords buf ws).stored =
    x.stored ++ (List.range (4 * ws.length)).map fun j => buf + UInt32.ofNat j := by
  induction ws generalizing buf x with
  | nil => simp [RxSys.storeWords]
  | cons w ws ih =>
    have first : (List.range 4).map (fun j => buf + UInt32.ofNat j) = [buf, buf + 1, buf + 2, buf + 3] := by
      simp [List.range_succ]
    have shift : ∀ j : Nat, buf + UInt32.ofNat (4 + j) = buf + 4 + UInt32.ofNat j := fun j => by
      rw [ofNat_add, UInt32.add_assoc]
      rfl
    rw [RxSys.storeWords, ih, length_cons, Nat.mul_succ, add_comm (4 * ws.length), List.range_add, List.map_append,
      List.map_map, first, ← append_assoc]
    exact congrArg (_ ++ ·) (List.map_congr_left fun j _ => (shift j).symm)

/-- How far an address is from one four bytes on. -/
theorem sub_add_four (a buf : UInt32) : (4 ≤ (a - buf).toNat → (a - (buf + 4)).toNat + 4 = (a - buf).toNat) ∧
      ((a - buf).toNat < 4 → (a - (buf + 4)).toNat + 4 = (a - buf).toNat + 2 ^ 32) := by
  have four : (4 : UInt32).toNat = 4 := rfl
  have lt := a.toNat_lt
  have lt' := buf.toNat_lt
  rw [toNat_sub, toNat_sub, toNat_add, four]
  omega

/-- The bytes that are there afterwards. -/
theorem storeWords_mem (ws : List UInt32) (bound : 4 * ws.length ≤ 2 ^ 32) (buf a : UInt32) (x : RxSys) :
    (x.storeWords buf ws).mem a = if (a - buf).toNat < 4 * ws.length then (wordsBytes ws).getD
    (a - buf).toNat 0 else x.mem a := by
  induction ws generalizing buf x with
  | nil => rfl
  | cons w ws ih =>
    rw [length_cons] at bound
    rw [RxSys.storeWords, ih (by omega), wordsBytes_cons]
    obtain ⟨behind, before⟩ := sub_add_four a buf
    by_cases near : (a - buf).toNat < 4
    · have far := before near
      have word : (leBytes w ++ wordsBytes ws).getD (a - buf).toNat 0 = wordByte w (a - buf).toNat := by
        generalize (a - buf).toNat = d at near
        obtain rfl | rfl | rfl | rfl : d = 0 ∨ d = 1 ∨ d = 2 ∨ d = 3 := by omega
        all_goals rfl
      rw [if_neg (by omega), if_pos (by rw [length_cons]; omega), word]
      exact if_pos near
    · have rest := behind (not_lt.1 near)
      have old : (x.storeWord buf w).mem a = x.mem a := if_neg near
      rw [List.getD_append_right _ _ _ _ (by rw [leBytes_length]; omega), leBytes_length, ← rest, Nat.add_sub_cancel, old,
        length_cons]
      exact if_congr (by omega) rfl rfl

/-- All the words are read, and the first `max` of them stored. -/
theorem readLoop_eq (max : Nat) (fifo : x.fifo = ws ++ rest) :
    x.readLoop ws.length max buf = some { x.storeWords buf (ws.take max) with fifo := rest } := by
  induction ws generalizing max buf x with
  | nil =>
    have left : x.fifo = rest := fifo
    rw [List.take_nil, RxSys.storeWords, ← left]
    rfl
  | cons w ws ih =>
    cases max with
    | zero =>
      simp only [length_cons, RxSys.readLoop, fifo, List.cons_append]
      rw [ih 0 rfl, storeWords_fifo]
      rfl
    | succ max =>
      simp only [length_cons, RxSys.readLoop, fifo, List.cons_append]
      have stored : (({ x with fifo := ws ++ rest } : RxSys).storeWord buf w).storeWords (buf + 4) (ws.take max) =
          { x.storeWords buf (w :: ws.take max) with fifo := ws ++ rest } := storeWords_fifo (ws ++ rest) buf (w :: ws.take max) x
      rw [ih max rfl, stored]
      rfl

/-! ## A packet -/

theorem OutPacket.cnt_le (p : OutPacket ep) : p.cnt ≤ 2047 := by
  have masked : (p.sts &&& grxstspBcntMask).toNat ≤ 0x7FF0 := by
    rw [UInt32.toNat_and]
    exact Nat.and_le_right
  have shifted : p.cnt = (p.sts &&& grxstspBcntMask).toNat / 16 := by
    rw [cnt, grxstspBcnt, UInt32.toNat_shiftRight, Nat.shiftRight_eq_div_pow]
    rfl
  omega

theorem OutPacket.bytes_length (p : OutPacket ep) : p.bytes.length = p.cnt := by
  rw [bytes, length_take, wordsBytes_length, p.length, cnt]
  omega

/-- The words that are taken to fit when `o` bytes have been received. -/
def roomWords (n : UInt32) (o : Nat) : Nat := ((n - UInt32.ofNat o + 3) / 4).toNat

theorem roomWords_eq (n : UInt32) (o : Nat) : roomWords n o = ((2 ^ 32 - o % 2 ^ 32 + n.toNat) % 2 ^ 32 + 3) % 2 ^ 32 / 4 := by
  rw [roomWords, toNat_div, toNat_add, toNat_sub, UInt32.toNat_ofNat']
  rfl

theorem roomWords_inside (memory : n.toNat + 0x11000 ≤ 2 ^ 32) (le : o ≤ n.toNat) : roomWords n o = (n.toNat - o + 3) / 4 := by
  rw [roomWords_eq]
  omega

theorem roomWords_past (lt : n.toNat < o) (le : o ≤ n.toNat + 3) : roomWords n o = 0 := by
  rw [roomWords_eq]
  omega

theorem roomWords_wrapped (lt : n.toNat + 3 < o) (le : o ≤ n.toNat + 2050) : 512 ≤ roomWords n o := by
  rw [roomWords_eq]
  omega

/-- `o` bytes have been received. -/
def Receiving (ep buf n : UInt32) (o : Nat) (x : RxSys) : Prop :=
  x.outState ep = ⟨.linear (buf + UInt32.ofNat o), n, UInt32.ofNat o⟩

/-- The state after a packet. -/
def afterPacket (buf n : UInt32) (o : Nat) (p : OutPacket ep) (rest : List UInt32) (x : RxSys) : RxSys :=
  { x.storeWords (buf + UInt32.ofNat o) (p.words.take (roomWords n o)) with
    fifo := rest
    outState := update x.outState ep ⟨.linear (buf + UInt32.ofNat (o + p.cnt)), n, UInt32.ofNat (o + p.cnt)⟩ }

theorem otgRxfifoHandler_eq (at_ : Receiving ep buf n o x) (p : OutPacket ep) (fifo : x.fifo = p.words ++ rest) :
    x.otgRxfifoHandler p.sts = some (afterPacket buf n o p rest x) := by
  have sum : UInt32.ofNat o + grxstspBcnt p.sts = UInt32.ofNat (o + p.cnt) := by
    rw [ofNat_add, cnt, UInt32.ofNat_toNat]
  have words : ((grxstspBcnt p.sts + 3) / 4).toNat = p.words.length := by
    have small : (grxstspBcnt p.sts).toNat + 3 < 2 ^ 32 := lt_of_le_of_lt (Nat.add_le_add_right p.cnt_le 3) (by decide)
    rw [p.length, toNat_div, toNat_add]
    exact congrArg (· / 4) (Nat.mod_eq_of_lt small)
  have read : x.otgFifoReadToBuffer (buf + UInt32.ofNat o) (grxstspBcnt p.sts) (n - UInt32.ofNat o) =
      some { x.storeWords (buf + UInt32.ofNat o) (p.words.take (roomWords n o)) with fifo := rest } := by
    rw [RxSys.otgFifoReadToBuffer, words]
    exact readLoop_eq _ fifo
  have outData : ¬ grxstspOutData = grxstspSetupData := by decide
  simp only [RxSys.otgRxfifoHandler, p.data, p.endpoint, if_neg outData, if_true]
  rw [Receiving] at at_
  simp only [at_, read]
  rw [afterPacket, ← sum, ← UInt32.add_assoc, ← storeWords_outState (buf + UInt32.ofNat o) (p.words.take (roomWords n o)) x]
  rfl

theorem afterPacket_receiving (p : OutPacket ep) : Receiving ep buf n (o + p.cnt) (afterPacket buf n o p rest x) :=
  update_self ..

theorem afterPacket_stored (p : OutPacket ep) : (afterPacket buf n o p rest x).stored = x.stored ++
    (List.range (4 * min (roomWords n o) ((p.cnt + 3) / 4))).map fun j => buf + UInt32.ofNat (o + j) := by
  have words : (p.words.take (roomWords n o)).length = min (roomWords n o) ((p.cnt + 3) / 4) := by
    rw [length_take, p.length]
    rfl
  rw [← words]
  refine (storeWords_stored ..).trans (congrArg _ (List.map_congr_left fun j _ => ?_))
  rw [ofNat_add, UInt32.add_assoc]

/-! ## All packets -/

/-- A packet of `c` bytes does not go beyond the end of `n` bytes, `o` bytes before it: it is empty, its words fit, what is
left is a number of words, or at most three bytes too many have come before it. -/
def PacketFits (n o c : Nat) : Prop :=
  c = 0 ∨ o ≤ n ∧ (4 * ((c + 3) / 4) ≤ n - o ∨ 4 ∣ n - o) ∨ n < o ∧ o ≤ n + 3

instance (n o c : Nat) : Decidable (PacketFits n o c) := by unfold PacketFits; infer_instance

/-- So for each of the packets of these sizes. -/
def Fits (n : Nat) : Nat → List Nat → Prop
  | _, [] => True
  | o, c :: cs => PacketFits n o c ∧ Fits n (o + c) cs

/-- Where the packets of these sizes are stored. -/
def storedAt (buf n : UInt32) : Nat → List Nat → List UInt32
  | _, [] => []
  | o, c :: cs => ((List.range (4 * min (roomWords n o) ((c + 3) / 4))).map fun j => buf + UInt32.ofNat (o + j)) ++
      storedAt buf n (o + c) cs

theorem packetFits_iff {c : Nat} (memory : n.toNat + 0x11000 ≤ 2 ^ 32) (before : o ≤ n.toNat + 2050) (small : c ≤ 2047) :
    PacketFits n.toNat o c ↔ 4 * min (roomWords n o) ((c + 3) / 4) = 0 ∨
      o + 4 * min (roomWords n o) ((c + 3) / 4) ≤ n.toNat := by
  rw [PacketFits]
  rcases lt_or_ge n.toNat o with past | le
  · rcases lt_or_ge (n.toNat + 3) o with wrapped | few
    · have room := roomWords_wrapped wrapped before
      omega
    · rw [roomWords_past past few]
      omega
  · rw [roomWords_inside memory le]
    omega

/-- After a packet that fits, not many too many have come. -/
theorem PacketFits.before {m c : Nat} (fits : PacketFits m o c) (before : o ≤ m + 2050) (small : c ≤ 2047) :
    o + c ≤ m + 2050 := by
  unfold PacketFits at fits
  omega

theorem distance (buf : UInt32) {i : Nat} (lt : i < 2 ^ 32) : (buf + UInt32.ofNat i - buf).toNat = i := by
  have bound := buf.toNat_lt
  rw [toNat_sub, toNat_add, UInt32.toNat_ofNat_of_lt' lt]
  omega

theorem distance_offset (buf : UInt32) {i o : Nat} (lt : i < 2 ^ 32) (lt' : o < 2 ^ 32) :
    (buf + UInt32.ofNat i - (buf + UInt32.ofNat o)).toNat = (2 ^ 32 - o + i) % 2 ^ 32 := by
  have bound := buf.toNat_lt
  rw [toNat_sub, toNat_add, toNat_add, UInt32.toNat_ofNat_of_lt' lt, UInt32.toNat_ofNat_of_lt' lt']
  omega

/-- The sizes tell whether all stores are inside. -/
theorem storedAt_inside (memory : n.toNat + 0x11000 ≤ 2 ^ 32) (cs : List Nat) (small : ∀ c ∈ cs, c ≤ 2047) {o : Nat}
    (before : o ≤ n.toNat + 2050) : (∀ a ∈ storedAt buf n o cs, (a - buf).toNat < n.toNat) ↔ Fits n.toNat o cs := by
  induction cs generalizing o with
  | nil => simp [storedAt, Fits]
  | cons c cs ih =>
    obtain ⟨first, others⟩ := List.forall_mem_cons.1 small
    have packet : (∀ a ∈ (List.range (4 * min (roomWords n o) ((c + 3) / 4))).map (fun j => buf + UInt32.ofNat (o + j)),
        (a - buf).toNat < n.toNat) ↔ PacketFits n.toNat o c := by
      rw [packetFits_iff memory before first, List.forall_mem_map]
      have few : 4 * min (roomWords n o) ((c + 3) / 4) ≤ 2048 := by omega
      generalize 4 * min (roomWords n o) ((c + 3) / 4) = k at few
      have at_ : ∀ j < k, (buf + UInt32.ofNat (o + j) - buf).toNat = o + j := fun j lt => distance buf (by omega)
      constructor
      · intro inside
        by_contra escapes
        have last := inside (k - 1) (List.mem_range.2 (by omega))
        rw [at_ _ (by omega)] at last
        omega
      · intro fits j mem
        have lt := List.mem_range.1 mem
        rw [at_ j lt]
        omega
    rw [storedAt, Fits, List.forall_mem_append, packet]
    exact and_congr_right fun fits => ih others (fits.before before first)

/-- The first bytes of the buffer are those of `bs`. -/
def Contains (buf n : UInt32) (bs : List UInt8) (x : RxSys) : Prop :=
  ∀ i < min n.toNat bs.length, bs[i]? = some (x.mem (buf + UInt32.ofNat i))

theorem Contains.afterPacket {bs : List UInt8} (contains : Contains buf n bs x) (memory : n.toNat + 0x11000 ≤ 2 ^ 32)
    (before : bs.length ≤ n.toNat + 2050) (p : OutPacket ep) :
    Contains buf n (bs ++ p.bytes) (afterPacket buf n bs.length p rest x) := by
  have small := p.cnt_le
  have length : (p.words.take (roomWords n bs.length)).length = min (roomWords n bs.length) ((p.cnt + 3) / 4) := by
    rw [length_take, p.length]
    rfl
  intro i lt
  rw [List.length_append, p.bytes_length] at lt
  have mem : (Usb.afterPacket buf n bs.length p rest x).mem (buf + UInt32.ofNat i) = _ :=
    storeWords_mem (p.words.take (roomWords n bs.length)) (by omega) (buf + UInt32.ofNat bs.length) (buf + UInt32.ofNat i) x
  rw [mem, distance_offset buf (by omega) (by omega), length]
  rcases lt_or_ge i bs.length with old | new
  · rw [if_neg (by omega), List.getElem?_append_left old]
    exact contains i (by omega)
  · have room := roomWords_inside memory (o := bs.length) (by omega)
    have at_ : (2 ^ 32 - bs.length + i) % 2 ^ 32 = i - bs.length := by omega
    rw [at_, if_pos (by omega), List.getElem?_append_right new, wordsBytes_take, List.getD_eq_getElem?_getD,
      List.getElem?_take_of_lt (by omega), OutPacket.bytes, List.getElem?_take_of_lt (by omega)]
    have stored : i - bs.length < (wordsBytes p.words).length := by
      rw [wordsBytes_length, p.length]
      exact lt_of_lt_of_le (by omega : i - bs.length < p.cnt) (by rw [cnt]; omega)
    rw [List.getElem?_eq_getElem stored]
    rfl

/-- All words are read. -/
theorem receive_runs (ps : List (OutPacket ep)) {x : RxSys} (at_ : Receiving ep buf n o x)
    (fifo : x.fifo = ps.flatMap OutPacket.words ++ rest) : ∃ y, x.receive (ps.map OutPacket.sts) = some y ∧ y.fifo = rest ∧
      y.stored = x.stored ++ storedAt buf n o (ps.map cnt) := by
  induction ps generalizing o x with
  | nil => exact ⟨x, rfl, fifo, (List.append_nil _).symm⟩
  | cons p ps ih =>
    rw [List.flatMap_cons, append_assoc] at fifo
    obtain ⟨y, ran, left, stored⟩ := ih (afterPacket_receiving p) rfl
    refine ⟨y, ?_, left, ?_⟩
    · rwa [List.map_cons, RxSys.receive, otgRxfifoHandler_eq at_ p fifo]
    · rw [stored, afterPacket_stored, append_assoc]
      rfl

/-- What fits is stored in order. -/
theorem receive_contains (memory : n.toNat + 0x11000 ≤ 2 ^ 32) (ps : List (OutPacket ep)) {x : RxSys} {bs : List UInt8}
    (at_ : Receiving ep buf n bs.length x) (fifo : x.fifo = ps.flatMap OutPacket.words ++ rest)
    (before : bs.length ≤ n.toNat + 2050) (contains : Contains buf n bs x) (fits : Fits n.toNat bs.length (ps.map cnt))
    (ran : x.receive (ps.map OutPacket.sts) = some y) : Contains buf n (bs ++ ps.flatMap OutPacket.bytes) y := by
  induction ps generalizing x bs with
  | nil =>
    cases ran
    simpa using contains
  | cons p ps ih =>
    obtain ⟨first, others⟩ := fits
    rw [List.flatMap_cons, append_assoc] at fifo
    rw [List.map_cons, RxSys.receive, otgRxfifoHandler_eq at_ p fifo] at ran
    have length : (bs ++ p.bytes).length = bs.length + p.cnt := by rw [List.length_append, p.bytes_length]
    rw [List.flatMap_cons, ← append_assoc]
    exact ih (length ▸ afterPacket_receiving p) rfl (length ▸ first.before before p.cnt_le) (contains.afterPacket memory before p)
      (length ▸ others) ran

/-- Since `x`, bytes have been stored only in the `n` bytes from `buf` on, which start with the bytes `bs` as far as there
is room. -/
structure LinearReceived (buf n : UInt32) (bs : List UInt8) (x y : RxSys) : Prop where
  inside : ∃ as, y.stored = x.stored ++ as ∧ ∀ a ∈ as, (a - buf).toNat < n.toNat
  content : Contains buf n bs y

/-- Every packet is taken from the FIFO. The buffer, which shares the address space with the registers, gets what it should
if and only if the sizes of the packets are right. -/
theorem linear_reception (memory : n.toNat + 0x11000 ≤ 2 ^ 32) (ps : List (OutPacket ep))
    (fifo : x.fifo = ps.flatMap OutPacket.words ++ rest) :
    ∃ y, (x.usbPrepareReceive ep buf n).receive (ps.map OutPacket.sts) = some y ∧ y.fifo = rest ∧
      (LinearReceived buf n (ps.flatMap OutPacket.bytes) x y ↔ Fits n.toNat 0 (ps.map cnt)) := by
  have at_ : Receiving ep buf n 0 (x.usbPrepareReceive ep buf n) := by
    simp [Receiving, RxSys.usbPrepareReceive]
  obtain ⟨y, ran, left, stored⟩ := receive_runs ps at_ fifo
  have small : ∀ c ∈ ps.map cnt, c ≤ 2047 := List.forall_mem_map.2 fun p _ => p.cnt_le
  have inside : (∀ a ∈ storedAt buf n 0 (ps.map cnt), (a - buf).toNat < n.toNat) ↔ _ :=
    storedAt_inside memory _ small (Nat.zero_le (n.toNat + 2050))
  refine ⟨y, ran, left, fun received => ?_, fun fits => ⟨⟨_, stored, inside.2 fits⟩, ?_⟩⟩
  · obtain ⟨as, same, all⟩ := received.inside
    obtain rfl := List.append_cancel_left (stored.symm.trans same)
    exact inside.1 all
  · have empty : Contains buf n [] (x.usbPrepareReceive ep buf n) := by simp [Contains]
    have ready : (x.usbPrepareReceive ep buf n).fifo = ps.flatMap OutPacket.words ++ rest := fifo
    exact receive_contains memory ps at_ ready (Nat.zero_le _) empty fits ran

/-- The seven bytes of a `cdc_linecoding_t`, for endpoint zero. -/
def lineCoding : OutPacket 0 := ⟨0x40070, [0x04030201, 0x070605], by decide, by decide, by decide⟩

/-- The packet is in the FIFO. -/
def lineCodingSent : RxSys := ⟨lineCoding.words, fun _ => 0, [], fun _ => ⟨.linear 0, 0, 0⟩, fun _ => 0, chSysInit smallConfig⟩

theorem linear_reception_eight : ∃ y, (lineCodingSent.usbPrepareReceive 0 0x20000000 8).receive [0x40070] = some y ∧
    y.fifo = [] ∧ LinearReceived 0x20000000 8 [1, 2, 3, 4, 5, 6, 7] lineCodingSent y := by
  obtain ⟨y, ran, left, received⟩ := @linear_reception 0 0x20000000 8 lineCodingSent [] (by decide) [lineCoding] rfl
  exact ⟨y, ran, left, received.2 ⟨by decide, trivial⟩⟩

/-- A byte goes beyond the end of `linecoding`. -/
theorem linear_reception_escapes : ∃ y, (lineCodingSent.usbPrepareReceive 0 0x20000000 7).receive [0x40070] = some y ∧
    ¬ LinearReceived 0x20000000 7 [1, 2, 3, 4, 5, 6, 7] lineCodingSent y := by
  refine ⟨_, rfl, fun received => ?_⟩
  obtain ⟨as, stored, inside⟩ := received.inside
  have addresses : as = [0x20000000, 0x20000001, 0x20000002, 0x20000003, 0x20000004, 0x20000005, 0x20000006, 0x20000007] :=
    stored.symm
  exact absurd (inside 0x20000007 (by rw [addresses]; decide)) (by decide)

end ChibiOS.Usb
