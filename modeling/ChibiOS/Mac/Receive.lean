import Mathlib.Data.List.Nodup
import Mathlib.Logic.Function.Basic
import ChibiOS.Lib.Lts

/-!
# Receive descriptors of the Ethernet driver

`macWaitReceiveDescriptor` and `macReleaseReceiveDescriptor` over the ring of the
STM32 driver. The search for a frame runs under the system lock, but the DMA works
on beside it: its rounds are steps of their own. A descriptor that is handed out
keeps its word, without the ownership bit, until it is released; nothing else tells
it from a frame that has just come in. So it is handed out again when the cursor
comes round to it, and this is the only way: while no round looks at a descriptor
that a caller holds, each is handed out once.
-/

namespace ChibiOS.Mac

open Lib Function

/-- `STM32_MAC_RECEIVE_BUFFERS` and `STM32_MAC_IP_CHECKSUM_OFFLOAD`. -/
structure MacConfig where
  receiveBuffers : Nat
  ipChecksumOffload : Bool

/-! ## Descriptor words -/

def rdes0Own : BitVec 32 := 0x80000000
def rdes0Afm : BitVec 32 := 0x40000000
def rdes0FlMask : BitVec 32 := 0x3FFF0000
def rdes0Es : BitVec 32 := 0x00008000
def rdes0Fs : BitVec 32 := 0x00000200
def rdes0Ls : BitVec 32 := 0x00000100
def rdes0Iphce : BitVec 32 := 0x00000080
def rdes0Ft : BitVec 32 := 0x00000020
def rdes0Pce : BitVec 32 := 0x00000001

/-- The descriptor belongs to the DMA. -/
def owned (w : BitVec 32) : Bool := w &&& rdes0Own != 0

/-- The test on a received frame. -/
def validFrame (cfg : MacConfig) (w : BitVec 32) : Bool :=
  w &&& (rdes0Afm ||| rdes0Es) == 0 &&
    (!cfg.ipChecksumOffload || (w &&& rdes0Ft != 0 && w &&& (rdes0Iphce ||| rdes0Pce) == 0)) &&
    w &&& rdes0Fs != 0 && w &&& rdes0Ls != 0

/-- The last four bytes of a frame are its checksum. -/
def frameSize (w : BitVec 32) : BitVec 32 := ((w &&& rdes0FlMask) >>> 16) - 4

/-! ## The driver -/

/-- `physdesc` is a place in the ring. -/
structure MACReceiveDescriptor where
  offset : Nat := 0
  size : BitVec 32
  physdesc : Nat
  deriving DecidableEq

/-- `scan` is the thread that searches the ring, under the system lock, and the place it looks at;
`asleep` are the threads that wait on `rdsem`. The descriptors that callers hold are not in the source. -/
structure MACDriver where
  rdes0 : Nat → BitVec 32
  rxptr : Nat
  scan : Option (Nat × Nat)
  asleep : Nat → Bool
  held : List MACReceiveDescriptor

/-- `rdes3`. -/
def MacConfig.rdes3 (cfg : MacConfig) (i : Nat) : Nat := (i + 1) % cfg.receiveBuffers

/-- `mac_lld_start`. -/
def macLldStart : MACDriver where
  rdes0 _ := rdes0Own
  rxptr := 0
  scan := none
  asleep _ := false
  held := []

inductive Label
  /-- A thread calls `macWaitReceiveDescriptor`. -/
  | wait (t : Nat)
  /-- A thread is woken from `rdsem` and tries again. -/
  | retry (t : Nat)
  /-- The wait on `rdsem` ends with `RDY_TIMEOUT`. -/
  | expire (t : Nat)
  /-- A round of the search; `more` if time is left when it fails. -/
  | examine (more : Bool)
  | release (rdp : MACReceiveDescriptor)
  /-- The DMA writes a descriptor that it owns. -/
  | dma (i : Nat) (w : BitVec 32)

namespace MACDriver

/-- The head of `mac_lld_get_receive_descriptor`. -/
def getReceiveDescriptor (t : Nat) (d : MACDriver) : MACDriver :=
  { d with scan := some (t, d.rxptr), asleep := update d.asleep t false }

/-- One round of its loop, at `rdes`. -/
def examine (cfg : MacConfig) (more : Bool) (t rdes : Nat) (d : MACDriver) : MACDriver :=
  if owned (d.rdes0 rdes) then { d with rxptr := rdes, scan := none, asleep := update d.asleep t more }
  else if validFrame cfg (d.rdes0 rdes) then
    { d with
      rxptr := cfg.rdes3 rdes
      scan := none
      held := { size := frameSize (d.rdes0 rdes), physdesc := rdes } :: d.held }
  else { d with rdes0 := update d.rdes0 rdes rdes0Own, scan := some (t, cfg.rdes3 rdes) }

/-- `mac_lld_release_receive_descriptor`. -/
def releaseReceiveDescriptor (rdp : MACReceiveDescriptor) (d : MACDriver) : MACDriver :=
  { d with rdes0 := update d.rdes0 rdp.physdesc rdes0Own, held := d.held.erase rdp }

/-- Threads take the system lock, the DMA does not. A caller releases what it holds. -/
def next (cfg : MacConfig) (l : Label) (d : MACDriver) : Option MACDriver :=
  match l with
  | .wait t => if d.scan = none ∧ d.asleep t = false then some (d.getReceiveDescriptor t) else none
  | .retry t => if d.scan = none ∧ d.asleep t = true then some (d.getReceiveDescriptor t) else none
  | .expire t => if d.scan = none ∧ d.asleep t = true then some { d with asleep := update d.asleep t false } else none
  | .examine more => d.scan.map fun (t, rdes) => d.examine cfg more t rdes
  | .release rdp => if d.scan = none ∧ rdp ∈ d.held then some (d.releaseReceiveDescriptor rdp) else none
  | .dma i w => if i < cfg.receiveBuffers ∧ owned (d.rdes0 i) then some { d with rdes0 := update d.rdes0 i w } else none

end MACDriver

def receiveRing (cfg : MacConfig) : Lts MACDriver Label where
  init := macLldStart
  next := MACDriver.next cfg

/-! ## Frames are handed out once -/

/-- No descriptor is held twice, and none that is held belongs to the DMA. -/
structure HandedOnce (d : MACDriver) : Prop where
  once : (d.held.map (·.physdesc)).Nodup
  kept : ∀ r ∈ d.held, owned (d.rdes0 r.physdesc) = false

/-- With it, what is held is still a valid frame to the search. -/
structure HeldOk (cfg : MacConfig) (d : MACDriver) : Prop extends HandedOnce d where
  valid : ∀ r ∈ d.held, validFrame cfg (d.rdes0 r.physdesc) = true

/-- A round of the search looks at no descriptor that a caller holds. -/
def Unheld (d : MACDriver) (l : Label) : Prop :=
  ∀ more t rdes, l = .examine more → d.scan = some (t, rdes) → rdes ∉ d.held.map (·.physdesc)

variable {cfg : MacConfig} {d d' : MACDriver} {l : Label}

section

variable (ok : HeldOk cfg d)
include ok

/-- The words of the held descriptors are all that matters. -/
theorem HeldOk.congr (held : d'.held = d.held) (words : ∀ r ∈ d.held, d'.rdes0 r.physdesc = d.rdes0 r.physdesc) : HeldOk cfg d' where
  once := by rw [held]; exact ok.once
  kept r mem := by
    rw [held] at mem
    rw [words r mem]
    exact ok.kept r mem
  valid r mem := by
    rw [held] at mem
    rw [words r mem]
    exact ok.valid r mem

/-- A descriptor that nobody holds may be written. -/
theorem HeldOk.write (held : d'.held = d.held) {i : Nat} {w : BitVec 32} (words : d'.rdes0 = update d.rdes0 i w)
    (free : i ∉ d.held.map (·.physdesc)) : HeldOk cfg d' := by
  refine ok.congr held fun r mem => ?_
  rw [words, update_of_ne]
  rintro rfl
  exact free (List.mem_map_of_mem mem)

theorem HeldOk.not_owned {i : Nat} (own : owned (d.rdes0 i) = true) : i ∉ d.held.map (·.physdesc) := by
  intro held
  obtain ⟨r, mem, rfl⟩ := List.mem_map.1 held
  rw [ok.kept r mem] at own
  cases own

theorem HeldOk.examine (more : Bool) (t : Nat) {rdes : Nat} (free : rdes ∉ d.held.map (·.physdesc)) :
    HeldOk cfg (d.examine cfg more t rdes) := by
  unfold MACDriver.examine
  split
  · exact ok.congr rfl fun _ _ => rfl
  next unowned =>
    split
    next valid =>
      refine ⟨⟨List.nodup_cons.2 ⟨free, ok.once⟩, ?_⟩, ?_⟩
      · intro r mem
        rcases List.mem_cons.1 mem with rfl | mem
        · exact Bool.eq_false_iff.2 unowned
        · exact ok.kept r mem
      · intro r mem
        rcases List.mem_cons.1 mem with rfl | mem
        · exact valid
        · exact ok.valid r mem
    · exact ok.write rfl rfl free

/-- A round that looks at a held descriptor hands it out again. -/
theorem HeldOk.examine_held (more : Bool) (t : Nat) {rdes : Nat} (held : rdes ∈ d.held.map (·.physdesc)) :
    ¬ HandedOnce (d.examine cfg more t rdes) := by
  obtain ⟨r, mem, rfl⟩ := List.mem_map.1 held
  have again : (d.examine cfg more t r.physdesc).held =
      { size := frameSize (d.rdes0 r.physdesc), physdesc := r.physdesc } :: d.held := by
    simp [MACDriver.examine, ok.kept r mem, ok.valid r mem]
  intro handed
  have once := handed.once
  rw [again, List.map_cons, List.nodup_cons] at once
  exact once.1 held

/-- The descriptors still held after a release are others. -/
theorem HeldOk.release {rdp : MACReceiveDescriptor} (mem : rdp ∈ d.held) :
    HeldOk cfg (d.releaseReceiveDescriptor rdp) := by
  have others : ∀ r ∈ d.held.erase rdp, r ∈ d.held ∧ r.physdesc ≠ rdp.physdesc := by
    intro r kept
    have nodup : d.held.Nodup := List.Nodup.of_map _ ok.once
    obtain ⟨ne, mem'⟩ := (List.Nodup.mem_erase_iff nodup).1 kept
    exact ⟨mem', fun same => ne (List.inj_on_of_nodup_map ok.once mem' mem same)⟩
  have words : ∀ r ∈ d.held.erase rdp, (d.releaseReceiveDescriptor rdp).rdes0 r.physdesc = d.rdes0 r.physdesc :=
    fun r kept => update_of_ne (others r kept).2 ..
  refine ⟨⟨?_, ?_⟩, ?_⟩
  · exact ok.once.sublist (List.erase_sublist.map _)
  · intro r kept
    rw [words r kept]
    exact ok.kept r (others r kept).1
  · intro r kept
    rw [words r kept]
    exact ok.valid r (others r kept).1

theorem HeldOk.step (unheld : Unheld d l) (taken : d.next cfg l = some d') : HeldOk cfg d' := by
  cases l with
  | wait | retry | expire =>
    obtain ⟨-, ⟨⟩⟩ := Option.ite_none_right_eq_some.1 taken
    exact ok.congr rfl fun _ _ => rfl
  | examine more =>
    obtain ⟨⟨t, rdes⟩, scan, rfl⟩ := Option.map_eq_some_iff.1 taken
    exact ok.examine more t (unheld more t rdes rfl scan)
  | release rdp =>
    obtain ⟨⟨-, mem⟩, ⟨⟩⟩ := Option.ite_none_right_eq_some.1 taken
    exact ok.release mem
  | dma i w =>
    obtain ⟨⟨-, own⟩, ⟨⟩⟩ := Option.ite_none_right_eq_some.1 taken
    exact ok.write rfl rfl (ok.not_owned own)

end

/-- In every run whose searches look at no descriptor that a caller holds, no descriptor that is held
is returned again or given back to the DMA; and the next step keeps this up exactly if it meets the same
condition. -/
theorem handed_out_once (reached : (receiveRing cfg).Reach Unheld d) :
    HandedOnce d ∧ ∀ l d', d.next cfg l = some d' → (HandedOnce d' ↔ Unheld d l) := by
  have ok : HeldOk cfg d := by
    refine reached.invariant ⟨⟨.nil, nofun⟩, nofun⟩ ?_
    exact fun s l s' ok unheld taken => ok.step unheld taken
  refine ⟨ok.toHandedOnce, fun l d' taken => ⟨fun handed => ?_, fun unheld => (ok.step unheld taken).toHandedOnce⟩⟩
  rintro more t rdes rfl scan held
  have round : d' = d.examine cfg more t rdes := by
    simp only [MACDriver.next, scan, Option.map_some] at taken
    exact (Option.some.inj taken).symm
  exact ok.examine_held more t held (round ▸ handed)

/-- A frame of 64 bytes. -/
def frameWord : BitVec 32 := 0x00400300

def twoBuffers : MacConfig := ⟨2, false⟩

/-- One of two frames is handed out. -/
theorem handed_out_once_two : ∃ d, (receiveRing twoBuffers).run
      [.dma 0 frameWord, .dma 1 frameWord, .wait 0, .examine true] (receiveRing twoBuffers).init = some d ∧
    d.held = [{ size := 60, physdesc := 0 }] ∧ HandedOnce d := by
  have reached := @Lts.Reach.of_run _ _ (receiveRing twoBuffers) (fun d _ => d.held.isEmpty)
    [.dma 0 frameWord, .dma 1 frameWord, .wait 0, .examine true] _ rfl rfl
  refine ⟨_, rfl, rfl, (handed_out_once (reached.mono ?_)).1⟩
  rintro d l empty more t rdes - -
  simp [List.isEmpty_iff.1 empty]

/-- Three calls without a release: the third returns the descriptor of the first. -/
theorem handed_out_twice : ∃ d, (receiveRing twoBuffers).run
      [.dma 0 frameWord, .dma 1 frameWord, .wait 0, .examine true, .wait 1, .examine true, .wait 2, .examine true]
      (receiveRing twoBuffers).init = some d ∧
    d.held.map (·.physdesc) = [0, 1, 0] ∧ ¬ HandedOnce d := by
  refine ⟨_, rfl, rfl, fun handed => ?_⟩
  exact absurd handed.once (by decide)

end ChibiOS.Mac
