import ChibiOS.Usb.Driver

/-!
# The data endpoint of the serial driver (`serial_usb.c`)

What the notification callbacks and the completion callbacks do to the USB driver.
`inotify` and `onotify` test the endpoint under the system lock, drop the lock to
prepare the transaction, and take it again to start it: `Notify` is where a thread
stands on this way.
-/

namespace ChibiOS.Usb

open Function

/-- `SERIAL_USB_BUFFERS_SIZE`. -/
def sduBufferSize : Nat := 256

/-- The packet size of the data endpoint, in both directions. -/
def dataMaxsize : Nat := USBDriver.ep1config.outMaxsize

/-- A thread in `inotify` or `onotify`. -/
inductive Notify
  /-- Not in the callback, or before its test. -/
  | out
  /-- Behind the test, without the lock, to prepare a transaction of `n` bytes. -/
  | tested (n : Nat)
  /-- Before `usbStartReceiveI` or `usbStartTransmitI`. -/
  | prepared
  deriving DecidableEq

/-- No other thread than `t` is in the callback. -/
def Alone (f : Nat → Notify) (t : Nat) : Prop := ∀ t', t' ≠ t → f t' = .out

theorem Alone.update {f : Nat → Notify} {t : Nat} (alone : Alone f t) (v : Notify) : Alone (update f t v) t := by
  intro t' other
  rw [Function.update_of_ne other]
  exact alone t' other

/-- Whoever is in the callback is `t`. -/
theorem Alone.is {f : Nat → Notify} {t t' : Nat} {v w : Notify} (alone : Alone f t) (at_ : Function.update f t v t' = w)
    (inside : w ≠ .out) : t' = t ∧ v = w := by
  by_cases same : t' = t
  · subst same
    rw [Function.update_self] at at_
    exact ⟨rfl, at_⟩
  · rw [Function.update_of_ne same, alone t' same] at at_
    exact absurd at_.symm inside

/-- And leaves nobody there. -/
theorem Alone.leaves {f : Nat → Notify} {t : Nat} (alone : Alone f t) (t' : Nat) : Function.update f t .out t' = .out := by
  by_contra other
  exact other (alone.is rfl other).2.symm

theorem Alone.of_single {f : Nat → Notify} {t : Nat} (single : ∃ t, Alone f t) (inside : f t ≠ .out) : Alone f t := by
  obtain ⟨t₀, alone⟩ := single
  by_cases same : t = t₀
  · exact same ▸ alone
  · exact absurd (alone t same) inside

namespace USBDriver

/-- `out_state` of the data endpoint. -/
def rx (d : USBDriver) : EpState := d.epState .ep1out

/-- `in_state` of the data endpoint. -/
def tx (d : USBDriver) : EpState := d.epState .ep1in

/-- `_usb_isr_invoke_out_cb`, before the callback. -/
def outEnded (d : USBDriver) : USBDriver :=
  { d with
    doepctl := update d.doepctl dataEp { d.doepctl dataEp with started := false }
    receiving := d.receiving &&& ~~~BitVec.twoPow 16 dataEp }

/-- `_usb_isr_invoke_in_cb`, before the callback. -/
def inEnded (d : USBDriver) : USBDriver :=
  { d with
    diepctl := update d.diepctl dataEp { d.diepctl dataEp with started := false }
    transmitting := d.transmitting &&& ~~~BitVec.twoPow 16 dataEp }

/-- The data endpoint is configured. -/
def Bulk (d : USBDriver) : Prop := d.epc dataEp = some ep1config

variable {d : USBDriver} {n : Nat}

theorem Bulk.prepareReceive (bulk : d.Bulk) : d.usbPrepareQueuedReceive dataEp n =
    { d with epState := update d.epState .ep1out { queued := true, size := n, cnt := 0 } } := by
  have state : d.outState dataEp = some .ep1out := by rw [outState, bulk]; rfl
  rw [usbPrepareQueuedReceive, state]
  rfl

theorem prepareTransmit_eq (state : d.inState dataEp = some .ep1in) : d.usbPrepareQueuedTransmit dataEp n =
    { d with
      epState := update d.epState .ep1in { queued := true, size := n, cnt := 0 }
      zlp := update d.zlp dataEp (decide (n = 0)) } := by
  rw [usbPrepareQueuedTransmit, state]
  rfl

theorem Bulk.prepareTransmit (bulk : d.Bulk) : d.usbPrepareQueuedTransmit dataEp n =
    { d with
      epState := update d.epState .ep1in { queued := true, size := n, cnt := 0 }
      zlp := update d.zlp dataEp (decide (n = 0)) } :=
  prepareTransmit_eq (by rw [inState, bulk]; rfl)

theorem startReceive_status : (d.usbStartReceiveI dataEp).usbGetReceiveStatusI dataEp = true := by
  rw [usbStartReceiveI]
  split
  next busy => exact busy
  · simp [usbGetReceiveStatusI, usbLldStartOut, dataEp]

theorem startReceive_epState : (d.usbStartReceiveI dataEp).epState = d.epState := by
  rw [usbStartReceiveI]
  split <;> rfl

theorem startReceive_epc : (d.usbStartReceiveI dataEp).epc = d.epc := by
  rw [usbStartReceiveI]
  split <;> rfl

theorem startTransmit_status : (d.usbStartTransmitI dataEp).usbGetTransmitStatusI dataEp = true := by
  rw [usbStartTransmitI]
  split
  next busy => exact busy
  · simp [usbGetTransmitStatusI, usbLldStartIn, dataEp]

theorem startTransmit_epState : (d.usbStartTransmitI dataEp).epState = d.epState := by
  rw [usbStartTransmitI]
  split <;> rfl

theorem startTransmit_epc : (d.usbStartTransmitI dataEp).epc = d.epc := by
  rw [usbStartTransmitI]
  split <;> rfl

theorem outEnded_status : d.outEnded.usbGetReceiveStatusI dataEp = false := by
  simp [usbGetReceiveStatusI, outEnded, dataEp]

theorem inEnded_status : d.inEnded.usbGetTransmitStatusI dataEp = false := by
  simp [usbGetTransmitStatusI, inEnded, dataEp]

end USBDriver

end ChibiOS.Usb
