import ChibiOS.Kernel.State

/-!
# Events (`chevents.c`) and synchronous messages (`chmsg.c`)

The listeners of an event source are the list met when following `el_next` from
the source; a listener is on one source at a time. Message queues are first in,
first out (`CH_USE_MESSAGES_PRIORITY` is off).
-/

namespace ChibiOS.Kernel

open Function

namespace Sys

/-! ## Events -/

def chEvtRegisterMask (es : EsId) (el : ElId) (mask : EventMask) : Sys → Sys :=
  zone fun s => { s with
    esNext := update s.esNext es (el :: s.esNext es)
    elSource := update s.elSource el (some es)
    elListener := update s.elListener el s.currp
    elMask := update s.elMask el mask
    elFlags := update s.elFlags el 0 }.ret .void

def chEvtUnregister (es : EsId) (el : ElId) : Sys → Sys :=
  zone fun s => { s with
    esNext := update s.esNext es ((s.esNext es).erase el)
    elSource := if el ∈ s.esNext es then update s.elSource el none else s.elSource }.ret .void

def setPending (tp : Tid) (m : EventMask) (s : Sys) : Sys := { s with pEpending := update s.pEpending tp m }

def chEvtGetAndClearEvents (mask : EventMask) : Sys → Sys :=
  zone fun s =>
    let m := s.pEpending s.currp &&& mask
    (s.setPending s.currp (s.pEpending s.currp &&& ~~~mask)).ret (.mask m)

def chEvtAddEvents (mask : EventMask) : Sys → Sys :=
  zone fun s =>
    let m := s.pEpending s.currp ||| mask
    (s.setPending s.currp m).ret (.mask m)

/-- The thread waits for events, and those pending satisfy it. -/
def evtSatisfied (tp : Tid) (s : Sys) : Bool :=
  match s.pState tp, s.pU tp with
  | .wtorevt, .ewmask m => s.pEpending tp &&& m ≠ 0
  | .wtandevt, .ewmask m => s.pEpending tp &&& m = m
  | _, _ => false

def chEvtSignalI (tp : Tid) (mask : EventMask) (s : Sys) : Sys :=
  let s := s.setPending tp (s.pEpending tp ||| mask)
  if s.evtSatisfied tp then s.onCore (.readyMsg tp rdyOk) else s

def chEvtSignal (tp : Tid) (mask : EventMask) : Sys → Sys :=
  zone fun s => (s.chEvtSignalI tp mask).onCore .chSchRescheduleS

/-- The loop of `chEvtBroadcastFlagsI` over the listeners. -/
def broadcastLoop (flags : EventMask) : List ElId → Sys → Sys
  | [], s => s
  | el :: els, s =>
    broadcastLoop flags els
      ({ s with elFlags := update s.elFlags el (s.elFlags el ||| flags) }.chEvtSignalI (s.elListener el) (s.elMask el))

def chEvtBroadcastFlagsI (es : EsId) (flags : EventMask) (s : Sys) : Sys := s.broadcastLoop flags (s.esNext es)

def chEvtBroadcastFlags (es : EsId) (flags : EventMask) : Sys → Sys :=
  zone fun s => (s.chEvtBroadcastFlagsI es flags).onCore .chSchRescheduleS

def chEvtGetAndClearFlagsI (el : ElId) (s : Sys) : Sys :=
  { s with elFlags := update s.elFlags el 0 }.ret (.mask (s.elFlags el))

def chEvtGetAndClearFlags (el : ElId) : Sys → Sys := zone fun s => s.chEvtGetAndClearFlagsI el

/-- The pending events are already what the wait asks for. -/
def evtMet (w : EvtWait) (mask pending : EventMask) : Bool :=
  match w with
  | .one | .any => pending &&& mask ≠ 0
  | .all => pending &&& mask = mask

/-- The end of a wait function: the events delivered, `m &= -m` for the lowest
one alone, are cleared. -/
def evtDeliver (w : EvtWait) (mask : EventMask) (s : Sys) : Sys :=
  let m :=
    match w with
    | .one => let m := s.pEpending s.currp &&& mask; m &&& -m
    | .any => s.pEpending s.currp &&& mask
    | .all => mask
  (s.setPending s.currp (s.pEpending s.currp &&& ~~~m)).ret (.mask m)

/-- `chEvtWaitOne`, `chEvtWaitAny` and `chEvtWaitAll`. -/
def chEvtWait (w : EvtWait) (mask : EventMask) : Sys → Sys :=
  zone fun s =>
    if evtMet w mask (s.pEpending s.currp) then s.evtDeliver w mask
    else s.onCore fun c =>
      ((c.setU c.currp (.ewmask mask)).push (.evtWait w mask false)).chSchGoSleepS w.tstate

/-- `chEvtWaitOneTimeout`, `chEvtWaitAnyTimeout` and `chEvtWaitAllTimeout`. -/
def chEvtWaitTimeout (w : EvtWait) (mask : EventMask) (time : Systime) : Sys → Sys :=
  zone fun s =>
    if evtMet w mask (s.pEpending s.currp) then s.evtDeliver w mask
    else if time = timeImmediate then s.ret (.mask 0)
    else s.onCore fun c =>
      ((c.setU c.currp (.ewmask mask)).push (.evtWait w mask true)).chSchGoSleepTimeoutS w.tstate time

/-- The rest of a wait function after its sleep; only the timed ones look at the
message. -/
def evtWaitResume (w : EvtWait) (mask : EventMask) (timed : Bool) (msg : Msg) (s : Sys) : Sys :=
  if timed = true ∧ msg < rdyOk then s.ret (.mask 0) else s.evtDeliver w mask

/-! ## Messages -/

def chMsgSend (tp : Tid) (msg : Msg) : Sys → Sys :=
  zone fun s =>
    let ctp := s.currp
    let s := { s with pMsg := update s.pMsg ctp msg }
    let s := s.onCore fun c => (c.setU ctp (.wtobjp (.pMsgqueue tp))).queueInsert ctp (.pMsgqueue tp)
    let s := if s.pState tp = .wtmsg then s.onCore (.chSchReadyI tp) else s
    s.onCore fun c => (c.push .rdymsg).chSchGoSleepS .sndmsgq

def chMsgWait : Sys → Sys :=
  zone fun s =>
    let s := s.onCore (.push .msgWait)
    if s.queue (.pMsgqueue s.currp) = [] then s.onCore (.chSchGoSleepS .wtmsg) else s

/-- The rest of `chMsgWait`: a message is there. -/
def msgWaitResume (s : Sys) : Sys :=
  match s.fifoRemove (.pMsgqueue s.currp) with
  | none => s
  | some (tp, c) => { s with toCore := { c with pState := update c.pState tp .sndmsg } }.ret (.thread (some tp))

def chMsgReleaseS (tp : Tid) (msg : Msg) (s : Sys) : Sys := s.onCore (.chSchWakeupS tp msg)

def chMsgRelease (tp : Tid) (msg : Msg) : Sys → Sys := zone fun s => s.chMsgReleaseS tp msg

end Sys

end ChibiOS.Kernel
