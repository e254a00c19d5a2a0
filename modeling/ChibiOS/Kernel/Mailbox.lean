import ChibiOS.Kernel.Sem

/-!
# Mailboxes (`chmboxes.c`)

The pointers of a mailbox are offsets from `mb_buffer`. A post takes a token of
`mb_emptysem`, stores its message and gives a token to `mb_fullsem`; a fetch does
the reverse. The S-class functions may sleep for the token: what they do once
they have it is in the frame they leave (`mbPost`, `mbPostAhead`, `mbFetch`).
-/

namespace ChibiOS.Kernel

open Function

namespace Sys

def logMb (mb : MbId) (e : MbEvent) (s : Sys) : Sys := { s with mbLog := update s.mbLog mb (e :: s.mbLog mb) }

def mbStore (mb : MbId) (i : Nat) (m : Msg) (s : Sys) : Sys :=
  { s with mbBuffer := update s.mbBuffer mb (update (s.mbBuffer mb) i m) }

/-- `*mbp->mb_wrptr++ = msg`, with the wrap at `mb_top`. -/
def mbPut (mb : MbId) (m : Msg) (s : Sys) : Sys :=
  let wr := s.mbWrptr mb
  { s.mbStore mb wr m with
    mbWrptr := update s.mbWrptr mb (if s.mbSize mb ≤ wr + 1 then 0 else wr + 1) }.logMb mb (.post m)

/-- `*--mbp->mb_rdptr = msg`, with the wrap at `mb_buffer`. -/
def mbPutAhead (mb : MbId) (m : Msg) (s : Sys) : Sys :=
  let rd := if s.mbRdptr mb = 0 then s.mbSize mb - 1 else s.mbRdptr mb - 1
  { s.mbStore mb rd m with mbRdptr := update s.mbRdptr mb rd }.logMb mb (.postAhead m)

/-- `*mbp->mb_rdptr`. -/
def mbFirst (mb : MbId) (s : Sys) : Msg := s.mbBuffer mb (s.mbRdptr mb)

/-- `*mbp->mb_rdptr++`, with the wrap at `mb_top`. -/
def mbTake (mb : MbId) (s : Sys) : Sys :=
  let rd := s.mbRdptr mb
  { s with mbRdptr := update s.mbRdptr mb (if s.mbSize mb ≤ rd + 1 then 0 else rd + 1) }.logMb mb
    (.fetch (s.mbFirst mb))

def chMBReset (mb : MbId) : Sys → Sys :=
  zone fun s =>
    let s := { s with mbWrptr := update s.mbWrptr mb 0, mbRdptr := update s.mbRdptr mb 0 }.logMb mb .reset
    let s := (s.chSemResetI (.mbEmptysem mb) (s.mbSize mb)).chSemResetI (.mbFullsem mb) 0
    s.onCore .chSchRescheduleS

def chMBPostS (mb : MbId) (m : Msg) (time : Systime) (s : Sys) : Sys :=
  (s.onCore (.push (.mbPost mb m))).chSemWaitTimeoutS (.mbEmptysem mb) time

def chMBPostAheadS (mb : MbId) (m : Msg) (time : Systime) (s : Sys) : Sys :=
  (s.onCore (.push (.mbPostAhead mb m))).chSemWaitTimeoutS (.mbEmptysem mb) time

def chMBFetchS (mb : MbId) (time : Systime) (s : Sys) : Sys :=
  (s.onCore (.push (.mbFetch mb))).chSemWaitTimeoutS (.mbFullsem mb) time

def chMBPost (mb : MbId) (m : Msg) (time : Systime) : Sys → Sys := zone fun s => s.chMBPostS mb m time

def chMBPostAhead (mb : MbId) (m : Msg) (time : Systime) : Sys → Sys := zone fun s => s.chMBPostAheadS mb m time

def chMBFetch (mb : MbId) (time : Systime) : Sys → Sys := zone fun s => s.chMBFetchS mb time

/-- The rest of `chMBPostS`, when the wait for a slot gave `msg`. -/
def mbPostResume (mb : MbId) (m : Msg) (msg : Msg) (s : Sys) : Sys :=
  if msg = rdyOk then ((s.mbPut mb m).chSemSignalI (.mbFullsem mb)).onCore .chSchRescheduleS else s

def mbPostAheadResume (mb : MbId) (m : Msg) (msg : Msg) (s : Sys) : Sys :=
  if msg = rdyOk then ((s.mbPutAhead mb m).chSemSignalI (.mbFullsem mb)).onCore .chSchRescheduleS else s

/-- The rest of `chMBFetchS`, when the wait for a message gave `msg`. -/
def mbFetchResume (mb : MbId) (msg : Msg) (s : Sys) : Sys :=
  if msg = rdyOk then
    let s := s.ret (.fetched msg (some (s.mbFirst mb)))
    ((s.mbTake mb).chSemSignalI (.mbEmptysem mb)).onCore .chSchRescheduleS
  else s.ret (.fetched msg none)

def chMBPostI (mb : MbId) (m : Msg) (s : Sys) : Sys :=
  if s.sCnt (.mbEmptysem mb) ≤ 0 then s.ret (.msg rdyTimeout)
  else (((s.chSemFastWaitI (.mbEmptysem mb)).mbPut mb m).chSemSignalI (.mbFullsem mb)).ret (.msg rdyOk)

def chMBPostAheadI (mb : MbId) (m : Msg) (s : Sys) : Sys :=
  if s.sCnt (.mbEmptysem mb) ≤ 0 then s.ret (.msg rdyTimeout)
  else (((s.chSemFastWaitI (.mbEmptysem mb)).mbPutAhead mb m).chSemSignalI (.mbFullsem mb)).ret (.msg rdyOk)

def chMBFetchI (mb : MbId) (s : Sys) : Sys :=
  if s.sCnt (.mbFullsem mb) ≤ 0 then s.ret (.fetched rdyTimeout none)
  else
    let s := (s.chSemFastWaitI (.mbFullsem mb)).ret (.fetched rdyOk (some (s.mbFirst mb)))
    (s.mbTake mb).chSemSignalI (.mbEmptysem mb)

end Sys

end ChibiOS.Kernel
