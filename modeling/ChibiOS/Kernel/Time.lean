import Mathlib.Logic.Function.Basic

/-!
# Virtual timers (`chvt.c`, `chvt.h`)

The timers hang from the header `vtlist` in a delta list: each one stores in
`vt_time` the ticks between its predecessor's expiry and its own. The ring is
kept as the list of timers met when following `vt_next` from the header, with
the header's own `vt_time` beside it, because the two scans of the code have
no end test: they stop at the header only through that value. A scan that
would run past the header has the result `none`.

The functions are written over any number type `T`; the code's is `systime_t`,
where `-` and `+` wrap at `2 ^ 32`.
-/

namespace ChibiOS.Kernel

open Function

/-- `systime_t`. -/
abbrev Systime := UInt32

/-- `TIME_IMMEDIATE`. -/
def timeImmediate : Systime := 0

/-- `TIME_INFINITE`, `(systime_t)-1`. -/
def timeInfinite : Systime := 0xFFFFFFFF

section DeltaList

variable {ι φ T : Type} [DecidableEq ι] [LT T] [DecidableLT T] [Sub T] [Add T]

/-- The insertion scan of `chVTSetI` and the link that follows it; `hdr` is the
header's `vt_time`, met after the last timer. -/
def vtInsert (hdr : T) (vtp : ι) : List (ι × T) → T → Option (List (ι × T))
  | [], time => if hdr < time then none else some [(vtp, time)]
  | (p, d) :: ps, time =>
    if d < time then (vtInsert hdr vtp ps (time - d)).map ((p, d) :: ·)
    else some ((vtp, time) :: (p, d - time) :: ps)

/-- The unlink of `chVTResetI`: the successor inherits the removed delta. -/
def vtRemove (vtp : ι) : List (ι × T) → List (ι × T)
  | [] => []
  | (p, d) :: ps =>
    if p = vtp then
      match ps with
      | [] => []
      | (q, e) :: qs => (q, e + d) :: qs
    else (p, d) :: vtRemove vtp ps

/-- `VTList` with the `vt_func` fields of the timers. -/
structure VTList (ι φ T : Type) where
  vtNext : List (ι × T)
  vtTime : T
  vtSystime : T
  vtFunc : ι → Option φ

/-- `_vt_init`. -/
def vtInit : VTList ι φ Systime := ⟨[], -1, 0, fun _ => none⟩

/-- `chVTSetI`. -/
def chVTSetI (vtp : ι) (time : T) (vtfunc : φ) (v : VTList ι φ T) : Option (VTList ι φ T) :=
  (vtInsert v.vtTime vtp v.vtNext time).map fun l =>
    { v with vtNext := l, vtFunc := update v.vtFunc vtp (some vtfunc) }

/-- `chVTResetI`. -/
def chVTResetI (vtp : ι) (v : VTList ι φ T) : VTList ι φ T :=
  { v with vtNext := vtRemove vtp v.vtNext, vtFunc := update v.vtFunc vtp none }

/-- `chVTIsArmedI`. -/
def chVTIsArmedI (vtp : ι) (v : VTList ι φ T) : Bool := (v.vtFunc vtp).isSome

/-- The loop test of `chVTDoTickI` and, where a timer is due, its unlink: the
timer and the callback to run, with the kernel unlocked meanwhile. -/
def vtExpire [OfNat T 0] [DecidableEq T] (v : VTList ι φ T) : Option (VTList ι φ T × Option (ι × Option φ)) :=
  match v.vtNext with
  | [] => if v.vtTime = 0 then none else some (v, none)
  | (p, d) :: ps =>
    if d = 0 then
      some ({ v with vtNext := ps, vtFunc := update v.vtFunc p none }, some (p, v.vtFunc p))
    else some (v, none)

/-- `chVTDoTickI` up to its first callback. -/
def chVTDoTickI [OfNat T 0] [OfNat T 1] [DecidableEq T] (v : VTList ι φ T) :
    Option (VTList ι φ T × Option (ι × Option φ)) :=
  match v.vtNext with
  | [] => some ({ v with vtSystime := v.vtSystime + 1 }, none)
  | (p, d) :: ps => vtExpire { v with vtSystime := v.vtSystime + 1, vtNext := (p, d - 1) :: ps }

end DeltaList

end ChibiOS.Kernel
