import ChibiOS.Lib.Terminal

/-!
# The line editor

`rdline.c`. Buffers are memory from their first byte on, so that a write beyond the
end is a write. Functions that print return the bytes beside their result. A loop
of `rdline_input` is cut into the keys it handles: `rdlineKey` consumes the bytes of
one key and has no outcome while they are not all there.
-/

namespace ChibiOS.Rdline

open Lib Function

abbrev Mem := Nat → UInt8

/-- `rdline_config_t`; the arena has room for `historyEntries` lines. -/
structure Config where
  bufSize : Nat
  historyEntries : Nat
  bufSize_pos : 0 < bufSize

/-! ## Numbers -/

def swp (s : Mem) (a b : Nat) : Mem := update (update s a (s b)) b (s a)

/-- `fuel` bounds the rounds; `b - a` are enough. -/
def rev (s : Mem) (a b fuel : Nat) : Mem :=
  match fuel with
  | 0 => s
  | fuel + 1 => if a < b then rev (swp s a b) (a + 1) (b - 1) fuel else s

/-- `DIGITS`. -/
def digitChars : List UInt8 := [48, 49, 50, 51, 52, 53, 54, 55, 56, 57]

/-- The loop of `convascii`; `n` rounds are enough. -/
def convLoop (ptr : Mem) (cnt n fuel : Nat) : Mem × Nat × Nat :=
  match fuel with
  | 0 => (ptr, cnt, n)
  | fuel + 1 =>
    if 10 ≤ n then convLoop (update ptr cnt (digitChars.getD (n % 10) 0)) (cnt + 1) (n / 10) fuel
    else (ptr, cnt, n)

def convascii (ptr : Mem) (n : Nat) : Mem × Nat :=
  let (ptr, cnt, n) := convLoop ptr 0 n n
  let ptr := update ptr cnt (digitChars.getD (n % 10) 0)
  (rev ptr 0 cnt cnt, cnt + 1)

/-! ## Output -/

def isPrintable (c : UInt8) : Bool := decide (31 < c.toNat ∧ c.toNat < 128)

/-- `rdline_write`. -/
def rdlineWrite (ptr : Mem) (len : Nat) : List UInt8 := (List.range len).map ptr

def doMove (n : Nat) (dir : UInt8) : List UInt8 :=
  let (buf, l) := convascii (fun _ => 0) n
  [27, 91] ++ rdlineWrite buf l ++ [dir]

def moveLeft (n : Nat) : List UInt8 := if 0 < n then doMove n 68 else []

def moveRight (n : Nat) : List UInt8 := if 0 < n then doMove n 67 else []

def clearLine : List UInt8 := [27, 91, 75]

/-! ## The edit buffer -/

/-- `rdline_edit_ctx_t` and the buffer. -/
structure Edit where
  buf : Mem
  pos : Nat
  len : Nat

/-- The loop of `insert_char`, with `n` bytes from `pos` on still to move. -/
def insertLoop (buf : Mem) (pos n : Nat) : Mem :=
  match n with
  | 0 => buf
  | n + 1 => insertLoop (update buf (pos + n + 1) (buf (pos + n))) pos n

def insertChar (c : UInt8) (e : Edit) : Edit :=
  { e with buf := update (insertLoop e.buf e.pos (e.len + 1 - e.pos)) e.pos c }

/-- The loop of `remove_char`, with `n` bytes still to move. -/
def removeLoop (buf : Mem) (pos n : Nat) : Mem :=
  match n with
  | 0 => update buf pos 0
  | n + 1 => removeLoop (update buf pos (buf (pos + 1))) (pos + 1) n

def removeChar (e : Edit) : Edit := { e with buf := removeLoop e.buf e.pos (e.len - e.pos) }

/-- What `rdline_print` prints of the buffer: up to its zero byte. -/
def printStr (cfg : Config) (buf : Mem) (ptr : Nat) : List UInt8 :=
  ((List.range (cfg.bufSize - ptr)).map fun i => buf (ptr + i)).takeWhile (· ≠ 0)

def printLine (cfg : Config) (e : Edit) : List UInt8 :=
  let s := printStr cfg e.buf e.pos
  s ++ moveLeft s.length

def redrawLine (e : Edit) : List UInt8 := clearLine ++ rdlineWrite e.buf e.len ++ moveLeft (e.len - e.pos)

def rdlineBackspace (cfg : Config) (e : Edit) : List UInt8 × Edit :=
  if 0 < e.pos then
    let e := removeChar { e with pos := e.pos - 1 }
    (moveLeft 1 ++ clearLine ++ printLine cfg e, { e with len := e.len - 1 })
  else ([], e)

def moveHome (e : Edit) : List UInt8 × Edit := (moveLeft e.pos, { e with pos := 0 })

def rdlineClear (cfg : Config) (e : Edit) : Edit where
  buf i := if i < cfg.bufSize then 0 else e.buf i
  pos := 0
  len := 0

inductive Status
  | onEof
  | onEnter
  | onUp
  | onDown
  deriving DecidableEq

/-- The key `3` after `ESC [`. -/
def rdlineDelete (cfg : Config) (e : Edit) : List UInt8 × Edit :=
  if e.pos < e.len then
    let e := removeChar e
    (clearLine ++ printLine cfg e, { e with len := e.len - 1 })
  else ([], e)

/-- The default case. -/
def rdlineInsert (cfg : Config) (c : UInt8) (e : Edit) : List UInt8 × Edit :=
  if e.len < cfg.bufSize - 1 ∧ isPrintable c then
    let e := insertChar c e
    (printLine cfg e ++ moveRight 1, { e with pos := e.pos + 1, len := e.len + 1 })
  else ([], e)

/-- The effect of a key. -/
structure Handled where
  out : List UInt8 := []
  edit : Edit
  /-- `rdline_input` returns. -/
  status : Option Status := none

def handled (r : List UInt8 × Edit) : Handled := { out := r.1, edit := r.2 }

/-- The third byte of an escape sequence; `none` is what `get` returns at the end of the input. -/
def rdlineEscape (cfg : Config) (e : Edit) (c : Option UInt8) (input : List (Option UInt8)) :
    Option (Handled × List (Option UInt8)) :=
  if c = some 66 then some ({ edit := e, status := some .onDown }, input)
  else if c = some 65 then some ({ edit := e, status := some .onUp }, input)
  else if c = some 67 then
    some (handled (if e.pos < e.len then (moveRight 1, { e with pos := e.pos + 1 }) else ([], e)), input)
  else if c = some 68 then
    some (handled (if 0 < e.pos then (moveLeft 1, { e with pos := e.pos - 1 }) else ([], e)), input)
  else if c = some 72 then some (handled (moveHome e), input)
  else if c = some 70 then some (handled (moveRight (e.len - e.pos), { e with pos := e.len }), input)
  else if c = some 51 then
    match input with
    | [] => none
    | _ :: input => some (handled (rdlineDelete cfg e), input)
  else some ({ edit := e }, input)

/-- One round of the loop of `rdline_input`. -/
def rdlineKey (cfg : Config) (e : Edit) : List (Option UInt8) → Option (Handled × List (Option UInt8))
  | [] => none
  | none :: input => some ({ edit := e, status := some .onEof }, input)
  | some c :: input =>
    if c = 13 ∨ c = 10 then some ({ edit := e, status := some .onEnter }, input)
    else if c = 8 ∨ c = 127 then some (handled (rdlineBackspace cfg e), input)
    else if c = 27 then
      match input with
      | [] => none
      | c :: input =>
        if c = some 91 then
          match input with
          | [] => none
          | c :: input => rdlineEscape cfg e c input
        else some ({ edit := e }, input)
    else some (handled (rdlineInsert cfg c e), input)

/-- The loop of `rdline_input`, which ends when a key returns or waits for a byte. -/
def inputLoop (cfg : Config) (out : List UInt8) (e : Edit) (input : List (Option UInt8)) (fuel : Nat) :
    Handled × List (Option UInt8) :=
  match fuel with
  | 0 => ({ out := out, edit := e }, input)
  | fuel + 1 =>
    match rdlineKey cfg e input with
    | none => ({ out := out, edit := e }, input)
    | some (r, input) =>
      match r.status with
      | none => inputLoop cfg (out ++ r.out) r.edit input fuel
      | some _ => ({ r with out := out ++ r.out }, input)

/-- `rdline_input`. A key has one byte at least, so that no more rounds than bytes are needed. -/
def rdlineInput (cfg : Config) (e : Edit) (input : List (Option UInt8)) : Handled × List (Option UInt8) :=
  inputLoop cfg [] e input input.length

/-! ## History -/

/-- `rdline_history_header_t` and the line behind it. -/
structure Entry where
  pos : Nat := 0
  len : Nat := 0
  line : Mem := fun _ => 0

/-- Copies from place `i` on, `n` bytes at most, and ends the line. -/
def ncpyLoop (dst src : Mem) (i n : Nat) : Mem :=
  match n with
  | 0 => update dst i 0
  | n + 1 => if src i = 0 then update dst i 0 else ncpyLoop (update dst i (src i)) src (i + 1) n

def ncpy (dst src : Mem) (max : Nat) : Mem := ncpyLoop dst src 0 (max - 1)

/-- `rdline_ctx_t` and the arena. -/
structure Ctx where
  edit : Edit
  curr : Nat
  historyLen : Nat
  arena : Nat → Entry

/-- Behind the arena there is nothing to read or write. -/
def Config.inArena (cfg : Config) (n : Nat) : Prop := n < cfg.historyEntries

instance (cfg : Config) (n : Nat) : Decidable (cfg.inArena n) := inferInstanceAs (Decidable (n < _))

def historyInsert (cfg : Config) (h : Ctx) : Option Ctx :=
  if cfg.inArena h.historyLen then
    let e : Entry := ⟨h.edit.pos, h.edit.len, ncpy (h.arena h.historyLen).line h.edit.buf cfg.bufSize⟩
    some { h with arena := update h.arena h.historyLen e, historyLen := h.historyLen + 1 }
  else none

def historyGet (cfg : Config) (h : Ctx) : Option Ctx :=
  if cfg.inArena h.curr then
    let e := h.arena h.curr
    some { h with edit := ⟨ncpy h.edit.buf e.line cfg.bufSize, e.pos, e.len⟩ }
  else none

/-- The start of `rdline_read`. -/
def rdlineRead (cfg : Config) (h : Ctx) : Ctx := { h with edit := rdlineClear cfg h.edit, curr := h.historyLen }

/-- What `rdline_read` does when `rdline_input` returns; it goes on reading if the last component is `true`. -/
def rdlineReturn (cfg : Config) (status : Status) (h : Ctx) : Option (List UInt8 × Ctx × Bool) :=
  match status with
  | .onEnter =>
    if 0 < h.edit.len then (historyInsert cfg h).map fun h => ([13, 10], h, false) else some ([13, 10], h, false)
  | .onUp =>
    if 0 < h.curr then do
      let (home, edit) := moveHome h.edit
      let h ← historyGet cfg { h with edit := edit, curr := h.curr - 1 }
      return (home ++ redrawLine h.edit, h, true)
    else some ([], h, true)
  | .onDown => do
    let (home, edit) := moveHome h.edit
    let h := { h with edit := edit }
    let h ← if h.curr < h.historyLen then historyGet cfg { h with curr := h.curr + 1 }
      else some { h with edit := rdlineClear cfg h.edit }
    return (home ++ redrawLine h.edit, h, true)
  | .onEof => some ([], h, false)

end ChibiOS.Rdline
