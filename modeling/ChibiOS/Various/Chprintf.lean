import ChibiOS.Lib.Numeral

/-!
# Formatted output

`chprintf.c` without floating point, for a target on which `int` and `long` have 32 bits and `char` is unsigned, as on
ARM. A format is memory that ends behind its NUL; the strings are given without theirs.
-/

namespace ChibiOS.Chprintf

open Lib
open Function

/-- What C leaves undefined: an access outside `tmpbuf`, a read behind the format, an argument that is missing or of
another type, and a width or precision that no `int` holds. -/
inductive Fault
  | buffer
  | format
  | argument
  | overflow
  deriving DecidableEq

def maxFiller : Nat := 11

/-- `tmpbuf`. -/
abbrev Tmp := Nat → UInt8

def tmpSize : Nat := maxFiller + 1

def store (tmp : Tmp) (p : Nat) (c : UInt8) : Except Fault Tmp :=
  if p < tmpSize then .ok (update tmp p c) else .error .buffer

def load (tmp : Tmp) (q : Nat) : Except Fault UInt8 := if q < tmpSize then .ok (tmp q) else .error .buffer

/-! ## Numbers -/

/-- The first loop of `long_to_string_with_divisor`, with `q` behind the bytes that it may still fill. An operation of
a `long` with an `unsigned` is one of unsigned numbers. -/
def digitLoop (radix : BitVec 32) : Nat → Tmp → BitVec 32 → BitVec 32 → Except Fault (Tmp × Nat)
  | 0, _, _, _ => .error .buffer
  | q + 1, tmp, l, ll => do
    let i := (l % radix).toNat + 48
    let i := if 57 < i then i + 7 else i
    let tmp ← store tmp q (UInt8.ofNat i)
    if ll / radix ≠ 0 then digitLoop radix q tmp (l / radix) (ll / radix) else .ok (tmp, q)

/-- The second loop. From zero on it would count down until it leaves the buffer. -/
def copyLoop (tmp : Tmp) (p q : Nat) : Nat → Except Fault (Tmp × Nat)
  | 0 => .error .buffer
  | i + 1 => do
    let c ← load tmp q
    let tmp ← store tmp p c
    if i = 0 then .ok (tmp, p + 1) else copyLoop tmp (p + 1) (q + 1) i

def longToStringWithDivisor (tmp : Tmp) (p : Nat) (num radix divisor : BitVec 32) : Except Fault (Tmp × Nat) := do
  let ll := if divisor = 0 then num else divisor
  let (tmp, q) ← digitLoop radix (p + maxFiller) tmp num ll
  copyLoop tmp p q (p + maxFiller - q)

def ltoa (tmp : Tmp) (p : Nat) (num radix : BitVec 32) : Except Fault (Tmp × Nat) :=
  longToStringWithDivisor tmp p num radix 0

/-! ## Directives -/

/-- The arguments behind the format; a null pointer is no string. -/
inductive Arg
  | word (w : BitVec 32)
  | str (s : Option (List UInt8))

/-- `va_arg` of an `int`. -/
def vaInt : List Arg → Except Fault (BitVec 32 × List Arg)
  | .word w :: args => .ok (w, args)
  | _ => .error .argument

/-- `va_arg` of a `long`, which is as wide. -/
def vaLong (args : List Arg) : Except Fault (BitVec 32 × List Arg) := vaInt args

def intMax : Nat := 2 ^ 31 - 1

/-- The value of `width` or `precision` after another character. -/
def accumulate (n c : Nat) : Except Fault Nat := if n * 10 + c ≤ intMax then .ok (n * 10 + c) else .error .overflow

/-- The loops that read width and precision, with the character behind the number. An argument goes through the `char`
that held the star. -/
def numberLoop : List UInt8 → List Arg → Nat → Except Fault (Nat × UInt8 × List UInt8 × List Arg)
  | [], _, _ => .error .format
  | c :: fmt, args, n =>
    if 48 ≤ c.toNat ∧ c.toNat ≤ 57 then do
      let n ← accumulate n (c.toNat - 48)
      numberLoop fmt args n
    else if c = 42 then do
      let (v, args) ← vaInt args
      let n ← accumulate n (v.toNat % 256)
      numberLoop fmt args n
    else .ok (n, c, fmt, args)

/-- The variables that are set before the command is decoded. -/
structure Directive where
  leftAlign : Bool
  filler : UInt8
  width : Nat
  precision : Nat
  isLong : Bool
  c : UInt8

/-- The precision, if there is one. -/
def parsePrecision (c : UInt8) (fmt : List UInt8) (args : List Arg) :
    Except Fault (Nat × UInt8 × List UInt8 × List Arg) :=
  if c = 46 then numberLoop fmt args 0 else .ok (0, c, fmt, args)

/-- The modifier, if there is one; the terminator is not taken for a command. -/
def parseLong (c : UInt8) (fmt : List UInt8) : Except Fault (Bool × UInt8 × List UInt8) :=
  if c = 108 ∨ c = 76 then
    match fmt with
    | [] => .error .format
    | c' :: fmt' => if c' ≠ 0 then .ok (true, c', fmt') else .ok (true, c, fmt)
  else .ok (decide (65 ≤ c.toNat ∧ c.toNat ≤ 90), c, fmt)

/-- Alignment and filler. -/
def parseFlags (fmt : List UInt8) : Bool × UInt8 × List UInt8 :=
  let (leftAlign, fmt) := if fmt.head? = some 45 then (true, fmt.tail) else (false, fmt)
  if fmt.head? = some 46 ∨ fmt.head? = some 48 then (leftAlign, 48, fmt.tail) else (leftAlign, 32, fmt)

def parseDirective (fmt : List UInt8) (args : List Arg) : Except Fault (Directive × List UInt8 × List Arg) := do
  let (leftAlign, filler, fmt) := parseFlags fmt
  let (width, c, fmt, args) ← numberLoop fmt args 0
  let (precision, c, fmt, args) ← parsePrecision c fmt args
  let (isLong, c, fmt) ← parseLong c fmt
  .ok (⟨leftAlign, filler, width, precision, isLong, c⟩, fmt, args)

/-! ## Commands -/

def Directive.word (d : Directive) (args : List Arg) : Except Fault (BitVec 32 × List Arg) :=
  if d.isLong then vaLong args else vaInt args

/-- What lies between `s` and `p`, the filler, and the arguments left. -/
structure Converted where
  tmp : Tmp
  text : List UInt8
  filler : UInt8
  args : List Arg

/-- The bytes of the work buffer up to `p`. -/
def bytes (tmp : Tmp) (p : Nat) : List UInt8 := (List.range p).map tmp

def signedCommand (d : Directive) (tmp : Tmp) (args : List Arg) : Except Fault Converted := do
  let (l, args) ← d.word args
  let (tmp, p, l) ← if l.toInt < 0 then (store tmp 0 45).map fun tmp => (tmp, 1, -l) else .ok (tmp, 0, l)
  let (tmp, p) ← ltoa tmp p l 10
  .ok ⟨tmp, bytes tmp p, d.filler, args⟩

/-- `unsigned_common`. -/
def unsignedCommand (d : Directive) (radix : BitVec 32) (tmp : Tmp) (args : List Arg) : Except Fault Converted := do
  let (l, args) ← d.word args
  let (tmp, p) ← ltoa tmp 0 l radix
  .ok ⟨tmp, bytes tmp p, d.filler, args⟩

def charCommand (tmp : Tmp) (args : List Arg) : Except Fault Converted := do
  let (w, args) ← vaInt args
  let tmp ← store tmp 0 (UInt8.ofNat w.toNat)
  .ok ⟨tmp, bytes tmp 1, 32, args⟩

def stringCommand (d : Directive) (tmp : Tmp) : List Arg → Except Fault Converted
  | .str s :: args =>
    let s := s.getD [40, 110, 117, 108, 108, 41]
    let precision := if d.precision = 0 then 32767 else d.precision
    .ok ⟨tmp, s.take precision, 32, args⟩
  | _ => .error .argument

def command (d : Directive) (tmp : Tmp) (args : List Arg) : Except Fault Converted :=
  if d.c = 99 then charCommand tmp args
  else if d.c = 115 then stringCommand d tmp args
  else if d.c = 68 ∨ d.c = 100 ∨ d.c = 73 ∨ d.c = 105 then signedCommand d tmp args
  else if d.c = 88 ∨ d.c = 120 then unsignedCommand d 16 tmp args
  else if d.c = 85 ∨ d.c = 117 then unsignedCommand d 10 tmp args
  else if d.c = 79 ∨ d.c = 111 then unsignedCommand d 8 tmp args
  else (store tmp 0 d.c).map fun tmp => ⟨tmp, bytes tmp 1, d.filler, args⟩

/-! ## Output -/

/-- What is put for a directive. The width is negative while the field is filled on the left. -/
def putField (leftAlign : Bool) (filler : UInt8) (width : Nat) (s : List UInt8) : List UInt8 :=
  let width : Int := if (width : Int) - s.length < 0 then 0 else width - s.length
  let width := if leftAlign then width else -width
  if width < 0 then
    if s.head? = some 45 ∧ filler = 48 then 45 :: (List.replicate width.natAbs filler ++ s.tail)
    else List.replicate width.natAbs filler ++ s
  else s ++ List.replicate width.natAbs filler

/-- What is put up to the terminator, in at most as many rounds as there are characters. -/
def chprintfLoop : Nat → Tmp → List UInt8 → List Arg → Except Fault (List UInt8)
  | 0, _, _, _ | _, _, [], _ => .error .format
  | fuel + 1, tmp, c :: fmt, args =>
    if c = 0 then .ok []
    else if c ≠ 37 then (chprintfLoop fuel tmp fmt args).map (c :: ·)
    else do
      let (d, fmt, args) ← parseDirective fmt args
      let r ← command d tmp args
      let out ← chprintfLoop fuel r.tmp fmt r.args
      .ok (putField d.leftAlign r.filler d.width r.text ++ out)

def chprintf (tmp : Tmp) (fmt : List UInt8) (args : List Arg) : Except Fault (List UInt8) :=
  chprintfLoop fmt.length tmp fmt args

/-! ## Numerals in the work buffer -/

/-- The buffer after `t` has been stored from `p` on. -/
def write : Tmp → Nat → List UInt8 → Tmp
  | tmp, _, [] => tmp
  | tmp, p, c :: t => write (update tmp p c) (p + 1) t

/-- From `q` on the buffer has `t`. -/
def Holds (tmp : Tmp) : Nat → List UInt8 → Prop
  | _, [] => True
  | q, c :: t => tmp q = c ∧ Holds tmp (q + 1) t

section

variable {tmp tmp' : Tmp} {p q k : Nat} {c : UInt8} {t : List UInt8} {radix : BitVec 32}

theorem write_concat : write tmp p (t ++ [c]) = write (update tmp (p + t.length) c) p t := by
  induction t generalizing tmp p with
  | nil => rfl
  | cons d t ih =>
    rw [List.cons_append, write, ih, write, List.length_cons, update_comm (by omega)]
    congr 3
    omega

theorem write_below (below : k < p) : write tmp p t k = tmp k := by
  induction t generalizing tmp p with
  | nil => rfl
  | cons d t ih => rw [write, ih (by omega), update_of_ne (by omega)]

theorem holds_write : Holds (write tmp q t) q t := by
  induction t generalizing tmp q with
  | nil => trivial
  | cons d t ih =>
    refine ⟨?_, ih⟩
    rw [write, write_below (by omega), update_self]

/-- A store in front of the text leaves it. -/
theorem Holds.update (holds : Holds tmp q t) (below : k < q) : Holds (update tmp k c) q t := by
  induction t generalizing q with
  | nil => trivial
  | cons d t ih =>
    refine ⟨?_, ih holds.2 (by omega)⟩
    rw [update_of_ne (by omega)]
    exact holds.1

theorem bytes_congr (same : ∀ k < p, tmp' k = tmp k) : bytes tmp' p = bytes tmp p := by
  apply List.map_congr_left
  intro k mem
  exact same k (List.mem_range.1 mem)

theorem bytes_write : bytes (write tmp p t) (p + t.length) = bytes tmp p ++ t := by
  induction t generalizing tmp p with
  | nil => exact (List.append_nil _).symm
  | cons d t ih =>
    have first : bytes (update tmp p d) (p + 1) = bytes tmp p ++ [d] := by
      have before : bytes (update tmp p d) p = bytes tmp p := bytes_congr fun k lt => update_of_ne (by omega) ..
      rw [bytes, List.range_succ, List.map_append, ← bytes, before, List.map_singleton, update_self]
    rw [write, List.length_cons, show p + (t.length + 1) = p + 1 + t.length by omega, ih, first, List.append_assoc]
    rfl

theorem store_ok (room : p < tmpSize) : store tmp p c = .ok (update tmp p c) := if_pos room

/-- The digits are stored from the last one to the first. -/
theorem digitLoop_numeral (base : 1 < radix.toNat) (n : BitVec 32) (fits : (numeral radix.toNat n.toNat).length ≤ q)
    (room : q ≤ tmpSize) :
    digitLoop radix q tmp n n = .ok (write tmp (q - (numeral radix.toNat n.toNat).length) (numeral radix.toNat n.toNat),
      q - (numeral radix.toNat n.toNat).length) := by
  induction q generalizing tmp n with
  | zero => exact absurd (List.length_eq_zero_iff.1 (Nat.le_zero.1 fits)) (numeral_ne_nil _ _ base)
  | succ q ih =>
    have digit : UInt8.ofNat (if 57 < (n % radix).toNat + 48 then (n % radix).toNat + 48 + 7 else (n % radix).toNat + 48) =
        digitChar (n.toNat % radix.toNat) := by
      rw [BitVec.toNat_umod, digitChar]
      congr 1
      split <;> split <;> omega
    have quotient : (n / radix).toNat = n.toNat / radix.toNat := BitVec.toNat_udiv
    simp only [digitLoop, digit, store_ok (show q < tmpSize by omega), bind, Except.bind]
    by_cases below : n.toNat < radix.toNat
    · have zero : n / radix = 0 := BitVec.eq_of_toNat_eq (quotient.trans (Nat.div_eq_of_lt below))
      rw [zero, if_neg (not_not.2 rfl), numeral_small below, Nat.mod_eq_of_lt below]
      rfl
    · have more : n / radix ≠ 0 := by
        intro zero
        have pos := Nat.div_pos (not_lt.1 below) (show 0 < radix.toNat by omega)
        rw [zero] at quotient
        simp at quotient
        omega
      have step := numeral_step base (Nat.not_lt.1 below)
      rw [step, List.length_append, List.length_singleton, ← quotient] at fits ⊢
      rw [if_pos more, ih (n / radix) (by omega) (by omega), write_concat, Nat.add_sub_add_right, Nat.sub_add_cancel (by omega)]

/-- The text is moved to the front; what is still to be read lies behind what has been stored. -/
theorem copyLoop_holds (holds : Holds tmp q t) (le : p ≤ q) (room : q + t.length ≤ tmpSize) (nonempty : t ≠ []) :
    copyLoop tmp p q t.length = .ok (write tmp p t, p + t.length) := by
  induction t generalizing tmp p q with
  | nil => exact absurd rfl nonempty
  | cons d t ih =>
    rw [List.length_cons] at room
    have loaded : load tmp q = .ok d := (if_pos (by omega)).trans (congrArg _ holds.1)
    simp only [List.length_cons, copyLoop, loaded, store_ok (show p < tmpSize by omega), bind, Except.bind]
    by_cases last : t = []
    · subst last
      rfl
    · rw [if_neg (by simpa using last), ih (holds.2.update (by omega)) (by omega) (by omega) last, write]
      congr 2
      omega

/-- `ltoa` behind at most one byte. -/
theorem ltoa_numeral (base : 1 < radix.toNat) (n : BitVec 32) (le : p ≤ 1)
    (fits : (numeral radix.toNat n.toNat).length ≤ maxFiller) :
    ∃ tmp', ltoa tmp p n radix = .ok (tmp', p + (numeral radix.toNat n.toNat).length) ∧
      bytes tmp' (p + (numeral radix.toNat n.toNat).length) = bytes tmp p ++ numeral radix.toNat n.toNat := by
  have size : tmpSize = maxFiller + 1 := rfl
  generalize is : numeral radix.toNat n.toNat = t at *
  have digits : digitLoop radix (p + maxFiller) tmp n n = _ := digitLoop_numeral base n (by rw [is]; omega) (by omega)
  rw [is] at digits
  have held : Holds (write tmp (p + maxFiller - t.length) t) (p + maxFiller - t.length) t := holds_write
  have copied := copyLoop_holds (p := p) held (by omega) (by omega) (is ▸ numeral_ne_nil _ _ base)
  have result : ltoa tmp p n radix = .ok (write (write tmp (p + maxFiller - t.length) t) p t, p + t.length) := by
    simp only [ltoa, longToStringWithDivisor, if_true, digits, bind, Except.bind]
    rwa [show p + maxFiller - (p + maxFiller - t.length) = t.length by omega]
  refine ⟨_, result, ?_⟩
  rw [bytes_write, bytes_congr fun k lt => write_below (by omega)]

end

/-! ## Integer conversions -/

inductive Conv
  | d
  | i
  | u
  | x
  | o

namespace Conv

def lower : Conv → UInt8
  | d => 100
  | i => 105
  | u => 117
  | x => 120
  | o => 111

def letter (conv : Conv) (upper : Bool) : UInt8 := if upper then conv.lower - 32 else conv.lower

def base : Conv → Nat
  | d | i | u => 10
  | x => 16
  | o => 8

/-- The number that the argument stands for. -/
def value (w : BitVec 32) : Conv → Int
  | d | i => w.toInt
  | u | x | o => w.toNat

end Conv

theorem Directive.word_eq (d : Directive) (w : BitVec 32) (args : List Arg) : d.word (.word w :: args) = .ok (w, args) := by
  unfold Directive.word
  split <;> rfl

section

variable {d : Directive} {tmp : Tmp} {w : BitVec 32} {radix : BitVec 32}

/-- Eleven digits are enough for 32 bits. -/
theorem fits_maxFiller (base : 1 < radix.toNat) (high : 2 ^ 32 ≤ radix.toNat ^ 11) (n : BitVec 32) :
    (numeral radix.toNat n.toNat).length ≤ maxFiller :=
  numeral_length_le base (by decide) (n.isLt.trans_le high)

theorem unsignedCommand_numeral (base : 1 < radix.toNat) (high : 2 ^ 32 ≤ radix.toNat ^ 11) : ∃ tmp', ∀ args,
      unsignedCommand d radix tmp (.word w :: args) = .ok ⟨tmp', intNumeral radix.toNat w.toNat, d.filler, args⟩ := by
  obtain ⟨tmp', done, text⟩ : ∃ tmp', ltoa tmp 0 w radix = _ ∧ _ :=
    ltoa_numeral base w (by omega) (fits_maxFiller base high w)
  refine ⟨tmp', fun args => ?_⟩
  simp only [unsignedCommand, Directive.word_eq, bind, Except.bind, done, text, intNumeral_natCast]
  rfl

/-- The absolute value, read as an unsigned number: `-l` wraps for the most negative number. -/
theorem natAbs_toInt (w : BitVec 32) : w.toInt.natAbs = if w.toInt < 0 then (-w).toNat else w.toNat := by
  rw [BitVec.toInt_eq_toNat_cond, BitVec.toNat_neg]
  split <;> split <;> omega

theorem signedCommand_numeral :
    ∃ tmp', ∀ args, signedCommand d tmp (.word w :: args) = .ok ⟨tmp', intNumeral 10 w.toInt, d.filler, args⟩ := by
  have base : 1 < (10 : BitVec 32).toNat := by decide
  have fits := fits_maxFiller base (by decide)
  unfold intNumeral sign
  rw [natAbs_toInt]
  by_cases negative : w.toInt < 0
  · obtain ⟨tmp', done, text⟩ : ∃ tmp', ltoa (update tmp 0 45) 1 (-w) 10 = _ ∧ _ :=
      ltoa_numeral base (-w) (le_refl 1) (fits (-w))
    refine ⟨tmp', fun args => ?_⟩
    simp only [signedCommand, Directive.word_eq, bind, Except.bind, if_pos negative, store_ok (show 0 < tmpSize by decide),
      Except.map, done, text]
    rfl
  · obtain ⟨tmp', done, text⟩ : ∃ tmp', ltoa tmp 0 w 10 = _ ∧ _ := ltoa_numeral base w (Nat.zero_le 1) (fits w)
    refine ⟨tmp', fun args => ?_⟩
    simp only [signedCommand, Directive.word_eq, bind, Except.bind, if_neg negative, done, text]
    rfl

/-- Every integer command leaves the numeral of its argument. -/
theorem command_numeral {conv : Conv} {upper : Bool} (is : d.c = conv.letter upper) :
    ∃ tmp', ∀ args, command d tmp (.word w :: args) = .ok ⟨tmp', intNumeral conv.base (conv.value w), d.filler, args⟩ := by
  unfold command
  rw [is]
  cases conv with
  | d | i => cases upper <;> exact signedCommand_numeral
  | u | x | o => cases upper <;> exact unsignedCommand_numeral (by decide) (by decide)

end

end ChibiOS.Chprintf
