import ChibiOS.Various.Chprintf

/-!
# Fields of formatted integers

What `chprintf` puts for an integer directive with flags, width, precision and modifier, as far as they go. Without
them it is the numeral of the argument. A field has its width and its blanks or zeros in place unless the width has
been cut in the `char` that held the star, or zeros have been put behind the numeral.
-/

namespace ChibiOS.Chprintf

open Lib
open List (replicate append_nil cons_append length_append)

/-! ## Directives of integers -/

/-- The digits `ds` behind those of `n`. -/
def decimal (n : Nat) (ds : List (Fin 10)) : Nat := ds.foldl (fun n (d : Fin 10) => n * 10 + d) n

/-- A width or a precision: digits, or a star with its argument. -/
inductive Number
  | digits (ds : List (Fin 10))
  | star (v : Fin 32768)

namespace Number

def chars : Number → List UInt8
  | digits ds => ds.map fun d : Fin 10 => UInt8.ofNat (48 + d)
  | star _ => [42]

def args : Number → List Arg
  | digits _ => []
  | star v => [.word (BitVec.ofNat 32 v)]

def value : Number → Nat
  | digits ds => decimal 0 ds
  | star v => v

/-- What is left of it in a `char`. -/
def read : Number → Nat
  | star v => v % 256
  | n => n.value

end Number

/-- What ends a number. -/
def Ends (c : UInt8) : Prop := ¬ (48 ≤ c.toNat ∧ c.toNat ≤ 57) ∧ c ≠ 42

instance (c : UInt8) : Decidable (Ends c) := inferInstanceAs (Decidable (_ ∧ _))

section

variable {c : UInt8} {fmt : List UInt8} {args : List Arg} {n : Nat}

theorem numberLoop_ends (ends : Ends c) : numberLoop (c :: fmt) args n = .ok (n, c, fmt, args) := by
  rw [numberLoop, if_neg ends.1, if_neg ends.2]

theorem le_decimal (ds : List (Fin 10)) (n : Nat) : n ≤ decimal n ds := by
  induction ds generalizing n with
  | nil => exact le_refl n
  | cons d ds ih =>
    have : n * 10 + d ≤ decimal n (d :: ds) := ih (n * 10 + d)
    omega

theorem numberLoop_digits (ends : Ends c) (ds : List (Fin 10)) (n : Nat) (fits : n ≤ intMax) :
    numberLoop ((Number.digits ds).chars ++ c :: fmt) args n =
      if decimal n ds ≤ intMax then .ok (decimal n ds, c, fmt, args) else .error .overflow := by
  induction ds generalizing n with
  | nil => exact (numberLoop_ends ends).trans (if_pos fits).symm
  | cons d ds ih =>
    have code : (UInt8.ofNat (48 + d)).toNat = 48 + d := by
      rw [UInt8.toNat_ofNat']
      omega
    change numberLoop (UInt8.ofNat (48 + d) :: ((Number.digits ds).chars ++ c :: fmt)) args n = _
    rw [numberLoop, if_pos (by omega), code, Nat.add_sub_cancel_left]
    by_cases small : n * 10 + d ≤ intMax
    · rw [accumulate, if_pos small]
      exact ih _ small
    · have : n * 10 + d ≤ decimal n (d :: ds) := le_decimal ds (n * 10 + d)
      rw [accumulate, if_neg small, if_neg (by omega)]
      rfl

theorem numberLoop_number (ends : Ends c) (number : Number) :
    numberLoop (number.chars ++ c :: fmt) (number.args ++ args) 0 =
      if number.value ≤ intMax then .ok (number.read, c, fmt, args) else .error .overflow := by
  cases number with
  | digits ds => exact numberLoop_digits ends ds 0 (Nat.zero_le _)
  | star v =>
    have word : (BitVec.ofNat 32 v).toNat = v := by
      rw [BitVec.toNat_ofNat]
      omega
    have high : v ≤ intMax := by
      rw [show intMax = 2 ^ 31 - 1 from rfl]
      omega
    have low : v % 256 ≤ intMax := (Nat.mod_le _ _).trans high
    change numberLoop (42 :: c :: fmt) (.word (BitVec.ofNat 32 v) :: args) 0 = _
    rw [if_pos (show (Number.star v).value ≤ intMax from high), numberLoop, if_neg (by decide), if_pos rfl]
    simp only [vaInt, word, accumulate, Nat.zero_mul, zero_add, if_pos low, bind, Except.bind, numberLoop_ends ends,
      Number.read]

end

/-- `l` or `L`. -/
abbrev Modifier := { c : UInt8 // c = 108 ∨ c = 76 }

/-- Modifier and letter of a directive. -/
def commandChars (long : Option Modifier) (conv : Conv) (upper : Bool) : List UInt8 :=
  long.elim [] ([·.val]) ++ [conv.letter upper]

theorem parseLong_command (long : Option Modifier) (conv : Conv) (upper : Bool) (rest : List UInt8) :
    ∃ c fmt isLong, commandChars long conv upper ++ rest = c :: fmt ∧ Ends c ∧ c ≠ 45 ∧ c ≠ 46 ∧ c ≠ 48 ∧
      parseLong c fmt = .ok (isLong, conv.letter upper, rest) := by
  cases long with
  | none =>
    refine ⟨conv.letter upper, rest, upper, rfl, ?_⟩
    cases conv <;> cases upper <;> exact ⟨by decide, by decide, by decide, by decide, rfl⟩
  | some c =>
    obtain ⟨c, is⟩ := c
    have letter : conv.letter upper ≠ 0 := by cases conv <;> cases upper <;> decide
    refine ⟨c, conv.letter upper :: rest, true, rfl, ?_⟩
    rw [parseLong, if_pos is, if_pos letter]
    rcases is with rfl | rfl <;> exact ⟨by decide, by decide, by decide, by decide, rfl⟩

/-- The parts of an integer directive. -/
structure Parts where
  left : Bool
  zero : Option { c : UInt8 // c = 46 ∨ c = 48 }
  width : Number
  precision : Option Number
  long : Option Modifier
  conv : Conv
  upper : Bool

namespace Parts

variable (s : Parts)

def flags : List UInt8 := (if s.left then [45] else []) ++ s.zero.elim [] ([·.val])

def numbers : List UInt8 := s.width.chars ++ s.precision.elim [] (46 :: ·.chars)

def args : List Arg := s.width.args ++ s.precision.elim [] (·.args)

def chars : List UInt8 := s.flags ++ (s.numbers ++ commandChars s.long s.conv s.upper)

def filler : UInt8 := if s.zero.isSome then 48 else 32

/-- The numeral without padding. -/
def numeral (w : BitVec 32) : List UInt8 := intNumeral s.conv.base (s.conv.value w)

/-- Width and precision have no more digits than an `int` holds. -/
def Fits : Prop := s.width.value ≤ intMax ∧ ∀ n ∈ s.precision, n.value ≤ intMax

instance : Decidable s.Fits := by
  unfold Fits
  infer_instance

end Parts

/-- An integer directive: what stands where the filler does is taken for it. -/
structure IntSpec extends Parts where
  plain : zero = none → ∀ c, toParts.numbers.head? = some c → c ≠ 46 ∧ c ≠ 48

theorem Number.ne_dash {c : UInt8} {number : Number} (mem : c ∈ number.chars) : c ≠ 45 := by
  rintro rfl
  cases number with
  | digits ds =>
    obtain ⟨d, -, is⟩ := List.mem_map.1 mem
    have code : (UInt8.ofNat (48 + d)).toNat = 45 := congrArg UInt8.toNat is
    rw [UInt8.toNat_ofNat'] at code
    omega
  | star v => exact absurd (List.mem_singleton.1 mem) (by decide)

theorem Parts.ne_dash {s : Parts} {c : UInt8} (mem : c ∈ s.numbers) : c ≠ 45 := by
  rcases List.mem_append.1 mem with inWidth | behind
  · exact Number.ne_dash inWidth
  · cases precision : s.precision with
    | none =>
      rw [precision] at behind
      cases behind
    | some n =>
      rw [precision] at behind
      rcases List.mem_cons.1 behind with rfl | inPrecision
      · decide
      · exact Number.ne_dash inPrecision

section

variable (s : IntSpec) (rest : List UInt8) (args : List Arg)

theorem parseFlags_chars : parseFlags (s.chars ++ rest) =
    (s.left, s.filler, s.numbers ++ (commandChars s.long s.conv s.upper ++ rest)) := by
  obtain ⟨c, t, is, notDash, plain⟩ : ∃ c t, s.numbers ++ (commandChars s.long s.conv s.upper ++ rest) = c :: t ∧ c ≠ 45 ∧
      (s.zero = none → c ≠ 46 ∧ c ≠ 48) := by
    cases numbers : s.numbers with
    | nil =>
      obtain ⟨c, t, -, is, -, notDash, notPoint, notZero, -⟩ := parseLong_command s.long s.conv s.upper rest
      exact ⟨c, t, is, notDash, fun _ => ⟨notPoint, notZero⟩⟩
    | cons c t =>
      have mem : c ∈ s.numbers := by rw [numbers]; exact .head _
      exact ⟨c, _, rfl, Parts.ne_dash mem, fun none => s.plain none c (by rw [numbers]; rfl)⟩
  have chars : s.chars ++ rest = s.flags ++ c :: t := by rw [Parts.chars, List.append_assoc, List.append_assoc, is]
  rw [chars, is]
  cases zero : s.zero with
  | none =>
    obtain ⟨notPoint, notZero⟩ := plain zero
    cases left : s.left <;> simp [parseFlags, Parts.flags, Parts.filler, zero, left, notDash, notPoint, notZero]
  | some c =>
    obtain ⟨c, rfl | rfl⟩ := c <;> cases left : s.left <;> simp [parseFlags, Parts.flags, Parts.filler, zero, left]

/-- A directive is read back, up to what a `char` loses of a star's argument. -/
theorem parseDirective_chars : ∃ d : Directive, d.leftAlign = s.left ∧ d.filler = s.filler ∧ d.width = s.width.read ∧
    d.c = s.conv.letter s.upper ∧
    parseDirective (s.chars ++ rest) (s.args ++ args) = if s.Fits then .ok (d, rest, args) else .error .overflow := by
  obtain ⟨c, fmt, isLong, is, ends, -, notPoint, -, long⟩ := parseLong_command s.long s.conv s.upper rest
  refine ⟨⟨s.left, s.filler, s.width.read, s.precision.elim 0 (·.read), isLong, s.conv.letter s.upper⟩, rfl, rfl, rfl, rfl, ?_⟩
  cases precision : s.precision with
  | none =>
    have fits : s.Fits ↔ s.width.value ≤ intMax := by simp [Parts.Fits, precision]
    simp only [parseDirective, parseFlags_chars, is, Parts.numbers, Parts.args, precision, Option.elim_none, append_nil,
      numberLoop_number ends, fits]
    by_cases wide : s.width.value ≤ intMax
    · simp only [wide, if_true, bind, Except.bind, parsePrecision, notPoint, if_false, long]
    · simp only [wide, if_false, bind, Except.bind]
  | some n =>
    have fits : s.Fits ↔ s.width.value ≤ intMax ∧ n.value ≤ intMax := by simp [Parts.Fits, precision]
    have point : Ends 46 := by decide
    simp only [parseDirective, parseFlags_chars, is, Parts.numbers, Parts.args, precision, Option.elim_some, List.append_assoc,
      cons_append, numberLoop_number point, fits]
    by_cases wide : s.width.value ≤ intMax
    · simp only [wide, if_true, true_and, bind, Except.bind, parsePrecision, numberLoop_number ends]
      by_cases precise : n.value ≤ intMax
      · simp only [precise, if_true, long]
      · simp only [precise, if_false]
    · simp only [wide, if_false, false_and, bind, Except.bind]

/-- What is put for a directive. -/
theorem chprintf_integer (tmp : Tmp) (w : BitVec 32) : chprintf tmp (37 :: s.chars ++ [0]) (s.args ++ [.word w]) =
    if s.Fits then .ok (putField s.left s.filler s.width.read (s.numeral w)) else .error .overflow := by
  obtain ⟨d, left, filler, width, letter, parsed⟩ := parseDirective_chars s [0] [.word w]
  obtain ⟨tmp', done⟩ : ∃ tmp', ∀ args, command d tmp (.word w :: args) = _ := command_numeral letter
  have length : (37 :: s.chars ++ [0]).length = s.chars.length + 1 + 1 := by simp
  rw [chprintf, length]
  by_cases fits : s.Fits
  · rw [if_pos fits] at parsed ⊢
    rw [cons_append, chprintfLoop, if_neg (by decide), if_neg (by decide)]
    simp only [parsed, done, bind, Except.bind, chprintfLoop, if_true, left, width, filler, append_nil]
    rfl
  · rw [if_neg fits] at parsed ⊢
    rw [cons_append, chprintfLoop, if_neg (by decide), if_neg (by decide), parsed]
    rfl

end

/-! ## Padding -/

section

variable (filler : UInt8) (width : Nat) (s : List UInt8)

theorem putField_left : putField true filler width s = s ++ replicate (width - s.length) filler := by
  have pad : (if (width : Int) - s.length < 0 then 0 else (width : Int) - s.length) = (width - s.length : Nat) := by
    split <;> omega
  simp only [putField, pad, if_true]
  rw [if_neg (by omega), Int.natAbs_natCast]

theorem putField_right : putField false filler width s =
    if s.head? = some 45 ∧ filler = 48 then 45 :: (replicate (width - s.length) filler ++ s.tail)
    else replicate (width - s.length) filler ++ s := by
  have pad : (if (width : Int) - s.length < 0 then 0 else (width : Int) - s.length) = (width - s.length : Nat) := by
    split <;> omega
  simp only [putField, pad, Bool.false_eq_true, if_false]
  by_cases more : 0 < width - s.length
  · rw [if_pos (by omega), Int.natAbs_neg, Int.natAbs_natCast]
  · rw [if_neg (by omega), show width - s.length = 0 by omega, Int.natAbs_neg, Int.natAbs_natCast, List.replicate_zero,
      append_nil, List.nil_append]
    split
    next minus =>
      obtain ⟨t, rfl⟩ := List.head?_eq_some_iff.1 minus.1
      rfl
    · rfl

theorem putField_length (left : Bool) : (putField left filler width s).length = max width s.length := by
  cases left with
  | true =>
    rw [putField_left, length_append, List.length_replicate]
    omega
  | false =>
    rw [putField_right]
    split
    next minus =>
      obtain ⟨t, rfl⟩ := List.head?_eq_some_iff.1 minus.1
      simp only [List.tail_cons, List.length_cons, length_append, List.length_replicate]
      omega
    · rw [length_append, List.length_replicate]
      omega

end

theorem Conv.base_bounds (conv : Conv) : 1 < conv.base ∧ conv.base ≤ 36 := by
  cases conv <;> decide

/-- The directive that only has a command. -/
def bare (long : Option Modifier) (conv : Conv) (upper : Bool) : IntSpec where
  left := false
  zero := none
  width := .digits []
  precision := none
  long := long
  conv := conv
  upper := upper
  plain _ _ is := by cases is

/-- A conversion without width puts the shortest numeral of its argument, and no other text of that length reads as the
argument. No store leaves the work buffer, since there is no fault. -/
theorem integer_printing (tmp : Tmp) (long : Option Modifier) (conv : Conv) (upper : Bool) (w : BitVec 32) :
    ∃ text, chprintf tmp (37 :: commandChars long conv upper ++ [0]) [.word w] = .ok text ∧
      readInt conv.base text = some (conv.value w) ∧
      ∀ other, readInt conv.base other = some (conv.value w) →
        text.length ≤ other.length ∧ (other.length = text.length → other = text) := by
  obtain ⟨low, high⟩ := conv.base_bounds
  have put := chprintf_integer (bare long conv upper) tmp w
  have fits : (bare long conv upper).Fits := ⟨Nat.zero_le _, nofun⟩
  have field : putField false 32 0 ((bare long conv upper).numeral w) = intNumeral conv.base (conv.value w) := by
    rw [putField_right, if_neg (by simp), Nat.zero_sub]
    rfl
  rw [if_pos fits] at put
  refine ⟨intNumeral conv.base (conv.value w), ?_, readInt_intNumeral low high _, fun other => intNumeral_shortest low high⟩
  rwa [← field]

/-! ## Fields -/

section

variable {b : Nat} (base : 1 < b) (high : b ≤ 36)
include base high

theorem putField_zeros (width : Nat) (z : Int) : putField false 48 width (intNumeral b z) =
    sign z ++ (replicate (width - (intNumeral b z).length) 48 ++ numeral b z.natAbs) := by
  rw [putField_right]
  unfold intNumeral sign
  by_cases negative : z < 0
  · rw [if_pos negative]
    exact if_pos ⟨rfl, rfl⟩
  · have head : (numeral b z.natAbs).head? ≠ some 45 := by
      intro minus
      have mem := List.mem_of_mem_head? minus
      exact absurd (le_of_mem_zeros (k := 0) base high mem) (by decide)
    rw [if_neg negative]
    exact if_neg fun minus => head minus.1

/-- There is no blank in a numeral, so the other characters of a field with blanks read as the number. -/
theorem filter_blanks (k : Nat) (z : Int) : (sign z ++ (replicate k 48 ++ numeral b z.natAbs)).filter (· ≠ 32) =
      sign z ++ (replicate k 48 ++ numeral b z.natAbs) := by
  rw [List.filter_eq_self]
  intro c mem
  rw [decide_eq_true_eq]
  rintro rfl
  rcases List.mem_append.1 mem with inSign | inDigits
  · unfold sign at inSign
    split at inSign
    · exact absurd (List.mem_singleton.1 inSign) (by decide)
    · cases inSign
  · exact absurd (le_of_mem_zeros base high inDigits) (by decide)

end

theorem Parts.numeral_length_le (s : Parts) (w : BitVec 32) : (s.numeral w).length ≤ 12 := by
  have small : (s.conv.value w).natAbs < s.conv.base ^ 11 := by
    have word : (s.conv.value w).natAbs < 2 ^ 32 := by
      have := w.isLt
      have := (-w).isLt
      cases s.conv with
      | d | i =>
        rw [Conv.value, natAbs_toInt]
        split <;> omega
      | u | x | o => rwa [Conv.value, Int.natAbs_natCast]
    have pow : 2 ^ 32 ≤ s.conv.base ^ 11 := by cases s.conv <;> decide
    omega
  have digits := Lib.numeral_length_le s.conv.base_bounds.1 (by decide) small
  rw [numeral, intNumeral, sign, length_append]
  split <;> simp only [List.length_cons, List.length_nil] <;> omega

/-- A field as its directive asks for it. -/
structure Field (s : Parts) (w : BitVec 32) (out : List UInt8) : Prop where
  length : out.length = max s.width.value (s.numeral w).length
  left : s.left = true → out = s.numeral w ++ replicate (s.width.value - (s.numeral w).length) 32
  blanks : s.left = false → s.zero = none →
    out = replicate (s.width.value - (s.numeral w).length) 32 ++ s.numeral w
  zeros : s.left = false → s.zero ≠ none → out = sign (s.conv.value w) ++
    (replicate (s.width.value - (s.numeral w).length) 48 ++ Lib.numeral s.conv.base (s.conv.value w).natAbs)
  reads : readInt s.conv.base (out.filter (· ≠ 32)) = some (s.conv.value w)

theorem Parts.filler_eq (s : Parts) : s.zero = none ∧ s.filler = 32 ∨ s.zero ≠ none ∧ s.filler = 48 := by
  unfold Parts.filler
  cases s.zero with
  | none => exact .inl ⟨rfl, rfl⟩
  | some c => exact .inr ⟨nofun, rfl⟩

/-- With its own width, and with no zeros behind the numeral, the field is right. -/
theorem putField_field (s : Parts) (w : BitVec 32)
    (behind : s.left = true → s.zero ≠ none → s.width.value ≤ (s.numeral w).length) :
    Field s w (putField s.left s.filler s.width.value (s.numeral w)) := by
  obtain ⟨base, high⟩ := s.conv.base_bounds
  have bare : (s.numeral w).filter (· ≠ 32) = s.numeral w := filter_blanks base high 0 (s.conv.value w)
  have reads : readInt s.conv.base (s.numeral w) = some (s.conv.value w) := readInt_intNumeral base high _
  have length := putField_length s.filler s.width.value (s.numeral w) s.left
  cases left : s.left with
  | true =>
    have is : putField true s.filler s.width.value (s.numeral w) =
        s.numeral w ++ replicate (s.width.value - (s.numeral w).length) 32 := by
      rw [putField_left]
      rcases s.filler_eq with ⟨-, filler⟩ | ⟨zero, -⟩
      · rw [filler]
      · rw [Nat.sub_eq_zero_of_le (behind left zero)]
        rfl
    rw [left] at length
    refine ⟨length, fun _ => is, by simp [left], by simp [left], ?_⟩
    rwa [is, List.filter_append, bare, List.filter_replicate_of_neg (by decide), append_nil]
  | false =>
    rw [left] at length
    rcases s.filler_eq with ⟨none, filler⟩ | ⟨zero, filler⟩ <;> rw [filler] at length ⊢
    · have is : putField false 32 s.width.value (s.numeral w) =
          replicate (s.width.value - (s.numeral w).length) 32 ++ s.numeral w := by
        rw [putField_right, if_neg (by simp)]
      refine ⟨length, by simp [left], fun _ _ => is, fun _ zero => absurd none zero, ?_⟩
      rwa [is, List.filter_append, bare, List.filter_replicate_of_neg (by decide), List.nil_append]
    · have is := putField_zeros base high s.width.value (s.conv.value w)
      refine ⟨length, by simp [left], fun _ none => absurd none zero, fun _ _ => is, ?_⟩
      rw [Parts.numeral, is, filter_blanks base high]
      exact readInt_zeros base high _ _

/-- The field is right if and only if width and precision have no more digits than an `int` holds, the star's argument
is less than 256, and no zeros are asked for behind the numeral. -/
theorem field_padding (tmp : Tmp) (s : IntSpec) (w : BitVec 32) :
    (∃ out, chprintf tmp (37 :: s.chars ++ [0]) (s.args ++ [.word w]) = .ok out ∧ Field s.toParts w out) ↔
      s.Fits ∧ (∀ v, s.width = .star v → v.val < 256) ∧
        ¬ (s.left = true ∧ s.zero ≠ none ∧ (s.numeral w).length < s.width.value) := by
  rw [chprintf_integer]
  constructor
  · rintro ⟨out, put, field⟩
    by_cases fits : s.Fits
    swap
    · rw [if_neg fits] at put
      cases put
    rw [if_pos fits] at put
    cases put
    have length := field.length
    have short := s.numeral_length_le w
    rw [putField_length] at length
    refine ⟨fits, ?_, ?_⟩
    · intro v star
      have read : s.width.read = v % 256 := by rw [star]; rfl
      have value : s.width.value = v := by rw [star]; rfl
      omega
    · rintro ⟨left, zero, wide⟩
      have filler := s.filler_eq.resolve_left fun blank => zero blank.1
      have is := field.left left
      rw [left, filler.2, putField_left, List.append_cancel_left_eq] at is
      have mem : 32 ∈ replicate (s.width.read - (s.numeral w).length) (48 : UInt8) := by
        rw [is, List.mem_replicate]
        exact ⟨by omega, rfl⟩
      exact absurd (List.eq_of_mem_replicate mem) (by decide)
  · rintro ⟨fits, star, behind⟩
    have read : s.width.read = s.width.value := by
      cases width : s.width with
      | digits ds => rfl
      | star v => exact Nat.mod_eq_of_lt (star v width)
    rw [if_pos fits, read]
    refine ⟨_, rfl, putField_field s.toParts w ?_⟩
    intro left zero
    by_contra short
    exact behind ⟨left, zero, by omega⟩

/-- A star's argument of 256 is no width at all, and zeros go behind a numeral on the left. -/
theorem field_padding_lost :
    (chprintf (fun _ => 0) [37, 42, 100, 0] [.word 256, .word 42]).toOption = some [52, 50] ∧
      ¬ Field ⟨false, none, .star 256, none, none, .d, false⟩ 42 [52, 50] ∧
    (chprintf (fun _ => 0) [37, 45, 48, 53, 100, 0] [.word 42]).toOption = some [52, 50, 48, 48, 48] ∧
      ¬ Field ⟨true, some ⟨48, .inr rfl⟩, .digits [5], none, none, .d, false⟩ 42 [52, 50, 48, 48, 48] := by
  refine ⟨by decide, fun field => ?_, by decide, fun field => absurd field.reads (by decide)⟩
  have length : 2 = max 256 _ := field.length
  omega

end ChibiOS.Chprintf
