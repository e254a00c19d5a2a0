import Mathlib.Data.List.TakeWhile
import ChibiOS.Various.Chprintf

/-!
# The end of the format

Where the scanner of `chprintf` stops. The terminator ends the format between directives, but the loops that read width
and precision take it for the command and go on behind it.
-/

namespace ChibiOS.Chprintf

open List (cons_append append_assoc nil_append tail_suffix)

variable {t u w : List UInt8} {args : List Arg} {n : Nat} {c : UInt8}

/-! ## Directives of a format -/

/-- A digit or a star. -/
def numberChar (c : UInt8) : Bool := decide (48 ≤ c.toNat ∧ c.toNat ≤ 57) || c == 42

/-- What a number stands for behind `n`, with zeros for its stars. -/
def numberOf (n : Nat) (w : List UInt8) : Nat := w.foldl (fun n c => n * 10 + if c = 42 then 0 else c.toNat - 48) n

/-- The width of the directive that `t` begins with. -/
def widthChars (t : List UInt8) : List UInt8 := (parseFlags t).2.2.takeWhile numberChar

/-- The format behind the width. -/
def behindWidth (t : List UInt8) : List UInt8 := (parseFlags t).2.2.dropWhile numberChar

def precisionChars (t : List UInt8) : List UInt8 :=
  if (behindWidth t).head? = some 46 then (behindWidth t).tail.takeWhile numberChar else []

/-- The command and what follows. -/
def commandOn (t : List UInt8) : List UInt8 :=
  if (behindWidth t).head? = some 46 then (behindWidth t).tail.dropWhile numberChar else behindWidth t

/-- The format behind a directive; none if the format ends in front of its command. -/
def behindDirective (t : List UInt8) : Option (List UInt8) :=
  match commandOn t with
  | [] => none
  | c :: t => some (if c = 108 ∨ c = 76 then t.tail else t)

/-- A directive is cut off, and no number before is too large. -/
def CutOff : Nat → List UInt8 → Prop
  | n + 1, c :: t =>
    if c ≠ 37 then CutOff n t
    else numberOf 0 (widthChars t) ≤ intMax ∧ numberOf 0 (precisionChars t) ≤ intMax ∧ (behindDirective t).elim True (CutOff n)
  | _, _ => False

/-! ## Numbers -/

theorem numberLoop_stop {fmt : List UInt8} (not : numberChar c = false) : numberLoop (c :: fmt) args n = .ok (n, c, fmt, args) := by
  have ends : ¬ (48 ≤ c.toNat ∧ c.toNat ≤ 57) ∧ c ≠ 42 := by simpa [numberChar] using not
  rw [numberLoop, if_neg ends.1, if_neg ends.2]

theorem digit_value (is : numberChar c = true) (notStar : c ≠ 42) :
    (48 ≤ c.toNat ∧ c.toNat ≤ 57) ∧ (BitVec.ofNat 32 (c.toNat - 48)).toNat % 256 = c.toNat - 48 := by
  have digit : 48 ≤ c.toNat ∧ c.toNat ≤ 57 := by simpa [numberChar, notStar] using is
  refine ⟨digit, ?_⟩
  rw [BitVec.toNat_ofNat]
  omega

/-- A round of the loops that read width and precision. -/
theorem numberLoop_step (is : numberChar c = true) (fmt : List UInt8) : numberLoop (c :: fmt) args n =
    ((if c = 42 then vaInt args else .ok (BitVec.ofNat 32 (c.toNat - 48), args)).bind fun r =>
      (accumulate n (r.1.toNat % 256)).bind fun n => numberLoop fmt r.2 n) := by
  by_cases star : c = 42
  · subst star
    rw [numberLoop, if_neg (by decide), if_pos rfl]
    rfl
  · obtain ⟨digit, value⟩ := digit_value is star
    rw [numberLoop, if_pos digit, if_neg star]
    simp only [Except.bind, value]
    rfl

/-- What the loops make of the characters of a number. -/
def readNumber (w : List UInt8) (args : List Arg) (n : Nat) : Except Fault (Nat × List Arg) :=
  (numberLoop (w ++ [0]) args n).map fun r => (r.1, r.2.2.2)

theorem readNumber_cons (is : numberChar c = true) : readNumber (c :: w) args n =
    ((if c = 42 then vaInt args else .ok (BitVec.ofNat 32 (c.toNat - 48), args)).bind fun r =>
      (accumulate n (r.1.toNat % 256)).bind fun n => readNumber w r.2 n) := by
  rw [readNumber, cons_append, numberLoop_step is]
  cases (if c = 42 then vaInt args else .ok (BitVec.ofNat 32 (c.toNat - 48), args)) with
  | error e => rfl
  | ok r =>
    simp only [Except.bind]
    cases accumulate n (r.1.toNat % 256) <;> rfl

theorem numberLoop_eq {rest : List UInt8} (stop : u.dropWhile numberChar ++ [0] = c :: rest) (behind : List UInt8) (args : List Arg)
    (n : Nat) : numberLoop (u ++ 0 :: behind) args n =
      (readNumber (u.takeWhile numberChar) args n).map fun r => (r.1, c, rest ++ behind, r.2) := by
  induction u generalizing args n with
  | nil =>
    cases stop
    rfl
  | cons x u ih =>
    cases is : numberChar x with
    | false =>
      rw [List.dropWhile_cons_of_neg (by simp [is])] at stop
      cases stop
      rw [List.takeWhile_cons_of_neg (by simp [is]), cons_append, numberLoop_stop is]
      simp [readNumber, numberLoop, Except.map]
    | true =>
      rw [List.dropWhile_cons_of_pos is] at stop
      rw [List.takeWhile_cons_of_pos is, readNumber_cons is, cons_append, numberLoop_step is]
      cases (if x = 42 then vaInt args else .ok (BitVec.ofNat 32 (x.toNat - 48), args)) with
      | error e => rfl
      | ok r =>
        simp only [Except.bind]
        cases accumulate n (r.1.toNat % 256) with
        | error e => rfl
        | ok n => exact ih stop r.2 n

theorem le_numberOf (n : Nat) (w : List UInt8) : n ≤ numberOf n w := by
  induction w generalizing n with
  | nil => exact le_refl n
  | cons c w ih =>
    have le := ih (n * 10 + if c = 42 then 0 else c.toNat - 48)
    exact le_trans (by omega) le

theorem numberOf_mono {m : Nat} (le : n ≤ m) (w : List UInt8) : numberOf n w ≤ numberOf m w := by
  induction w generalizing n m with
  | nil => exact le
  | cons c w ih => exact ih (Nat.add_le_add_right (Nat.mul_le_mul_right 10 le) _)

/-- A number is undefined, or takes the first arguments whatever follows them. -/
theorem readNumber_spec (all : ∀ c ∈ w, numberChar c = true) (small : n ≤ intMax) (args : List Arg) :
    (∃ e, e ≠ .format ∧ readNumber w args n = .error e) ∨
      numberOf n w ≤ intMax ∧
        ∃ front rest k, args = front ++ rest ∧ ∀ args, readNumber w (front ++ args) n = .ok (k, args) := by
  induction w generalizing args n with
  | nil => exact .inr ⟨small, [], args, n, rfl, fun args => rfl⟩
  | cons c w ih =>
    obtain ⟨is, all⟩ := List.forall_mem_cons.1 all
    have taken : (if c = 42 then vaInt args else .ok (BitVec.ofNat 32 (c.toNat - 48), args)) = .error .argument ∨
        ∃ front rest v, (if c = 42 then 0 else c.toNat - 48) ≤ (v : BitVec 32).toNat % 256 ∧ args = front ++ rest ∧ ∀ args,
          (if c = 42 then vaInt (front ++ args) else .ok (BitVec.ofNat 32 (c.toNat - 48), front ++ args)) = .ok (v, args) := by
      by_cases star : c = 42
      · subst star
        rcases args with - | ⟨v | s, args⟩
        · exact .inl rfl
        · exact .inr ⟨[.word v], args, v, Nat.zero_le _, rfl, fun args => rfl⟩
        · exact .inl rfl
      · exact .inr ⟨[], args, _, by rw [if_neg star, (digit_value is star).2], rfl, fun args => if_neg star⟩
    simp only [readNumber_cons is]
    rcases taken with bad | ⟨front, rest, v, le, rfl, good⟩
    · exact .inl ⟨.argument, nofun, by rw [bad]; rfl⟩
    · by_cases fits : n * 10 + v.toNat % 256 ≤ intMax
      · rcases ih all fits rest with ⟨e, other, bad⟩ | ⟨small', front', rest', k, rfl, more⟩
        · exact .inl ⟨e, other, by simp only [good, Except.bind, accumulate, if_pos fits, bad]⟩
        · refine .inr ⟨(numberOf_mono (Nat.add_le_add_left le _) w).trans small', front ++ front', rest', k,
            (append_assoc ..).symm, fun args => ?_⟩
          simp only [append_assoc, good, Except.bind, accumulate, if_pos fits, more]
      · exact .inl ⟨.overflow, nofun, by simp only [good, Except.bind, accumulate, if_neg fits]⟩

/-- With zeros for its stars a number is read, unless it is too large. -/
theorem readNumber_zeros (all : ∀ c ∈ w, numberChar c = true) (fits : numberOf n w ≤ intMax) :
    ∃ k zeros, ∀ args, readNumber w (zeros ++ args) n = .ok (k, args) := by
  induction w generalizing n with
  | nil => exact ⟨n, [], fun args => rfl⟩
  | cons c w ih =>
    obtain ⟨is, all⟩ := List.forall_mem_cons.1 all
    obtain ⟨k, zeros, rest⟩ := ih (n := n * 10 + if c = 42 then 0 else c.toNat - 48) all fits
    have small : (n * 10 + if c = 42 then 0 else c.toNat - 48) ≤ intMax := le_trans (le_numberOf _ w) fits
    refine ⟨k, (if c = 42 then [.word 0] else []) ++ zeros, fun args => ?_⟩
    by_cases star : c = 42
    · subst star
      rw [readNumber_cons is]
      exact (congrArg (Except.bind · _) (if_pos small)).trans (rest args)
    · rw [if_neg star] at small rest ⊢
      rw [readNumber_cons is, if_neg star]
      simp only [Except.bind, (digit_value is star).2, accumulate, if_pos small, nil_append]
      exact rest args

/-! ## Reading a directive -/

theorem parseFlags_nul (t behind : List UInt8) :
    parseFlags (t ++ 0 :: behind) = ((parseFlags t).1, (parseFlags t).2.1, (parseFlags t).2.2 ++ 0 :: behind) := by
  rcases t with - | ⟨c, - | ⟨d, t⟩⟩
  · rfl
  · simp only [parseFlags]
    by_cases dash : c = 45
    · simp [dash]
    · by_cases zero : c = 46 ∨ c = 48 <;> simp [dash, zero]
  · simp only [parseFlags]
    by_cases dash : c = 45
    · by_cases zero : d = 46 ∨ d = 48 <;> simp [dash, zero]
    · by_cases zero : c = 46 ∨ c = 48 <;> simp [dash, zero]

theorem behindWidth_suffix (t : List UInt8) : behindWidth t <:+ t := by
  refine (List.dropWhile_suffix _).trans ?_
  simp only [parseFlags]
  by_cases dash : t.head? = some 45
  · rw [if_pos dash]
    split
    · exact (tail_suffix _).trans (tail_suffix _)
    · exact tail_suffix _
  · rw [if_neg dash]
    split
    · exact tail_suffix _
    · exact List.suffix_rfl

theorem commandOn_suffix (t : List UInt8) : commandOn t <:+ t := by
  unfold commandOn
  split
  · exact ((List.dropWhile_suffix _).trans (tail_suffix _)).trans (behindWidth_suffix t)
  · exact behindWidth_suffix t

theorem behindDirective_suffix (is : behindDirective t = some u) : u <:+ t := by
  refine .trans ?_ (commandOn_suffix t)
  unfold behindDirective at is
  cases on : commandOn t with
  | nil =>
    rw [on] at is
    cases is
  | cons c v =>
    rw [on] at is
    cases is
    refine .trans ?_ (List.suffix_cons c v)
    split
    · exact tail_suffix v
    · exact List.suffix_rfl

/-- What is left of the format and its terminator. -/
def leftBehind (t : List UInt8) : List UInt8 := (behindDirective t).elim [] (· ++ [0])

theorem parseLong_nul (nulFree : 0 ∉ u) {rest : List UInt8} (starts : u ++ [0] = c :: rest) : ∃ long c', ∀ behind,
    parseLong c (rest ++ behind) = .ok (long, c',
      (match u with | [] => [] | c :: t => (if c = 108 ∨ c = 76 then t.tail else t) ++ [0]) ++ behind) := by
  cases u with
  | nil =>
    cases starts
    exact ⟨false, 0, fun behind => rfl⟩
  | cons x u =>
    cases starts
    by_cases modifier : c = 108 ∨ c = 76
    · cases u with
      | nil => exact ⟨true, c, fun behind => by simp [parseLong, modifier]⟩
      | cons y u =>
        have nonzero : y ≠ 0 := by
          rintro rfl
          simp at nulFree
        exact ⟨true, y, fun behind => by simp [parseLong, modifier, nonzero]⟩
    · exact ⟨_, c, fun behind => by simp only [parseLong, if_neg modifier]; rfl⟩

/-- A directive is what its numbers make of it, and the format goes on behind it; one that is cut off takes the
terminator. -/
theorem parseDirective_nul (nulFree : 0 ∉ t) : ∃ d : Nat → Nat → Directive, ∀ behind args,
    parseDirective (t ++ 0 :: behind) args = (readNumber (widthChars t) args 0).bind fun w =>
      (readNumber (precisionChars t) w.2 0).bind fun p => .ok (d w.1 p.1, leftBehind t ++ behind, p.2) := by
  have left : leftBehind t = match commandOn t with
      | [] => []
      | c :: t => (if c = 108 ∨ c = 76 then t.tail else t) ++ [0] := by
    unfold leftBehind behindDirective
    cases commandOn t <;> rfl
  have inside : behindWidth t ⊆ t := (behindWidth_suffix t).subset
  obtain ⟨c, rest, stop⟩ : ∃ c rest, behindWidth t ++ [0] = c :: rest := List.exists_cons_of_ne_nil (by simp)
  unfold parseDirective precisionChars widthChars
  unfold commandOn at left
  simp only [parseFlags_nul, numberLoop_eq stop]
  by_cases point : (behindWidth t).head? = some 46
  · obtain ⟨v, is⟩ := List.head?_eq_some_iff.1 point
    rw [is] at stop inside
    rw [cons_append] at stop
    obtain ⟨rfl, rfl⟩ := List.cons.inj stop
    obtain ⟨c, rest, stop⟩ : ∃ c rest, v.dropWhile numberChar ++ [0] = c :: rest := List.exists_cons_of_ne_nil (by simp)
    have free : 0 ∉ v.dropWhile numberChar := fun mem =>
      nulFree (inside (.tail _ ((List.dropWhile_suffix _).subset mem)))
    obtain ⟨long, c', parsed⟩ := parseLong_nul free stop
    rw [if_pos point, is, List.tail_cons] at left ⊢
    refine ⟨fun w p => ⟨(parseFlags t).1, (parseFlags t).2.1, w, p, long, c'⟩, fun behind args => ?_⟩
    cases readNumber ((parseFlags t).2.2.takeWhile numberChar) args 0 with
    | error e => rfl
    | ok r =>
      simp only [Except.map, bind, Except.bind, parsePrecision, if_true, append_assoc, cons_append, nil_append,
        numberLoop_eq stop]
      cases readNumber (v.takeWhile numberChar) r.2 0 with
      | error e => rfl
      | ok p => simp only [parsed, left]
  · rw [if_neg point] at left ⊢
    obtain ⟨long, c', parsed⟩ := parseLong_nul (fun mem => nulFree (inside mem)) stop
    have noPoint : c ≠ 46 := by
      rintro rfl
      cases is : behindWidth t with
      | nil =>
        rw [is] at stop
        cases stop
      | cons x v =>
        rw [is] at stop point
        cases stop
        exact point rfl
    refine ⟨fun w p => ⟨(parseFlags t).1, (parseFlags t).2.1, w, p, long, c'⟩, fun behind args => ?_⟩
    cases readNumber ((parseFlags t).2.2.takeWhile numberChar) args 0 with
    | error e => rfl
    | ok r =>
      simp only [Except.map, bind, Except.bind, parsePrecision, if_neg noPoint, parsed, left]
      rfl

theorem widthChars_all (t : List UInt8) : ∀ c ∈ widthChars t, numberChar c = true := fun _ => List.mem_takeWhile_imp

theorem precisionChars_all (t : List UInt8) : ∀ c ∈ precisionChars t, numberChar c = true := by
  unfold precisionChars
  split
  · exact fun _ => List.mem_takeWhile_imp
  · nofun

/-! ## Commands -/

/-- Arguments of some kind are taken, whatever follows them, and only for want of them nothing is printed. -/
def Takes (f : Tmp → List Arg → Except Fault Converted) : Prop :=
  ∃ kind : List Arg → Prop, (∃ front, kind front) ∧
    (∀ front, kind front → ∀ tmp, ∃ tmp' text filler, ∀ args, f tmp (front ++ args) = .ok ⟨tmp', text, filler, args⟩) ∧
    ∀ args, (∃ front rest, kind front ∧ args = front ++ rest) ∨ ∀ tmp, f tmp args = .error .argument

theorem takes_word {f : Tmp → List Arg → Except Fault Converted}
    (good : ∀ v tmp, ∃ tmp' text filler, ∀ args, f tmp (.word v :: args) = .ok ⟨tmp', text, filler, args⟩)
    (bad : ∀ tmp args, vaInt args = .error .argument → f tmp args = .error .argument) : Takes f := by
  refine ⟨fun front => ∃ v, front = [.word v], ⟨_, 0, rfl⟩, ?_, fun args => ?_⟩
  · rintro - ⟨v, rfl⟩ tmp
    exact good v tmp
  · rcases args with - | ⟨v | s, args⟩
    · exact .inr fun tmp => bad tmp _ rfl
    · exact .inl ⟨_, args, ⟨v, rfl⟩, rfl⟩
    · exact .inr fun tmp => bad tmp _ rfl

theorem Directive.word_missing (d : Directive) (missing : vaInt args = .error .argument) : d.word args = .error .argument := by
  unfold Directive.word
  split <;> exact missing

theorem takes_unsigned (d : Directive) {radix : BitVec 32} (base : 1 < radix.toNat) (high : 2 ^ 32 ≤ radix.toNat ^ 11) :
    Takes (unsignedCommand d radix) := by
  refine takes_word (fun v tmp => ?_) fun tmp args missing => by rw [unsignedCommand, d.word_missing missing]; rfl
  obtain ⟨tmp', done⟩ := @unsignedCommand_numeral d tmp v radix base high
  exact ⟨tmp', _, _, done⟩

theorem takes_command (d : Directive) : Takes (command d) := by
  unfold command
  split_ifs
  · exact takes_word (fun v tmp => ⟨_, _, _, fun args => rfl⟩) fun tmp args missing => by rw [charCommand, missing]; rfl
  · refine ⟨fun front => ∃ s, front = [.str s], ⟨_, none, rfl⟩, ?_, fun args => ?_⟩
    · rintro - ⟨s, rfl⟩ tmp
      exact ⟨_, _, _, fun args => rfl⟩
    · rcases args with - | ⟨v | s, args⟩
      · exact .inr fun tmp => rfl
      · exact .inr fun tmp => rfl
      · exact .inl ⟨_, args, ⟨s, rfl⟩, rfl⟩
  · refine takes_word (fun v tmp => ?_) fun tmp args missing => by rw [signedCommand, d.word_missing missing]; rfl
    obtain ⟨tmp', done⟩ := @signedCommand_numeral d tmp v
    exact ⟨tmp', _, _, done⟩
  · exact takes_unsigned d (by decide) (by decide)
  · exact takes_unsigned d (by decide) (by decide)
  · exact takes_unsigned d (by decide) (by decide)
  · refine ⟨(· = []), ⟨_, rfl⟩, ?_, fun args => .inl ⟨[], args, rfl, rfl⟩⟩
    rintro - rfl tmp
    exact ⟨_, _, _, fun args => rfl⟩

/-! ## The whole format -/

variable {fuel : Nat} {tmp : Tmp}

/-- A round of the loop for a directive. -/
theorem chprintfLoop_directive (fmt : List UInt8) : chprintfLoop (fuel + 1) tmp (37 :: fmt) args =
    (parseDirective fmt args).bind fun r => (command r.1 tmp r.2.2).bind fun q =>
      (chprintfLoop fuel q.tmp r.2.1 q.args).map (putField r.1.leftAlign q.filler r.1.width q.text ++ ·) := by
  rw [chprintfLoop, if_neg (by decide), if_neg (by decide)]
  rfl

theorem chprintfLoop_nul (lt : fuel > 0) (behind : List UInt8) : chprintfLoop fuel tmp (0 :: behind) args = .ok [] := by
  obtain ⟨fuel, rfl⟩ := Nat.exists_eq_succ_of_ne_zero (ne_of_gt lt)
  rfl

/-- A format without a directive that is cut off: what is printed depends on nothing behind the terminator. -/
theorem chprintfLoop_whole (fits : t.length ≤ n) (nulFree : 0 ∉ t) (whole : ¬ CutOff n t) (tmp : Tmp) (args : List Arg) :
    (∃ e, e ≠ .format ∧ ∀ fuel > t.length, ∀ behind, chprintfLoop fuel tmp (t ++ 0 :: behind) args = .error e) ∨
      ∃ out, ∀ fuel > t.length, ∀ behind more, chprintfLoop fuel tmp (t ++ 0 :: behind) (args ++ more) = .ok out := by
  induction n generalizing t tmp args with
  | zero =>
    obtain rfl := List.length_eq_zero_iff.1 (Nat.le_zero.1 fits)
    exact .inr ⟨[], fun fuel lt behind more => chprintfLoop_nul lt behind⟩
  | succ n ih =>
    rcases t with - | ⟨c, t⟩
    · exact .inr ⟨[], fun fuel lt behind more => chprintfLoop_nul lt behind⟩
    rw [List.length_cons] at fits ⊢
    have nonzero : c ≠ 0 := fun zero => nulFree (zero ▸ .head _)
    have free : 0 ∉ t := fun mem => nulFree (List.mem_cons_of_mem c mem)
    have enough {fuel} (lt : fuel > t.length + 1) : ∃ fuel', fuel = fuel' + 1 := ⟨fuel - 1, by omega⟩
    by_cases percent : c = 37
    · subst percent
      obtain ⟨d, parsed⟩ := parseDirective_nul free
      rcases readNumber_spec (widthChars_all t) (Nat.zero_le _) args with ⟨e, other, bad⟩ | ⟨small, front, args, k, rfl, width⟩
      · refine .inl ⟨e, other, fun fuel lt behind => ?_⟩
        obtain ⟨fuel, rfl⟩ := enough lt
        simp only [cons_append, chprintfLoop_directive, parsed, bad, Except.bind]
      rcases readNumber_spec (precisionChars_all t) (Nat.zero_le _) args with ⟨e, other, bad⟩ | ⟨small', front', args, p, rfl, precision⟩
      · refine .inl ⟨e, other, fun fuel lt behind => ?_⟩
        obtain ⟨fuel, rfl⟩ := enough lt
        simp only [cons_append, chprintfLoop_directive, parsed, width, bad, Except.bind]
      obtain ⟨kind, -, good, found⟩ := takes_command (d k p)
      rcases found args with ⟨front'', args, is, rfl⟩ | missing
      swap
      · refine .inl ⟨.argument, nofun, fun fuel lt behind => ?_⟩
        obtain ⟨fuel, rfl⟩ := enough lt
        simp only [cons_append, chprintfLoop_directive, parsed, width, precision, missing, Except.bind]
      obtain ⟨r, text, filler, done⟩ := good front'' is tmp
      rw [CutOff, if_neg (not_not.2 rfl)] at whole
      cases left : behindDirective t with
      | none => exact absurd ⟨small, small', left ▸ trivial⟩ whole
      | some u =>
        rw [left] at whole
        have suffix := behindDirective_suffix left
        have is : leftBehind t = u ++ [0] := by
          rw [leftBehind, left]
          rfl
        have le := suffix.length_le
        rcases ih (by omega) (fun mem => free (suffix.subset mem)) (fun cut => whole ⟨small, small', cut⟩) r args with
          ⟨e, other, bad⟩ | ⟨out, good⟩
        · refine .inl ⟨e, other, fun fuel lt behind => ?_⟩
          obtain ⟨fuel, rfl⟩ := enough lt
          simp only [cons_append, chprintfLoop_directive, parsed, width, precision, done, Except.bind, is, append_assoc,
            nil_append, bad fuel (by omega)]
          rfl
        · refine .inr ⟨putField (d k p).leftAlign filler (d k p).width text ++ out, fun fuel lt behind more => ?_⟩
          obtain ⟨fuel, rfl⟩ := enough lt
          simp only [cons_append, chprintfLoop_directive, parsed, width, precision, done, Except.bind, is, append_assoc,
            nil_append, good fuel (by omega)]
          rfl
    · rw [CutOff, if_pos percent] at whole
      have step {fuel} (behind : List UInt8) (args : List Arg) : chprintfLoop (fuel + 1) tmp (c :: t ++ 0 :: behind) args =
          (chprintfLoop fuel tmp (t ++ 0 :: behind) args).map (c :: ·) := by
        rw [cons_append, chprintfLoop, if_neg nonzero, if_pos percent]
      rcases ih (by omega) free whole tmp args with ⟨e, other, bad⟩ | ⟨out, good⟩
      · refine .inl ⟨e, other, fun fuel lt behind => ?_⟩
        obtain ⟨fuel, rfl⟩ := enough lt
        rw [step, bad fuel (by omega)]
        rfl
      · refine .inr ⟨c :: out, fun fuel lt behind more => ?_⟩
        obtain ⟨fuel, rfl⟩ := enough lt
        rw [step, good fuel (by omega)]
        rfl

/-- A directive that is cut off takes the terminator: the loop leaves the format. -/
theorem chprintfLoop_cutOff (nulFree : 0 ∉ t) (cut : CutOff n t) :
    ∃ args, ∀ fuel tmp, chprintfLoop fuel tmp (t ++ [0]) args = .error .format := by
  induction n generalizing t with
  | zero => exact cut.elim
  | succ n ih =>
    rcases t with - | ⟨c, t⟩
    · exact cut.elim
    have nonzero : c ≠ 0 := fun zero => nulFree (zero ▸ .head _)
    have free : 0 ∉ t := fun mem => nulFree (List.mem_cons_of_mem c mem)
    by_cases percent : c = 37
    · subst percent
      rw [CutOff, if_neg (not_not.2 rfl)] at cut
      obtain ⟨small, small', cut⟩ := cut
      obtain ⟨d, parsed⟩ := parseDirective_nul free
      obtain ⟨k, front, width⟩ := readNumber_zeros (widthChars_all t) small
      obtain ⟨p, front', precision⟩ := readNumber_zeros (precisionChars_all t) small'
      obtain ⟨kind, ⟨front'', is⟩, good, -⟩ := takes_command (d k p)
      -- What is left of the format is not enough.
      have rest : ∃ args, ∀ fuel tmp, chprintfLoop fuel tmp (leftBehind t) args = .error .format := by
        unfold leftBehind
        cases left : behindDirective t with
        | none => exact ⟨[], fun fuel tmp => by cases fuel <;> rfl⟩
        | some u =>
          rw [left] at cut
          exact ih (fun mem => free ((behindDirective_suffix left).subset mem)) cut
      obtain ⟨args, rest⟩ := rest
      refine ⟨front ++ (front' ++ (front'' ++ args)), fun fuel tmp => ?_⟩
      obtain ⟨r, text, filler, done⟩ := good front'' is tmp
      cases fuel with
      | zero => rfl
      | succ fuel =>
        simp only [cons_append, chprintfLoop_directive, parsed, width, precision, done, Except.bind, List.append_nil, rest]
        rfl
    · rw [CutOff, if_pos percent] at cut
      obtain ⟨args, rest⟩ := ih free cut
      refine ⟨args, fun fuel tmp => ?_⟩
      cases fuel with
      | zero => rfl
      | succ fuel =>
        rw [cons_append, chprintfLoop, if_neg nonzero, if_pos percent, rest]
        rfl

/-- No character behind the terminator is read, and what is printed depends on none and on no further argument, exactly
if the format does not end inside a directive. -/
theorem format_not_overrun {text : List UInt8} (nulFree : 0 ∉ text) :
    (∀ tmp args, (∃ e, e ≠ .format ∧ ∀ behind, chprintf tmp (text ++ 0 :: behind) args = .error e) ∨
      ∃ out, ∀ behind more, chprintf tmp (text ++ 0 :: behind) (args ++ more) = .ok out) ↔ ¬ CutOff text.length text := by
  constructor
  · intro kept cut
    obtain ⟨args, overrun⟩ := chprintfLoop_cutOff nulFree cut
    rcases kept (fun _ => 0) args with ⟨e, other, bad⟩ | ⟨out, good⟩
    · have both := (bad []).symm.trans (overrun _ _)
      cases both
      exact other rfl
    · have both := (good [] []).symm.trans ((List.append_nil args).symm ▸ overrun _ _)
      cases both
  · intro whole tmp args
    have enough (behind : List UInt8) : (text ++ 0 :: behind).length > text.length := by simp
    rcases chprintfLoop_whole le_rfl nulFree whole tmp args with ⟨e, other, bad⟩ | ⟨out, good⟩
    · exact .inl ⟨e, other, fun behind => bad _ (enough behind) behind⟩
    · exact .inr ⟨out, fun behind more => good _ (enough behind) behind more⟩

/-- The format `%d`. -/
theorem format_not_overrun_decimal : ¬ CutOff 2 [37, 100] ∧
    ∀ tmp args, (∃ e, e ≠ .format ∧ ∀ behind, chprintf tmp ([37, 100] ++ 0 :: behind) args = .error e) ∨
      ∃ out, ∀ behind more, chprintf tmp ([37, 100] ++ 0 :: behind) (args ++ more) = .ok out := by
  have whole : ¬ CutOff 2 [37, 100] := by
    rintro ⟨-, -, cut⟩
    exact cut
  exact ⟨whole, (format_not_overrun (by decide)).2 whole⟩

/-- The format `%5`: the terminator is put as a command, and the byte behind it is read. -/
theorem format_overrun : chprintf (fun _ => 0) ([37, 53] ++ [0]) [] = .error .format ∧
    chprintf (fun _ => 0) ([37, 53] ++ 0 :: [65, 0]) [] = .ok [32, 32, 32, 32, 0, 65] := ⟨rfl, rfl⟩

end ChibiOS.Chprintf
