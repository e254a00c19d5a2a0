import Mathlib.Data.List.Induction
import ChibiOS.Posix.Files

/-!
# Console output

`posix_chstream.c` and `posix_write`. A stream is its `chSequentialStreamPut` over a
state, which answers whether the byte was taken. The flag of `chstream_write` is
local to a call, and says of the next byte whether the one before it was a carriage
return. The counters are numbers without a bound.
-/

namespace ChibiOS.Posix

open Function

variable {σ : Type}

/-- The loop of `chstream_write`. -/
def chstreamLoop (put : σ → UInt8 → Bool × σ) (crSend : Bool) (counter : Nat) : List UInt8 → σ → Nat × σ
  | [], chp => (counter, chp)
  | c :: data, chp =>
    let (crSend, chp) :=
      if c = 13 then (true, chp)
      else if c = 10 ∧ crSend = false then (crSend, (put chp 13).2)
      else (false, chp)
    let (taken, chp) := put chp c
    if taken then chstreamLoop put crSend (counter + 1) data chp else (counter, chp)

def chstreamWrite (put : σ → UInt8 → Bool × σ) (data : List UInt8) (chp : σ) : Nat × σ := chstreamLoop put false 0 data chp

/-- The streams are those of `put`; `write` are the callbacks of the other method tables. For a number that is no
descriptor this follows a null pointer. -/
def posixWrite (put : Nat → σ → UInt8 → Bool × σ) (write : StreamVmt → Nat → List UInt8 → σ → Int × σ)
    (fdList : Nat → Stream) (fd : Nat) (data : List UInt8) (dev : σ) : Option (Int × σ) :=
  if fd < posixMaxFd then
    match (fdList fd).vmt with
    | none => some (-1, dev)
    | some .chstream =>
      let (n, dev) := chstreamWrite (put (fdList fd).ip) data dev
      some (n, dev)
    | some vmt => some (write vmt (fdList fd).ip data dev)
  else none

/-! ## Newlines -/

/-- What is sent for the byte at place `i`. -/
def sentFor (data : List UInt8) (i : Nat) : List UInt8 :=
  if data[i]? = some 10 ∧ (i = 0 ∨ data[i - 1]? ≠ some 13) then [13, 10] else data[i]?.toList

/-- The bytes, with a carriage return before each line feed that does not follow one. -/
def withReturns (data : List UInt8) : List UInt8 := (List.range data.length).flatMap (sentFor data)

/-- The same, from the left; `cr` says that a carriage return came before. -/
def returnsFrom (cr : Bool) : List UInt8 → List UInt8
  | [] => []
  | c :: data =>
    if c = 10 ∧ cr = false then 13 :: 10 :: returnsFrom false data
    else c :: returnsFrom (c == 13) data

/-- A carriage return came last. -/
def crAfter (cr : Bool) (data : List UInt8) : Bool := data.foldl (fun _ c => c == 13) cr

variable {put : σ → UInt8 → Bool × σ} {sent : σ → List UInt8} {a b data : List UInt8} {c : UInt8} {cr : Bool}

theorem returnsFrom_append (cr : Bool) (a b : List UInt8) :
    returnsFrom cr (a ++ b) = returnsFrom cr a ++ returnsFrom (crAfter cr a) b := by
  induction a generalizing cr with
  | nil => rfl
  | cons c a ih =>
    simp only [List.cons_append, returnsFrom, ih]
    split
    next feed =>
      rw [feed.1]
      rfl
    · rfl

theorem crAfter_concat (cr : Bool) (a : List UInt8) (c : UInt8) : crAfter cr (a ++ [c]) = (c == 13) := by
  unfold crAfter
  rw [List.foldl_append]
  rfl

theorem crAfter_eq_true : crAfter false a = true ↔ a.getLast? = some 13 := by
  cases a using List.reverseRecOn with
  | nil => simp [crAfter]
  | append_singleton a c => simp [crAfter_concat]

/-- The last byte is sent by what came before it. -/
theorem sentFor_concat (data : List UInt8) (c : UInt8) :
    sentFor (data ++ [c]) data.length = returnsFrom (crAfter false data) [c] := by
  have last : (data ++ [c])[data.length]? = some c := List.getElem?_concat_length
  have before : data.length = 0 ∨ (data ++ [c])[data.length - 1]? ≠ some 13 ↔ crAfter false data = false := by
    rw [← Bool.not_eq_true, crAfter_eq_true, List.getLast?_eq_getElem?]
    cases data with
    | nil => simp
    | cons d data =>
      rw [List.getElem?_append_left (by simp)]
      simp
  unfold sentFor
  rw [last, if_congr (and_congr_right fun _ => before) rfl rfl]
  simp only [returnsFrom, Option.some.injEq]
  split
  · rfl
  · rfl

theorem withReturns_eq (data : List UInt8) : withReturns data = returnsFrom false data := by
  induction data using List.reverseRecOn with
  | nil => rfl
  | append_singleton data c ih =>
    have before : (List.range data.length).flatMap (sentFor (data ++ [c])) = withReturns data := by
      apply List.flatMap_congr
      intro i mem
      have below := List.mem_range.1 mem
      unfold sentFor
      rw [List.getElem?_append_left below, List.getElem?_append_left (by omega)]
    rw [withReturns, List.length_append, List.length_singleton, List.range_succ, List.flatMap_append, before,
      List.flatMap_singleton, sentFor_concat, ih, returnsFrom_append]

/-- Nothing is inserted a second time. -/
theorem returnsFrom_again (cr : Bool) (data : List UInt8) : returnsFrom cr (returnsFrom cr data) = returnsFrom cr data := by
  induction data generalizing cr with
  | nil => rfl
  | cons c data ih =>
    rw [returnsFrom]
    split
    next feed => simp [returnsFrom, ih]
    next other => simp [returnsFrom, ih, other]

/-! ## Streams that take every byte -/

/-- The stream takes every byte, and `sent` is what it was given. -/
structure Accepts (put : σ → UInt8 → Bool × σ) (sent : σ → List UInt8) : Prop where
  taken : ∀ s c, (put s c).1 = true
  sends : ∀ s c, sent (put s c).2 = sent s ++ [c]

theorem Accepts.loop (accepts : Accepts put sent) (cr : Bool) (counter : Nat) (data : List UInt8) (s : σ) :
    (chstreamLoop put cr counter data s).1 = counter + data.length ∧
    sent (chstreamLoop put cr counter data s).2 = sent s ++ returnsFrom cr data := by
  induction data generalizing cr counter s with
  | nil => simp [chstreamLoop, returnsFrom]
  | cons c data ih =>
    unfold chstreamLoop returnsFrom
    simp only [accepts.taken, if_true, List.length_cons]
    by_cases isCr : c = 13
    · obtain ⟨count, out⟩ := ih true (counter + 1) (put s c).2
      simp only [isCr, if_true] at count out ⊢
      refine ⟨by omega, ?_⟩
      rw [out, accepts.sends]
      simp
    · by_cases feed : c = 10 ∧ cr = false
      · obtain ⟨count, out⟩ := ih cr (counter + 1) (put (put s 13).2 c).2
        rw [if_neg isCr, if_pos feed, if_pos feed]
        refine ⟨by simp only [count]; omega, ?_⟩
        obtain ⟨rfl, rfl⟩ := feed
        simp only [out, accepts.sends]
        simp
      · obtain ⟨count, out⟩ := ih false (counter + 1) (put s c).2
        rw [if_neg isCr, if_neg feed, if_neg feed]
        refine ⟨by simp only [count]; omega, ?_⟩
        simp only [out, accepts.sends, beq_false_of_ne isCr]
        simp

theorem Accepts.write (accepts : Accepts put sent) (data : List UInt8) (s : σ) :
    (chstreamWrite put data s).1 = data.length ∧ sent (chstreamWrite put data s).2 = sent s ++ withReturns data := by
  obtain ⟨count, out⟩ := accepts.loop false 0 data s
  refine ⟨count.trans (Nat.zero_add _), ?_⟩
  rwa [withReturns_eq]

/-- One call sends the bytes with a carriage return before exactly the line feeds that do not follow one, answers how
many bytes it was given, and sends what it has sent as it is when it is given that. -/
theorem newline_translation {put : σ → UInt8 → Bool × σ} {sent : σ → List UInt8} (accepts : Accepts put sent)
    (data : List UInt8) (s : σ) :
    (chstreamWrite put data s).1 = data.length ∧ sent (chstreamWrite put data s).2 = sent s ++ withReturns data ∧
    ∀ s', sent (chstreamWrite put (withReturns data) s').2 = sent s' ++ withReturns data := by
  obtain ⟨count, out⟩ := accepts.write data s
  refine ⟨count, out, fun s' => ?_⟩
  obtain ⟨-, again⟩ := accepts.write (withReturns data) s'
  rw [again, withReturns_eq, withReturns_eq, returnsFrom_again]

/-- A stream that keeps what it is given. -/
def putLog (log : List UInt8) (c : UInt8) : Bool × List UInt8 := (true, log ++ [c])

theorem accepts_putLog : Accepts putLog id := ⟨fun _ _ => rfl, fun _ _ => rfl⟩

theorem newline_translation_lines : (chstreamWrite putLog [97, 10, 13, 10, 10] []).1 = 5 ∧
    (chstreamWrite putLog [97, 10, 13, 10, 10] []).2 = [97, 13, 10, 13, 10, 13, 10] := by
  obtain ⟨count, out, -⟩ := newline_translation accepts_putLog [97, 10, 13, 10, 10] []
  exact ⟨count, out.trans (by decide)⟩

/-! ## Writing in pieces -/

/-- What came before the call matters only for a line feed at its start. -/
theorem returnsFrom_eq_iff (cr : Bool) (data : List UInt8) :
    returnsFrom false data = returnsFrom cr data ↔ ¬ (cr = true ∧ data.head? = some 10) := by
  cases data with
  | nil => simp [returnsFrom]
  | cons c data =>
    cases cr with
    | false => simp
    | true =>
      by_cases feed : c = 10
      · simp [returnsFrom, feed]
      · simp [returnsFrom, feed]

/-- Two calls on a console descriptor send what one call sends exactly if the cut does not separate a line feed from
the carriage return before it. -/
theorem output_in_pieces {put : Nat → σ → UInt8 → Bool × σ} {write : StreamVmt → Nat → List UInt8 → σ → Int × σ}
    {sent : σ → List UInt8} {fdList : Nat → Stream} {fd ip : Nat} (below : fd < posixMaxFd)
    (console : fdList fd = ⟨ip, some .chstream⟩) (accepts : Accepts (put ip) sent) (a b : List UInt8) (dev : σ) :
    ∃ dev₁ dev₂ dev', posixWrite put write fdList fd a dev = some ((a.length : Int), dev₁) ∧
      posixWrite put write fdList fd b dev₁ = some ((b.length : Int), dev₂) ∧
      posixWrite put write fdList fd (a ++ b) dev = some (((a ++ b).length : Int), dev') ∧
      (sent dev₂ = sent dev' ↔ ¬ (a.getLast? = some 13 ∧ b.head? = some 10)) := by
  have ran (data : List UInt8) (dev : σ) : posixWrite put write fdList fd data dev =
      some ((data.length : Int), (chstreamWrite (put ip) data dev).2) := by
    simp only [posixWrite, if_pos below, console, (accepts.write data dev).1]
  refine ⟨_, _, _, ran a dev, ran b _, ran (a ++ b) dev, ?_⟩
  simp only [(accepts.write _ _).2, withReturns_eq]
  rw [returnsFrom_append, List.append_assoc, List.append_cancel_left_eq, List.append_cancel_left_eq, returnsFrom_eq_iff,
    crAfter_eq_true]

/-- The standard output, with nothing behind the other method tables. -/
def writeStdout (data : List UInt8) (log : List UInt8) : Option (Int × List UInt8) :=
  posixWrite (fun _ => putLog) (fun _ _ _ log => (-1, log)) (PosixState.start ()).fdList 1 data log

theorem output_in_pieces_feed : ∃ log₁ log, writeStdout [97] [] = some (1, log₁) ∧ writeStdout [10, 98] log₁ = some (2, log) ∧
    writeStdout [97, 10, 98] [] = some (3, log) := by
  obtain ⟨log₁, log₂, log', first, second, whole, same⟩ := @output_in_pieces _ (fun _ => putLog)
    (fun _ _ _ log => (-1, log)) id (PosixState.start ()).fdList 1 sdu1 (by decide) rfl accepts_putLog [97] [10, 98] []
  have eq : log₂ = log' := same.2 (by decide)
  exact ⟨log₁, log₂, first, second, eq ▸ whole⟩

/-- A line feed that is written after its carriage return gets another one. -/
theorem output_in_pieces_return : ∃ log₁, writeStdout [13] [] = some (1, log₁) ∧
    writeStdout [10] log₁ = some (1, [13, 13, 10]) ∧ writeStdout [13, 10] [] = some (2, [13, 10]) :=
  ⟨[13], by decide, by decide, by decide⟩

end ChibiOS.Posix
