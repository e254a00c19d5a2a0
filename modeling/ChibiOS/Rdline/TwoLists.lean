import ChibiOS.Lib.TwoList
import ChibiOS.Rdline.Display

/-!
# The edit buffer as two lists

The bytes of the input are read by a keyboard of four modes, one byte at a time, and
its keys go to an editor of two lists. `rdline_input` reads whole escape sequences
and moves bytes inside its buffer; cut at its position, the buffer is the two lists
after every input.
-/

namespace ChibiOS.Rdline

open Lib Function

/-! ## Keyboard -/

/-- The bytes of a key that have come already. -/
inductive Keyboard
  | ground
  /-- `ESC` -/
  | escape
  /-- `ESC [` -/
  | bracket
  /-- `ESC [ 3`, with one byte still to come. -/
  | tilde

/-- What a byte does. -/
inductive Press
  | nothing
  | key (k : EditKey UInt8)
  | returns (status : Status)

/-- A byte that starts a key; `none` is the end of the input. -/
def Keyboard.first (c : Option UInt8) : Press × Keyboard :=
  match c with
  | none => (.returns .onEof, .ground)
  | some c =>
    if c = 13 ∨ c = 10 then (.returns .onEnter, .ground)
    else if c = 8 ∨ c = 127 then (.key .backspace, .ground)
    else if c = 27 then (.nothing, .escape)
    else if isPrintable c then (.key (.insert c), .ground)
    else (.nothing, .ground)

/-- The byte after `ESC [`. -/
def Keyboard.third (c : Option UInt8) : Press × Keyboard :=
  if c = some 66 then (.returns .onDown, .ground)
  else if c = some 65 then (.returns .onUp, .ground)
  else if c = some 67 then (.key .right, .ground)
  else if c = some 68 then (.key .left, .ground)
  else if c = some 72 then (.key .home, .ground)
  else if c = some 70 then (.key .last, .ground)
  else if c = some 51 then (.nothing, .tilde)
  else (.nothing, .ground)

def Keyboard.read (m : Keyboard) (c : Option UInt8) : Press × Keyboard :=
  match m with
  | .ground => first c
  | .escape => (.nothing, if c = some 91 then .bracket else .ground)
  | .bracket => third c
  | .tilde => (.key .delete, .ground)

/-- The keys typed until one of them returns, and the status it returns with. -/
structure Typed where
  keys : List (EditKey UInt8) := []
  status : Option Status := none

def Press.andThen (p : Press) (rest : Typed) : Typed :=
  match p with
  | .nothing => rest
  | .key k => { rest with keys := k :: rest.keys }
  | .returns status => { status := some status }

def Keyboard.typed (m : Keyboard) : List (Option UInt8) → Typed
  | [] => {}
  | c :: input => (m.read c).1.andThen ((m.read c).2.typed input)

/-! ## Text -/

variable {cfg : Config} {e e' : Edit}
variable {r : Handled} {input rest : List (Option UInt8)} {c : Option UInt8} {p : Press}

/-- The buffer, cut at the cursor. -/
def Edit.twoList (e : Edit) : TwoList UInt8 := .split e.text e.pos

theorem text_length (e : Edit) : e.text.length = e.len := by
  rw [Edit.text, rdlineWrite, List.length_map, List.length_range]

theorem text_getElem? (e : Edit) (i : Nat) : e.text[i]? = if i < e.len then some (e.buf i) else none :=
  rdlineWrite_getElem? e.buf e.len i

/-- The bytes from the cursor on are moved down by one. -/
theorem text_removeChar (inside : e.pos < e.len) :
    Edit.text { removeChar e with len := e.len - 1 } = e.text.eraseIdx e.pos := by
  apply List.ext_getElem?
  intro i
  rw [text_getElem?, List.getElem?_eraseIdx, text_getElem?, text_getElem?]
  simp only [removeChar]
  rw [removeLoop_apply]
  by_cases before : i < e.pos
  · rw [if_pos before, if_pos (by omega), if_neg (by omega), if_neg (by omega), if_pos (by omega)]
  · rw [if_neg before]
    by_cases less : i + 1 < e.len
    · rw [if_pos (by omega), if_pos less, if_pos (by omega)]
    · rw [if_neg (by omega), if_neg less]

theorem removeChar_twoList (inside : e.pos < e.len) :
    Edit.twoList { removeChar e with len := e.len - 1 } = .split (e.text.eraseIdx e.pos) e.pos :=
  congrArg (TwoList.split · e.pos) (text_removeChar inside)

/-- The bytes from the cursor on are moved up by one, and the new one takes its place. -/
theorem text_insertChar (le : e.pos ≤ e.len) (c : UInt8) :
    Edit.text { insertChar c e with len := e.len + 1 } = e.text.take e.pos ++ c :: e.text.drop e.pos := by
  have length : (e.text.take e.pos).length = e.pos := List.length_take_of_le (by rw [text_length]; exact le)
  apply List.ext_getElem?
  intro i
  rw [text_getElem?]
  simp only [insertChar_apply le]
  by_cases before : i < e.pos
  · rw [List.getElem?_append_left (by omega), List.getElem?_take_of_lt before, text_getElem?, if_pos (by omega),
      if_neg (by omega), if_neg (by omega), if_pos (by omega)]
  · rw [List.getElem?_append_right (by omega), length]
    by_cases at_ : i = e.pos
    · rw [if_pos (by omega), if_pos at_, at_, Nat.sub_self, List.getElem?_cons_zero]
    · rw [show i - e.pos = i - 1 - e.pos + 1 by omega, List.getElem?_cons_succ, List.getElem?_drop, text_getElem?,
        show e.pos + (i - 1 - e.pos) = i - 1 by omega]
      by_cases less : i < e.len + 1
      · rw [if_pos less, if_neg at_, if_pos (by omega), if_pos (by omega)]
      · rw [if_neg less, if_neg (by omega)]

/-! ## Keys -/

/-- The key `k` of the two lists, and nothing is written outside the buffer. -/
structure Edited (cfg : Config) (k : EditKey UInt8) (e e' : Edit) : Prop where
  twoList : e'.twoList = e.twoList.press (cfg.bufSize - 1) k
  outside : ∀ i, cfg.bufSize ≤ i → e'.buf i = e.buf i

/-- Only the cursor moves. -/
theorem Edited.move {k : EditKey UInt8} {p : Nat}
    (split : TwoList.split e.text p = e.twoList.press (cfg.bufSize - 1) k) : Edited cfg k e { e with pos := p } :=
  ⟨split, fun _ _ => rfl⟩

section

variable (ok : EditOk cfg e)
include ok

theorem EditOk.pos_le_length : e.pos ≤ e.text.length := by
  rw [text_length]
  exact ok.pos_le

theorem removeChar_outside {i : Nat} (outside : cfg.bufSize ≤ i) : (removeChar e).buf i = e.buf i := by
  have := ok.fits
  have := ok.pos_le
  show removeLoop e.buf e.pos (e.len - e.pos) i = e.buf i
  rw [removeLoop_apply, if_neg (by omega), if_neg (by omega)]

theorem rdlineDelete_edited : Edited cfg .delete e (rdlineDelete cfg e).2 := by
  have split := TwoList.split_delete (cfg.bufSize - 1) e.text e.pos
  rw [rdlineDelete]
  split
  next inside =>
    exact ⟨(removeChar_twoList inside).trans split, fun i outside => removeChar_outside ok outside⟩
  next beyond =>
    rw [List.eraseIdx_of_length_le (by rw [text_length]; omega)] at split
    exact ⟨split, fun _ _ => rfl⟩

theorem rdlineBackspace_edited : Edited cfg .backspace e (rdlineBackspace cfg e).2 := by
  rw [rdlineBackspace]
  split
  next positive =>
    have left : EditOk cfg { e with pos := e.pos - 1 } :=
      ok.congr rfl (le_trans (Nat.sub_le _ _) ok.pos_le) fun _ _ => rfl
    have inside : e.pos - 1 < e.len := by
      have := ok.pos_le
      omega
    exact ⟨(removeChar_twoList inside).trans
      (TwoList.split_backspace _ ok.pos_le_length positive), fun i outside => removeChar_outside left outside⟩
  next first =>
    have start : e.pos = 0 := by omega
    refine ⟨?_, fun _ _ => rfl⟩
    rw [Edit.twoList, start]
    rfl

theorem rdlineInsert_edited {c : UInt8} (printable : isPrintable c = true) :
    Edited cfg (.insert c) e (rdlineInsert cfg c e).2 := by
  rw [rdlineInsert]
  split
  next may =>
    constructor
    · have inserted := text_insertChar ok.pos_le c
      show TwoList.split (Edit.text { insertChar c e with len := e.len + 1 }) (e.pos + 1) = _
      rw [inserted]
      exact TwoList.split_insert ok.pos_le_length (by rw [text_length]; exact may.1) c
    · intro i outside
      have := ok.pos_le
      rw [insertChar_apply ok.pos_le, if_neg (by omega), if_neg (by omega)]
  next full =>
    refine ⟨TwoList.split_full ?_ c, fun _ _ => rfl⟩
    rw [text_length]
    exact not_lt.1 fun room => full ⟨room, printable⟩

end

theorem right_edited (cfg : Config) (e : Edit) :
    Edited cfg .right e (if e.pos < e.len then { e with pos := e.pos + 1 } else e) := by
  have split := TwoList.split_right (cfg.bufSize - 1) e.text e.pos
  split
  · exact .move split
  next beyond =>
    have last : e.text.length ≤ e.pos := by rw [text_length]; omega
    refine .move (Eq.trans ?_ split)
    rw [TwoList.split, TwoList.split, List.take_of_length_le last, List.drop_of_length_le last,
      List.take_of_length_le (by omega), List.drop_of_length_le (by omega)]

theorem left_edited (ok : EditOk cfg e) :
    Edited cfg .left e (if 0 < e.pos then { e with pos := e.pos - 1 } else e) := by
  have split := TwoList.split_left (cfg.bufSize - 1) ok.pos_le_length
  split
  · exact .move split
  next first =>
    rw [show e.pos - 1 = e.pos by omega] at split
    exact .move split

/-- A press of the keyboard as a round of `rdline_input`. -/
def Press.Does (cfg : Config) (p : Press) (e : Edit) (r : Handled) : Prop :=
  match p with
  | .nothing => r.status = none ∧ r.edit = e
  | .key k => r.status = none ∧ Edited cfg k e r.edit
  | .returns status => r.status = some status ∧ r.edit = e

/-- The bytes read in a round are one press. -/
structure Round (cfg : Config) (e : Edit) (m : Keyboard) (input : List (Option UInt8)) (r : Handled)
    (rest : List (Option UInt8)) (p : Press) : Prop where
  does : p.Does cfg e r
  typed : m.typed input = p.andThen (Keyboard.ground.typed rest)
  shorter : rest.length < input.length

/-- A byte that completes a key. -/
theorem Round.last {m : Keyboard} (reads : m.read c = (p, .ground)) (does : p.Does cfg e r) : Round cfg e m (c :: rest) r rest p where
  does := does
  typed := by rw [Keyboard.typed, reads]
  shorter := lt_add_one _

/-- A byte that does not. -/
theorem Round.more {m m' : Keyboard} (reads : m.read c = (.nothing, m'))
    (round : Round cfg e m' input r rest p) : Round cfg e m (c :: input) r rest p where
  does := round.does
  typed := by rw [Keyboard.typed, reads, ← round.typed]; rfl
  shorter := Nat.lt_succ_of_lt round.shorter

theorem escape_round (ok : EditOk cfg e) (key : EscapeKey cfg e input c r rest) : ∃ p, Round cfg e .bracket (c :: input) r rest p := by
  have right := right_edited cfg e
  have left := left_edited ok
  cases key with
  | down => exact ⟨.returns .onDown, .last rfl ⟨rfl, rfl⟩⟩
  | up => exact ⟨.returns .onUp, .last rfl ⟨rfl, rfl⟩⟩
  | right at_ | noRight at_ =>
    simp only [at_, if_true, if_false] at right
    exact ⟨.key .right, .last rfl ⟨rfl, right⟩⟩
  | left at_ | noLeft at_ =>
    simp only [at_, if_true, if_false] at left
    exact ⟨.key .left, .last rfl ⟨rfl, left⟩⟩
  | home => exact ⟨.key .home, .last rfl ⟨rfl, .move (TwoList.split_home _ _ _)⟩⟩
  | last =>
    have moved := TwoList.split_last (cfg.bufSize - 1) e.text e.pos
    rw [text_length] at moved
    exact ⟨.key .last, .last rfl ⟨rfl, .move moved⟩⟩
  | @delete tilde _ more =>
    have round : Round cfg e .tilde (tilde :: rest) (handled (rdlineDelete cfg e)) rest (.key .delete) :=
      .last rfl ⟨rfl, rdlineDelete_edited ok⟩
    rw [more]
    exact ⟨_, round.more rfl⟩
  | other unknown =>
    refine ⟨.nothing, .last ?_ ⟨rfl, rfl⟩⟩
    simp [Keyboard.read, Keyboard.third, unknown]

theorem rdlineKey_round (ok : EditOk cfg e) (key : rdlineKey cfg e input = some (r, rest)) : ∃ p, Round cfg e .ground input r rest p := by
  cases KeyRound.of_eq key with
  | eof => exact ⟨.returns .onEof, .last rfl ⟨rfl, rfl⟩⟩
  | enter isEnter => exact ⟨.returns .onEnter, .last (if_pos isEnter) ⟨rfl, rfl⟩⟩
  | erase noEnter isErase =>
    refine ⟨.key .backspace, .last ?_ ⟨rfl, rdlineBackspace_edited ok⟩⟩
    simp only [Keyboard.read, Keyboard.first, if_neg noEnter, if_pos isErase]
  | @ignored c _ noBracket =>
    have ignored : Round cfg e .escape (c :: rest) { edit := e } rest .nothing :=
      .last (by rw [Keyboard.read, if_neg noBracket]) ⟨rfl, rfl⟩
    exact ⟨.nothing, ignored.more rfl⟩
  | escape key =>
    obtain ⟨p, round⟩ := escape_round ok key
    exact ⟨p, (round.more rfl).more rfl⟩
  | @char c _ noEnter noErase noEscape =>
    by_cases printable : isPrintable c = true
    · refine ⟨.key (.insert c), .last ?_ ⟨rfl, rdlineInsert_edited ok printable⟩⟩
      simp only [Keyboard.read, Keyboard.first, if_neg noEnter, if_neg noErase, if_neg noEscape, if_pos printable]
    · refine ⟨.nothing, .last ?_ ⟨rfl, ?_⟩⟩
      · simp only [Keyboard.read, Keyboard.first, if_neg noEnter, if_neg noErase, if_neg noEscape, if_neg printable]
      · show (rdlineInsert cfg c e).2 = e
        rw [rdlineInsert, if_neg fun may => printable may.2]

/-- While the bytes of a key are not all there, nothing is typed. -/
theorem rdlineKey_waits (waits : rdlineKey cfg e input = none) : Keyboard.ground.typed input = {} := by
  match input, waits with
  | [], _ => rfl
  | some c :: input, waits =>
    simp only [rdlineKey] at waits
    split_ifs at waits with enter erase esc
    have reads : Keyboard.ground.read (some c) = (.nothing, .escape) := by rw [esc]; rfl
    rw [Keyboard.typed, reads]
    cases input with
    | nil => rfl
    | cons c input =>
      simp only at waits
      split_ifs at waits with bracket
      rw [bracket]
      cases input with
      | nil => rfl
      | cons c input =>
        rcases rdlineEscape_cases cfg e c input with ⟨-, rfl, rfl⟩ | ⟨r, rest, is, -⟩
        · rfl
        · cases is.symm.trans waits

/-! ## Whole inputs -/

/-- A terminal on which the line has been typed. -/
def Edit.onTerminal (e : Edit) : Terminal where
  cells i := e.text[i.toNat]?
  col := e.pos

theorem EditOk.key (ok : EditOk cfg e) (key : rdlineKey cfg e input = some (r, rest)) : EditOk cfg r.edit := by
  have shown : Shows e e.onTerminal := ⟨rfl, rfl, fun _ => rfl⟩
  exact (InStep.key ⟨ok, shown⟩ key).ok

/-- The editor of two lists, over all keys. -/
def Typed.lists (cfg : Config) (typed : Typed) (t : TwoList UInt8) : TwoList UInt8 :=
  typed.keys.foldl (fun t k => t.press (cfg.bufSize - 1) k) t

/-- What has been typed, as `rdline_input` has handled it from the buffer `e` on. -/
structure Follows (cfg : Config) (e : Edit) (typed : Typed) (r : Handled) : Prop where
  ok : EditOk cfg r.edit
  twoList : r.edit.twoList = typed.lists cfg e.twoList
  outside : ∀ i, cfg.bufSize ≤ i → r.edit.buf i = e.buf i
  status : r.status = typed.status

/-- A round, and what follows it. -/
theorem Follows.round {r' : Handled} {typed : Typed} (ok : EditOk cfg r.edit) (does : p.Does cfg e r)
    (goes : match r.status with | none => Follows cfg r.edit typed r' | some _ => r'.edit = r.edit ∧ r'.status = r.status) :
    Follows cfg e (p.andThen typed) r' := by
  cases p with
  | nothing =>
    obtain ⟨status, same⟩ := does
    rwa [status, same] at goes
  | key k =>
    obtain ⟨status, edited⟩ := does
    rw [status] at goes
    refine ⟨goes.ok, ?_, fun i outside => (goes.outside i outside).trans (edited.outside i outside), goes.status⟩
    rw [goes.twoList, edited.twoList]
    rfl
  | returns st =>
    obtain ⟨status, same⟩ := does
    rw [status] at goes
    obtain ⟨edit, status'⟩ := goes
    rw [same] at edit ok
    exact ⟨by rw [edit]; exact ok, by rw [edit]; rfl, fun _ _ => by rw [edit], status'⟩

theorem inputLoop_follows {fuel : Nat} (ok : EditOk cfg e) (enough : input.length ≤ fuel) (out : List UInt8) :
    Follows cfg e (Keyboard.ground.typed input) (inputLoop cfg out e input fuel).1 := by
  have waiting : Follows cfg e {} { out := out, edit := e } := ⟨ok, rfl, fun _ _ => rfl, rfl⟩
  induction fuel generalizing e input out with
  | zero =>
    obtain rfl : input = [] := List.eq_nil_of_length_eq_zero (by omega)
    exact waiting
  | succ fuel ih =>
    rw [inputLoop]
    cases key : rdlineKey cfg e input with
    | none =>
      rwa [rdlineKey_waits key]
    | some result =>
      obtain ⟨r, rest⟩ := result
      obtain ⟨p, round⟩ := rdlineKey_round ok key
      have shorter := round.shorter
      have ok' := ok.key key
      rw [round.typed]
      refine .round ok' round.does ?_
      cases is : r.status with
      | none =>
        simp only [is]
        exact ih ok' (by omega) _ ⟨ok', rfl, fun _ _ => rfl, rfl⟩
      | some status =>
        simp only [is, and_self]

/-- The buffer is one zero-ended string with the cursor in it, and nothing behind the buffer `e` has been written. -/
structure LineKept (cfg : Config) (e : Edit) (e' : Edit) : Prop where
  pos_le : e'.pos ≤ e'.len
  len_le : e'.len ≤ cfg.bufSize - 1
  ended : e'.buf e'.len = 0
  nonzero : ∀ i < e'.len, e'.buf i ≠ 0
  outside : ∀ i, cfg.bufSize ≤ i → e'.buf i = e.buf i

/-- Whatever bytes have come since the buffer was cleared, when `rdline_input` returns or waits for the next one its
buffer is in order, the texts left and right of the cursor are those of the editor of two lists after the keys
typed, and it has returned when and as the keys say. -/
theorem line_editing (cfg : Config) (e : Edit) (input : List (Option UInt8)) :
    LineKept cfg e (rdlineInput cfg (rdlineClear cfg e) input).1.edit ∧
    TwoList.split (rdlineInput cfg (rdlineClear cfg e) input).1.edit.text
        (rdlineInput cfg (rdlineClear cfg e) input).1.edit.pos =
      (Keyboard.ground.typed input).keys.foldl (fun t k => t.press (cfg.bufSize - 1) k) ⟨[], []⟩ ∧
    (rdlineInput cfg (rdlineClear cfg e) input).1.status = (Keyboard.ground.typed input).status := by
  have follows := inputLoop_follows (EditOk.clear cfg e) (le_refl input.length) []
  have ok := follows.ok
  refine ⟨⟨ok.pos_le, Nat.le_sub_one_of_lt ok.fits, ok.ended, fun i below => printable_ne_zero (ok.shown i below), ?_⟩,
    follows.twoList, follows.status⟩
  intro i outside
  have cleared : (rdlineClear cfg e).buf i = e.buf i := if_neg (not_lt.2 outside)
  exact (follows.outside i outside).trans cleared

/-- Two letters, a step to the left, a letter between them, and the return key. -/
example : Keyboard.ground.typed [some 97, some 99, some 27, some 91, some 68, some 98, some 13] =
    ⟨[.insert 97, .insert 99, .left, .insert 98], some .onEnter⟩ := rfl

end ChibiOS.Rdline
