import ChibiOS.Lib.Lts
import ChibiOS.Rdline.Editor

/-!
# The line editor shows what it holds

The bytes that the editor prints are interpreted on a terminal of one row. Between
two keys the row holds the edit buffer from the start column on and nothing behind
it, and the cursor is at the position of the editor: each key is a step of both, and
the count of every cursor movement is read back as it was written.
-/

namespace ChibiOS.Rdline

open Lib Function Terminal

/-! ## Counts -/

theorem rev_apply {s : Mem} {a b fuel : Nat} (enough : b - a ≤ fuel) (i : Nat) :
    rev s a b fuel i = if a ≤ i ∧ i ≤ b then s (a + b - i) else s i := by
  induction fuel generalizing s a b with
  | zero =>
    rw [rev]
    split
    next inside => rw [show a + b - i = i by omega]
    · rfl
  | succ fuel ih =>
    rw [rev]
    split
    next more =>
      rw [ih (by omega), show a + 1 + (b - 1) - i = a + b - i by omega]
      by_cases first : i = a
      · subst first
        rw [if_neg (by omega), if_pos (by omega), swp, update_of_ne (by omega), update_self, Nat.add_sub_cancel_left]
      by_cases last : i = b
      · subst last
        rw [if_neg (by omega), if_pos (by omega), swp, update_self, Nat.add_sub_cancel]
      by_cases inside : a ≤ i ∧ i ≤ b
      · rw [if_pos (by omega), if_pos inside, swp, update_of_ne (by omega), update_of_ne (by omega)]
      · rw [if_neg (by omega), if_neg inside, swp, update_of_ne last, update_of_ne first]
    next done =>
      split
      next inside => rw [show a + b - i = i by omega]
      · rfl

theorem digitChars_eq : ∀ d < 10, digitChars.getD d 0 = Terminal.digit d := by decide

/-- The digits are written from the last to the first; the one that the loop leaves ends them. -/
theorem convLoop_spec (ptr : Mem) (cnt n : Nat) {fuel : Nat} (enough : n ≤ fuel) (positive : 0 < n) :
    (convLoop ptr cnt n fuel).2.1 + 1 = cnt + (Nat.digits 10 n).length ∧
    ∀ i, update (convLoop ptr cnt n fuel).1 (convLoop ptr cnt n fuel).2.1
        (digitChars.getD ((convLoop ptr cnt n fuel).2.2 % 10) 0) i =
      if cnt ≤ i ∧ i < cnt + (Nat.digits 10 n).length then Terminal.digit ((Nat.digits 10 n).getD (i - cnt) 0)
      else ptr i := by
  induction fuel generalizing ptr cnt n with
  | zero => omega
  | succ fuel ih =>
    by_cases large : 10 ≤ n
    · have round : convLoop ptr cnt n (fuel + 1) =
          convLoop (update ptr cnt (digit (n % 10))) (cnt + 1) (n / 10) fuel := by
        rw [convLoop, if_pos large, digitChars_eq _ (Nat.mod_lt _ (by decide))]
      obtain ⟨count, written⟩ := ih (update ptr cnt (digit (n % 10))) (cnt + 1) (n / 10)
        (by omega) (by omega)
      rw [round, Nat.digits_def' (by decide) positive, List.length_cons]
      refine ⟨by omega, fun i => ?_⟩
      rw [written i]
      by_cases first : i = cnt
      · subst first
        rw [if_neg (by omega), if_pos (by omega), update_self, Nat.sub_self, List.getD_cons_zero]
      by_cases inside : cnt + 1 ≤ i ∧ i < cnt + 1 + (Nat.digits 10 (n / 10)).length
      · rw [if_pos inside, if_pos (by omega), show i - cnt = i - (cnt + 1) + 1 by omega, List.getD_cons_succ]
      · rw [if_neg inside, if_neg (by omega), update_of_ne first]
    · have single : Nat.digits 10 n = [n] := Nat.digits_of_lt 10 n (by omega) (by omega)
      rw [convLoop, if_neg large, single]
      refine ⟨rfl, fun i => ?_⟩
      by_cases first : i = cnt
      · subst first
        rw [update_self, if_pos (by simp), Nat.sub_self, List.getD_cons_zero]
        show digitChars.getD (n % 10) 0 = _
        rw [Nat.mod_eq_of_lt (by omega), digitChars_eq n (by omega)]
      · rw [update_of_ne first, if_neg (by simp only [List.length_singleton]; omega)]

theorem doMove_eq {n : Nat} {dir : UInt8} (positive : 0 < n) : doMove n dir = Terminal.csi n dir := by
  have digits : rdlineWrite (convascii (fun _ => 0) n).1 (convascii (fun _ => 0) n).2 =
      (Nat.digits 10 n).reverse.map digit := by
    obtain ⟨count, written⟩ := convLoop_spec (fun _ => 0) 0 n (le_refl n) positive
    simp only [convascii, rdlineWrite]
    generalize convLoop (fun _ => 0) 0 n n = r at count written
    obtain ⟨ptr, cnt, left⟩ := r
    simp only [Nat.zero_add] at count written
    refine List.ext_getElem (by simp [count]) fun i below _ => ?_
    simp only [List.length_map, List.length_range] at below
    simp only [List.getElem_map, List.getElem_range, List.getElem_reverse]
    rw [rev_apply (by omega), if_pos (by omega), written, if_pos (by omega), Nat.zero_add, Nat.sub_zero,
      List.getD_eq_getElem?_getD, List.getElem?_eq_getElem (by omega), Option.getD_some]
    congr 2
    omega
  rw [doMove, csi, ← digits]

variable {t : Terminal} {cfg : Config} {e : Edit} {h h' : Ctx}

theorem feed_moveLeft (ground : t.mode = .ground) (n : Nat) : t.feedAll (moveLeft n) = { t with col := t.col - n } := by
  rw [moveLeft]
  split
  next positive => rw [doMove_eq positive, feedAll_left ground positive]
  next zero =>
    obtain rfl : n = 0 := by omega
    rw [Int.natCast_zero, Int.sub_zero]
    rfl

theorem feed_moveRight (ground : t.mode = .ground) (n : Nat) : t.feedAll (moveRight n) = { t with col := t.col + n } := by
  rw [moveRight]
  split
  next positive => rw [doMove_eq positive, feedAll_right ground positive]
  next zero =>
    obtain rfl : n = 0 := by omega
    rw [Int.natCast_zero, Int.add_zero]
    rfl

/-! ## The buffer -/

theorem insertLoop_apply (buf : Mem) (pos n i : Nat) :
    insertLoop buf pos n i = if pos < i ∧ i ≤ pos + n then buf (i - 1) else buf i := by
  induction n generalizing buf with
  | zero => rw [insertLoop, if_neg (by omega)]
  | succ n ih =>
    rw [insertLoop, ih]
    by_cases last : i = pos + n + 1
    · subst last
      rw [if_neg (by omega), if_pos (by omega), update_self]
      rfl
    by_cases inside : pos < i ∧ i ≤ pos + n
    · rw [if_pos inside, if_pos (by omega), update_of_ne (by omega)]
    · rw [if_neg inside, if_neg (by omega), update_of_ne last]

theorem insertChar_apply {c : UInt8} (le : e.pos ≤ e.len) (i : Nat) : (insertChar c e).buf i =
    if i = e.pos then c else if e.pos < i ∧ i ≤ e.len + 1 then e.buf (i - 1) else e.buf i := by
  show update (insertLoop e.buf e.pos (e.len + 1 - e.pos)) e.pos c i = _
  rw [update_apply, insertLoop_apply, show e.pos + (e.len + 1 - e.pos) = e.len + 1 by omega]

theorem removeLoop_apply (buf : Mem) (pos n i : Nat) : removeLoop buf pos n i =
      if pos ≤ i ∧ i < pos + n then buf (i + 1) else if i = pos + n then 0 else buf i := by
  induction n generalizing buf pos with
  | zero =>
    rw [removeLoop, if_neg (by omega), update_apply]
    rfl
  | succ n ih =>
    rw [removeLoop, ih, show pos + 1 + n = pos + (n + 1) by omega]
    by_cases first : i = pos
    · subst first
      rw [if_neg (by omega), if_neg (by omega), if_pos (by omega), update_self]
    by_cases inside : pos + 1 ≤ i ∧ i < pos + (n + 1)
    · rw [if_pos inside, if_pos (by omega), update_of_ne (by omega)]
    · have outside : ¬ (pos ≤ i ∧ i < pos + (n + 1)) := by omega
      rw [if_neg inside, if_neg outside, update_of_ne first]

/-- The text that the buffer holds. -/
def Edit.text (e : Edit) : List UInt8 := rdlineWrite e.buf e.len

theorem rdlineWrite_getElem? (buf : Mem) (n i : Nat) : (rdlineWrite buf n)[i]? = if i < n then some (buf i) else none := by
  rw [rdlineWrite, List.getElem?_map]
  split
  next below => rw [List.getElem?_range below, Option.map_some]
  next above => rw [List.getElem?_eq_none (by simpa using above), Option.map_none]

/-- The buffer holds printable characters, ended by a zero, and the cursor is among them. -/
structure EditOk (cfg : Config) (e : Edit) : Prop where
  pos_le : e.pos ≤ e.len
  fits : e.len < cfg.bufSize
  shown : ∀ i < e.len, Terminal.printable (e.buf i) = true
  ended : e.buf e.len = 0

theorem printable_ne_zero {c : UInt8} (shown : Terminal.printable c = true) : c ≠ 0 := by
  rintro rfl
  cases shown

/-- Only the bytes up to the zero matter. -/
theorem EditOk.congr {e' : Edit} (ok : EditOk cfg e) (len : e'.len = e.len) (pos : e'.pos ≤ e.len)
    (same : ∀ i ≤ e.len, e'.buf i = e.buf i) : EditOk cfg e' where
  pos_le := by rw [len]; exact pos
  fits := by rw [len]; exact ok.fits
  shown i below := by
    rw [len] at below
    rw [same i (by omega)]
    exact ok.shown i below
  ended := by rw [len, same _ le_rfl, ok.ended]

/-- A string is printed up to its zero. -/
theorem printStr_eq (ok : EditOk cfg e) {ptr : Nat} (le : ptr ≤ e.len) :
    printStr cfg e.buf ptr = rdlineWrite (fun i => e.buf (ptr + i)) (e.len - ptr) := by
  obtain ⟨rest, split⟩ : ∃ rest, cfg.bufSize - ptr = (e.len - ptr) + (rest + 1) :=
    ⟨cfg.bufSize - e.len - 1, by have := ok.fits; omega⟩
  rw [printStr, split, List.range_add, List.map_append, List.takeWhile_append_of_pos]
  · rw [List.range_succ_eq_map, List.map_cons, List.map_cons, List.takeWhile_cons_of_neg, List.append_nil]
    · rfl
    · have zero : ptr + (e.len - ptr + 0) = e.len := by omega
      simp only [zero, ok.ended]
      decide
  · intro c mem
    obtain ⟨i, below, rfl⟩ := List.mem_map.1 mem
    have := List.mem_range.1 below
    simpa using printable_ne_zero (ok.shown (ptr + i) (by omega))

/-! ## Keys -/

/-- The terminal shows the text of the buffer, with its cursor at the position of the editor. -/
structure Shows (e : Edit) (t : Terminal) : Prop where
  ground : t.mode = .ground
  col : t.col = e.pos
  text : ∀ i : Nat, t.cells i = e.text[i]?

theorem Shows.cell (shows_ : Shows e t) (i : Nat) : t.cells i = if i < e.len then some (e.buf i) else none := by
  rw [shows_.text, Edit.text, rdlineWrite_getElem?]

/-- The cursor is moved inside the text. -/
theorem Shows.move (shows_ : Shows e t) (p : Nat) : Shows { e with pos := p } { t with col := p } :=
  ⟨shows_.ground, rfl, shows_.text⟩

/-- Printing the rest of the line over what is left of it, where nothing stands behind the new end. -/
theorem shows_printLine (ok : EditOk cfg e) (ground : t.mode = .ground) (col : t.col = e.pos)
    (before : ∀ i < e.pos, t.cells (i : Nat) = some (e.buf i)) (after : ∀ i : Nat, e.len ≤ i → t.cells i = none) :
    Shows e (t.feedAll (printLine cfg e)) := by
  have string := printStr_eq ok ok.pos_le
  have length : (rdlineWrite (fun i => e.buf (e.pos + i)) (e.len - e.pos)).length = e.len - e.pos := by simp [rdlineWrite]
  have printed : ∀ c ∈ rdlineWrite (fun i => e.buf (e.pos + i)) (e.len - e.pos), printable c = true := by
    intro c mem
    obtain ⟨i, below, rfl⟩ := List.mem_map.1 mem
    have := List.mem_range.1 below
    exact ok.shown _ (by omega)
  simp only [printLine, string]
  rw [feedAll_append, feedAll_text ground printed, feed_moveLeft rfl, length]
  refine ⟨rfl, ?_, fun i => ?_⟩
  · show t.col + _ - _ = _
    omega
  · rw [Edit.text, rdlineWrite_getElem?]
    simp only [overwrite, length, col]
    have := ok.pos_le
    by_cases inside : e.pos ≤ i ∧ i < e.len
    · rw [if_pos (by omega), if_pos inside.2, rdlineWrite_getElem?, if_pos (by omega)]
      congr 2
      omega
    · rw [if_neg (by omega)]
      by_cases less : i < e.len
      · rw [if_pos less, before i (by omega)]
      · rw [if_neg less, after i (by omega)]

/-- Erasing from the cursor on. -/
theorem feed_clearLine (ground : t.mode = .ground) :
    t.feedAll clearLine = { t with cells := fun i => if t.col ≤ i then none else t.cells i } :=
  feedAll_erase ground

/-- The line without the character under the cursor. -/
theorem EditOk.remove (ok : EditOk cfg e) (inside : e.pos < e.len) :
    EditOk cfg { removeChar e with len := e.len - 1 } where
  pos_le := by show e.pos ≤ e.len - 1; omega
  fits := by have := ok.fits; show e.len - 1 < _; omega
  shown i below := by
    simp only [removeChar] at below ⊢
    rw [removeLoop_apply]
    split
    · exact ok.shown (i + 1) (by omega)
    · rw [if_neg (by omega)]
      exact ok.shown i (by omega)
  ended := by
    simp only [removeChar]
    rw [removeLoop_apply, if_pos (by omega), show e.len - 1 + 1 = e.len by omega, ok.ended]

/-- Removing the character under the cursor and typing the rest of the line again. -/
theorem shows_removed (ok : EditOk cfg e) (inside : e.pos < e.len) (ground : t.mode = .ground) (col : t.col = e.pos)
    (before : ∀ i < e.pos, t.cells (i : Nat) = some (e.buf i)) :
    Shows { removeChar e with len := e.len - 1 } (t.feedAll (clearLine ++ printLine cfg (removeChar e))) := by
  rw [feedAll_append, feed_clearLine ground]
  refine shows_printLine (ok.remove inside) ground col ?_ ?_
  · intro i less
    simp only [removeChar] at less ⊢
    rw [if_neg (by omega), removeLoop_apply, if_neg (by omega), if_neg (by omega)]
    exact before i less
  · intro i above
    simp only at above ⊢
    rw [if_pos (by omega)]

/-- What a key that starts with `ESC [` does, with the bytes left after it. -/
inductive EscapeKey (cfg : Config) (e : Edit) (input : List (Option UInt8)) :
    Option UInt8 → Handled → List (Option UInt8) → Prop
  | down : EscapeKey cfg e input (some 66) { edit := e, status := some .onDown } input
  | up : EscapeKey cfg e input (some 65) { edit := e, status := some .onUp } input
  | right (inside : e.pos < e.len) :
      EscapeKey cfg e input (some 67) (handled (moveRight 1, { e with pos := e.pos + 1 })) input
  | noRight (beyond : ¬ e.pos < e.len) : EscapeKey cfg e input (some 67) (handled ([], e)) input
  | left (positive : 0 < e.pos) : EscapeKey cfg e input (some 68) (handled (moveLeft 1, { e with pos := e.pos - 1 })) input
  | noLeft (first : ¬ 0 < e.pos) : EscapeKey cfg e input (some 68) (handled ([], e)) input
  | home : EscapeKey cfg e input (some 72) (handled (moveHome e)) input
  | last : EscapeKey cfg e input (some 70) (handled (moveRight (e.len - e.pos), { e with pos := e.len })) input
  | delete {tilde : Option UInt8} {rest : List (Option UInt8)} (more : input = tilde :: rest) :
      EscapeKey cfg e input (some 51) (handled (rdlineDelete cfg e)) rest
  | other {c : Option UInt8} (unknown : ∀ k ∈ [66, 65, 67, 68, 72, 70, 51], c ≠ some k) :
      EscapeKey cfg e input c { edit := e } input

/-- Only the deletion key waits for another byte. -/
theorem rdlineEscape_cases (cfg : Config) (e : Edit) (c : Option UInt8) (input : List (Option UInt8)) :
    rdlineEscape cfg e c input = none ∧ c = some 51 ∧ input = [] ∨
    ∃ r rest, rdlineEscape cfg e c input = some (r, rest) ∧ EscapeKey cfg e input c r rest := by
  by_cases down : c = some 66
  · subst down
    exact .inr ⟨_, _, rfl, .down⟩
  by_cases up : c = some 65
  · subst up
    exact .inr ⟨_, _, rfl, .up⟩
  by_cases right : c = some 67
  · subst right
    by_cases inside : e.pos < e.len
    · exact .inr ⟨_, _, congrArg (fun r => some (handled r, input)) (if_pos inside), .right inside⟩
    · exact .inr ⟨_, _, congrArg (fun r => some (handled r, input)) (if_neg inside), .noRight inside⟩
  by_cases left : c = some 68
  · subst left
    by_cases positive : 0 < e.pos
    · exact .inr ⟨_, _, congrArg (fun r => some (handled r, input)) (if_pos positive), .left positive⟩
    · exact .inr ⟨_, _, congrArg (fun r => some (handled r, input)) (if_neg positive), .noLeft positive⟩
  by_cases home : c = some 72
  · subst home
    exact .inr ⟨_, _, rfl, .home⟩
  by_cases last : c = some 70
  · subst last
    exact .inr ⟨_, _, rfl, .last⟩
  by_cases del : c = some 51
  · subst del
    cases input with
    | nil => exact .inl ⟨rfl, rfl, rfl⟩
    | cons tilde rest => exact .inr ⟨_, _, rfl, .delete rfl⟩
  · refine .inr ⟨_, _, ?_, .other (by simp [down, up, right, left, home, last, del])⟩
    unfold rdlineEscape
    rw [if_neg down, if_neg up, if_neg right, if_neg left, if_neg home, if_neg last, if_neg del]

theorem EscapeKey.of_eq {c : Option UInt8} {input rest : List (Option UInt8)} {r : Handled}
    (key : rdlineEscape cfg e c input = some (r, rest)) : EscapeKey cfg e input c r rest := by
  rcases rdlineEscape_cases cfg e c input with ⟨waits, -⟩ | ⟨r', rest', is, escape⟩
  · cases waits.symm.trans key
  · cases is.symm.trans key
    exact escape

/-- A round of `rdline_input`, from the bytes it finds to those that it leaves. -/
inductive KeyRound (cfg : Config) (e : Edit) : List (Option UInt8) → Handled → List (Option UInt8) → Prop
  | eof {rest : List (Option UInt8)} : KeyRound cfg e (none :: rest) { edit := e, status := some .onEof } rest
  | enter {c : UInt8} {rest : List (Option UInt8)} (isEnter : c = 13 ∨ c = 10) :
      KeyRound cfg e (some c :: rest) { edit := e, status := some .onEnter } rest
  | erase {c : UInt8} {rest : List (Option UInt8)} (noEnter : ¬ (c = 13 ∨ c = 10)) (isErase : c = 8 ∨ c = 127) :
      KeyRound cfg e (some c :: rest) (handled (rdlineBackspace cfg e)) rest
  | ignored {c : Option UInt8} {rest : List (Option UInt8)} (noBracket : c ≠ some 91) :
      KeyRound cfg e (some 27 :: c :: rest) { edit := e } rest
  | escape {c : Option UInt8} {input rest : List (Option UInt8)} {r : Handled} (key : EscapeKey cfg e input c r rest) :
      KeyRound cfg e (some 27 :: some 91 :: c :: input) r rest
  | char {c : UInt8} {rest : List (Option UInt8)} (noEnter : ¬ (c = 13 ∨ c = 10)) (noErase : ¬ (c = 8 ∨ c = 127))
      (noEscape : c ≠ 27) : KeyRound cfg e (some c :: rest) (handled (rdlineInsert cfg c e)) rest

theorem KeyRound.of_eq {input rest : List (Option UInt8)} {r : Handled} (key : rdlineKey cfg e input = some (r, rest)) :
    KeyRound cfg e input r rest := by
  match input, key with
  | none :: input, key =>
    cases key
    exact .eof
  | some c :: input, key =>
    simp only [rdlineKey] at key
    split_ifs at key with isEnter isErase isEscape
    · cases key
      exact .enter isEnter
    · cases key
      exact .erase isEnter isErase
    · subst isEscape
      cases input with
      | nil => cases key
      | cons c input =>
        simp only at key
        split_ifs at key with bracket
        · subst bracket
          cases input with
          | nil => cases key
          | cons c input => exact .escape (.of_eq key)
        · cases key
          exact .ignored bracket
    · cases key
      exact .char isEnter isErase isEscape

/-- Editor and terminal are in step. -/
structure InStep (cfg : Config) (e : Edit) (t : Terminal) : Prop where
  ok : EditOk cfg e
  shows_ : Shows e t

namespace InStep

section

variable (step : InStep cfg e t)
include step

theorem before {p : Nat} (le : p ≤ e.len) : ∀ i < p, t.cells (i : Nat) = some (e.buf i) := by
  intro i less
  rw [step.shows_.cell, if_pos (by omega)]

/-- The keys that only move the cursor. -/
theorem move {p : Nat} (le : p ≤ e.len) {t' : Terminal} (moved : t' = { t with col := p }) :
    InStep cfg { e with pos := p } t' :=
  ⟨⟨le, step.ok.fits, step.ok.shown, step.ok.ended⟩, moved ▸ step.shows_.move p⟩

theorem left {n : Nat} (le : n ≤ e.pos) : InStep cfg { e with pos := e.pos - n } (t.feedAll (moveLeft n)) := by
  refine step.move (by have := step.ok.pos_le; omega) ?_
  rw [feed_moveLeft step.shows_.ground, step.shows_.col, Int.ofNat_sub le]

theorem right {n : Nat} (le : e.pos + n ≤ e.len) :
    InStep cfg { e with pos := e.pos + n } (t.feedAll (moveRight n)) := by
  refine step.move le ?_
  rw [feed_moveRight step.shows_.ground, step.shows_.col, Int.natCast_add]

theorem home : InStep cfg (moveHome e).2 (t.feedAll (moveHome e).1) := by
  have moved := step.left (le_refl e.pos)
  rwa [Nat.sub_self] at moved

theorem delete : InStep cfg (rdlineDelete cfg e).2 (t.feedAll (rdlineDelete cfg e).1) := by
  rw [rdlineDelete]
  split
  next inside =>
    exact ⟨step.ok.remove inside,
      shows_removed step.ok inside step.shows_.ground step.shows_.col (step.before step.ok.pos_le)⟩
  · exact step

/-- A step to the left, and the character there is deleted. -/
theorem backspace : InStep cfg (rdlineBackspace cfg e).2 (t.feedAll (rdlineBackspace cfg e).1) := by
  rw [rdlineBackspace]
  split
  next positive =>
    have left := step.left positive
    have inside : e.pos - 1 < e.len := by
      have := step.ok.pos_le
      omega
    refine ⟨left.ok.remove inside, ?_⟩
    show Shows _ (t.feedAll (moveLeft 1 ++ clearLine ++ printLine cfg _))
    rw [List.append_assoc, feedAll_append]
    exact shows_removed left.ok inside left.shows_.ground left.shows_.col (left.before left.ok.pos_le)
  · exact step

theorem insertChar_ok {c : UInt8} (room : e.len < cfg.bufSize - 1) (shown : Terminal.printable c = true) :
    EditOk cfg { insertChar c e with len := e.len + 1 } := by
  have le := step.ok.pos_le
  refine ⟨by show e.pos ≤ e.len + 1; omega, by show e.len + 1 < _; omega, fun i below => ?_, ?_⟩
  · show printable ((insertChar c e).buf i) = true
    have below' : i < e.len + 1 := below
    rw [insertChar_apply le]
    split
    · exact shown
    · split
      next inside => exact step.ok.shown (i - 1) (by omega)
      next outside => exact step.ok.shown i (by omega)
  · show (insertChar c e).buf (e.len + 1) = 0
    rw [insertChar_apply le, if_neg (by omega), if_pos (by omega)]
    exact step.ok.ended

theorem insert {c : UInt8} (notDel : c ≠ 127) :
    InStep cfg (rdlineInsert cfg c e).2 (t.feedAll (rdlineInsert cfg c e).1) := by
  rw [rdlineInsert]
  split
  next may =>
    have shown : printable c = true := by
      have ne : c.toNat ≠ 127 := fun eq => notDel (UInt8.toNat_inj.1 eq)
      have range : 31 < c.toNat ∧ c.toNat < 128 := of_decide_eq_true may.2
      exact decide_eq_true (by omega)
    have ok := step.insertChar_ok may.1 shown
    have le := step.ok.pos_le
    have typed : Shows { insertChar c e with len := e.len + 1 } (t.feedAll (printLine cfg (insertChar c e))) := by
      refine shows_printLine ok step.shows_.ground step.shows_.col ?_ ?_
      · intro i less
        have less' : i < e.pos := less
        rw [step.before le i less', insertChar_apply le, if_neg (by omega), if_neg (by omega)]
      · intro i above
        have above' : e.len + 1 ≤ i := above
        rw [step.shows_.cell, if_neg (by omega)]
    rw [feedAll_append]
    exact InStep.right ⟨ok, typed⟩ (by show e.pos + 1 ≤ e.len + 1; omega)
  · exact step

theorem escape {c : Option UInt8} {input rest : List (Option UInt8)} {r : Handled}
    (key : EscapeKey cfg e input c r rest) : InStep cfg r.edit (t.feedAll r.out) := by
  have le := step.ok.pos_le
  cases key with
  | right inside => exact step.right inside
  | left positive => exact step.left positive
  | home => exact step.home
  | last =>
    have moved := step.right (n := e.len - e.pos) (by omega)
    rwa [show e.pos + (e.len - e.pos) = e.len by omega] at moved
  | delete more => exact step.delete
  | down | up | noRight | noLeft | other => exact step

theorem key {input rest : List (Option UInt8)} {r : Handled} (key : rdlineKey cfg e input = some (r, rest)) :
    InStep cfg r.edit (t.feedAll r.out) := by
  cases KeyRound.of_eq key with
  | erase noEnter isErase => exact step.backspace
  | escape key => exact step.escape key
  | char noEnter noErase noEscape => exact step.insert fun del => noErase (.inr del)
  | eof | enter | ignored => exact step

end

/-- The line is typed again from the start column. -/
theorem redraw {e' : Edit} (home : InStep cfg { e with pos := 0 } t) (ok : EditOk cfg e') :
    InStep cfg e' (t.feedAll (redrawLine e')) := by
  have length : (rdlineWrite e'.buf e'.len).length = e'.len := by simp [rdlineWrite]
  have printed : ∀ c ∈ rdlineWrite e'.buf e'.len, printable c = true := by
    intro c mem
    obtain ⟨i, below, rfl⟩ := List.mem_map.1 mem
    exact ok.shown _ (List.mem_range.1 below)
  have col : t.col = 0 := home.shows_.col
  have := ok.pos_le
  rw [redrawLine, feedAll_append, feedAll_append, feed_clearLine home.shows_.ground,
    feedAll_text (t := { t with cells := fun i => if t.col ≤ i then none else t.cells i }) home.shows_.ground
      printed, feed_moveLeft rfl, length]
  refine ⟨ok, rfl, ?_, fun i => ?_⟩
  · show t.col + _ - _ = _
    omega
  · rw [Edit.text, rdlineWrite_getElem?]
    simp only [overwrite, length, col]
    by_cases less : i < e'.len
    · rw [if_pos (by omega), if_pos less, rdlineWrite_getElem?, if_pos (by omega), Int.sub_zero, Int.toNat_natCast]
    · rw [if_neg (by omega), if_pos (by omega), if_neg less]

end InStep

/-! ## History -/

theorem ncpyLoop_apply {dst src : Mem} {i n len : Nat} (le : i ≤ len) (room : len ≤ i + n)
    (nonzero : ∀ j < len, src j ≠ 0) (ended : src len = 0) {j : Nat} (below : j ≤ len) :
    ncpyLoop dst src i n j = if j < i then dst j else src j := by
  -- The zero is written in place of that of the source.
  have stop (dst : Mem) : update dst len 0 j = if j < len then dst j else src j := by
    rw [update_apply]
    split
    next at_ => rw [at_, if_neg (lt_irrefl len), ended]
    · rw [if_pos (by omega)]
  induction n generalizing dst i with
  | zero =>
    obtain rfl : i = len := by omega
    exact stop dst
  | succ n ih =>
    rw [ncpyLoop]
    rcases Nat.lt_or_eq_of_le le with less | rfl
    · rw [if_neg (nonzero i less), ih (by omega) (by omega)]
      by_cases at_ : j = i
      · subst at_
        rw [if_pos (by omega), update_self, if_neg (by omega)]
      · by_cases before : j < i
        · rw [if_pos (by omega), update_of_ne at_, if_pos before]
        · rw [if_neg (by omega), if_neg before]
    · rw [if_pos ended]
      exact stop dst

/-- A line is copied with its zero. -/
theorem ncpy_apply {dst : Mem} (ok : EditOk cfg e) {j : Nat} (below : j ≤ e.len) : ncpy dst e.buf cfg.bufSize j = e.buf j := by
  have := ok.fits
  rw [ncpy, ncpyLoop_apply (Nat.zero_le _) (by omega) (fun j less => printable_ne_zero (ok.shown j less)) ok.ended below,
    if_neg (by omega)]

/-- The line of an entry, as the editor would hold it. -/
def Entry.edit (en : Entry) : Edit := ⟨en.line, en.pos, en.len⟩

/-- The editor, and every line of the arena. -/
structure CtxOk (cfg : Config) (h : Ctx) : Prop where
  edit : EditOk cfg h.edit
  entries : ∀ i, EditOk cfg (h.arena i).edit

theorem CtxOk.insert (ok : CtxOk cfg h) (inserted : historyInsert cfg h = some h') : CtxOk cfg h' := by
  obtain ⟨-, ⟨⟩⟩ := Option.ite_none_right_eq_some.1 inserted
  refine ⟨ok.edit, fun i => ?_⟩
  by_cases new : i = h.historyLen
  · subst new
    simp only [update_self]
    exact ok.edit.congr rfl ok.edit.pos_le fun j below => ncpy_apply ok.edit below
  · simp only [update_of_ne new]
    exact ok.entries i

theorem CtxOk.get (ok : CtxOk cfg h) (got : historyGet cfg h = some h') : CtxOk cfg h' := by
  obtain ⟨-, ⟨⟩⟩ := Option.ite_none_right_eq_some.1 got
  refine ⟨?_, ok.entries⟩
  exact (ok.entries h.curr).congr rfl (ok.entries h.curr).pos_le fun j below => ncpy_apply (ok.entries h.curr) below

theorem EditOk.clear (cfg : Config) (e : Edit) : EditOk cfg (rdlineClear cfg e) :=
  ⟨le_refl 0, cfg.bufSize_pos, nofun, if_pos cfg.bufSize_pos⟩

/-- What `rdline_read` does after a key that ends `rdline_input`. -/
theorem rdlineReturn_inStep {status : Status} {out : List UInt8} {more : Bool} (ok : CtxOk cfg h)
    (step : InStep cfg h.edit t) (returned : rdlineReturn cfg status h = some (out, h', more)) :
    CtxOk cfg h' ∧ (more = true → InStep cfg h'.edit (t.feedAll out)) := by
  have home := step.home
  cases status with
  | onEof =>
    cases returned
    exact ⟨ok, nofun⟩
  | onEnter =>
    simp only [rdlineReturn] at returned
    split at returned
    · obtain ⟨h₁, inserted, ⟨⟩⟩ := Option.map_eq_some_iff.1 returned
      exact ⟨ok.insert inserted, nofun⟩
    · cases returned
      exact ⟨ok, nofun⟩
  | onUp =>
    simp only [rdlineReturn] at returned
    split at returned
    · obtain ⟨h₁, got, ⟨⟩⟩ := Option.bind_eq_some_iff.1 returned
      have ok₁ := CtxOk.get (h := { h with edit := (moveHome h.edit).2, curr := h.curr - 1 }) ⟨home.ok, ok.entries⟩ got
      refine ⟨ok₁, fun _ => ?_⟩
      rw [feedAll_append]
      exact home.redraw ok₁.edit
    · cases returned
      exact ⟨ok, fun _ => step⟩
  | onDown =>
    obtain ⟨h₁, ok₁, eq⟩ : ∃ h₁, CtxOk cfg h₁ ∧ ((moveHome h.edit).1 ++ redrawLine h₁.edit, h₁, true) = (out, h', more) := by
      simp only [rdlineReturn, Option.bind_eq_bind] at returned
      split at returned
      · obtain ⟨h₁, got, eq⟩ := Option.bind_eq_some_iff.1 returned
        exact ⟨h₁, CtxOk.get (h := { h with edit := (moveHome h.edit).2, curr := h.curr + 1 }) ⟨home.ok, ok.entries⟩ got,
          Option.some.inj eq⟩
      · exact ⟨{ h with edit := rdlineClear cfg (moveHome h.edit).2 }, ⟨.clear cfg _, ok.entries⟩, Option.some.inj returned⟩
    cases eq
    refine ⟨ok₁, fun _ => ?_⟩
    rw [feedAll_append]
    exact home.redraw ok₁.edit

/-! ## Sessions -/

/-- The editor and its terminal; `reading` inside `rdline_read`. The bytes still to come include the end of the
input. -/
structure Session where
  ctx : Ctx
  term : Terminal := .blank
  input : List (Option UInt8)
  reading : Bool := false

inductive Event
  /-- `rdline_read` is called, on a blank row. -/
  | read
  /-- A key is handled. -/
  | key

def Session.next (cfg : Config) (ev : Event) (s : Session) : Option Session :=
  match ev with
  | .read => if s.reading then none else some { s with ctx := rdlineRead cfg s.ctx, term := .blank, reading := true }
  | .key =>
    if s.reading then do
      let (r, input) ← rdlineKey cfg s.ctx.edit s.input
      let s := { s with ctx := { s.ctx with edit := r.edit }, term := s.term.feedAll r.out, input := input }
      match r.status with
      | none => some s
      | some status =>
        let (out, ctx, more) ← rdlineReturn cfg status s.ctx
        some { s with ctx := ctx, term := s.term.feedAll out, reading := more }
    else none

/-- `rdline_init`, with an arena in static storage. -/
def rdlineInit (buf : Mem) : Ctx := ⟨⟨buf, 0, 0⟩, 0, 0, fun _ => {}⟩

def sessions (cfg : Config) (buf : Mem) (input : List (Option UInt8)) : Lts Session Event where
  init := { ctx := rdlineInit buf, input := input }
  next := Session.next cfg

/-- Inside `rdline_read`, between two keys, editor and terminal are in step. -/
structure SessionOk (cfg : Config) (s : Session) : Prop where
  entries : ∀ i, EditOk cfg (s.ctx.arena i).edit
  inStep : s.reading = true → InStep cfg s.ctx.edit s.term

variable {cfg : Config} {s : Session}

theorem SessionOk.read (ok : SessionOk cfg s) :
    SessionOk cfg { s with ctx := rdlineRead cfg s.ctx, term := .blank, reading := true } where
  entries := ok.entries
  inStep _ := ⟨.clear cfg _, ⟨rfl, rfl, fun _ => rfl⟩⟩

/-- After a key the buffer holds a line, also when `rdline_read` returns with it. -/
theorem SessionOk.key {s' : Session} (ok : SessionOk cfg s) (taken : s.next cfg .key = some s') :
    CtxOk cfg s'.ctx ∧ (s'.reading = true → InStep cfg s'.ctx.edit s'.term) := by
  obtain ⟨reading, ran⟩ := Option.ite_none_right_eq_some.1 taken
  obtain ⟨⟨r, input⟩, handled, rest⟩ := Option.bind_eq_some_iff.1 ran
  have step := (ok.inStep reading).key handled
  cases is : r.status with
  | none =>
    simp only [is] at rest
    cases rest
    exact ⟨⟨step.ok, ok.entries⟩, fun _ => step⟩
  | some status =>
    simp only [is] at rest
    obtain ⟨⟨out, ctx, more⟩, returned, ⟨⟩⟩ := Option.bind_eq_some_iff.1 rest
    exact rdlineReturn_inStep (h := { s.ctx with edit := r.edit }) ⟨step.ok, ok.entries⟩ step returned

theorem SessionOk.step {s' : Session} {ev : Event} (ok : SessionOk cfg s) (taken : s.next cfg ev = some s') : SessionOk cfg s' := by
  cases ev with
  | read =>
    obtain ⟨-, ⟨⟩⟩ := Option.ite_none_left_eq_some.1 taken
    exact ok.read
  | key =>
    obtain ⟨ok', inStep⟩ := ok.key taken
    exact ⟨ok'.entries, inStep⟩

theorem sessionOk_init (cfg : Config) (buf : Mem) (input : List (Option UInt8)) :
    SessionOk cfg (sessions cfg buf input).init where
  entries _ := ⟨le_refl 0, cfg.bufSize_pos, nofun, rfl⟩
  inStep reading := by cases reading

/-- After every key of every call of `rdline_read`, for every input, the row shows from the start column on the
string that the buffer holds, and nothing behind it, and the cursor is at the position of the editor. -/
theorem editor_display {cfg : Config} {buf : Mem} {input : List (Option UInt8)} {s : Session}
    (reached : (sessions cfg buf input).Reach (fun _ _ => True) s) (reading : s.reading = true) :
    s.ctx.edit.text = printStr cfg s.ctx.edit.buf 0 ∧
    (∀ i : Nat, s.term.cells i = s.ctx.edit.text[i]?) ∧ s.term.col = s.ctx.edit.pos ∧ s.term.mode = .ground := by
  have ok : SessionOk cfg s := reached.invariant (sessionOk_init cfg buf input) fun _ _ _ ok _ taken => ok.step taken
  have step := ok.inStep reading
  refine ⟨?_, step.shows_.text, step.shows_.col, step.shows_.ground⟩
  rw [printStr_eq step.ok (Nat.zero_le _), Nat.sub_zero, Edit.text]
  simp only [Nat.zero_add]

/-- Two letters, a step to the left, a letter between them. -/
theorem editor_display_abc : ∃ s, (sessions ⟨80, 10, by decide⟩ (fun _ => 0)
      [some 97, some 99, some 27, some 91, some 68, some 98]).run [.read, .key, .key, .key, .key]
      (sessions ⟨80, 10, by decide⟩ (fun _ => 0) [some 97, some 99, some 27, some 91, some 68, some 98]).init = some s ∧
    s.ctx.edit.text = [97, 98, 99] ∧ s.term.cells 2 = some 99 ∧ s.term.col = 2 := by
  refine @Lts.exists_run _ _ _ (fun _ _ => True) _ _ _ _ rfl rfl fun reached => ?_
  obtain ⟨-, cells, col, -⟩ := editor_display reached rfl
  exact ⟨rfl, cells 2, col⟩

end ChibiOS.Rdline
