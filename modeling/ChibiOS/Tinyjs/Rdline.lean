import ChibiOS.Rdline.History

/-!
# The line editor of the script console

`tinyjs/rdline.c`. The functions that edit the line have the text they have in `rdline.c`, with the size of the
buffer a constant. The history is a ring of ten entries: `history_insert` goes back to the first one when the last
one is taken, and the up key walks from `next` down to the first one and stops there.
-/

namespace ChibiOS.Tinyjs

open Lib Function
open Rdline hiding historyInsert historyGet rdlineRead rdlineReturn Returned Stored

def rdlineEditSize : Nat := 128

def rdlineHistoryLen : Nat := 10

/-- The constants, as a configuration of the editing functions. -/
def editor : Config := ⟨rdlineEditSize, rdlineHistoryLen, by decide⟩

/-- `history_buffer_t`, in static storage. -/
structure HistoryBuffer where
  next : Nat := 0
  history : Nat → Entry := fun _ => {}

def historyInsert (h : HistoryBuffer) (ctx : Edit) : HistoryBuffer :=
  let next := if rdlineHistoryLen ≤ h.next then 0 else h.next
  { next := next + 1
    history := update h.history next ⟨ctx.pos, ctx.len, ncpy (h.history next).line ctx.buf rdlineEditSize⟩ }

def historyGet (n : Nat) (h : HistoryBuffer) (ctx : Edit) : Edit :=
  if n < rdlineHistoryLen then
    ⟨ncpy ctx.buf (h.history n).line rdlineEditSize, (h.history n).pos, (h.history n).len⟩
  else ctx

/-- The variables of `rdline_read` and the history. -/
structure Read where
  hist : HistoryBuffer := {}
  currentH : Nat := 0
  ctx : Edit

/-- The start of `rdline_read`. -/
def rdlineRead (r : Read) : Read := { r with currentH := r.hist.next, ctx := rdlineClear editor r.ctx }

/-- What the keys up and down do when there is an entry to go to. -/
def browse (n : Nat) (r : Read) : List UInt8 × Read × Bool :=
  let (home, ctx) := moveHome r.ctx
  let ctx := historyGet n r.hist ctx
  (home ++ redrawLine ctx, { r with currentH := n, ctx := ctx }, true)

/-- What `rdline_read` does when `rdline_input` returns; it goes on reading if the last component is `true`. -/
def rdlineReturn (status : Status) (r : Read) : List UInt8 × Read × Bool :=
  match status with
  | .onEnter => ([13, 10], if 0 < r.ctx.len then { r with hist := historyInsert r.hist r.ctx } else r, false)
  | .onDown => if r.currentH < r.hist.next then browse (r.currentH + 1) r else ([], r, true)
  | .onUp => if 0 < r.currentH then browse (r.currentH - 1) r else ([], r, true)
  | .onEof => ([], r, false)

/-- The console, the bytes still to come, and the lines that were entered, the first one first. -/
structure Console where
  read : Read
  term : Terminal := .blank
  input : List (Option UInt8)
  reading : Bool := false
  lines : List (List UInt8) := []

/-- The line that is entered when `rdline_input` returns. -/
def enteredLine (status : Status) (r : Read) : Option (List UInt8) :=
  if status = .onEnter ∧ 0 < r.ctx.len then some r.ctx.text else none

def Console.next (ev : Event) (c : Console) : Option Console :=
  match ev with
  | .read => if c.reading then none else some { c with read := rdlineRead c.read, term := .blank, reading := true }
  | .key =>
    if c.reading then do
      let (k, input) ← rdlineKey editor c.read.ctx c.input
      let c := { c with read := { c.read with ctx := k.edit }, term := c.term.feedAll k.out, input := input }
      match k.status with
      | none => some c
      | some status =>
        let (out, read, more) := rdlineReturn status c.read
        some { c with
          read := read
          term := c.term.feedAll out
          reading := more
          lines := c.lines ++ (enteredLine status c.read).toList }
    else none

def consoles (buf : Mem) (input : List (Option UInt8)) : Lts Console Event where
  init := { read := { ctx := ⟨buf, 0, 0⟩ }, input := input }
  next := Console.next

variable {h : HistoryBuffer} {r : Read} {c c' : Console} {ev : Event} {status : Status} {lines : List (List UInt8)}
  {buf : Mem} {input rest : List (Option UInt8)} {j k : Nat} {ctx : Edit}

/-! ## What the entries hold -/

/-- The entries that the up key can reach after `n` lines. -/
def reachable (n : Nat) : Nat := if n = 0 then 0 else (n - 1) % rdlineHistoryLen + 1

theorem reachable_le (n : Nat) : reachable n ≤ n ∧ reachable n ≤ rdlineHistoryLen := by
  unfold reachable rdlineHistoryLen
  split <;> omega

theorem reachable_succ (n : Nat) :
    reachable (n + 1) = (if rdlineHistoryLen ≤ reachable n then 0 else reachable n) + 1 := by
  unfold reachable rdlineHistoryLen
  rw [if_neg (Nat.succ_ne_zero n)]
  split
  next none_ => rw [if_neg (by omega), none_]
  next some_ =>
    split <;> omega

/-- The entries below `next` are the last lines entered. -/
structure Stored (lines : List (List UInt8)) (h : HistoryBuffer) : Prop where
  next : h.next = reachable lines.length
  held : ∀ i < h.next, lines[lines.length - h.next + i]? = some (h.history i).edit.text
  entries : ∀ i, EditOk editor (h.history i).edit

theorem Stored.insert (stored : Stored lines h) (ok : EditOk editor ctx) :
    Stored (lines ++ [ctx.text]) (historyInsert h ctx) := by
  obtain ⟨le, le'⟩ := reachable_le lines.length
  have next := stored.next
  refine ⟨?_, ?_, ?_⟩
  · rw [List.length_append, List.length_singleton, reachable_succ, ← next]
    rfl
  · intro i below
    have below' : i < (if rdlineHistoryLen ≤ h.next then 0 else h.next) + 1 := below
    rw [List.length_append, List.length_singleton]
    simp only [historyInsert]
    split at below'
    next full =>
      obtain rfl : i = 0 := by omega
      rw [if_pos full, update_self, List.getElem?_append_right (by omega)]
      simp only [Nat.add_sub_cancel, Nat.add_zero, Nat.sub_self, List.getElem?_cons_zero]
      exact congrArg some (ncpy_text ok _ _).symm
    next room =>
      rw [if_neg room]
      by_cases new : i = h.next
      · subst new
        rw [update_self, List.getElem?_append_right (by omega),
          show lines.length + 1 - (h.next + 1) + h.next - lines.length = 0 by omega]
        exact congrArg some (ncpy_text ok _ _).symm
      · rw [update_of_ne new, List.getElem?_append_left (by omega),
          show lines.length + 1 - (h.next + 1) + i = lines.length - h.next + i by omega]
        exact stored.held i (by omega)
  · intro i
    simp only [historyInsert]
    generalize (if rdlineHistoryLen ≤ h.next then 0 else h.next) = n
    by_cases new : i = n
    · subst new
      rw [update_self]
      exact ok.congr rfl ok.pos_le fun _ below => ncpy_apply ok below
    · rw [update_of_ne new]
      exact stored.entries i

theorem Stored.get (stored : Stored lines h) (ok : EditOk editor ctx) (n : Nat) :
    EditOk editor (historyGet n h ctx) := by
  unfold historyGet
  split
  · have entry := stored.entries n
    exact entry.congr rfl entry.pos_le fun _ below => ncpy_apply entry below
  · exact ok

/-- The line of an entry is loaded. -/
theorem Stored.get_text (stored : Stored lines h) {n : Nat} (inside : n < rdlineHistoryLen) :
    (historyGet n h ctx).text = (h.history n).edit.text := by
  rw [historyGet, if_pos inside]
  exact ncpy_text (stored.entries n) _ _

/-! ## Sessions -/

/-- Inside `rdline_read`, between two keys, editor and terminal are in step. -/
structure ConsoleOk (c : Console) : Prop where
  stored : Stored c.lines c.read.hist
  inStep : c.reading = true → InStep editor c.read.ctx c.term

theorem enteredLine_none (other : ¬ (status = .onEnter ∧ 0 < r.ctx.len)) :
    lines ++ (enteredLine status r).toList = lines := by
  rw [enteredLine, if_neg other, Option.toList_none, List.append_nil]

theorem browse_inStep {t : Terminal} (stored : Stored lines r.hist) (step : InStep editor r.ctx t) (n : Nat) :
    InStep editor (browse n r).2.1.ctx (t.feedAll (browse n r).1) := by
  show InStep editor (historyGet n r.hist (moveHome r.ctx).2) (t.feedAll (_ ++ _))
  rw [Terminal.feedAll_append]
  exact step.home.redraw (stored.get step.home.ok n)

/-- What `rdline_read` does after a key that ends `rdline_input`. -/
theorem rdlineReturn_ok {t : Terminal} (stored : Stored lines r.hist) (step : InStep editor r.ctx t)
    (status : Status) : Stored (lines ++ (enteredLine status r).toList) (rdlineReturn status r).2.1.hist ∧
      ((rdlineReturn status r).2.2 = true →
        InStep editor (rdlineReturn status r).2.1.ctx (t.feedAll (rdlineReturn status r).1)) := by
  cases status with
  | onEof =>
    rw [enteredLine_none (by simp)]
    exact ⟨stored, nofun⟩
  | onEnter =>
    by_cases line : 0 < r.ctx.len
    · rw [enteredLine, if_pos ⟨rfl, line⟩]
      simp only [rdlineReturn, if_pos line]
      exact ⟨stored.insert step.ok, nofun⟩
    · rw [enteredLine_none (by simp [line])]
      simp only [rdlineReturn, if_neg line]
      exact ⟨stored, nofun⟩
  | onUp =>
    rw [enteredLine_none (by simp)]
    simp only [rdlineReturn]
    split
    · exact ⟨stored, fun _ => browse_inStep stored step _⟩
    · exact ⟨stored, fun _ => step⟩
  | onDown =>
    rw [enteredLine_none (by simp)]
    simp only [rdlineReturn]
    split
    · exact ⟨stored, fun _ => browse_inStep stored step _⟩
    · exact ⟨stored, fun _ => step⟩

theorem ConsoleOk.step (ok : ConsoleOk c) (taken : c.next ev = some c') : ConsoleOk c' := by
  cases ev with
  | read =>
    obtain ⟨-, ⟨⟩⟩ := Option.ite_none_left_eq_some.1 taken
    exact ⟨ok.stored, fun _ => ⟨.clear editor _, ⟨rfl, rfl, fun _ => rfl⟩⟩⟩
  | key =>
    obtain ⟨reading, ran⟩ := Option.ite_none_right_eq_some.1 taken
    obtain ⟨⟨k, input⟩, handled, rest⟩ := Option.bind_eq_some_iff.1 ran
    have step := (ok.inStep reading).key handled
    cases is : k.status with
    | none =>
      simp only [is] at rest
      cases rest
      exact ⟨ok.stored, fun _ => step⟩
    | some status =>
      simp only [is] at rest
      cases rest
      obtain ⟨stored, inStep⟩ := rdlineReturn_ok (r := { c.read with ctx := k.edit }) ok.stored step status
      exact ⟨stored, inStep⟩

theorem ConsoleOk.init (buf : Mem) (input : List (Option UInt8)) : ConsoleOk (consoles buf input).init where
  stored := ⟨rfl, nofun, fun _ => ⟨le_refl 0, editor.bufSize_pos, nofun, rfl⟩⟩
  inStep := nofun

theorem ConsoleOk.of_reach (reached : (consoles buf input).Reach (fun _ _ => True) c) : ConsoleOk c :=
  reached.invariant (.init buf input) fun _ _ _ ok _ taken => ok.step taken

/-! ## The up key -/

/-- Inside `rdline_read`, after `j` up keys, with `rest` still to come. -/
structure Upward (lines : List (List UInt8)) (h : HistoryBuffer) (j : Nat) (rest : List (Option UInt8)) (c : Console) :
    Prop where
  ok : ConsoleOk c
  reading : c.reading = true
  lines_eq : c.lines = lines
  hist : c.read.hist = h
  input : c.input = rest
  currentH : c.read.currentH = h.next - j
  text : 0 < j → c.read.ctx.text = (h.history (h.next - j)).edit.text

/-- The key goes one entry down, and stays at the first one. -/
theorem rdlineReturn_up (stored : Stored lines r.hist) (inside : r.currentH ≤ rdlineHistoryLen) :
    (rdlineReturn .onUp r).2.2 = true ∧ (rdlineReturn .onUp r).2.1.hist = r.hist ∧
    (rdlineReturn .onUp r).2.1.currentH = r.currentH - 1 ∧
    (0 < r.currentH → (rdlineReturn .onUp r).2.1.ctx.text = (r.hist.history (r.currentH - 1)).edit.text) ∧
    (r.currentH = 0 → (rdlineReturn .onUp r).2.1 = r) := by
  simp only [rdlineReturn]
  split
  next positive =>
    refine ⟨rfl, rfl, rfl, fun _ => ?_, fun start => absurd positive (by omega)⟩
    exact stored.get_text (by omega)
  next start => exact ⟨rfl, rfl, (by show r.currentH = r.currentH - 1; omega), fun less => absurd less start, fun _ => rfl⟩

theorem Upward.step (upward : Upward lines h j (Arrow.up.bytes ++ rest) c) (some_ : 0 < h.next) :
    ∃ c', c.next .key = some c' ∧ Upward lines h (j + 1) rest c' := by
  have stored : Stored lines c.read.hist := upward.lines_eq ▸ upward.ok.stored
  have inside : c.read.currentH ≤ rdlineHistoryLen := by
    have := (reachable_le lines.length).2
    have := stored.next
    rw [upward.currentH, ← upward.hist]
    omega
  have taken : c.next .key = some { c with
      read := (rdlineReturn .onUp c.read).2.1
      term := c.term.feedAll (rdlineReturn .onUp c.read).1
      input := rest
      reading := (rdlineReturn .onUp c.read).2.2
      lines := c.lines ++ (enteredLine .onUp c.read).toList } := by
    rw [Console.next, if_pos upward.reading, upward.input, rdlineKey_arrow]
    rfl
  obtain ⟨reading, hist, currentH, moves, stays⟩ := rdlineReturn_up stored inside
  refine ⟨_, taken, upward.ok.step taken, reading, ?_, hist.trans upward.hist, rfl, ?_, fun _ => ?_⟩
  · show c.lines ++ _ = lines
    rw [enteredLine_none (by simp)]
    exact upward.lines_eq
  · show (rdlineReturn .onUp c.read).2.1.currentH = _
    rw [currentH, upward.currentH]
    omega
  · show (rdlineReturn .onUp c.read).2.1.ctx.text = _
    by_cases start : c.read.currentH = 0
    · -- at the first entry already, which `j` keys have led to
      have here := upward.currentH
      rw [stays start, upward.text (by omega), show h.next - (j + 1) = h.next - j by omega]
    · rw [moves (by omega), upward.hist, upward.currentH, show h.next - (j + 1) = h.next - j - 1 by omega]

theorem Upward.run (buf : Mem) (input : List (Option UInt8)) (k : Nat) (some_ : 0 < h.next)
    (upward : Upward lines h j ((List.replicate k Arrow.up.bytes).flatten ++ rest) c) :
    ∃ c', (consoles buf input).run (List.replicate k .key) c = some c' ∧ Upward lines h (j + k) rest c' := by
  induction k generalizing j c with
  | zero => exact ⟨c, rfl, upward⟩
  | succ k ih =>
    rw [List.replicate_succ, List.flatten_cons, List.append_assoc] at upward
    obtain ⟨c₁, taken, upward₁⟩ := upward.step some_
    obtain ⟨c', ran, upward'⟩ := ih upward₁
    refine ⟨c', ?_, by rwa [add_assoc, add_comm 1 k] at upward'⟩
    show ((consoles buf input).next .key c).bind _ = some c'
    rwa [show (consoles buf input).next .key c = some c₁ from taken]

theorem Upward.read (ok : ConsoleOk c) (idle : c.reading = false) :
    ∃ c₁, c.next .read = some c₁ ∧ Upward c.lines c.read.hist 0 c.input c₁ := by
  have taken : c.next .read = some { c with read := rdlineRead c.read, term := .blank, reading := true } := by
    rw [Console.next, if_neg (by rw [idle]; decide)]
  exact ⟨_, taken, ok.step taken, rfl, rfl, rfl, rfl, rfl, nofun⟩

/-- After any lines have been entered in any way, `k` up keys in a fresh `rdline_read` load the `k`th of them from the
last one on exactly if `next` has not gone back to the first entry behind it, or if it is the same text as the line
in the first entry. -/
theorem circular_history {buf : Mem} {input rest : List (Option UInt8)} {c : Console} {k : Nat}
    (reached : (consoles buf input).Reach (fun _ _ => True) c) (idle : c.reading = false)
    (typed : c.input = (List.replicate k Arrow.up.bytes).flatten ++ rest)
    (pressed : 1 ≤ k) (held : k ≤ min c.lines.length rdlineHistoryLen) :
    ∃ c', (consoles buf input).run (.read :: List.replicate k .key) c = some c' ∧
      printStr editor c'.read.ctx.buf 0 = c'.read.ctx.text ∧
      (c.lines[c.lines.length - k]? = some c'.read.ctx.text ↔
        k ≤ (c.lines.length - 1) % rdlineHistoryLen + 1 ∨
        c.lines[c.lines.length - k]? = c.lines[c.lines.length - ((c.lines.length - 1) % rdlineHistoryLen + 1)]?) := by
  have ok := ConsoleOk.of_reach reached
  have next : c.read.hist.next = (c.lines.length - 1) % rdlineHistoryLen + 1 := by
    rw [ok.stored.next, reachable, if_neg (by omega)]
  obtain ⟨c₁, taken, start⟩ := Upward.read ok idle
  rw [typed] at start
  obtain ⟨c', ran, upward⟩ := Upward.run buf input k (by omega) start
  rw [Nat.zero_add] at upward
  refine ⟨c', ?_, ?_, ?_⟩
  · show ((consoles buf input).next .read c).bind _ = some c'
    rwa [show (consoles buf input).next .read c = some c₁ from taken]
  · rw [printStr_eq (upward.ok.inStep upward.reading).ok (Nat.zero_le _), Nat.sub_zero, Edit.text]
    simp only [Nat.zero_add]
  · have le := (reachable_le c.lines.length).1
    rw [← ok.stored.next] at le
    rw [← next, upward.text pressed, ← ok.stored.held _ (by omega)]
    by_cases near : k ≤ c.read.hist.next
    · rw [show c.lines.length - c.read.hist.next + (c.read.hist.next - k) = c.lines.length - k by omega]
      exact iff_of_true rfl (.inl near)
    · rw [show c.lines.length - c.read.hist.next + (c.read.hist.next - k) = c.lines.length - c.read.hist.next by omega]
      exact ⟨.inr, fun either => either.resolve_left near⟩

/-- The lines `A`, `B` and so on, and then `k` up keys. -/
def letterConsole (n k : Nat) : Lts Console Event := consoles (fun _ => 0)
  ((List.range n).flatMap (fun i => [some (UInt8.ofNat (65 + i)), some 13]) ++ (List.replicate k Arrow.up.bytes).flatten)

theorem circular_history_two : ∃ c c', (letterConsole 2 2).run (letterCalls 2) (letterConsole 2 2).init = some c ∧
    (letterConsole 2 2).run [.read, .key, .key] c = some c' ∧ c'.read.ctx.text = [65] := by
  have meets : (letterConsole 2 2).runOk (fun _ _ => true) (letterCalls 2) (letterConsole 2 2).init = true := by
    decide +kernel
  have shows_ : ((letterConsole 2 2).run (letterCalls 2) (letterConsole 2 2).init).map
      (fun c => (c.lines, c.reading, c.input)) =
        some ([[65], [66]], false, (List.replicate 2 Arrow.up.bytes).flatten) := by decide +kernel
  obtain ⟨c, ran, eq⟩ := Option.map_eq_some_iff.1 shows_
  obtain ⟨lines, idle, typed⟩ : c.lines = [[65], [66]] ∧ c.reading = false ∧
      c.input = (List.replicate 2 Arrow.up.bytes).flatten := by simpa using eq
  obtain ⟨c', ran', -, loads⟩ := @circular_history (fun _ => 0) _ [] c 2
    ((Lts.Reach.of_run (letterCalls 2) meets ran).mono fun _ _ _ => trivial) idle (by rw [typed, List.append_nil])
    (by decide) (by rw [lines]; decide)
  rw [lines] at loads
  have text := loads.2 (.inl (by decide))
  exact ⟨c, c', ran, ran', (Option.some.inj text).symm⟩

/-- After eleven lines, two up keys load the last one and not the one before it. -/
theorem circular_history_eleven : ∃ c c', (letterConsole 11 2).run (letterCalls 11) (letterConsole 11 2).init = some c ∧
    (letterConsole 11 2).run [.read, .key, .key] c = some c' ∧ c.lines.length = 11 ∧
    c.lines[c.lines.length - 2]? = some [74] ∧ c'.read.ctx.text = [75] := by
  have shows_ : (((letterConsole 11 2).run (letterCalls 11) (letterConsole 11 2).init).bind fun c =>
      ((letterConsole 11 2).run [.read, .key, .key] c).map fun c' => (c.lines.length, c.lines[9]?, c'.read.ctx.text)) =
      some (11, some [74], [75]) := by decide +kernel
  obtain ⟨c, ran, rest⟩ := Option.bind_eq_some_iff.1 shows_
  obtain ⟨c', ran', eq⟩ := Option.map_eq_some_iff.1 rest
  obtain ⟨length, line, text⟩ : c.lines.length = 11 ∧ c.lines[9]? = some [74] ∧ c'.read.ctx.text = [75] := by
    simpa using eq
  refine ⟨c, c', ran, ran', length, ?_, text⟩
  rwa [length]

end ChibiOS.Tinyjs
