import ChibiOS.Rdline.Display

/-!
# The history of the line editor

A session is run beside the list of the lines entered and the list of the entries of
the arena that were read or written. The entries below `history.len` hold the lines
as they were entered and the others are as static storage left them, so that the up
and down keys walk over the list. Neither `history_insert` nor `history_get` looks at
the size of the arena.
-/

namespace ChibiOS.Rdline

open Lib Function
open Option (ite_none_right_eq_some bind_eq_some_iff map_eq_some_iff)

variable {cfg : Config} {e e' : Edit} {h h' : Ctx} {status : Status} {c : Nat}

/-! ## What a return does -/

/-- The effects of `rdline_read` when `rdline_input` returns. -/
inductive Returned (cfg : Config) (h : Ctx) : Status → Ctx → Prop
  | eof : Returned cfg h .onEof h
  | empty (blank : h.edit.len = 0) : Returned cfg h .onEnter h
  | entered (inside : cfg.inArena h.historyLen) (line : 0 < h.edit.len) : Returned cfg h .onEnter
      { h with
        arena := update h.arena h.historyLen
          ⟨h.edit.pos, h.edit.len, ncpy (h.arena h.historyLen).line h.edit.buf cfg.bufSize⟩
        historyLen := h.historyLen + 1 }
  | first (start : h.curr = 0) : Returned cfg h .onUp h
  | up (inside : cfg.inArena (h.curr - 1)) (positive : 0 < h.curr) : Returned cfg h .onUp
      { h with
        curr := h.curr - 1
        edit := ⟨ncpy h.edit.buf (h.arena (h.curr - 1)).line cfg.bufSize, (h.arena (h.curr - 1)).pos,
          (h.arena (h.curr - 1)).len⟩ }
  | down (inside : cfg.inArena (h.curr + 1)) (less : h.curr < h.historyLen) : Returned cfg h .onDown
      { h with
        curr := h.curr + 1
        edit := ⟨ncpy h.edit.buf (h.arena (h.curr + 1)).line cfg.bufSize, (h.arena (h.curr + 1)).pos,
          (h.arena (h.curr + 1)).len⟩ }
  | last (done : h.historyLen ≤ h.curr) : Returned cfg h .onDown { h with edit := rdlineClear cfg h.edit }

/-- The entry that `rdline_read` reads or writes when `rdline_input` returns. -/
def entryIndex (status : Status) (h : Ctx) : Option Nat :=
  match status with
  | .onEnter => if 0 < h.edit.len then some h.historyLen else none
  | .onUp => if 0 < h.curr then some (h.curr - 1) else none
  | .onDown => if h.curr < h.historyLen then some (h.curr + 1) else none
  | .onEof => none

/-- `rdline_read` goes on. -/
def Status.again : Status → Bool
  | .onUp | .onDown => true
  | .onEnter | .onEof => false

/-- There is no outcome where the entry is outside the arena, and only there. -/
theorem rdlineReturn_cases (cfg : Config) (status : Status) (h : Ctx) :
    (∃ out h', rdlineReturn cfg status h = some (out, h', status.again) ∧ Returned cfg h status h' ∧
      ∀ n ∈ entryIndex status h, cfg.inArena n) ∨
    rdlineReturn cfg status h = none ∧ ∃ n ∈ entryIndex status h, ¬ cfg.inArena n := by
  cases status with
  | onEof => exact .inl ⟨_, _, rfl, .eof, nofun⟩
  | onEnter | onUp | onDown =>
    simp only [rdlineReturn, entryIndex, historyInsert, historyGet]
    split
    next entry =>
      split
      next inside =>
        refine .inl ⟨_, _, rfl, ?_, fun n is => by cases is; exact inside⟩
        first | exact .entered inside entry | exact .up inside entry | exact .down inside entry
      next outside => exact .inr ⟨rfl, _, rfl, outside⟩
    next no =>
      refine .inl ⟨_, _, rfl, ?_, by simp⟩
      first | exact .empty (by omega) | exact .first (by omega) | exact .last (by omega)

/-! ## Lines -/

/-- A line as it was entered. -/
structure Line where
  text : List UInt8
  pos : Nat
  deriving DecidableEq

/-- The line that `rdline_read` stores. -/
def storedLine (status : Status) (h : Ctx) : Option Line :=
  if status = .onEnter ∧ 0 < h.edit.len then some ⟨h.edit.text, h.edit.pos⟩ else none

theorem text_congr (len : e'.len = e.len) (same : ∀ i ≤ e.len, e'.buf i = e.buf i) : e'.text = e.text := by
  apply List.ext_getElem?
  intro i
  rw [Edit.text, Edit.text, rdlineWrite_getElem?, rdlineWrite_getElem?, len]
  split
  next below => rw [same i below.le]
  · rfl

/-- A line is the same after `ncpy`. -/
theorem ncpy_text (ok : EditOk cfg e) (dst : Mem) (p : Nat) : Edit.text ⟨ncpy dst e.buf cfg.bufSize, p, e.len⟩ = e.text :=
  text_congr rfl fun _ below => ncpy_apply ok below

/-- The arena holds the lines entered, from its first entry on, and nothing else. -/
structure Stored (lines : List Line) (h : Ctx) : Prop where
  count : lines.length = h.historyLen
  lines : ∀ i line, lines[i]? = some line → (h.arena i).edit.text = line.text ∧ (h.arena i).pos = line.pos
  blank : ∀ i, h.historyLen ≤ i → h.arena i = {}
  curr_le : h.curr ≤ h.historyLen

variable {lines : List Line}

/-- Only the arena and the numbers matter. -/
theorem Stored.congr (stored : Stored lines h) (arena : h'.arena = h.arena) (len : h'.historyLen = h.historyLen)
    (curr : h'.curr ≤ h.historyLen) : Stored lines h' :=
  ⟨by rw [len]; exact stored.count, by rw [arena]; exact stored.lines, by rw [arena, len]; exact stored.blank,
    by rw [len]; exact curr⟩

theorem Stored.entered (stored : Stored lines h) (ok : EditOk cfg h.edit) : Stored (lines ++ [⟨h.edit.text, h.edit.pos⟩])
    { h with
      arena := update h.arena h.historyLen
        ⟨h.edit.pos, h.edit.len, ncpy (h.arena h.historyLen).line h.edit.buf cfg.bufSize⟩
      historyLen := h.historyLen + 1 } where
  count := by rw [List.length_append, stored.count]; rfl
  lines i line is := by
    simp only [update_apply]
    split
    next new =>
      rw [new, ← stored.count, List.getElem?_append_right le_rfl, Nat.sub_self] at is
      cases is
      exact ⟨ncpy_text ok _ _, rfl⟩
    next old =>
      have below : i < lines.length + 1 := by
        have := (List.getElem?_eq_some_iff.1 is).1
        rwa [List.length_append] at this
      rw [List.getElem?_append_left (by have := stored.count; omega)] at is
      exact stored.lines i line is
  blank i above := by
    have above' : h.historyLen + 1 ≤ i := above
    simp only [update_of_ne (show i ≠ h.historyLen by omega)]
    exact stored.blank i (by omega)
  curr_le := Nat.le_succ_of_le stored.curr_le

/-- Nothing is stored. -/
theorem storedLine_none (other : ¬ (status = .onEnter ∧ 0 < h.edit.len)) :
    lines ++ (storedLine status h).toList = lines := by
  rw [storedLine, if_neg other, Option.toList_none, List.append_nil]

theorem Stored.returned (stored : Stored lines h) (ok : EditOk cfg h.edit) (returned : Returned cfg h status h') :
    Stored (lines ++ (storedLine status h).toList) h' := by
  have le := stored.curr_le
  cases returned with
  | entered inside line =>
    rw [storedLine, if_pos ⟨rfl, line⟩]
    exact stored.entered ok
  | empty blank =>
    rwa [storedLine_none (by omega)]
  | eof =>
    rwa [storedLine_none (by simp)]
  | first start =>
    rwa [storedLine_none (by simp)]
  | up inside positive =>
    rw [storedLine_none (by simp)]
    exact stored.congr rfl rfl (show h.curr - 1 ≤ h.historyLen by omega)
  | down inside less =>
    rw [storedLine_none (by simp)]
    exact stored.congr rfl rfl (show h.curr + 1 ≤ h.historyLen by omega)
  | last done =>
    rw [storedLine_none (by simp)]
    exact stored.congr rfl rfl le

/-! ## Sessions with their history -/

/-- A session, the lines entered in it, and the entries that were read or written. Once one of these was outside the
arena nothing is known of what follows. -/
structure Logged where
  session : Session
  lines : List Line := []
  touched : List Nat := []
  lost : Bool := false

/-- The status and the context with which `rdline_input` returns at the next key. -/
def Session.returns (cfg : Config) (s : Session) : Option (Status × Ctx) :=
  if s.reading then do
    let (r, _) ← rdlineKey cfg s.ctx.edit s.input
    let status ← r.status
    return (status, { s.ctx with edit := r.edit })
  else none

def Logged.next (cfg : Config) (ev : Event) (l : Logged) : Option Logged :=
  if l.lost then none
  else
    match ev, l.session.returns cfg with
    | .key, some (status, h) =>
      let l := { l with
        lines := l.lines ++ (storedLine status h).toList
        touched := l.touched ++ (entryIndex status h).toList }
      match l.session.next cfg .key with
      | some s => some { l with session := s }
      | none => some { l with lost := true }
    | ev, _ => (l.session.next cfg ev).map fun s => { l with session := s }

def logged (cfg : Config) (buf : Mem) (input : List (Option UInt8)) : Lts Logged Event where
  init := { session := (sessions cfg buf input).init }
  next := Logged.next cfg

/-- A key that returns, as a step of the session. -/
theorem Session.next_returns {s : Session} (returns : s.returns cfg = some (status, h)) :
    s.reading = true ∧ h = { s.ctx with edit := h.edit } ∧ ∃ r input, rdlineKey cfg s.ctx.edit s.input = some (r, input) ∧
      r.edit = h.edit ∧ r.status = some status ∧ s.next cfg .key = (rdlineReturn cfg status h).map fun (out, h', more) =>
        { ctx := h', term := (s.term.feedAll r.out).feedAll out, input := input, reading := more } := by
  obtain ⟨reading, ran⟩ := ite_none_right_eq_some.1 returns
  obtain ⟨⟨r, input⟩, key, rest⟩ := bind_eq_some_iff.1 ran
  obtain ⟨st, is, ⟨⟩⟩ := bind_eq_some_iff.1 rest
  refine ⟨reading, rfl, r, input, key, rfl, is, ?_⟩
  rw [Session.next, if_pos reading, key]
  simp only [Option.bind_eq_bind, Option.bind_some, is]
  cases rdlineReturn cfg status { s.ctx with edit := r.edit } <;> rfl

/-- The other steps leave the history alone. -/
theorem Session.next_quiet {s s' : Session} {ev : Event} (quiet : ev = .key → s.returns cfg = none)
    (taken : s.next cfg ev = some s') : s'.ctx.arena = s.ctx.arena ∧ s'.ctx.historyLen = s.ctx.historyLen ∧
      (s'.ctx.curr = s.ctx.curr ∨ s'.ctx.curr = s.ctx.historyLen) := by
  cases ev with
  | read =>
    obtain ⟨-, ⟨⟩⟩ := Option.ite_none_left_eq_some.1 taken
    exact ⟨rfl, rfl, .inr rfl⟩
  | key =>
    obtain ⟨reading, ran⟩ := ite_none_right_eq_some.1 taken
    obtain ⟨⟨r, input⟩, key, rest⟩ := bind_eq_some_iff.1 ran
    cases is : r.status with
    | none =>
      simp only [is] at rest
      cases rest
      exact ⟨rfl, rfl, .inl rfl⟩
    | some status =>
      have returns := quiet rfl
      simp [Session.returns, reading, key, is] at returns

variable {l l' : Logged} {ev : Event}

/-- What a step does to the lists. -/
theorem Logged.next_cases (taken : l.next cfg ev = some l') : l.lost = false ∧
    ((∃ s, l.session.next cfg ev = some s ∧ (ev = .key → l.session.returns cfg = none) ∧ l' = { l with session := s }) ∨
    ∃ status h, ev = .key ∧ l.session.returns cfg = some (status, h) ∧
      l'.lines = l.lines ++ (storedLine status h).toList ∧ l'.touched = l.touched ++ (entryIndex status h).toList ∧
      (l.session.next cfg .key = some l'.session ∧ l'.lost = false ∨
        l.session.next cfg .key = none ∧ l'.session = l.session ∧ l'.lost = true)) := by
  obtain ⟨kept, ran⟩ := Option.ite_none_left_eq_some.1 taken
  refine ⟨Bool.eq_false_iff.2 kept, ?_⟩
  cases ev with
  | read =>
    obtain ⟨s, next, eq⟩ := map_eq_some_iff.1 ran
    exact .inl ⟨s, next, nofun, eq.symm⟩
  | key =>
    cases returns : l.session.returns cfg with
    | none =>
      simp only [returns] at ran
      obtain ⟨s, next, eq⟩ := map_eq_some_iff.1 ran
      exact .inl ⟨s, next, fun _ => rfl, eq.symm⟩
    | some result =>
      obtain ⟨status, h⟩ := result
      simp only [returns] at ran
      refine .inr ⟨status, h, rfl, rfl, ?_⟩
      cases next : l.session.next cfg .key with
      | some s =>
        simp only [next] at ran
        cases ran
        exact ⟨rfl, rfl, .inl ⟨rfl, Bool.eq_false_iff.2 kept⟩⟩
      | none =>
        simp only [next] at ran
        cases ran
        exact ⟨rfl, rfl, .inr ⟨rfl, rfl, rfl⟩⟩

/-- Until it is lost, a session has its lines in the arena; it is lost only when the arena is full. -/
structure LoggedOk (cfg : Config) (l : Logged) : Prop where
  session : SessionOk cfg l.session
  stored : l.lost = false → Stored l.lines l.session.ctx
  fits : l.lost = false → l.session.ctx.historyLen ≤ cfg.historyEntries
  full : l.lost = true → cfg.historyEntries ≤ l.lines.length

theorem Stored.entryIndex_le (stored : Stored lines h) {n : Nat} (is : n ∈ entryIndex status h) : n ≤ lines.length := by
  have le := stored.curr_le
  rw [stored.count]
  cases status with
  | onEof => cases is
  | onEnter =>
    obtain ⟨-, ⟨⟩⟩ := ite_none_right_eq_some.1 is
    exact le_rfl
  | onUp =>
    obtain ⟨-, ⟨⟩⟩ := ite_none_right_eq_some.1 is
    omega
  | onDown =>
    obtain ⟨less, ⟨⟩⟩ := ite_none_right_eq_some.1 is
    exact less

/-- A line is stored inside the arena. -/
theorem Returned.fits (effect : Returned cfg h status h') (fits : h.historyLen ≤ cfg.historyEntries) :
    h'.historyLen ≤ cfg.historyEntries := by
  cases effect with
  | entered inside line => exact inside
  | eof | empty | first | up | down | last => exact fits

/-- The context with which `rdline_input` returns. -/
theorem LoggedOk.returns (ok : LoggedOk cfg l) (kept : l.lost = false)
    (returns : l.session.returns cfg = some (status, h)) :
    Stored l.lines h ∧ h.historyLen ≤ cfg.historyEntries ∧ EditOk cfg h.edit := by
  obtain ⟨reading, same, r, input, key, edit, -⟩ := Session.next_returns returns
  have stored := ok.stored kept
  refine ⟨?_, ?_, edit ▸ ((ok.session.inStep reading).key key).ok⟩
  · rw [same]
    exact stored.congr rfl rfl stored.curr_le
  · rw [same]
    exact ok.fits kept

theorem LoggedOk.step (ok : LoggedOk cfg l) (taken : l.next cfg ev = some l') : LoggedOk cfg l' := by
  obtain ⟨kept, ⟨s, next, quiet, rfl⟩ | ⟨status, h, rfl, returns, linesEq, -, outcome⟩⟩ := Logged.next_cases taken
  · have stored := ok.stored kept
    obtain ⟨arena, len, curr⟩ := Session.next_quiet quiet next
    refine ⟨ok.session.step next, fun _ => stored.congr arena len ?_, fun _ => len ▸ ok.fits kept, ok.full⟩
    have := stored.curr_le
    show s.ctx.curr ≤ _
    omega
  · obtain ⟨stored, fits, edit⟩ := ok.returns kept returns
    obtain ⟨-, -, r, input, -, -, -, nextEq⟩ := Session.next_returns returns
    rcases rdlineReturn_cases cfg status h with ⟨out, h', result, effect, -⟩ | ⟨result, n, is, outside⟩
    · rw [result] at nextEq
      rcases outcome with ⟨next, kept'⟩ | ⟨next, -⟩
      · have session := ok.session.step next
        rw [nextEq] at next
        have ctx : l'.session.ctx = h' := by rw [← Option.some.inj next]
        refine ⟨session, fun _ => ?_, fun _ => ?_, fun lost => Bool.noConfusion (kept'.symm.trans lost)⟩
        · rw [linesEq, ctx]
          exact stored.returned edit effect
        · rw [ctx]
          exact effect.fits fits
      · cases nextEq.symm.trans next
    · rw [result] at nextEq
      rcases outcome with ⟨next, -⟩ | ⟨-, same, lost⟩
      · cases nextEq.symm.trans next
      · have never (kept' : l'.lost = false) : False := Bool.noConfusion (kept'.symm.trans lost)
        refine ⟨same ▸ ok.session, fun kept' => (never kept').elim, fun kept' => (never kept').elim, fun _ => ?_⟩
        have := stored.entryIndex_le is
        have : ¬ n < cfg.historyEntries := outside
        rw [linesEq, List.length_append]
        omega

theorem LoggedOk.init (cfg : Config) (buf : Mem) (input : List (Option UInt8)) : LoggedOk cfg (logged cfg buf input).init where
  session := sessionOk_init cfg buf input
  stored _ := ⟨rfl, nofun, fun _ _ => rfl, le_refl 0⟩
  fits _ := Nat.zero_le _
  full := nofun

theorem LoggedOk.of_reach {buf : Mem} {input : List (Option UInt8)} {ok : Logged → Event → Prop}
    (reached : (logged cfg buf input).Reach ok l) : LoggedOk cfg l :=
  reached.invariant (.init cfg buf input) fun _ _ _ ok _ taken => ok.step taken

/-! ## The arena -/

/-- While the arena has no room for another line, no line is entered but the empty one, and the down key is not
pressed at the last line stored. -/
def sparedReturn (cfg : Config) (status : Status) (h : Ctx) : Bool :=
  match status with
  | .onEnter => decide (h.edit.len = 0 ∨ h.historyLen < cfg.historyEntries)
  | .onDown => decide (h.curr + 1 ≠ h.historyLen ∨ h.historyLen < cfg.historyEntries)
  | .onUp | .onEof => true

def Logged.spared (cfg : Config) (l : Logged) (ev : Event) : Bool :=
  match ev with
  | .read => true
  | .key =>
    match l.session.returns cfg with
    | some (status, h) => sparedReturn cfg status h
    | none => true

theorem entryIndex_inArena (stored : Stored lines h) (fits : h.historyLen ≤ cfg.historyEntries) :
    (∀ n ∈ entryIndex status h, n < cfg.historyEntries) ↔ sparedReturn cfg status h = true := by
  have le := stored.curr_le
  cases status with
  | onEof => simp [entryIndex, sparedReturn]
  | onEnter =>
    by_cases line : 0 < h.edit.len
    · simp [entryIndex, sparedReturn, line, Nat.pos_iff_ne_zero.1 line]
    · simp [entryIndex, sparedReturn, Nat.eq_zero_of_not_pos line]
  | onUp =>
    by_cases positive : 0 < h.curr
    · have inside : h.curr - 1 < cfg.historyEntries := by omega
      simp [entryIndex, sparedReturn, positive, inside]
    · simp [entryIndex, sparedReturn, positive]
  | onDown =>
    by_cases less : h.curr < h.historyLen
    · simp only [entryIndex, sparedReturn, less, if_true, Option.mem_some_iff, forall_eq', decide_eq_true_eq]
      omega
    · simp only [entryIndex, sparedReturn, less, if_false, decide_eq_true_eq]
      have : h.curr + 1 ≠ h.historyLen := by omega
      simp [this]

/-- The entries that a step touches are in the arena exactly if the step spares it. -/
theorem LoggedOk.touched_iff (ok : LoggedOk cfg l) (before : ∀ n ∈ l.touched, n < cfg.historyEntries)
    (taken : l.next cfg ev = some l') : (∀ n ∈ l'.touched, n < cfg.historyEntries) ↔ l.spared cfg ev = true := by
  obtain ⟨kept, ⟨s, next, quiet, rfl⟩ | ⟨status, h, rfl, returns, -, touched, -⟩⟩ := Logged.next_cases taken
  · refine iff_of_true before ?_
    cases ev with
    | read => rfl
    | key => simp only [Logged.spared, quiet rfl]
  · obtain ⟨stored, fits, -⟩ := ok.returns kept returns
    simp only [Logged.spared, returns]
    rw [touched, ← entryIndex_inArena stored fits]
    simp only [List.mem_append, Option.mem_toList, Option.mem_def]
    constructor
    · intro all n is
      exact all n (.inr is)
    · intro all n is
      exact is.elim (before n) (all n)

def sh1LineLen : Nat := 80

def sh1HistoryLen : Nat := 10

/-- The configuration of the application. -/
def sh1Rd : Config := ⟨sh1LineLen, sh1HistoryLen, by decide⟩

/-- As long as every step spares the full arena, whatever lines and keys come in whatever calls of `rdline_read`, each
entry that was read or written is one of the ten; the first step that does not, goes outside. -/
theorem history_in_arena {buf : Mem} {input : List (Option UInt8)} {l : Logged}
    (reached : (logged sh1Rd buf input).Reach (fun l ev => l.spared sh1Rd ev = true) l) :
    (∀ n ∈ l.touched, n < sh1HistoryLen) ∧
    ∀ ev l', (logged sh1Rd buf input).next ev l = some l' →
      ((∀ n ∈ l'.touched, n < sh1HistoryLen) ↔ l.spared sh1Rd ev = true) := by
  have inside : LoggedOk sh1Rd l ∧ ∀ n ∈ l.touched, n < sh1HistoryLen := by
    refine reached.invariant (I := fun l => LoggedOk sh1Rd l ∧ ∀ n ∈ l.touched, n < sh1HistoryLen)
      ⟨.init _ _ _, nofun⟩ ?_
    rintro l ev l' ⟨ok, before⟩ spared taken
    exact ⟨ok.step taken, (ok.touched_iff before taken).2 spared⟩
  exact ⟨inside.2, fun _ _ taken => inside.1.touched_iff inside.2 taken⟩

/-- Sessions in which a line of one letter is typed `n` times. -/
def letterLines (n : Nat) : Lts Logged Event :=
  logged sh1Rd (fun _ => 0) (List.replicate n [some 97, some 13]).flatten

/-- One call of `rdline_read` for each of them. -/
def letterCalls (n : Nat) : List Event := (List.replicate n [.read, .key, .key]).flatten

theorem history_in_arena_ten : ∃ l, (letterLines 10).run (letterCalls 10) (letterLines 10).init = some l ∧
    l.touched = [0, 1, 2, 3, 4, 5, 6, 7, 8, 9] ∧ ∀ n ∈ l.touched, n < sh1HistoryLen := by
  have meets : (letterLines 10).runOk (fun l ev => l.spared sh1Rd ev) (letterCalls 10) (letterLines 10).init = true := by
    decide +kernel
  have shows_ : ((letterLines 10).run (letterCalls 10) (letterLines 10).init).map Logged.touched =
      some [0, 1, 2, 3, 4, 5, 6, 7, 8, 9] := by decide +kernel
  obtain ⟨l, ran, touched⟩ := map_eq_some_iff.1 shows_
  exact ⟨l, ran, touched, (history_in_arena (Lts.Reach.of_run _ meets ran)).1⟩

/-- An eleventh line is stored behind the arena. -/
theorem history_in_arena_eleven : ∃ l, (letterLines 11).run (letterCalls 11) (letterLines 11).init = some l ∧
    10 ∈ l.touched ∧ ¬ 10 < sh1HistoryLen := by
  have shows_ : ((letterLines 11).run (letterCalls 11) (letterLines 11).init).map Logged.touched =
      some [0, 1, 2, 3, 4, 5, 6, 7, 8, 9, 10] := by decide +kernel
  obtain ⟨l, ran, touched⟩ := map_eq_some_iff.1 shows_
  exact ⟨l, ran, by rw [touched]; decide, by decide⟩

/-! ## Walking over the lines -/

inductive Arrow
  | up
  | down

/-- The bytes of the key. -/
def Arrow.bytes : Arrow → List (Option UInt8)
  | .up => [some 27, some 91, some 65]
  | .down => [some 27, some 91, some 66]

open Arrow (bytes)

def Arrow.returns : Arrow → Status
  | .up => .onUp
  | .down => .onDown

/-- The position among `n` lines. -/
def Arrow.move (n : Nat) (c : Nat) : Arrow → Nat
  | .up => c - 1
  | .down => min (c + 1) n

/-- The buffer holds the line at the position, with its cursor, and behind the last one nothing. -/
structure AtLine (lines : List Line) (h : Ctx) : Prop where
  line : ∀ line, lines[h.curr]? = some line → h.edit.text = line.text ∧ h.edit.pos = line.pos
  blank : h.curr = lines.length → h.edit.text = []

/-- A line is taken from the arena; the entry behind the last one is blank. -/
theorem AtLine.of_entry (stored : Stored lines h) (ok : EditOk cfg (h.arena c).edit) {dst : Mem} (curr : h'.curr = c)
    (edit : h'.edit = ⟨ncpy dst (h.arena c).line cfg.bufSize, (h.arena c).pos, (h.arena c).len⟩) :
    AtLine lines h' := by
  have text : h'.edit.text = (h.arena c).edit.text := by
    rw [edit]
    exact ncpy_text ok dst _
  constructor
  · intro line is
    rw [curr] at is
    obtain ⟨lineText, linePos⟩ := stored.lines c line is
    exact ⟨text.trans lineText, by rw [edit]; exact linePos⟩
  · intro last
    rw [text, stored.blank c (by rw [← stored.count, ← last, curr])]
    rfl

/-- The position is behind the last line. -/
theorem AtLine.behind (curr : h.curr = lines.length) (empty : h.edit.len = 0) : AtLine lines h where
  line line is := by
    rw [curr, List.getElem?_eq_none le_rfl] at is
    cases is
  blank _ := by rw [Edit.text, empty]; rfl

theorem Returned.arrow {a : Arrow} (effect : Returned cfg h a.returns h') (stored : Stored lines h)
    (entries : ∀ i, EditOk cfg (h.arena i).edit) (atLine : AtLine lines h) :
    AtLine lines h' ∧ h'.curr = a.move lines.length h.curr := by
  have le := stored.curr_le
  rw [stored.count]
  cases a with
  | up =>
    cases effect with
    | first start => exact ⟨atLine, by rw [start]; rfl⟩
    | up inside positive => exact ⟨.of_entry stored (entries (h.curr - 1)) rfl rfl, rfl⟩
  | down =>
    cases effect with
    | down inside less =>
      exact ⟨.of_entry stored (entries (h.curr + 1)) rfl rfl, (Nat.min_eq_left less).symm⟩
    | last done =>
      have curr : h.curr = h.historyLen := le_antisymm le done
      refine ⟨.behind (curr.trans stored.count.symm) rfl, ?_⟩
      show h.curr = min (h.curr + 1) h.historyLen
      omega

/-- Inside `rdline_read`, at position `c` among the lines, with `rest` still to come. -/
structure Walking (cfg : Config) (lines : List Line) (c : Nat) (rest : List (Option UInt8)) (l : Logged) : Prop where
  ok : LoggedOk cfg l
  kept : l.lost = false
  reading : l.session.reading = true
  lines_eq : l.lines = lines
  input : l.session.input = rest
  atLine : AtLine lines l.session.ctx
  curr : l.session.ctx.curr = c

theorem Logged.next_key {s : Session} (kept : l.lost = false) (returns : l.session.returns cfg = some (status, h))
    (next : l.session.next cfg .key = some s) : l.next cfg .key = some { l with
      session := s
      lines := l.lines ++ (storedLine status h).toList
      touched := l.touched ++ (entryIndex status h).toList } := by
  unfold Logged.next
  rw [if_neg (by rw [kept]; decide)]
  simp only [returns, next]

theorem rdlineKey_arrow (cfg : Config) (e : Edit) (a : Arrow) (rest : List (Option UInt8)) :
    rdlineKey cfg e (a.bytes ++ rest) = some ({ edit := e, status := some a.returns }, rest) := by
  cases a <;> rfl

variable {rest : List (Option UInt8)}

/-- With room for one line more than are stored, an arrow stays in the arena. -/
theorem Walking.step {a : Arrow} (walking : Walking cfg lines c (a.bytes ++ rest) l)
    (room : lines.length < cfg.historyEntries) :
    ∃ l', l.next cfg .key = some l' ∧ Walking cfg lines (a.move lines.length c) rest l' := by
  have key := rdlineKey_arrow cfg l.session.ctx.edit a rest
  rw [← walking.input] at key
  have returns : l.session.returns cfg = some (a.returns, l.session.ctx) := by
    rw [Session.returns, if_pos walking.reading, key]
    rfl
  obtain ⟨-, -, r, input, key', -, -, nextEq⟩ := Session.next_returns returns
  obtain ⟨-, rfl⟩ : _ ∧ rest = input := Prod.mk.inj (Option.some.inj (key.symm.trans key'))
  have stored : Stored lines l.session.ctx := walking.lines_eq ▸ walking.ok.stored walking.kept
  rcases rdlineReturn_cases cfg a.returns l.session.ctx with ⟨out, h', result, effect, -⟩ | ⟨-, n, is, outside⟩
  · rw [result] at nextEq
    obtain ⟨atLine, curr⟩ := effect.arrow stored walking.ok.session.entries walking.atLine
    rw [walking.curr] at curr
    have taken := Logged.next_key walking.kept returns nextEq
    refine ⟨_, taken, walking.ok.step taken, walking.kept, ?_, ?_, rfl, atLine, curr⟩
    · show a.returns.again = true
      cases a <;> rfl
    · show l.lines ++ _ = lines
      rw [storedLine_none (by cases a <;> simp [Arrow.returns]), walking.lines_eq]
  · have := stored.entryIndex_le is
    exact absurd (Nat.lt_of_le_of_lt this room) outside

theorem Walking.run (buf : Mem) (input : List (Option UInt8)) (room : lines.length < cfg.historyEntries)
    (keys : List Arrow) (walking : Walking cfg lines c (keys.flatMap bytes ++ rest) l) :
    ∃ l', (logged cfg buf input).run (List.replicate keys.length .key) l = some l' ∧
      Walking cfg lines (keys.foldl (Arrow.move lines.length) c) rest l' := by
  induction keys generalizing c l with
  | nil => exact ⟨l, rfl, walking⟩
  | cons a keys ih =>
    rw [List.flatMap_cons, List.append_assoc] at walking
    obtain ⟨l₁, taken, walking₁⟩ := walking.step room
    obtain ⟨l', ran, walking'⟩ := ih walking₁
    refine ⟨l', ?_, walking'⟩
    show ((logged cfg buf input).next .key l).bind _ = some l'
    rwa [show (logged cfg buf input).next .key l = some l₁ from taken]

theorem Walking.read (ok : LoggedOk cfg l) (room : l.lines.length < cfg.historyEntries)
    (idle : l.session.reading = false) : ∃ l₁, l.next cfg .read = some l₁ ∧
      Walking cfg l.lines l.lines.length l.session.input l₁ := by
  have kept : l.lost = false := by
    cases lost : l.lost with
    | false => rfl
    | true =>
      have := ok.full lost
      omega
  have next : l.session.next cfg .read = some
      { l.session with ctx := rdlineRead cfg l.session.ctx, term := .blank, reading := true } := by
    rw [Session.next, if_neg (by rw [idle]; decide)]
  have taken : l.next cfg .read = some { l with
      session := { l.session with ctx := rdlineRead cfg l.session.ctx, term := .blank, reading := true } } := by
    unfold Logged.next
    rw [if_neg (by rw [kept]; decide)]
    simp only [next, Option.map_some]
  have curr := (ok.stored kept).count.symm
  exact ⟨_, taken, ok.step taken, kept, rfl, rfl, rfl, .behind curr rfl, curr⟩

/-- The position after the keys, from behind the last of `n` lines on. -/
def walk (n : Nat) (keys : List Arrow) : Nat := keys.foldl (Arrow.move n) n

theorem foldl_move_le (n : Nat) (keys : List Arrow) (le : c ≤ n) : keys.foldl (Arrow.move n) c ≤ n := by
  induction keys generalizing c with
  | nil => exact le
  | cons a keys ih =>
    apply ih
    cases a with
    | up => exact le_trans (Nat.sub_le c 1) le
    | down => exact Nat.min_le_right _ _

/-- After any lines have been entered in any way, fewer than the arena has room for, the next call of `rdline_read`
shows for every list of up and down keys the line at the position that they lead to, with the cursor where it was
when that line was entered, and behind the last line an empty buffer. -/
theorem history_navigation {cfg : Config} {buf : Mem} {input rest : List (Option UInt8)} {l : Logged} {keys : List Arrow}
    (reached : (logged cfg buf input).Reach (fun _ _ => True) l) (room : l.lines.length < cfg.historyEntries)
    (idle : l.session.reading = false) (typed : l.session.input = keys.flatMap bytes ++ rest) :
    ∃ l', (logged cfg buf input).run (.read :: List.replicate keys.length .key) l = some l' ∧
      walk l.lines.length keys ≤ l.lines.length ∧
      (walk l.lines.length keys < l.lines.length → ∃ line, l.lines[walk l.lines.length keys]? = some line ∧
        l'.session.ctx.edit.text = line.text ∧ l'.session.ctx.edit.pos = line.pos) ∧
      (walk l.lines.length keys = l.lines.length → l'.session.ctx.edit.text = []) ∧
      printStr cfg l'.session.ctx.edit.buf 0 = l'.session.ctx.edit.text := by
  obtain ⟨l₁, taken, start⟩ := Walking.read (LoggedOk.of_reach reached) room idle
  rw [typed] at start
  obtain ⟨l', ran, walking⟩ := Walking.run buf input room keys start
  have curr : l'.session.ctx.curr = walk l.lines.length keys := walking.curr
  refine ⟨l', ?_, foldl_move_le _ keys le_rfl, fun less => ?_, fun last => ?_, ?_⟩
  · show ((logged cfg buf input).next .read l).bind _ = some l'
    rwa [show (logged cfg buf input).next .read l = some l₁ from taken]
  · have is := List.getElem?_eq_getElem less
    exact ⟨_, is, walking.atLine.line _ (by rw [curr, is])⟩
  · exact walking.atLine.blank (curr.trans last)
  · rw [printStr_eq (walking.ok.session.inStep walking.reading).ok (Nat.zero_le _), Nat.sub_zero, Edit.text]
    simp only [Nat.zero_add]

/-- Two lines of one letter, and then up, up and down. -/
def twoLines : Lts Logged Event := logged sh1Rd (fun _ => 0)
  ([some 97, some 13, some 98, some 13] ++ [Arrow.up, .up, .down].flatMap bytes)

theorem history_navigation_second : ∃ l l', twoLines.run (letterCalls 2) twoLines.init = some l ∧
    twoLines.run [.read, .key, .key, .key] l = some l' ∧ l'.session.ctx.edit.text = [98] ∧ l'.session.ctx.edit.pos = 1 := by
  have meets : twoLines.runOk (fun _ _ => true) (letterCalls 2) twoLines.init = true := by decide +kernel
  have shows_ : (twoLines.run (letterCalls 2) twoLines.init).map
      (fun l => (l.lines, l.session.reading, l.session.input)) = some
        ([⟨[97], 1⟩, ⟨[98], 1⟩], false, [Arrow.up, .up, .down].flatMap bytes) := by decide +kernel
  obtain ⟨l, ran, eq⟩ := map_eq_some_iff.1 shows_
  obtain ⟨lines, idle, typed⟩ : l.lines = [⟨[97], 1⟩, ⟨[98], 1⟩] ∧ l.session.reading = false ∧
      l.session.input = [Arrow.up, .up, .down].flatMap bytes := by simpa using eq
  obtain ⟨l', ran', -, line, -⟩ := @history_navigation sh1Rd (fun _ => 0) _ [] l [.up, .up, .down]
    ((Lts.Reach.of_run (letterCalls 2) meets ran).mono fun _ _ _ => trivial) (by rw [lines]; decide) idle
    (by rw [typed, List.append_nil])
  rw [lines] at line
  obtain ⟨_, is, text, pos⟩ := line (by decide)
  cases is
  exact ⟨l, l', ran, ran', text, pos⟩

end ChibiOS.Rdline
