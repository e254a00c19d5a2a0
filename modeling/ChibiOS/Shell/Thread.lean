import ChibiOS.Shell.Parse
import ChibiOS.Rdline.History

/-!
# The shell thread

`ngshell_entry` of `ngshell.c`, over the line editor with the configuration of the
application: `rdline_read`, then `ngshell_parse` of what the buffer holds, whichever
way `rdline_read` has returned. What the commands do is left out. A store behind
`argvbuf` has no outcome.
-/

namespace ChibiOS.Ngshell

open Lib Rdline

def ngshellMaxargv : Nat := 10

structure Shell where
  session : Session
  argvbuf : Nat → Nat
  /-- `rdline_read` has returned and the line is not parsed yet. -/
  returned : Bool := false

inductive ShellEvent
  | edit (ev : Event)
  | parse

/-- `ngshell_parse(sh->cfg->buf, argv)` -/
def Shell.parse (s : Shell) : Option Parse := ngshellParse s.session.ctx.edit.buf s.argvbuf sh1LineLen

/-- The stores are all inside `argvbuf`. -/
def Parse.Inside (r : Parse) : Prop := ∀ n ∈ r.stored, n < ngshellMaxargv

instance (r : Parse) : Decidable r.Inside := inferInstanceAs (Decidable (∀ n ∈ r.stored, n < ngshellMaxargv))

def Shell.next (ev : ShellEvent) (s : Shell) : Option Shell :=
  match ev with
  | .edit ev =>
    if s.returned then none
    else (s.session.next sh1Rd ev).map fun session =>
      { s with session := session, returned := s.session.reading && !session.reading }
  | .parse =>
    if s.returned then s.parse.bind fun r =>
      if r.Inside then
        let ctx := s.session.ctx
        some { session := { s.session with ctx := { ctx with edit := { ctx.edit with buf := r.buf } } }, argvbuf := r.argv }
      else none
    else none

def shells (buf : Mem) (argvbuf : Nat → Nat) (input : List (Option UInt8)) : Lts Shell ShellEvent where
  init := { session := (sessions sh1Rd buf input).init, argvbuf := argvbuf }
  next := Shell.next

variable {s s' : Shell} {ev : ShellEvent} {buf : Mem} {argvbuf : Nat → Nat} {input : List (Option UInt8)}

/-- What `rdline_read` returns with is a line. -/
structure ShellOk (s : Shell) : Prop where
  session : SessionOk sh1Rd s.session
  line : s.returned = true → s.session.reading = false ∧ EditOk sh1Rd s.session.ctx.edit

theorem ShellOk.step (ok : ShellOk s) (taken : s.next ev = some s') : ShellOk s' := by
  cases ev with
  | edit ev =>
    obtain ⟨-, ran⟩ := Option.ite_none_left_eq_some.1 taken
    obtain ⟨session, next, rfl⟩ := Option.map_eq_some_iff.1 ran
    refine ⟨ok.session.step next, fun returned => ?_⟩
    obtain ⟨reading, idle⟩ : s.session.reading = true ∧ session.reading = false := by simpa using returned
    cases ev with
    | read =>
      obtain ⟨busy, -⟩ := Option.ite_none_left_eq_some.1 next
      exact absurd reading busy
    | key => exact ⟨idle, (ok.session.key next).1.edit⟩
  | parse =>
    obtain ⟨returned, ran⟩ := Option.ite_none_right_eq_some.1 taken
    obtain ⟨r, -, rest⟩ := Option.bind_eq_some_iff.1 ran
    obtain ⟨-, ⟨⟩⟩ := Option.ite_none_right_eq_some.1 rest
    refine ⟨⟨ok.session.entries, fun reading => ?_⟩, nofun⟩
    have idle := (ok.line returned).1
    exact absurd reading (by rw [show _ = false from idle]; decide)

theorem ShellOk.of_reach (reached : (shells buf argvbuf input).Reach (fun _ _ => True) s) : ShellOk s := by
  refine reached.invariant ?_ fun _ _ _ ok _ taken => ok.step taken
  exact ⟨sessionOk_init sh1Rd buf input, nofun⟩

/-- The buffer of the editor is a string. -/
theorem isString_of_editOk {cfg : Config} {e : Edit} (ok : EditOk cfg e) : IsString e.buf e.len :=
  ⟨fun m below => printable_ne_zero (ok.shown m below), ok.ended⟩

/-- The words of the line in the buffer. -/
def Shell.words (s : Shell) : List Nat := wordStarts (wordChar s.session.ctx.edit.buf) 0 s.session.ctx.edit.len

/-- Whatever line `rdline_read` returns with, in any session, parsing it comes to an end, and it stores only inside
`argvbuf` exactly if the line has no more words than there are entries. -/
theorem argument_array {buf : Mem} {argvbuf : Nat → Nat} {input : List (Option UInt8)} {s : Shell}
    (reached : (shells buf argvbuf input).Reach (fun _ _ => True) s) (returned : s.returned = true) :
    ∃ r, s.parse = some r ∧ ((∀ n ∈ r.stored, n < ngshellMaxargv) ↔ s.words.length ≤ ngshellMaxargv) := by
  have edit := ((ShellOk.of_reach reached).line returned).2
  obtain ⟨r, ran, split⟩ := parseLoop_spec (s := { buf := s.session.ctx.edit.buf, argv := s.argvbuf })
    (isString_of_editOk edit) (fun _ _ => rfl) (Nat.zero_le _) (fun _ => .inl rfl) (show _ < sh1LineLen from edit.fits)
  have stored : r.stored = List.range' 0 s.words.length := split.stored
  refine ⟨r, ran, ?_⟩
  simp only [stored, List.mem_range'_1]
  constructor
  · intro inside
    apply Nat.le_of_not_lt
    intro more
    exact Nat.lt_irrefl _ (inside ngshellMaxargv ⟨Nat.zero_le _, by omega⟩)
  · rintro few n ⟨-, below⟩
    omega

/-- A line of `n` words of one letter. -/
def letterShell (n : Nat) : Lts Shell ShellEvent := shells (fun _ => 0) (fun _ => 0)
  ((List.replicate n [some 97, some 32]).flatten ++ [some 13])

/-- `rdline_read` and its keys. -/
def letterKeys (n : Nat) : List ShellEvent := .edit .read :: List.replicate (2 * n + 1) (.edit .key)

theorem argument_array_ten : ∃ s r, (letterShell 10).run (letterKeys 10) (letterShell 10).init = some s ∧
    s.words.length = 10 ∧ s.parse = some r ∧ ∀ n ∈ r.stored, n < ngshellMaxargv := by
  have meets : (letterShell 10).runOk (fun _ _ => true) (letterKeys 10) (letterShell 10).init = true := by decide +kernel
  have shows_ : ((letterShell 10).run (letterKeys 10) (letterShell 10).init).map
      (fun s => (s.returned, s.words.length)) = some (true, 10) := by decide +kernel
  obtain ⟨s, ran, eq⟩ := Option.map_eq_some_iff.1 shows_
  obtain ⟨returned, words⟩ := Prod.mk.inj eq
  obtain ⟨r, parsed, inside⟩ := argument_array ((Lts.Reach.of_run _ meets ran).mono fun _ _ _ => trivial) returned
  exact ⟨s, r, ran, words, parsed, inside.2 (by rw [words]; decide)⟩

/-- The eleventh word is stored behind the array. -/
theorem argument_array_eleven : ∃ s r, (letterShell 11).run (letterKeys 11) (letterShell 11).init = some s ∧
    s.returned = true ∧ s.parse = some r ∧ 10 ∈ r.stored ∧ ¬ 10 < ngshellMaxargv := by
  have shows_ : (((letterShell 11).run (letterKeys 11) (letterShell 11).init).bind fun s =>
      s.parse.map fun r => (s.returned, r.stored)) = some (true, [0, 1, 2, 3, 4, 5, 6, 7, 8, 9, 10]) := by decide +kernel
  obtain ⟨s, ran, rest⟩ := Option.bind_eq_some_iff.1 shows_
  obtain ⟨r, parsed, eq⟩ := Option.map_eq_some_iff.1 rest
  obtain ⟨returned, stored⟩ := Prod.mk.inj eq
  exact ⟨s, r, ran, returned, parsed, by rw [stored]; decide, by decide⟩

end ChibiOS.Ngshell
