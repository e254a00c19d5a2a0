import ChibiOS.Lib.Words
import ChibiOS.Rdline.Editor

/-!
# The command line of the shell

`ngshell_parse` of `ngshell.c`. The line and the argument array are memory from their
first place on, so that a store behind the end is a store; the indices of the stores
are kept beside the array. Loops have no outcome when they run out of rounds.
-/

namespace ChibiOS.Ngshell

open Lib Function
open Rdline (Mem)

/-- `isspace`, in the C locale. -/
def isspace (c : UInt8) : Bool := c == 32 || decide (9 ≤ c.toNat ∧ c.toNat ≤ 13)

/-- `while (*ptr && p(*ptr)) ptr++;` -/
def skip (p : UInt8 → Bool) (buf : Mem) (ptr fuel : Nat) : Option Nat :=
  match fuel with
  | 0 => none
  | fuel + 1 => if buf ptr ≠ 0 ∧ p (buf ptr) = true then skip p buf (ptr + 1) fuel else some ptr

def skipblanks (buf : Mem) (ptr fuel : Nat) : Option Nat := skip isspace buf ptr fuel

def skiptoken (buf : Mem) (ptr fuel : Nat) : Option Nat := skip (fun c => !isspace c) buf ptr fuel

/-- The line, the argument array, its counter, and the indices of the stores into it. -/
structure Parse where
  buf : Mem
  argv : Nat → Nat
  argc : Nat := 0
  stored : List Nat := []

/-- `argv[argc++] = token` -/
def Parse.store (s : Parse) (token : Nat) : Parse :=
  { s with argv := update s.argv s.argc token, argc := s.argc + 1, stored := s.stored ++ [s.argc] }

def parseLoop (s : Parse) (ptr fuel : Nat) : Option Parse :=
  match fuel with
  | 0 => none
  | fuel + 1 =>
    if s.buf ptr ≠ 0 then
      (skipblanks s.buf ptr (fuel + 1)).bind fun token =>
        if s.buf token ≠ 0 then
          (skiptoken s.buf token (fuel + 1)).bind fun ptr =>
            if s.buf ptr ≠ 0 then parseLoop { s.store token with buf := update s.buf ptr 0 } (ptr + 1) fuel
            else parseLoop (s.store token) ptr fuel
        else some s
    else some s

/-- Pointers into the line are counted from its first byte. -/
def ngshellParse (buf : Mem) (argv : Nat → Nat) (fuel : Nat) : Option Parse := parseLoop { buf := buf, argv := argv } 0 fuel

variable {p : UInt8 → Bool} {buf text : Mem} {len ptr fuel t e q : Nat} {s s' : Parse}

/-- A string of `len` characters. -/
structure IsString (buf : Mem) (len : Nat) : Prop where
  nonzero : ∀ m < len, buf m ≠ 0
  ended : buf len = 0

/-- The scan stops at the end of the string or at the first character that is none to skip. -/
theorem skip_spec (string : IsString text len) (same : ∀ m, ptr ≤ m → buf m = text m) (le : ptr ≤ len)
    (enough : len - ptr < fuel) : ∃ t, skip p buf ptr fuel = some t ∧ ptr ≤ t ∧ t ≤ len ∧
      (∀ m, ptr ≤ m → m < t → p (text m) = true) ∧ (t < len → p (text t) = false) := by
  induction fuel generalizing ptr with
  | zero => omega
  | succ fuel ih =>
    unfold skip
    rw [same ptr (Nat.le_refl ptr)]
    split
    next goes =>
      have less : ptr < len := by
        apply Nat.lt_of_le_of_ne le
        rintro rfl
        exact goes.1 string.ended
      obtain ⟨t, found, low, high, skipped, stops⟩ :=
        ih (fun m le' => same m (Nat.le_of_succ_le le')) less (by omega)
      refine ⟨t, found, Nat.le_of_succ_le low, high, ?_, stops⟩
      intro m ge below
      by_cases first : m = ptr
      · rw [first]
        exact goes.2
      · exact skipped m (by omega) below
    next stays =>
      refine ⟨ptr, rfl, le_refl ptr, le, fun m ge below => by omega, fun less => ?_⟩
      cases is : p (text ptr) with
      | false => rfl
      | true => exact absurd ⟨string.nonzero ptr less, is⟩ stays

/-! ## Words of a line -/

/-- The characters of words. -/
def wordChar (text : Mem) (m : Nat) : Bool := !isspace (text m)

/-- The blank that follows a word. -/
def FollowsWord (text : Mem) (len q : Nat) : Prop :=
  q < len ∧ wordChar text q = false ∧ 0 < q ∧ wordChar text (q - 1) = true

instance : Decidable (FollowsWord text len q) := inferInstanceAs (Decidable (_ ∧ _ ∧ _ ∧ _))

/-- The loop from `ptr` on stores the words and ends each of them. -/
structure Split (text : Mem) (len ptr : Nat) (s s' : Parse) : Prop where
  argc : s'.argc = s.argc + (wordStarts (wordChar text) ptr len).length
  args : ∀ n i, (wordStarts (wordChar text) ptr len)[n]? = some i → s'.argv (s.argc + n) = i
  others : ∀ n, n < s.argc ∨ s'.argc ≤ n → s'.argv n = s.argv n
  stored : s'.stored = s.stored ++ List.range' s.argc (wordStarts (wordChar text) ptr len).length
  bytes : ∀ q, s'.buf q = if ptr ≤ q ∧ FollowsWord text len q then 0 else s.buf q

/-- There is no word to store. -/
theorem Split.nil (none_ : wordStarts (wordChar text) ptr len = []) (clear : ∀ q, ptr ≤ q → ¬ FollowsWord text len q) :
    Split text len ptr s s where
  argc := by rw [none_]; rfl
  args n i is := by rw [none_] at is; cases is
  others _ _ := rfl
  stored := by rw [none_]; exact (List.append_nil _).symm
  bytes q := (if_neg fun ⟨low, follows⟩ => clear q low follows).symm

/-- The first word is stored and ended, and the loop goes on behind it. -/
theorem Split.cons {ptr' : Nat} {buf : Mem} (words : wordStarts (wordChar text) ptr len = t :: wordStarts (wordChar text) ptr' len)
    (ended : ∀ q, (if ptr' ≤ q ∧ FollowsWord text len q then 0 else buf q) =
      if ptr ≤ q ∧ FollowsWord text len q then 0 else s.buf q)
    (split : Split text len ptr' { s.store t with buf := buf } s') : Split text len ptr s s' := by
  have argc : s'.argc = s.argc + 1 + (wordStarts (wordChar text) ptr' len).length := split.argc
  refine ⟨?_, ?_, ?_, ?_, ?_⟩
  · rw [argc, words, List.length_cons]
    omega
  · intro n i is
    rw [words] at is
    cases n with
    | zero =>
      cases is
      have kept : s'.argv s.argc = update s.argv s.argc t s.argc := split.others s.argc (.inl (lt_add_one _))
      rw [add_zero, kept, update_self]
    | succ n =>
      have next := split.args n i is
      rwa [show s.argc + (n + 1) = s.argc + 1 + n by omega]
  · intro n outside
    have kept : s'.argv n = update s.argv s.argc t n := split.others n (outside.imp_left Nat.lt_succ_of_lt)
    rw [kept, update_of_ne (by omega)]
  · have stored : s'.stored = s.stored ++ [s.argc] ++ List.range' (s.argc + 1) _ := split.stored
    rw [stored, words, List.length_cons, List.range'_succ, List.append_assoc, List.singleton_append]
  · intro q
    rw [split.bytes q]
    exact ended q

/-- The place is at the start of the line or behind a blank. -/
def Boundary (text : Mem) (ptr : Nat) : Prop := ptr = 0 ∨ wordChar text (ptr - 1) = false

/-- No blank of a gap follows a word, and no character of a word does. -/
theorem not_followsWord (left : Boundary text ptr) (gap : ∀ m, ptr ≤ m → m < t → wordChar text m = false)
    (word : ∀ m, t ≤ m → m < e → wordChar text m = true) (low : ptr ≤ q) (high : q < e ∨ q ≤ t) :
    ¬ FollowsWord text len q := by
  rintro ⟨-, blank, positive, before⟩
  by_cases inWord : t ≤ q ∧ q < e
  · cases (word q inWord.1 inWord.2).symm.trans blank
  · have blank' : wordChar text (q - 1) = false := by
      by_cases first : q = ptr
      · rw [first] at positive ⊢
        exact left.resolve_left (by omega)
      · exact gap (q - 1) (by omega) (by omega)
    rw [blank'] at before
    cases before

/-- One round stores the next word and ends it, or finds that there is none. -/
theorem parseLoop_spec (string : IsString text len) (same : ∀ m, ptr ≤ m → s.buf m = text m) (le : ptr ≤ len)
    (left : ptr < len → Boundary text ptr) (enough : len - ptr < fuel) :
    ∃ s', parseLoop s ptr fuel = some s' ∧ Split text len ptr s s' := by
  induction fuel generalizing ptr s with
  | zero => omega
  | succ fuel ih =>
    have zero_iff (m : Nat) (low : ptr ≤ m) (high : m ≤ len) : s.buf m ≠ 0 ↔ m < len := by
      rw [same m low]
      refine ⟨fun nonzero => Nat.lt_of_le_of_ne high ?_, string.nonzero m⟩
      rintro rfl
      exact nonzero string.ended
    unfold parseLoop
    by_cases more : ptr < len
    · obtain ⟨t, found, low, high, blanks, stops⟩ := skip_spec (p := isspace) string same le enough
      have gap : ∀ m, ptr ≤ m → m < t → wordChar text m = false := by
        intro m ge below
        rw [wordChar, blanks m ge below]
        rfl
      rw [if_pos ((zero_iff ptr (Nat.le_refl ptr) le).2 more), skipblanks, found, Option.bind_some]
      by_cases token : t < len
      · obtain ⟨e, found', low', high', word, stops'⟩ := skip_spec (p := fun c => !isspace c) string
          (fun m ge => same m (le_trans low ge)) high (show len - t < fuel + 1 by omega)
        have less : t < e := by
          apply Nat.lt_of_le_of_ne low'
          rintro rfl
          have := stops' token
          rw [stops token] at this
          cases this
        have words : wordStarts (wordChar text) ptr len = t :: wordStarts (wordChar text) e len := by
          rw [wordStarts_skip low high gap]
          apply wordStarts_word less high' ?_ word
          by_cases first : t = ptr
          · rw [first]
            exact left more
          · exact .inr (gap (t - 1) (by omega) (by omega))
        have none_ (q : Nat) (low : ptr ≤ q) (high : q < e ∨ q ≤ t) : ¬ FollowsWord text len q :=
          not_followsWord (left more) gap word low high
        rw [if_pos ((zero_iff t low high).2 token), skiptoken, found', Option.bind_some]
        by_cases behind : e < len
        · rw [if_pos ((zero_iff e (by omega) high').2 behind)]
          have blank : wordChar text e = false := stops' behind
          have follows : FollowsWord text len e := ⟨behind, blank, by omega, word (e - 1) (by omega) (by omega)⟩
          obtain ⟨s', ran, split⟩ := @ih (e + 1) { s.store t with buf := update s.buf e 0 }
            (fun m ge => by
              show update s.buf e 0 m = text m
              rw [update_of_ne (by omega)]
              exact same m (by omega))
            behind (fun _ => .inr blank) (by omega)
          refine ⟨s', ran, split.cons ?_ ?_⟩
          · rw [words, wordStarts_skip (Nat.le_succ e) behind]
            intro m ge below
            rwa [show m = e by omega]
          · intro q
            by_cases here : q = e
            · rw [here, if_neg (by omega), update_self, if_pos ⟨by omega, follows⟩]
            · rw [update_of_ne here]
              apply if_congr ?_ rfl rfl
              refine and_congr_left fun is => ⟨fun ge => by omega, fun ge => ?_⟩
              apply Nat.lt_of_not_le
              intro le'
              exact none_ q ge (by omega) is
        · obtain rfl : e = len := by omega
          rw [if_neg (fun nonzero => behind ((zero_iff e (by omega) high').1 nonzero))]
          obtain ⟨s', ran, split⟩ := @ih e (s.store t) (fun m ge => same m (by omega)) (Nat.le_refl e)
            (fun absurd_ => absurd absurd_ behind) (by omega)
          refine ⟨s', ran, split.cons words fun q => ?_⟩
          apply if_congr ?_ rfl rfl
          refine and_congr_left fun is => ⟨fun ge => by omega, fun ge => ?_⟩
          have := is.1
          exact absurd is (none_ q ge (by omega))
      · obtain rfl : t = len := by omega
        rw [if_neg (fun nonzero => token ((zero_iff t low high).1 nonzero))]
        refine ⟨s, rfl, .nil ?_ fun q ge is => ?_⟩
        · rw [wordStarts_skip low high gap]
          exact wordStarts_eq_nil fun m ge below => by omega
        · have := is.1
          exact not_followsWord (e := t) (left more) gap (fun m ge below => by omega) ge (by omega) is
    · obtain rfl : ptr = len := by omega
      rw [if_neg (fun nonzero => more ((zero_iff ptr (Nat.le_refl ptr) le).1 nonzero))]
      refine ⟨s, rfl, .nil (wordStarts_eq_nil fun m ge below => by omega) fun q ge is => ?_⟩
      have := is.1
      omega

/-- For every line, the parser comes to an end, and the words of the line, in order, are what it stores, from the first
entry of the array on; it ends each of them where it is, and changes no byte but the blank behind a word. -/
theorem command_words {buf : Mem} {len fuel : Nat} (string : IsString buf len) (argv : Nat → Nat) (enough : len < fuel) :
    ∃ s, ngshellParse buf argv fuel = some s ∧
      s.argc = (wordStarts (wordChar buf) 0 len).length ∧
      (∀ i, i ∈ wordStarts (wordChar buf) 0 len ↔ ∃ j, IsWord (wordChar buf) len i j) ∧
      (wordStarts (wordChar buf) 0 len).Pairwise (· < ·) ∧
      (∀ n i, (wordStarts (wordChar buf) 0 len)[n]? = some i → s.argv n = i) ∧
      (∀ n, s.argc ≤ n → s.argv n = argv n) ∧ (∀ n, n ∈ s.stored ↔ n < s.argc) ∧
      (∀ i j, IsWord (wordChar buf) len i j → s.buf j = 0 ∧ ∀ m, i ≤ m → m < j → s.buf m = buf m ∧ buf m ≠ 0) ∧
      ∀ q, s.buf q = if FollowsWord buf len q then 0 else buf q := by
  obtain ⟨s, ran, split⟩ := parseLoop_spec (s := { buf := buf, argv := argv }) string (fun _ _ => rfl) (Nat.zero_le len)
    (fun _ => .inl rfl) (by omega)
  have argc : s.argc = (wordStarts (wordChar buf) 0 len).length := by rw [split.argc, zero_add]
  have bytes (q : Nat) : s.buf q = if FollowsWord buf len q then 0 else buf q := by
    rw [split.bytes q]
    exact if_congr (and_iff_right (Nat.zero_le q)) rfl rfl
  refine ⟨s, ran, argc, fun i => mem_wordStarts_iff, wordStarts_sorted, ?_, ?_, ?_, ?_, bytes⟩
  · intro n i is
    have stored := split.args n i is
    rwa [zero_add] at stored
  · intro n above
    exact split.others n (.inr above)
  · intro n
    have stored : s.stored = List.range' 0 (wordStarts (wordChar buf) 0 len).length := split.stored
    rw [stored, argc, List.mem_range'_1]
    omega
  · intro i j word
    have := word.bound
    have := word.nonempty
    refine ⟨?_, fun m low high => ⟨?_, string.nonzero m (by omega)⟩⟩
    · rw [bytes j]
      split
      · rfl
      next other =>
        rcases word.right with last | blank
        · rw [last]
          exact string.ended
        · by_cases last : j = len
          · rw [last]
            exact string.ended
          · refine absurd ⟨by omega, blank, by omega, ?_⟩ other
            exact word.inside (j - 1) (by omega) (by omega)
    · rw [bytes m, if_neg]
      rintro ⟨-, blank, -⟩
      cases (word.inside m low high).symm.trans blank

/-- Two words, with a blank before each. -/
def twoWords : Mem := fun i => [32, 97, 98, 32, 99].getD i 0

theorem command_words_two : ∃ s, ngshellParse twoWords (fun _ => 9) 6 = some s ∧ s.argc = 2 ∧ s.argv 0 = 1 ∧ s.argv 1 = 4 ∧
    s.argv 2 = 9 ∧ s.buf 3 = 0 := by
  have string : IsString twoWords 5 := ⟨by decide, rfl⟩
  obtain ⟨s, ran, argc, -, -, args, others, -, -, bytes⟩ := command_words string (fun _ => 9) (show 5 < 6 by decide)
  have words : wordStarts (wordChar twoWords) 0 5 = [1, 4] := by decide
  rw [words] at argc args
  refine ⟨s, ran, argc, args 0 1 rfl, args 1 4 rfl, others 2 (by rw [argc]; decide), ?_⟩
  rw [bytes 3]
  decide

end ChibiOS.Ngshell
