import ChibiOS.Kernel.IoQueueFifo
import ChibiOS.Kernel.Wakes
import ChibiOS.Lib.LittleEndian

/-!
# Between the FIFO and an I/O queue (`usb_lld.c`)

A packet goes through the FIFO register by words, and through the queue by bytes. The
words that lie in one piece in the ring are pushed as they are. One that lies across
its end, and the bytes of the last, incomplete one, are put together byte by byte.
After the copy the queue is counted up and all its waiting threads are woken.
-/

namespace ChibiOS.Usb

open Function
open Kernel Lib

/-- `q_rdptr` is moved to `rd`, behind the bytes `bs`. -/
def moveRdptr (qp : IoQueue) (rd : Nat) (bs : List UInt8) (o : IoQueues) : IoQueues :=
  { o with
    qRdptr := update o.qRdptr qp rd
    qLog := update o.qLog qp ((bs.map QEvent.get).reverse ++ o.qLog qp) }

/-- `*q_rdptr++`, with the wrap. -/
def readByte (qp : IoQueue) (o : IoQueues) : IoQueues :=
  moveRdptr qp (if o.qSize qp ≤ o.qRdptr qp + 1 then 0 else o.qRdptr qp + 1) [o.qBuffer qp (o.qRdptr qp)] o

/-- The `k` cells of the buffer from `p` on. -/
def cells (qp : IoQueue) (p k : Nat) (o : IoQueues) : List UInt8 := (List.range k).map fun i => o.qBuffer qp (p + i)

/-! ## Filling a packet -/

/-- The state of `otg_fifo_write_from_queue`; `fifo` are the words written so far. -/
structure TxCopy where
  fifo : List UInt32
  ntogo : Nat
  q : IoQueues

namespace TxCopy

/-- `*fifop = *((uint32_t *)buf); buf += 4`, where `buf` is `q_rdptr`. -/
def pushWord (qp : IoQueue) (x : TxCopy) : TxCopy :=
  let bytes := cells qp (x.q.qRdptr qp) 4 x.q
  { x with fifo := x.fifo ++ [leWord bytes], q := moveRdptr qp (x.q.qRdptr qp + 4) bytes x.q }

def otgDoPush (qp : IoQueue) : Nat → TxCopy → TxCopy
  | 0, x => x
  | n + 1, x => otgDoPush qp n (x.pushWord qp)

/-- `while ((ntogo > 0) && (i < 4))`, with `4 - i` rounds to go, and `*fifop = w` after it. -/
def gather (qp : IoQueue) : Nat → UInt32 → TxCopy → TxCopy
  | 0, w, x => { x with fifo := x.fifo ++ [w] }
  | r + 1, w, x =>
    if x.ntogo = 0 then { x with fifo := x.fifo ++ [w] }
    else
      gather qp r (orByte w (3 - r) (x.q.qBuffer qp (x.q.qRdptr qp))) { x with
        ntogo := x.ntogo - 1
        q := readByte qp x.q }

/-- The end of a round, one byte at a time. -/
def bytewise (qp : IoQueue) (x : TxCopy) : TxCopy := if x.ntogo ≤ 0 then x else x.gather qp 4 0

/-- A round of the outer loop. -/
def round (qp : IoQueue) (x : TxCopy) : TxCopy :=
  let nw := x.ntogo / 4
  if 0 < nw then
    let nw2end := (x.q.qSize qp - x.q.qRdptr qp) / 4
    let streak := if nw ≤ nw2end then nw else nw2end
    let x := { x with ntogo := x.ntogo - streak * 4 }.otgDoPush qp streak
    if x.q.qSize qp ≤ x.q.qRdptr qp then { x with q := moveRdptr qp 0 [] x.q } else x.bytewise qp
  else x.bytewise qp

/-- `while (ntogo > 0)`, in at most so many rounds. -/
def loop (qp : IoQueue) : Nat → TxCopy → Option TxCopy
  | 0, x => if x.ntogo = 0 then some x else none
  | fuel + 1, x => if x.ntogo = 0 then some x else loop qp fuel (x.round qp)

end TxCopy

/-- `/* Updating queue.*/`. -/
def updateQueue (qp : IoQueue) (n : Nat) : Sys → Sys :=
  Sys.zone fun s => ((s.qCount qp (s.qCounter qp + n)).onCore fun c =>
    c.flush (.qWaiting qp) (.readyMsg · rdyOk) (c.queue (.qWaiting qp)).length).onCore .chSchRescheduleS

/-- The words written, and the state after. -/
def otgFifoWriteFromQueue (k n fuel : Nat) (s : Sys) : Option (List UInt32 × Sys) := do
  let x ← TxCopy.loop (.oq k) fuel ⟨[], n, s.toIoQueues⟩
  return (x.fifo, updateQueue (.oq k) n { s with toIoQueues := x.q })

/-! ### The bytes read -/

/-- The `m` bytes from the read pointer on, around the end. -/
def ahead (qp : IoQueue) (m : Nat) (o : IoQueues) : List UInt8 :=
  (List.range m).map fun i => o.qBuffer qp ((o.qRdptr qp + i) % o.qSize qp)

/-- `m` bytes are read. -/
def skips (qp : IoQueue) (m : Nat) (o : IoQueues) : IoQueues :=
  moveRdptr qp ((o.qRdptr qp + m) % o.qSize qp) (ahead qp m o) o

variable {qp : IoQueue} {o : IoQueues} {m m' p : Nat} {x x' x'' : TxCopy} {k n size : Nat} {l : List UInt8} {s : Sys}
  {bs : List UInt8}

@[simp] theorem ahead_length : (ahead qp m o).length = m := by simp [ahead]

theorem moveRdptr_moveRdptr (rd rd' : Nat) (bs bs' : List UInt8) :
    moveRdptr qp rd' bs' (moveRdptr qp rd bs o) = moveRdptr qp rd' (bs ++ bs') o := by
  simp [moveRdptr]

theorem moveRdptr_nil : moveRdptr qp (o.qRdptr qp) [] o = o := by simp [moveRdptr]

theorem cells_add (k l : Nat) : cells qp p (k + l) o = cells qp p k o ++ cells qp (p + k) l o := by
  simp [cells, List.range_add, add_assoc]

/-- Up to the end of the ring the cells are what is read. -/
theorem ahead_eq_cells (le : o.qRdptr qp + m ≤ o.qSize qp) : ahead qp m o = cells qp (o.qRdptr qp) m o := by
  refine List.map_congr_left fun i mem => ?_
  rw [List.mem_range] at mem
  rw [Nat.mod_eq_of_lt (by omega)]

theorem ahead_add : ahead qp (m + m') o = ahead qp m o ++ ahead qp m' (skips qp m o) := by
  simp [ahead, skips, moveRdptr, List.range_add, add_assoc]

theorem skips_skips : skips qp m' (skips qp m o) = skips qp (m + m') o := by
  have rd : ((skips qp m o).qRdptr qp + m') % (skips qp m o).qSize qp = (o.qRdptr qp + (m + m')) % o.qSize qp := by
    simp [skips, moveRdptr, add_assoc]
  rw [skips, rd]
  exact (moveRdptr_moveRdptr ..).trans (by rw [← ahead_add]; rfl)

section

variable (lt : o.qRdptr qp < o.qSize qp)
include lt

theorem skips_zero : skips qp 0 o = o := by
  rw [skips, add_zero, Nat.mod_eq_of_lt lt]
  exact moveRdptr_nil

theorem skips_rdptr_lt : (skips qp m o).qRdptr qp < (skips qp m o).qSize qp := by
  have pos : 0 < o.qSize qp := Nat.zero_lt_of_lt lt
  simpa [skips, moveRdptr] using Nat.mod_lt _ pos

/-- A byte is read. -/
theorem readByte_eq : readByte qp o = skips qp 1 o := by
  rw [skips, ahead_eq_cells lt, ← ringNext_eq lt]
  rfl

theorem ahead_succ : ahead qp (m + 1) o = o.qBuffer qp (o.qRdptr qp) :: ahead qp m (readByte qp o) := by
  rw [add_comm, ahead_add, readByte_eq lt, ahead_eq_cells lt]
  rfl

theorem skips_succ : skips qp (m + 1) o = skips qp m (readByte qp o) := by
  rw [readByte_eq lt, skips_skips, add_comm]

end

/-! ### The loop -/

/-- The next `m` bytes have been read, and written as words. -/
structure Copied (qp : IoQueue) (m : Nat) (x x' : TxCopy) : Prop where
  le : m ≤ x.ntogo
  ntogo : x'.ntogo = x.ntogo - m
  q : x'.q = skips qp m x.q
  words : ∃ ws, x'.fifo = x.fifo ++ ws ∧ ws.length = (m + 3) / 4 ∧ (wordsBytes ws).take m = ahead qp m x.q

theorem Copied.refl (lt : x.q.qRdptr qp < x.q.qSize qp) : Copied qp 0 x x :=
  ⟨Nat.zero_le _, rfl, (skips_zero lt).symm, [], by simp, rfl, rfl⟩

/-- Only the last word is incomplete. -/
theorem Copied.trans (first : Copied qp m x x') (then_ : Copied qp m' x' x'') (whole : 4 ∣ m ∨ m' = 0) :
    Copied qp (m + m') x x'' := by
  obtain ⟨le, ntogo, q, ws, fifo, length, bytes⟩ := first
  obtain ⟨le', ntogo', q', ws', fifo', length', bytes'⟩ := then_
  refine ⟨by omega, by omega, by rw [q', q, skips_skips], ws ++ ws', ?_, ?_, ?_⟩
  · rw [fifo', fifo, List.append_assoc]
  · rw [List.length_append]
    omega
  · rw [wordsBytes_take_add length whole, ahead_add, ← q, ← bytes', ← bytes]

/-- Words in one piece. -/
theorem otgDoPush_eq : ∀ (n : Nat) (x : TxCopy), ∃ ws, ws.length = n ∧
    wordsBytes ws = cells qp (x.q.qRdptr qp) (4 * n) x.q ∧
    x.otgDoPush qp n = ⟨x.fifo ++ ws, x.ntogo,
      moveRdptr qp (x.q.qRdptr qp + 4 * n) (cells qp (x.q.qRdptr qp) (4 * n) x.q) x.q⟩
  | 0, x => ⟨[], rfl, rfl, by simp [TxCopy.otgDoPush, cells, moveRdptr_nil]⟩
  | n + 1, x => by
    have length : (cells qp (x.q.qRdptr qp) 4 x.q).length = 4 := by simp [cells]
    have bytes : leBytes (leWord (cells qp (x.q.qRdptr qp) 4 x.q)) = cells qp (x.q.qRdptr qp) 4 x.q := by
      have first := leBytes_leWord length.le
      rwa [length, List.take_of_length_le (leBytes_length _).le] at first
    have rdptr : (x.pushWord qp).q.qRdptr qp = x.q.qRdptr qp + 4 := update_self ..
    obtain ⟨ws, count, rest, pushed⟩ := otgDoPush_eq n (x.pushWord qp)
    rw [rdptr] at rest pushed
    have all : cells qp (x.q.qRdptr qp) (4 * (n + 1)) x.q =
        cells qp (x.q.qRdptr qp) 4 x.q ++ cells qp (x.q.qRdptr qp + 4) (4 * n) x.q := by
      rw [← cells_add, Nat.mul_succ, add_comm]
    refine ⟨leWord (cells qp (x.q.qRdptr qp) 4 x.q) :: ws, by rw [List.length_cons, count], ?_, ?_⟩
    · rw [wordsBytes_cons, bytes, rest, all]
      rfl
    · rw [TxCopy.otgDoPush, pushed, all, ← moveRdptr_moveRdptr (x.q.qRdptr qp + 4), Nat.mul_succ, add_comm (4 * n),
        ← add_assoc, List.append_cons]
      rfl

/-- A word, or what is left of one, put together byte by byte. -/
theorem gather_eq : ∀ (r : Nat) (w : UInt32) {x : TxCopy}, r ≤ 4 → x.q.qRdptr qp < x.q.qSize qp →
    x.gather qp r w = ⟨x.fifo ++ [orBytes w (4 - r) (ahead qp (min r x.ntogo) x.q)], x.ntogo - min r x.ntogo,
      skips qp (min r x.ntogo) x.q⟩
  | 0, w, x, _, lt => by
    rw [Nat.zero_min, skips_zero lt]
    rfl
  | r + 1, w, x, le, lt => by
    rw [TxCopy.gather]
    split
    next done =>
      rw [done, Nat.min_zero, skips_zero lt]
      rfl
    · have lt' : (readByte qp x.q).qRdptr qp < (readByte qp x.q).qSize qp := by
        rw [readByte_eq lt]
        exact skips_rdptr_lt lt
      rw [gather_eq r _ (by omega) lt']
      have count : min (r + 1) x.ntogo = min r (x.ntogo - 1) + 1 := by omega
      rw [count, ahead_succ lt, skips_succ lt, orBytes, show 4 - (r + 1) = 3 - r by omega, show 3 - r + 1 = 4 - r by omega,
        Nat.sub_add_eq, Nat.sub_right_comm]

theorem bytewise_copied (lt : x.q.qRdptr qp < x.q.qSize qp) : Copied qp (min 4 x.ntogo) x (x.bytewise qp) := by
  rw [TxCopy.bytewise]
  split
  next done =>
    rw [Nat.le_zero.1 done, Nat.min_zero]
    exact .refl lt
  · rw [gather_eq 4 0 (le_refl 4) lt]
    refine ⟨Nat.min_le_right .., rfl, rfl, [_], rfl, by rw [List.length_singleton]; omega, ?_⟩
    have word := leBytes_leWord (l := ahead qp (min 4 x.ntogo) x.q) (by simp)
    rw [ahead_length] at word
    simpa [wordsBytes, leWord] using word

/-- A streak up to the end of the ring at most, with the wrap. -/
theorem streak_copied {k : Nat} (count : 4 * k ≤ x.ntogo) (fits : x.q.qRdptr qp + 4 * k ≤ x.q.qSize qp) :
    ({ x with ntogo := x.ntogo - k * 4 }.otgDoPush qp k).q.qRdptr qp = x.q.qRdptr qp + 4 * k ∧
    Copied qp (4 * k) x { { x with ntogo := x.ntogo - k * 4 }.otgDoPush qp k with
      q := moveRdptr qp ((x.q.qRdptr qp + 4 * k) % x.q.qSize qp) []
        ({ x with ntogo := x.ntogo - k * 4 }.otgDoPush qp k).q } := by
  obtain ⟨ws, length, bytes, pushed⟩ := @otgDoPush_eq qp k { x with ntogo := x.ntogo - k * 4 }
  rw [pushed]
  refine ⟨update_self .., count, by rw [Nat.mul_comm], ?_, ws, rfl, by omega, ?_⟩
  · rw [moveRdptr_moveRdptr, List.append_nil, ← ahead_eq_cells fits]
    rfl
  · rw [ahead_eq_cells fits, ← bytes, List.take_of_length_le (by rw [wordsBytes_length, length])]

/-- A round reads whole words, or all that is left. -/
theorem round_copied (lt : x.q.qRdptr qp < x.q.qSize qp) (some_ : x.ntogo ≠ 0) :
    ∃ m, 0 < m ∧ Copied qp m x (x.round qp) ∧ (4 ∣ m ∨ m = x.ntogo) := by
  rw [TxCopy.round]
  dsimp only
  split
  · generalize streak_eq : (if x.ntogo / 4 ≤ (x.q.qSize qp - x.q.qRdptr qp) / 4 then x.ntogo / 4
      else (x.q.qSize qp - x.q.qRdptr qp) / 4) = streak
    obtain ⟨count, fits⟩ : 4 * streak ≤ x.ntogo ∧ x.q.qRdptr qp + 4 * streak ≤ x.q.qSize qp := by
      split at streak_eq <;> omega
    obtain ⟨rdptr, copied⟩ := streak_copied count fits
    have size : ({ x with ntogo := x.ntogo - streak * 4 }.otgDoPush qp streak).q.qSize qp = x.q.qSize qp :=
      congrFun (congrArg IoQueues.qSize copied.q) qp
    generalize { x with ntogo := x.ntogo - streak * 4 }.otgDoPush qp streak = y at *
    rw [rdptr, size]
    split
    next wrapped =>
      rw [show x.q.qRdptr qp + 4 * streak = x.q.qSize qp by omega, Nat.mod_self] at copied
      exact ⟨4 * streak, by omega, copied, .inl (Nat.dvd_mul_right ..)⟩
    next inside =>
      rw [Nat.mod_eq_of_lt (by omega), ← rdptr, moveRdptr_nil] at copied
      have rest : Copied qp (min 4 y.ntogo) y (y.bytewise qp) := bytewise_copied (by omega)
      have ntogo : y.ntogo = x.ntogo - 4 * streak := copied.ntogo
      exact ⟨_, by omega, copied.trans rest (.inl (Nat.dvd_mul_right ..)), by omega⟩
  · exact ⟨min 4 x.ntogo, by omega, bytewise_copied lt, by omega⟩

/-- The loop ends, with all bytes read. -/
theorem loop_copied : ∀ (fuel : Nat) {x : TxCopy}, x.q.qRdptr qp < x.q.qSize qp → x.ntogo ≤ fuel →
    ∃ x', x.loop qp fuel = some x' ∧ Copied qp x.ntogo x x' := by
  intro fuel
  induction fuel with
  | zero =>
    intro x lt le
    rw [TxCopy.loop, if_pos (Nat.le_zero.1 le), Nat.le_zero.1 le]
    exact ⟨x, rfl, .refl lt⟩
  | succ fuel ih =>
    intro x lt le
    rw [TxCopy.loop]
    split
    next done =>
      rw [done]
      exact ⟨x, rfl, .refl lt⟩
    next some_ =>
      obtain ⟨m, pos, first, whole⟩ := round_copied lt some_
      have ntogo := first.ntogo
      have bound := first.le
      obtain ⟨x', ended, rest⟩ := ih (by rw [first.q]; exact skips_rdptr_lt lt) (by omega : (x.round qp).ntogo ≤ fuel)
      have all := first.trans rest (by omega)
      rw [show m + (x.round qp).ntogo = x.ntogo by omega] at all
      exact ⟨x', ended, all⟩

/-! ### The queue after it -/

/-- `q_counter` is set. -/
def counted (qp : IoQueue) (n : Nat) (o : IoQueues) : IoQueues := { o with qCounter := update o.qCounter qp n }

theorem updateQueue_toIoQueues (qp : IoQueue) (n : Nat) (s : Sys) :
    (updateQueue qp n s).toIoQueues = counted qp (s.qCounter qp + n) s.toIoQueues := rfl

/-- The waiting threads are woken, and no others. -/
theorem updateQueue_wakes {s : Sys} (ok : CoreOk s.toCore) (outside : Outside s) (qp : IoQueue) (n : Nat) :
    WakesAll (s.queue (.qWaiting qp)) rdyOk s.toCore (updateQueue qp n s).toCore ∧
      (updateQueue qp n s).queue (.qWaiting qp) = [] :=
  outside.flush_wakes { ioq := true } ok nofun rfl (by decide)

theorem updateQueue_coreOk {s : Sys} (ok : CoreOk s.toCore) (outside : Outside s) (qp : IoQueue) (n : Nat) :
    CoreOk (updateQueue qp n s).toCore := by
  have counted : AtWork { ioq := true } s (s.enter.qCount qp (s.enter.qCounter qp + n)) :=
    (outside.enter ok).step (.of_objs (.onIoq rfl) (by rfl))
  have told := counted.step (.flush (q := .qWaiting qp) (m := rdyOk) counted.ok nofun rfl (by decide))
  exact told.reschedule.coreOk ok

/-- Reading, then counting, is removing one byte after the other. -/
theorem get_iterate (n : Nat) {o : IoQueues} (lt : o.qRdptr (.oq k) < o.qSize (.oq k)) :
    (IoQueues.get (.oq k))^[n] o = counted (.oq k) (o.qCounter (.oq k) + n) (skips (.oq k) n o) := by
  induction n generalizing o with
  | zero =>
    rw [skips_zero lt]
    simp [counted]
  | succ n ih =>
    have read : (readByte (.oq k) o).qRdptr (.oq k) < (readByte (.oq k) o).qSize (.oq k) := by
      rw [readByte_eq lt]
      exact skips_rdptr_lt lt
    have read' : (o.get (.oq k)).qRdptr (.oq k) < (o.get (.oq k)).qSize (.oq k) := read
    have counter : (o.get (.oq k)).qCounter (.oq k) = o.qCounter (.oq k) + 1 := update_self ..
    have rest : skips (.oq k) n (o.get (.oq k)) =
        counted (.oq k) (o.qCounter (.oq k) + 1) (skips (.oq k) n (readByte (.oq k) o)) := rfl
    rw [iterate_succ_apply, ih read', counter, rest, skips_succ lt, add_comm n, ← add_assoc]
    simp [counted]

/-- While there are bytes, each call of `chOQGetI` removes one. -/
theorem chOQGetI_iterate (n : Nat) {s : Sys} {l : List UInt8} (holds : QHolds size (.oq k) l s.toIoQueues)
    (le : n ≤ l.length) : ((Sys.chOQGetI k)^[n] s).toIoQueues = (IoQueues.get (.oq k))^[n] s.toIoQueues ∧
      QHolds size (.oq k) (l.drop n) ((Sys.chOQGetI k)^[n] s).toIoQueues := by
  induction n generalizing s l with
  | zero => exact ⟨rfl, holds⟩
  | succ n ih =>
    have some_ : s.isEmpty (.oq k) = false := by
      rw [Bool.eq_false_iff, Ne, holds.isEmpty_iff]
      rintro rfl
      cases le
    have notEmpty : ¬ s.chOQIsEmptyI k = true := Bool.eq_false_iff.1 some_
    have taken : (s.chOQGetI k).toIoQueues = s.toIoQueues.get (.oq k) := by
      rw [Sys.chOQGetI, if_neg notEmpty]
      exact qReadyFirst_toIoQueues ..
    obtain ⟨b, l', rfl, -, holds'⟩ := holds.get some_
    rw [← taken] at holds'
    obtain ⟨same, rest⟩ := ih holds' (by simpa using le)
    rw [iterate_succ_apply, iterate_succ_apply, same, taken]
    exact ⟨rfl, by rwa [same, taken] at rest⟩

/-- `n` bytes of the queue of `size` cells that held `l` have gone to the FIFO as the words `ws`. -/
structure FifoFilled (size k n : Nat) (l : List UInt8) (s : Sys) (ws : List UInt32) (s' : Sys) : Prop where
  words : ws.length = (n + 3) / 4
  /-- The bytes of the words, each least significant first. -/
  bytes : (wordsBytes ws).take n = l.take n
  queue : s'.toIoQueues = ((Sys.chOQGetI k)^[n] s).toIoQueues
  content : QHolds size (.oq k) (l.drop n) s'.toIoQueues
  woken : WakesAll (s.queue (.qWaiting (.oq k))) rdyOk s.toCore s'.toCore
  nobody : s'.queue (.qWaiting (.oq k)) = []
  core : CoreOk s'.toCore

theorem QHolds.ahead_eq {qp : IoQueue} (holds : QHolds size qp l o) (le : n ≤ l.length) : ahead qp n o = l.take n := by
  rw [ahead, holds.size]
  exact (holds.ring.takeFront le).1

/-- Wherever the stored bytes lie in the ring. -/
theorem packet_filled {fuel : Nat} (ok : CoreOk s.toCore) (outside : Outside s) (holds : QHolds size (.oq k) l s.toIoQueues)
    (le : n ≤ l.length) (enough : n ≤ fuel) :
    ∃ ws s', otgFifoWriteFromQueue k n fuel s = some (ws, s') ∧ FifoFilled size k n l s ws s' := by
  have lt : s.qRdptr (.oq k) < s.qSize (.oq k) := holds.size ▸ holds.ring.rd_lt
  obtain ⟨x, ended, -, -, q, ws, fifo, words, bytes⟩ := @loop_copied (.oq k) fuel ⟨[], n, s.toIoQueues⟩ lt enough
  obtain ⟨same, content⟩ := chOQGetI_iterate n holds le
  have queue : (updateQueue (.oq k) n { s with toIoQueues := x.q }).toIoQueues = ((Sys.chOQGetI k)^[n] s).toIoQueues := by
    rw [updateQueue_toIoQueues, same, get_iterate n lt, q]
    rfl
  have ok' : CoreOk ({ s with toIoQueues := x.q } : Sys).toCore := ok
  have outside' : Outside { s with toIoQueues := x.q } := ⟨outside.thread, outside.unlocked, outside.notIdle⟩
  obtain ⟨woken, nobody⟩ := updateQueue_wakes ok' outside' (.oq k) n
  refine ⟨ws, updateQueue (.oq k) n { s with toIoQueues := x.q }, ?_, words, ?_, queue, queue ▸ content, woken, nobody,
    updateQueue_coreOk ok' outside' (.oq k) n⟩
  · rw [otgFifoWriteFromQueue, ended, ← List.nil_append ws, ← fifo]
    rfl
  · rw [bytes]
    exact QHolds.ahead_eq holds le

/-- Four bytes that lie across the end of a ring of four cells, and a thread that waits for room. -/
def wrappedRun : List Label :=
  [.call (.thdCreate 70 .static), .run, .call (.oqWriteTimeout 0 [1, 2, 3, 4, 5, 6, 7] timeInfinite), .run, .run, .run,
    .run, .run, .run, .run, .run, .run, .run, .run, .isrEnter, .icall (.oqGetI 0), .icall (.oqGetI 0), .isrExit, .run,
    .run, .run, .run, .run, .run, .run, .run, .run]

theorem packet_filled_wrapped : ∃ s ws s', (kernelLts smallConfig).run wrappedRun (chSysInit smallConfig) = some s ∧
    s.qRdptr (.oq 0) = 2 ∧ s.queue (.qWaiting (.oq 0)) = [2] ∧ otgFifoWriteFromQueue 0 4 4 s = some (ws, s') ∧
    FifoFilled 4 0 4 [3, 4, 5, 6] s ws s' := by
  have reached := (Lts.Trace.of_trace (M := kernelLts smallConfig) wrappedRun .init rfl).reach
  have ok : KernelOk False _ := reach_kernelOk (fun _ _ _ => nofun) reached
  obtain ⟨ws, s', filled⟩ := packet_filled (n := 4) (k := 0) ok.core ⟨rfl, rfl, by decide⟩
    ⟨rfl, rfl, ⟨by decide, by decide, rfl, by decide⟩, rfl⟩ (by decide : 4 ≤ [3, 4, 5, 6].length) (le_refl 4)
  exact ⟨_, ws, s', rfl, rfl, rfl, filled⟩

/-! ## Draining a packet -/

/-- `*q_wrptr++ = b`, with the wrap. -/
def storeByte (qp : IoQueue) (o : IoQueues) (b : UInt8) : IoQueues :=
  { o with
    qBuffer := update o.qBuffer qp (update (o.qBuffer qp) (o.qWrptr qp) b)
    qWrptr := update o.qWrptr qp (if o.qSize qp ≤ o.qWrptr qp + 1 then 0 else o.qWrptr qp + 1)
    qLog := update o.qLog qp (.put b :: o.qLog qp) }

/-- The state of `otg_fifo_read_to_queue`; `fifo` are the words that the register will give. -/
structure RxCopy where
  fifo : List UInt32
  ntogo : Nat
  q : IoQueues

namespace RxCopy

/-- `*((uint32_t *)buf) = w; buf += 4`, where `buf` is `q_wrptr`. -/
def storeWord (qp : IoQueue) (w : UInt32) (o : IoQueues) : IoQueues :=
  { o with
    qBuffer := update o.qBuffer qp fun p =>
      if o.qWrptr qp ≤ p ∧ p < o.qWrptr qp + 4 then wordByte w (p - o.qWrptr qp) else o.qBuffer qp p
    qWrptr := update o.qWrptr qp (o.qWrptr qp + 4)
    qLog := update o.qLog qp (((leBytes w).map QEvent.put).reverse ++ o.qLog qp) }

/-- An empty FIFO is not read. -/
def otgDoPop (qp : IoQueue) : Nat → RxCopy → Option RxCopy
  | 0, x => some x
  | n + 1, x =>
    match x.fifo with
    | [] => none
    | w :: ws => otgDoPop qp n { x with fifo := ws, q := storeWord qp w x.q }

/-- `while ((ntogo > 0) && (i < 4))`, with `4 - i` rounds to go. -/
def scatter (qp : IoQueue) (w : UInt32) : Nat → RxCopy → RxCopy
  | 0, x => x
  | r + 1, x =>
    if x.ntogo = 0 then x
    else scatter qp w r { x with ntogo := x.ntogo - 1, q := storeByte qp x.q (wordByte w (3 - r)) }

/-- The end of a round, one byte at a time. -/
def bytewise (qp : IoQueue) (x : RxCopy) : Option RxCopy :=
  if x.ntogo ≤ 0 then some x
  else match x.fifo with
    | [] => none
    | w :: ws => some ({ x with fifo := ws }.scatter qp w 4)

/-- A round of the outer loop. The distance to the end is taken from `q_wrptr` to itself, so that a streak has no words. -/
def round (qp : IoQueue) (x : RxCopy) : Option RxCopy :=
  let nw := x.ntogo / 4
  if 0 < nw then
    let nw2end := (x.q.qWrptr qp - x.q.qWrptr qp) / 4
    let streak := if nw ≤ nw2end then nw else nw2end
    ({ x with ntogo := x.ntogo - streak * 4 }.otgDoPop qp streak).bind fun x =>
      if x.q.qSize qp ≤ x.q.qWrptr qp then some { x with q.qWrptr := update x.q.qWrptr qp 0 } else x.bytewise qp
  else x.bytewise qp

/-- `while (ntogo > 0)`, in at most so many rounds. -/
def loop (qp : IoQueue) : Nat → RxCopy → Option RxCopy
  | 0, x => if x.ntogo = 0 then some x else none
  | fuel + 1, x => if x.ntogo = 0 then some x else (x.round qp).bind (loop qp fuel)

end RxCopy

/-- The words left in the FIFO, and the state after. -/
def otgFifoReadToQueue (k n fuel : Nat) (fifo : List UInt32) (s : Sys) : Option (List UInt32 × Sys) := do
  let x ← RxCopy.loop (.iq k) fuel ⟨fifo, n, s.toIoQueues⟩
  return (x.fifo, updateQueue (.iq k) n { s with toIoQueues := x.q })

/-! ### The loop -/

/-- The next `m` bytes of the FIFO have been stored. -/
structure Drained (qp : IoQueue) (m : Nat) (x x' : RxCopy) : Prop where
  le : m ≤ x.ntogo
  ntogo : x'.ntogo = x.ntogo - m
  words : ∃ ws, x.fifo = ws ++ x'.fifo ∧ ws.length = (m + 3) / 4 ∧ x'.q = ((wordsBytes ws).take m).foldl (storeByte qp) x.q

section

variable {qp : IoQueue} {x x' x'' : RxCopy} {o : IoQueues} {m m' : Nat}

theorem Drained.refl (x : RxCopy) : Drained qp 0 x x := ⟨Nat.zero_le _, rfl, [], rfl, rfl, rfl⟩

/-- Only the last word is incomplete. -/
theorem Drained.trans (first : Drained qp m x x') (then_ : Drained qp m' x' x'') (whole : 4 ∣ m ∨ m' = 0) :
    Drained qp (m + m') x x'' := by
  obtain ⟨le, ntogo, ws, fifo, length, q⟩ := first
  obtain ⟨le', ntogo', ws', fifo', length', q'⟩ := then_
  refine ⟨by omega, by omega, ws ++ ws', ?_, ?_, ?_⟩
  · rw [fifo, fifo', List.append_assoc]
  · rw [List.length_append]
    omega
  · rw [wordsBytes_take_add length whole, List.foldl_append, ← q, ← q']

@[simp] theorem storeByte_wrptr_lt (lt : o.qWrptr qp < o.qSize qp) (b : UInt8) :
    (storeByte qp o b).qWrptr qp < (storeByte qp o b).qSize qp := by
  have next : (storeByte qp o b).qWrptr qp = ringNext (o.qSize qp) (o.qWrptr qp) := update_self ..
  rw [next, ringNext_eq lt]
  exact Nat.mod_lt _ (Nat.zero_lt_of_lt lt)

theorem stores_wrptr_lt (bs : List UInt8) {o : IoQueues} (lt : o.qWrptr qp < o.qSize qp) :
    (bs.foldl (storeByte qp) o).qWrptr qp < (bs.foldl (storeByte qp) o).qSize qp := by
  induction bs generalizing o with
  | nil => exact lt
  | cons b bs ih => exact ih (storeByte_wrptr_lt lt b)

/-- The bytes of a word, or of what is left of it. -/
theorem scatter_eq (w : UInt32) (fifo : List UInt32) : ∀ (r togo : Nat) (o : IoQueues), r ≤ 4 →
    RxCopy.scatter qp w r ⟨fifo, togo, o⟩ =
      ⟨fifo, togo - min r togo, (((leBytes w).drop (4 - r)).take togo).foldl (storeByte qp) o⟩
  | 0, togo, o, _ => by simp [RxCopy.scatter, leBytes]
  | r + 1, 0, o, _ => by simp [RxCopy.scatter]
  | r + 1, togo + 1, o, le => by
    have byte : (leBytes w).drop (4 - (r + 1)) = wordByte w (3 - r) :: (leBytes w).drop (4 - r) := by
      obtain rfl | rfl | rfl | rfl : r = 0 ∨ r = 1 ∨ r = 2 ∨ r = 3 := by omega
      all_goals rfl
    have count : togo + 1 - min (r + 1) (togo + 1) = togo - min r togo := by omega
    rw [RxCopy.scatter, if_neg (Nat.succ_ne_zero togo), byte, List.take_succ_cons, List.foldl_cons, count]
    exact scatter_eq w fifo r togo _ (by omega)

theorem bytewise_drained (words : x.ntogo ≠ 0 → x.fifo ≠ []) :
    ∃ x', x.bytewise qp = some x' ∧ Drained qp (min 4 x.ntogo) x x' := by
  rw [RxCopy.bytewise]
  split
  next done =>
    rw [Nat.le_zero.1 done, Nat.min_zero]
    exact ⟨x, rfl, .refl x⟩
  next some_ =>
    split
    next empty =>
      exact absurd empty (words (by omega))
    next w ws fifo =>
      rw [scatter_eq w ws 4 x.ntogo x.q (le_refl 4)]
      refine ⟨_, rfl, Nat.min_le_right .., rfl, [w], fifo, by rw [List.length_singleton]; omega, ?_⟩
      have bytes : (wordsBytes [w]).take (min 4 x.ntogo) = (leBytes w).take x.ntogo := by
        rw [Nat.min_comm, ← List.take_take]
        rfl
      rw [bytes]
      rfl

/-- A round stores whole words, or all that is left. -/
theorem round_drained (lt : x.q.qWrptr qp < x.q.qSize qp) (words : (x.ntogo + 3) / 4 ≤ x.fifo.length) :
    ∃ x', x.round qp = some x' ∧ Drained qp (min 4 x.ntogo) x x' := by
  have bytewise : ∃ x', x.bytewise qp = some x' ∧ Drained qp (min 4 x.ntogo) x x' := bytewise_drained fun some_ empty => by
    rw [empty, List.length_nil] at words
    omega
  rw [RxCopy.round]
  dsimp only
  split
  · have streak : (if x.ntogo / 4 ≤ (x.q.qWrptr qp - x.q.qWrptr qp) / 4 then x.ntogo / 4
        else (x.q.qWrptr qp - x.q.qWrptr qp) / 4) = 0 := by
      split <;> omega
    rwa [streak, RxCopy.otgDoPop, Option.bind_some, if_neg (by simpa using lt)]
  · exact bytewise

/-- The loop ends, with all bytes stored. -/
theorem loop_drained : ∀ (fuel : Nat) {x : RxCopy}, x.q.qWrptr qp < x.q.qSize qp → (x.ntogo + 3) / 4 ≤ x.fifo.length →
    x.ntogo ≤ fuel → ∃ x', x.loop qp fuel = some x' ∧ Drained qp x.ntogo x x' := by
  intro fuel
  induction fuel with
  | zero =>
    intro x _ _ le
    rw [RxCopy.loop, if_pos (Nat.le_zero.1 le), Nat.le_zero.1 le]
    exact ⟨x, rfl, .refl x⟩
  | succ fuel ih =>
    intro x lt words le
    rw [RxCopy.loop]
    split
    next done =>
      rw [done]
      exact ⟨x, rfl, .refl x⟩
    next some_ =>
      obtain ⟨y, taken, first⟩ := round_drained lt words
      obtain ⟨-, ntogo, ws, fifo, length, q⟩ := id first
      rw [fifo, List.length_append] at words
      obtain ⟨x', ended, rest⟩ := ih (by rw [q]; exact stores_wrptr_lt _ lt) (by omega) (by omega : y.ntogo ≤ fuel)
      have all := first.trans rest (by omega)
      rw [show min 4 x.ntogo + y.ntogo = x.ntogo by omega] at all
      exact ⟨x', by rw [taken, Option.bind_some, ended], all⟩

/-! ### The queue after it -/

/-- A store is at the write pointer, so it is inside. -/
theorem stores_outside (bs : List UInt8) {o : IoQueues} (lt : o.qWrptr qp < o.qSize qp) {p : Nat} (le : o.qSize qp ≤ p) :
    (bs.foldl (storeByte qp) o).qBuffer qp p = o.qBuffer qp p := by
  induction bs generalizing o with
  | nil => rfl
  | cons b bs ih =>
    have kept : (storeByte qp o b).qBuffer qp p = o.qBuffer qp p := by
      simp only [storeByte, update_self]
      exact update_of_ne (by omega) ..
    exact (ih (storeByte_wrptr_lt lt b) le).trans kept

end

/-- Stores do not touch the counter, nor look at it. -/
theorem stores_counter {qp : IoQueue} (bs : List UInt8) (o : IoQueues) :
    (bs.foldl (storeByte qp) o).qCounter = o.qCounter := by
  induction bs generalizing o with
  | nil => rfl
  | cons b bs ih => exact ih (storeByte qp o b)

theorem stores_counted {qp : IoQueue} {c : Nat} (bs : List UInt8) (o : IoQueues) :
    bs.foldl (storeByte qp) (counted qp c o) = counted qp c (bs.foldl (storeByte qp) o) := by
  induction bs generalizing o with
  | nil => rfl
  | cons b bs ih => exact ih (storeByte qp o b)

/-- Storing, then counting, is putting one byte after the other. -/
theorem put_foldl (bs : List UInt8) {o : IoQueues} : bs.foldl (fun o b => o.put (.iq k) b) o =
      counted (.iq k) (o.qCounter (.iq k) + bs.length) (bs.foldl (storeByte (.iq k)) o) := by
  induction bs generalizing o with
  | nil => simp [counted]
  | cons b bs ih =>
    have counter : (o.put (.iq k) b).qCounter (.iq k) = o.qCounter (.iq k) + 1 := update_self ..
    have one : o.put (.iq k) b = counted (.iq k) (o.qCounter (.iq k) + 1) (storeByte (.iq k) o b) := rfl
    rw [List.foldl_cons, ih, counter, one, stores_counted, List.length_cons, add_comm bs.length, ← add_assoc]
    simp [counted]

/-- While there is room, each call of `chIQPutI` stores a byte. -/
theorem chIQPutI_foldl (bs : List UInt8) {s : Sys} {l : List UInt8} (holds : QHolds size (.iq k) l s.toIoQueues)
    (room : l.length + bs.length ≤ size) :
    (bs.foldl (fun s b => s.chIQPutI k b) s).toIoQueues = bs.foldl (fun o b => o.put (.iq k) b) s.toIoQueues ∧
      QHolds size (.iq k) (l ++ bs) (bs.foldl (fun s b => s.chIQPutI k b) s).toIoQueues := by
  induction bs generalizing s l with
  | nil => exact ⟨rfl, by simpa using holds⟩
  | cons b bs ih =>
    rw [List.length_cons] at room
    have space : s.isFull (.iq k) = false := by
      rw [Bool.eq_false_iff, Ne, holds.isFull_iff]
      omega
    have notFull : ¬ s.chIQIsFullI k = true := Bool.eq_false_iff.1 space
    have stored : (s.chIQPutI k b).toIoQueues = s.put (.iq k) b := by
      rw [Sys.chIQPutI, if_neg notFull]
      exact qReadyFirst_toIoQueues ..
    have holds' := holds.put space b
    rw [← stored] at holds'
    obtain ⟨same, rest⟩ := ih holds' (by rw [List.length_append, List.length_singleton]; omega)
    rw [List.append_assoc, List.singleton_append] at rest
    rw [List.foldl_cons, List.foldl_cons, ← stored]
    exact ⟨same, rest⟩

/-- The bytes `bs` from the FIFO have been stored in the queue of `size` cells that held `l`. -/
structure FifoDrained (size k : Nat) (l bs : List UInt8) (s s' : Sys) : Prop where
  queue : s'.toIoQueues = (bs.foldl (fun s b => s.chIQPutI k b) s).toIoQueues
  content : QHolds size (.iq k) (l ++ bs) s'.toIoQueues
  inside : ∀ p, size ≤ p → s'.qBuffer (.iq k) p = s.qBuffer (.iq k) p
  woken : WakesAll (s.queue (.qWaiting (.iq k))) rdyOk s.toCore s'.toCore
  nobody : s'.queue (.qWaiting (.iq k)) = []
  core : CoreOk s'.toCore

/-- Wherever the room lies in the ring; `ws` are the words of the packet, and `rest` is behind them in the FIFO. -/
theorem packet_drained {fuel : Nat} {ws rest : List UInt32} (ok : CoreOk s.toCore) (outside : Outside s)
    (holds : QHolds size (.iq k) l s.toIoQueues) (room : l.length + n ≤ size) (words : ws.length = (n + 3) / 4)
    (enough : n ≤ fuel) : ∃ s', otgFifoReadToQueue k n fuel (ws ++ rest) s = some (rest, s') ∧
      FifoDrained size k l ((wordsBytes ws).take n) s s' := by
  have lt : s.qWrptr (.iq k) < s.qSize (.iq k) := holds.size ▸ holds.ring.wr_lt
  obtain ⟨x, ended, -, -, ws', fifo, length, q⟩ := @loop_drained (.iq k) fuel ⟨ws ++ rest, n, s.toIoQueues⟩ lt
    (by simp [words]) enough
  obtain ⟨rfl, left⟩ := List.append_inj fifo (words.trans length.symm)
  have bytes : ((wordsBytes ws).take n).length = n := by
    rw [List.length_take, wordsBytes_length]
    omega
  obtain ⟨same, content⟩ := chIQPutI_foldl ((wordsBytes ws).take n) holds (by rwa [bytes])
  have queue : (updateQueue (.iq k) n { s with toIoQueues := x.q }).toIoQueues =
      (((wordsBytes ws).take n).foldl (fun s b => s.chIQPutI k b) s).toIoQueues := by
    have counter : x.q.qCounter = s.qCounter := by rw [q, stores_counter]
    rw [updateQueue_toIoQueues, same, put_foldl, bytes, ← q]
    exact congrArg (fun c => counted (.iq k) (c (.iq k) + n) x.q) counter
  have ok' : CoreOk ({ s with toIoQueues := x.q } : Sys).toCore := ok
  have outside' : Outside { s with toIoQueues := x.q } := ⟨outside.thread, outside.unlocked, outside.notIdle⟩
  obtain ⟨woken, nobody⟩ := updateQueue_wakes ok' outside' (.iq k) n
  refine ⟨updateQueue (.iq k) n { s with toIoQueues := x.q }, ?_, queue, queue ▸ content, fun p le => ?_, woken, nobody,
    updateQueue_coreOk ok' outside' (.iq k) n⟩
  · rw [otgFifoReadToQueue, ended, left]
    rfl
  · rw [updateQueue_toIoQueues, q]
    exact stores_outside _ lt (holds.size.trans_le le)

/-- Three bytes have gone through a ring of four cells, and a thread waits for more. -/
def waitingRun : List Label :=
  [.isrEnter, .icall (.iqPutI 0 1), .icall (.iqPutI 0 2), .icall (.iqPutI 0 3), .isrExit, .call (.thdCreate 70 .static),
    .run, .call (.iqReadTimeout 0 4 timeInfinite), .run, .run, .run, .run, .run, .run, .run, .run, .run, .run, .run]

theorem packet_drained_wrapped : ∃ s s', (kernelLts smallConfig).run waitingRun (chSysInit smallConfig) = some s ∧
    s.qWrptr (.iq 0) = 3 ∧ s.queue (.qWaiting (.iq 0)) = [2] ∧
    otgFifoReadToQueue 0 3 3 [0x060504, 0x9] s = some ([0x9], s') ∧ FifoDrained 4 0 [] [4, 5, 6] s s' := by
  have reached := (Lts.Trace.of_trace (M := kernelLts smallConfig) waitingRun .init rfl).reach
  have ok : KernelOk False _ := reach_kernelOk (fun _ _ _ => nofun) reached
  obtain ⟨s', drained⟩ : ∃ s', otgFifoReadToQueue 0 3 3 ([0x060504] ++ [0x9]) _ = some ([0x9], s') ∧
      FifoDrained 4 0 [] ((wordsBytes [0x060504]).take 3) _ s' := packet_drained ok.core ⟨rfl, rfl, by decide⟩
    ⟨rfl, rfl, ⟨by decide, by decide, rfl, nofun⟩, rfl⟩ (by decide) rfl (le_refl 3)
  exact ⟨_, s', rfl, rfl, rfl, drained⟩

end ChibiOS.Usb
