import ChibiOS.Lib.Lts
import ChibiOS.Lib.Seg
import ChibiOS.Kernel.Heap

/-!
# Heap integrity

The buffer of a heap is cut into tiles, one for each block with its header, free
or live. `HeapInv` ties such a tiling to the memory: the headers hold the tiles'
sizes, the list from `h_free` passes the free tiles in address order, and no two
free tiles are neighbours.

`chHeapAlloc` turns one free tile into a live one, or into a live one and a free
one. `chHeapFree` frees a tile and then merges it with its neighbours: each merge
is the one edit of `mergeNext`, applied to the block and to the block before it.
-/

namespace ChibiOS.Kernel

open Lib HeapMem
open List (mem_cons mem_append mem_map append_of_mem isChain_cons cons_append not_mem_nil)

/-! ## Tilings -/

/-- A block: where its header is, the size its header holds, and the size asked
for if it is live. -/
structure Tile where
  addr : Nat
  size : Nat
  use : Option Nat
deriving DecidableEq

namespace Tile

/-- The address after the block. -/
def limit (t : Tile) : Nat := t.addr + sizeofHeader + t.size

end Tile

/-- The tiles fill the addresses from `a` to `e`, one after the other. -/
def Tiles (a : Nat) : List Tile → Nat → Prop
  | [], e => a = e
  | t :: ts, e => t.addr = a ∧ Tiles t.limit ts e

variable {a e : Nat} {T U ts us : List Tile} {t : Tile}

theorem tiles_append : ∀ {a : Nat} (ts us : List Tile), Tiles a (ts ++ us) e ↔ ∃ m, Tiles a ts m ∧ Tiles m us e
  | a, [], us => by simp [Tiles]
  | a, t :: ts, us => by simp [Tiles, tiles_append ts us, and_assoc]

theorem Tiles.bounds : ∀ {ts : List Tile} {a : Nat}, Tiles a ts e → a ≤ e ∧ ∀ t ∈ ts, a ≤ t.addr ∧ t.limit ≤ e
  | [], _, tiled => ⟨le_of_eq tiled, by simp⟩
  | t :: ts, a, ⟨at_, rest⟩ => by
    obtain ⟨le, all⟩ := rest.bounds
    have : a ≤ t.limit := by simp only [Tile.limit]; omega
    refine ⟨by omega, fun u mem => ?_⟩
    rcases mem_cons.1 mem with rfl | mem
    · exact ⟨le_of_eq at_.symm, le⟩
    · have := all u mem
      omega

theorem Tiles.end_unique {e' : Nat} : ∀ {ts : List Tile} {a : Nat}, Tiles a ts e → Tiles a ts e' → e = e'
  | [], _, left, right => left.symm.trans right
  | _ :: _, _, left, right => left.2.end_unique right.2

/-- Around a tile: what comes before ends before it, what comes after starts
after it. -/
theorem Tiles.around (tiled : Tiles a (ts ++ t :: us) e) : Tiles a ts t.addr ∧ Tiles t.limit us e := by
  obtain ⟨m, before, rfl, after⟩ := (tiles_append ts (t :: us)).1 tiled
  exact ⟨before, after⟩

theorem Tiles.before (tiled : Tiles a (ts ++ t :: us) e) :
    ∀ u ∈ ts, a ≤ u.addr ∧ u.limit ≤ t.addr := tiled.around.1.bounds.2

theorem Tiles.after (tiled : Tiles a (ts ++ t :: us) e) :
    ∀ u ∈ us, t.limit ≤ u.addr ∧ u.limit ≤ e := tiled.around.2.bounds.2

theorem Tile.addr_lt_limit (t : Tile) : t.addr + sizeofHeader ≤ t.limit := by
  simp only [limit]; omega

theorem Tiles.sorted : ∀ {ts : List Tile} {a : Nat}, Tiles a ts e → ts.Pairwise fun t u => t.limit ≤ u.addr
  | [], _, _ => .nil
  | _ :: _, _, ⟨_, rest⟩ => .cons (fun u mem => (rest.bounds.2 u mem).1) rest.sorted

/-- The free tiles' addresses, in order. -/
def freeAddrs (ts : List Tile) : List Nat := (ts.filter fun t => t.use.isNone).map Tile.addr

@[simp] theorem freeAddrs_nil : freeAddrs [] = [] := rfl

@[simp] theorem freeAddrs_append (ts us : List Tile) : freeAddrs (ts ++ us) = freeAddrs ts ++ freeAddrs us := by
  simp [freeAddrs]

@[simp] theorem freeAddrs_cons_free (a n : Nat) (ts : List Tile) :
    freeAddrs (⟨a, n, none⟩ :: ts) = a :: freeAddrs ts := rfl

@[simp] theorem freeAddrs_cons_live (a n k : Nat) (ts : List Tile) :
    freeAddrs (⟨a, n, some k⟩ :: ts) = freeAddrs ts := rfl

theorem mem_freeAddrs : a ∈ freeAddrs ts ↔ ∃ n, ⟨a, n, none⟩ ∈ ts := by
  simp only [freeAddrs, mem_map, List.mem_filter, Option.isNone_iff_eq_none]
  constructor
  · rintro ⟨⟨a, n, _⟩, ⟨mem, rfl⟩, rfl⟩
    exact ⟨n, mem⟩
  · rintro ⟨n, mem⟩
    exact ⟨⟨a, n, none⟩, ⟨mem, rfl⟩, rfl⟩

/-- A split of the free list splits the tiling. -/
theorem freeAddrs_split {F G : List Nat} (split : freeAddrs ts = F ++ a :: G) :
    ∃ T n U, ts = T ++ ⟨a, n, none⟩ :: U ∧ freeAddrs T = F ∧ freeAddrs U = G := by
  obtain ⟨L, R, whole, rfl, right⟩ := List.map_eq_append_iff.1 split
  obtain ⟨t, R', rfl, rfl, rfl⟩ := List.map_eq_cons_iff.1 right
  obtain ⟨T, M, rfl, rfl, rest⟩ := List.filter_eq_append_iff.1 whole
  obtain ⟨T', U, rfl, none_free, free, rfl⟩ := List.filter_eq_cons_iff.1 rest
  obtain ⟨a, n, use⟩ := t
  obtain rfl : use = none := by simpa using free
  refine ⟨T ++ T', n, U, by simp, ?_, rfl⟩
  have nothing : freeAddrs T' = [] := by simpa [freeAddrs] using none_free
  rw [freeAddrs_append, nothing, List.append_nil]
  rfl

theorem Tiles.addr_inj (tiled : Tiles a ts e) {u : Tile} (left : t ∈ ts) (right : u ∈ ts)
    (same : t.addr = u.addr) : t = u := by
  obtain ⟨T, U, rfl⟩ := append_of_mem left
  have := t.addr_lt_limit
  have := u.addr_lt_limit
  rcases mem_append.1 right with mem | mem
  · have := tiled.before u mem
    simp only [sizeofHeader] at *; omega
  · rcases mem_cons.1 mem with rfl | mem
    · rfl
    · have := tiled.after u mem
      simp only [sizeofHeader] at *; omega

theorem Tiles.freeAddrs_sorted (tiled : Tiles a ts e) : (freeAddrs ts).Pairwise (· < ·) := by
  refine List.pairwise_map.2 ((tiled.sorted.filter _).imp fun {t u} before => ?_)
  have := t.addr_lt_limit
  simp only [sizeofHeader] at this
  omega

/-- The live tiles as handed out: the address after the header, and the size
asked for. -/
def liveBlocks (ts : List Tile) : List (Nat × Nat) :=
  ts.filterMap fun t => t.use.map fun n => (t.addr + sizeofHeader, n)

@[simp] theorem liveBlocks_nil : liveBlocks [] = [] := rfl

@[simp] theorem liveBlocks_append (ts us : List Tile) : liveBlocks (ts ++ us) = liveBlocks ts ++ liveBlocks us := by
  simp [liveBlocks]

@[simp] theorem liveBlocks_cons_free (a n : Nat) (ts : List Tile) :
    liveBlocks (⟨a, n, none⟩ :: ts) = liveBlocks ts := rfl

@[simp] theorem liveBlocks_cons_live (a n k : Nat) (ts : List Tile) :
    liveBlocks (⟨a, n, some k⟩ :: ts) = (a + sizeofHeader, k) :: liveBlocks ts := rfl

theorem mem_liveBlocks {p k : Nat} : (p, k) ∈ liveBlocks ts ↔ ∃ a n, ⟨a, n, some k⟩ ∈ ts ∧ p = a + sizeofHeader := by
  simp only [liveBlocks, List.mem_filterMap, Option.map_eq_some_iff, Prod.mk.injEq]
  constructor
  · rintro ⟨⟨a, n, _⟩, mem, _, rfl, rfl, rfl⟩
    exact ⟨a, n, mem, rfl⟩
  · rintro ⟨a, n, mem, rfl⟩
    exact ⟨_, mem, k, rfl, rfl, rfl⟩

/-- No two neighbours are both free. -/
def Apart (ts : List Tile) : Prop := ts.IsChain fun t u => ¬ (t.use = none ∧ u.use = none)

theorem apart_append (left : Apart T) (right : Apart U)
    (seam : ∀ t ∈ T.getLast?, ∀ u ∈ U.head?, ¬ (t.use = none ∧ u.use = none)) : Apart (T ++ U) :=
  List.isChain_append.2 ⟨left, right, seam⟩

/-- A live tile separates what is around it. -/
theorem apart_live (left : Apart T) (right : Apart U) (live : t.use ≠ none) : Apart (T ++ t :: U) := by
  refine apart_append left (isChain_cons.2 ⟨fun u _ bad => live bad.1, right⟩) fun _ _ u head bad => ?_
  obtain rfl : t = u := by simpa using head
  exact live bad.2

theorem use_of_freeAddrs_nil (live : freeAddrs T = []) (member : t ∈ T) : t.use ≠ none := by
  intro free
  obtain ⟨a, n, _⟩ := t
  cases free
  have : a ∈ freeAddrs T := mem_freeAddrs.2 ⟨n, member⟩
  rw [live] at this
  cases this

/-- So do tiles that are all live. -/
theorem apart_behind_live (left : Apart T) (live : freeAddrs T = []) (right : Apart U) : Apart (T ++ U) :=
  apart_append left right fun _ last _ _ bad =>
    use_of_freeAddrs_nil live (List.mem_of_getLast? (Option.mem_def.1 last)) bad.1

/-- Only the uses matter. -/
theorem apart_congr {t' : Tile} (apart : Apart (T ++ t :: U)) (same : t'.use = t.use) : Apart (T ++ t' :: U) := by
  obtain ⟨left, right, seam⟩ := List.isChain_append.1 apart
  obtain ⟨front, right⟩ := isChain_cons.1 right
  refine apart_append left (isChain_cons.2 ⟨fun u head => ?_, right⟩) fun x last u head => ?_
  · rw [same]
    exact front u head
  · obtain rfl : t' = u := by simpa using head
    rw [same]
    exact seam x last t (by simp)

/-! ## Memory -/

section Memory

variable (mem : HeapMem) (p v a : Nat)

@[simp] theorem HeapMem.setU_u : (mem.setU p v a).u = if a = p then v else (mem a).u := by
  simp only [setU, Function.update_apply]
  split <;> rfl

@[simp] theorem HeapMem.setU_size : (mem.setU p v a).size = (mem a).size := by
  simp only [setU, Function.update_apply]
  split <;> simp [*]

@[simp] theorem HeapMem.setSize_u : (mem.setSize p v a).u = (mem a).u := by
  simp only [setSize, Function.update_apply]
  split <;> simp [*]

@[simp] theorem HeapMem.setSize_size : (mem.setSize p v a).size = if a = p then v else (mem a).size := by
  simp only [setSize, Function.update_apply]
  split <;> rfl

/-- `u.next` as a pointer. -/
def HeapMem.next : Option Nat := if (mem a).u = 0 then none else some (mem a).u

variable {mem a} in
theorem HeapMem.next_eq_some {b : Nat} : mem.next a = some b ↔ b ≠ 0 ∧ (mem a).u = b := by
  simp only [next]
  constructor
  · split
    · intro bad; cases bad
    · intro same; cases same; exact ⟨‹_›, rfl⟩
  · rintro ⟨nonnull, rfl⟩
    rw [if_neg nonnull]

variable {mem a} in
theorem HeapMem.next_eq_none : mem.next a = none ↔ (mem a).u = 0 := by simp [next]

variable {a} in
theorem wordAdd_header (fits : a + 8 < 2 ^ 32) : wordAdd a sizeofHeader = a + 8 := wordAdd_of_lt fits

variable {mem p} in
/-- `LIMIT` of a block that lies in memory. -/
theorem HeapMem.limit_of_lt (inMemory : p + 8 + (mem p).size < 2 ^ 32) : mem.limit p = p + 8 + (mem p).size := by
  rw [limit, wordAdd_header (by omega), wordAdd_of_lt inMemory]

end Memory

/-- What `chHeapInit` is given: a descriptor, an aligned buffer outside it with
room for a header, and memory as it happens to be. -/
structure HeapConf where
  heapp : Nat
  buf : Nat
  size : Nat
  mem : HeapMem
  core : MemCore
  alignedBuf : memIsAligned buf = true
  alignedSize : memIsAligned size = true
  room : sizeofHeader ≤ size
  nonnull : buf ≠ 0
  inMemory : buf + size < 2 ^ 32
  descriptor : heapp + sizeofMemoryHeap < 2 ^ 32
  disjoint : heapp + sizeofMemoryHeap ≤ buf ∨ buf + size ≤ heapp

/-- The memory holds the blocks `ts`. -/
structure HeapRep (c : HeapConf) (mem : HeapMem) (ts : List Tile) : Prop where
  tiled : Tiles c.buf ts (c.buf + c.size)
  aligned : ∀ t ∈ ts, t.size % 8 = 0
  sizes : ∀ t ∈ ts, (mem t.addr).size = t.size
  owned : ∀ t ∈ ts, t.use ≠ none → (mem t.addr).u = c.heapp
  header : (mem (hFree c.heapp)).size = 0
  chain : Seg mem.next (some (hFree c.heapp)) (hFree c.heapp :: freeAddrs ts) none

section Rep

variable {c : HeapConf} {mem : HeapMem} {ts : List Tile}
variable {T U : List Tile} {a hp k q s : Nat} {t : Tile} {G : List Nat}

theorem HeapConf.hFree_outside (c : HeapConf) : hFree c.heapp < c.buf ∨ c.buf + c.size ≤ hFree c.heapp := by
  have := c.disjoint
  simp only [hFree, sizeofMemoryHeap] at *
  omega

theorem HeapRep.in_buffer (rep : HeapRep c mem ts) (mem : t ∈ ts) :
    c.buf ≤ t.addr ∧ t.limit ≤ c.buf + c.size := rep.tiled.bounds.2 t mem

/-- The list header and the free blocks are distinct addresses. -/
theorem HeapRep.nodup (rep : HeapRep c mem ts) : (hFree c.heapp :: freeAddrs ts).Nodup := by
  refine List.nodup_cons.2 ⟨fun bad => ?_, rep.tiled.freeAddrs_sorted.imp fun lt => ne_of_lt lt⟩
  obtain ⟨n, member⟩ := mem_freeAddrs.1 bad
  have := rep.in_buffer member
  have := c.hFree_outside
  simp only [Tile.limit, sizeofHeader] at *
  omega

/-- Some block is linked in front of the blocks behind `T`. -/
theorem exists_pred (head : Nat) (T : List Tile) : ∃ G q, head :: freeAddrs T = G ++ [q] := by
  rcases List.eq_nil_or_concat (head :: freeAddrs T) with empty | ⟨G, q, same⟩
  · cases empty
  · exact ⟨G, q, by simpa using same⟩

theorem mem_around {α : Type} {x : α} {A B new : List α} (mem : x ∈ A ++ (new ++ B)) : x ∈ new ∨ x ∈ A ++ B := by
  simp only [mem_append] at mem ⊢
  tauto

theorem mem_of_around {α : Type} {x : α} {A B : List α} (old : List α) (mem : x ∈ A ++ B) : x ∈ A ++ (old ++ B) := by
  simp only [mem_append] at mem ⊢
  tauto

/-- **The edit rule.** The blocks `old` between `a` and `e` give way to `new`.
Outside this range only the link word of the free block before it (or of the
list header) may change. -/
theorem HeapRep.splice {mem' : HeapMem} (old new : List Tile) {e : Nat}
    (rep : HeapRep c mem (T ++ (old ++ U))) (oldTiles : Tiles a old e) (newTiles : Tiles a new e)
    (nonempty : a < e) (pred : hFree c.heapp :: freeAddrs T = G ++ [q])
    (sameSize : ∀ x, x < a ∨ e ≤ x → (mem' x).size = (mem x).size)
    (sameLink : ∀ x, x < a ∨ e ≤ x → x ≠ q → (mem' x).u = (mem x).u) (aligned : ∀ t ∈ new, t.size % 8 = 0)
    (sizes : ∀ t ∈ new, (mem' t.addr).size = t.size)
    (owned : ∀ t ∈ new, t.use ≠ none → (mem' t.addr).u = c.heapp)
    (relink : ∀ m, Seg mem.next (mem.next q) (freeAddrs old) m → Seg mem'.next (mem'.next q) (freeAddrs new) m) :
    HeapRep c mem' (T ++ (new ++ U)) := by
  obtain ⟨m, before, rest⟩ := (tiles_append T _).1 rep.tiled
  obtain ⟨m', middle, after⟩ := (tiles_append old U).1 rest
  obtain ⟨rfl, rfl⟩ : m = a ∧ m' = e := by
    cases old with
    | nil => exact absurd oldTiles nonempty.ne
    | cons t old => exact ⟨middle.1.symm.trans oldTiles.1, middle.2.end_unique oldTiles.2⟩
  have inT := before.bounds.2
  have inU := after.bounds.2
  have range : c.buf ≤ m ∧ m' ≤ c.buf + c.size := ⟨before.bounds.1, after.bounds.1⟩
  have outside := c.hFree_outside
  have short : ∀ t : Tile, t.addr < t.limit := fun t => by simp only [Tile.limit, sizeofHeader]; omega
  have out : ∀ t ∈ T ++ U, t.addr < m ∨ m' ≤ t.addr := by
    intro t mem
    rcases mem_append.1 mem with mem | mem
    · exact .inl ((short t).trans_le (inT t mem).2)
    · exact .inr (inU t mem).1
  have kept : ∀ t ∈ T ++ (new ++ U), t ∈ new ∨ t ∈ T ++ (old ++ U) ∧ (t.addr < m ∨ m' ≤ t.addr) := fun t mem =>
    (mem_around mem).imp_right fun mem => ⟨mem_of_around old mem, out t mem⟩
  refine ⟨?_, ?_, ?_, ?_, ?_, ?_⟩
  · exact (tiles_append T _).2 ⟨m, before, (tiles_append new U).2 ⟨m', newTiles, after⟩⟩
  · intro t mem
    rcases kept t mem with mem | ⟨mem, -⟩
    · exact aligned t mem
    · exact rep.aligned t mem
  · intro t mem
    rcases kept t mem with mem | ⟨mem, out⟩
    · exact sizes t mem
    · rw [sameSize _ out, rep.sizes t mem]
  · -- `q` is a free block or the list header, so no live block's word changes
    have notPred : ∀ t ∈ T ++ (old ++ U), t.use ≠ none → t.addr ≠ q := by
      intro t mem live same
      have qmem : q ∈ hFree c.heapp :: freeAddrs T := by rw [pred]; simp
      rcases mem_cons.1 qmem with rfl | qmem
      · have := rep.in_buffer mem
        have := short t
        omega
      · obtain ⟨n, qmem⟩ := mem_freeAddrs.1 qmem
        have := rep.tiled.addr_inj mem (by simp [qmem] : (⟨q, n, none⟩ : Tile) ∈ _) same
        exact live (by rw [this])
    intro t mem live
    rcases kept t mem with mem | ⟨mem, out⟩
    · exact owned t mem live
    · rw [sameLink _ out (notPred t mem live), rep.owned t mem live]
  · rw [sameSize _ (by omega), rep.header]
  · have chain := rep.chain
    have nodup := rep.nodup
    rw [freeAddrs_append, freeAddrs_append] at chain nodup ⊢
    refine chain.relink nodup pred (fun x mem other => ?_) relink
    rw [next, next, sameLink x ?_ other]
    rcases mem_cons.1 mem with rfl | mem
    · omega
    · rw [← freeAddrs_append] at mem
      obtain ⟨n, mem⟩ := mem_freeAddrs.1 mem
      exact out _ mem

/-- `LIMIT` of a block is its end. -/
theorem HeapRep.limit_eq (rep : HeapRep c mem ts) (member : t ∈ ts) : mem.limit t.addr = t.limit := by
  have bound := rep.in_buffer member
  have := c.inMemory
  have size := rep.sizes t member
  simp only [Tile.limit, sizeofHeader] at bound ⊢
  rw [limit_of_lt (by omega), size]

/-- From a free block the list goes on to the free blocks behind it. -/
theorem HeapRep.seg_behind (rep : HeapRep c mem (T ++ ⟨a, s, none⟩ :: U)) :
    Seg mem.next (mem.next a) (freeAddrs U) none := by
  have chain := rep.chain
  rw [freeAddrs_append, ← cons_append] at chain
  obtain ⟨m, -, -, behind⟩ := (seg_append _ _).1 chain
  exact behind

theorem HeapConf.buf_pos (c : HeapConf) : 0 < c.buf := Nat.pos_of_ne_zero c.nonnull

/-- The list header and the free blocks before a tile are not inside it. -/
theorem HeapRep.pred_outside (rep : HeapRep c mem (T ++ t :: U)) {x : Nat}
    (member : x ∈ hFree c.heapp :: freeAddrs T) : x < t.addr ∨ t.limit ≤ x := by
  have bounds := rep.in_buffer (t := t) (by simp)
  have := c.hFree_outside
  rcases mem_cons.1 member with rfl | member
  · omega
  · obtain ⟨n, member⟩ := mem_freeAddrs.1 member
    have := rep.tiled.before _ member
    simp only [Tile.limit, sizeofHeader] at *
    omega

/-! ## Allocation -/

/-- What becomes of a free tile of size `s` when `k` bytes are taken from it for
a request of `n`. -/
def takenTiles (hp s k n : Nat) : List Tile :=
  if s < k + sizeofHeader then [⟨hp, s, some n⟩]
  else [⟨hp, k, some n⟩, ⟨hp + sizeofHeader + k, s - sizeofHeader - k, none⟩]

theorem takeBlock_whole {heapp : Nat} (small : (mem hp).size < k + 8) (fits : k + 8 < 2 ^ 32) :
    takeBlock heapp k q hp mem = (mem.setU q (mem hp).u).setU hp heapp := by
  have sum : wordAdd k sizeofHeader = k + 8 := wordAdd_of_lt fits
  simp only [takeBlock, sum, if_pos small]

theorem takeBlock_split {heapp : Nat} (large : k + 8 ≤ (mem hp).size) (inMemory : hp + 8 + (mem hp).size < 2 ^ 32) :
    takeBlock heapp k q hp mem = ((((mem.setU (hp + 8 + k) (mem hp).u).setSize (hp + 8 + k) ((mem hp).size - 8 - k)).setU q
      (hp + 8 + k)).setSize hp k).setU hp heapp := by
  have sum : wordAdd k sizeofHeader = k + 8 := wordAdd_header (by omega)
  have fp : wordAdd (wordAdd hp sizeofHeader) k = hp + 8 + k := by
    rw [wordAdd_header (by omega), wordAdd_of_lt (by omega)]
  have rest : wordSub (wordSub (mem hp).size sizeofHeader) k = (mem hp).size - 8 - k := by
    have first : wordSub (mem hp).size sizeofHeader = (mem hp).size - 8 :=
      wordSub_of_le (by simp only [sizeofHeader]; omega) (by omega)
    rw [first, wordSub_of_le (by omega) (by omega)]
  simp [takeBlock, sum, not_lt.2 large, fp, rest]

theorem HeapRep.take (n : Nat) (rep : HeapRep c mem (T ++ ⟨hp, s, none⟩ :: U))
    (pred : hFree c.heapp :: freeAddrs T = G ++ [q]) (aligned : k % 8 = 0) (fits : k ≤ s) :
    HeapRep c (takeBlock c.heapp k q hp mem) (T ++ (takenTiles hp s k n ++ U)) := by
  have member : (⟨hp, s, none⟩ : Tile) ∈ T ++ ⟨hp, s, none⟩ :: U := by simp
  have size := rep.sizes _ member
  have bounds := rep.in_buffer member
  have sAligned := rep.aligned _ member
  have inMemory := c.inMemory
  have outside := rep.pred_outside (x := q) (by rw [pred]; simp)
  simp only [Tile.limit, sizeofHeader] at size bounds sAligned outside
  have notHp : hp ≠ q := by omega
  have one : Tiles hp [⟨hp, s, none⟩] (hp + 8 + s) := ⟨rfl, rfl⟩
  by_cases whole : s < k + 8
  · -- the whole block
    rw [takeBlock_whole (by rw [size]; exact whole) (by omega), takenTiles, if_pos (by simpa [sizeofHeader] using whole)]
    refine rep.splice [_] _ one ⟨rfl, rfl⟩ (by omega) pred (by simp) ?_ ?_ ?_ ?_ ?_
    · intro x out other
      simp [other, show x ≠ hp by omega]
    · simpa using sAligned
    · simpa using size
    · simp
    · rintro m ⟨-, last⟩
      have last : mem.next hp = m := last
      simpa [Seg, next, notHp.symm] using last
  · -- split at `fp`
    rw [takeBlock_split (by rw [size]; omega) (by rw [size]; omega), size, takenTiles, if_neg (by simpa [sizeofHeader] using whole)]
    refine rep.splice [_] _ one ⟨rfl, rfl, ?_⟩ (by omega) pred ?_ ?_ ?_ ?_ ?_ ?_
    · simp only [Tiles, Tile.limit, sizeofHeader]; omega
    · intro x out
      simp [show x ≠ hp by omega, show x ≠ hp + 8 + k by omega]
    · intro x out other
      simp [other, show x ≠ hp by omega, show x ≠ hp + 8 + k by omega]
    · simp only [mem_cons, not_mem_nil, or_false, forall_eq_or_imp, forall_eq, sizeofHeader]
      omega
    · simp [sizeofHeader, show hp + 8 + k ≠ hp by omega]
    · simp
    · rintro m ⟨-, last⟩
      have apart : hp + 8 + k ≠ q ∧ hp + 8 + k ≠ hp := by omega
      have last : mem.next hp = m := last
      refine ⟨by simp [next, sizeofHeader, notHp.symm], ?_⟩
      simpa [Seg, next, sizeofHeader, apart] using last

/-- The search takes the first block of the list that is large enough. -/
theorem allocLoop_spec (heapp k : Nat) : ∀ (fuel q : Nat) (F : List Nat), F.length < fuel →
    Seg mem.next (some q) (q :: F) none →
    (∀ x ∈ F, (mem x).size < k) ∧ allocLoop heapp k fuel q mem = some (none, mem) ∨
    ∃ A hp B G q', F = A ++ hp :: B ∧ q :: A = G ++ [q'] ∧ (∀ x ∈ A, (mem x).size < k) ∧
      k ≤ (mem hp).size ∧ allocLoop heapp k fuel q mem = some (some hp, takeBlock heapp k q' hp mem)
  | 0, _, _, short, _ => by omega
  | fuel + 1, q, [], _, seg => by
    left
    have : (mem q).u = 0 := by simpa [Seg, next] using seg
    simp [allocLoop, this]
  | fuel + 1, q, hp :: F, short, ⟨_, seg⟩ => by
    obtain ⟨nonnull, link⟩ := next_eq_some.1 seg.1
    by_cases fits : k ≤ (mem hp).size
    · refine .inr ⟨[], hp, F, [], q, rfl, rfl, nofun, fits, ?_⟩
      simp [allocLoop, link, nonnull, fits]
    · have next : allocLoop heapp k (fuel + 1) q mem = allocLoop heapp k fuel hp mem := by
        conv_lhs => rw [allocLoop]
        simp [link, nonnull, fits]
      rw [next]
      rcases allocLoop_spec heapp k fuel hp F (by simpa using short) ⟨rfl, seg.2⟩ with
        ⟨small, done⟩ | ⟨A, hp', B, G, q', split, pred, small, large, done⟩
      · exact .inl ⟨List.forall_mem_cons.2 ⟨not_le.1 fits, small⟩, done⟩
      · exact .inr ⟨hp :: A, hp', B, q :: G, q', by rw [split]; rfl, by rw [pred]; rfl,
          List.forall_mem_cons.2 ⟨not_le.1 fits, small⟩, large, done⟩

/-! ## Freeing -/

/-- The merge that `chHeapFree` makes at the block and at the one before it: the
block at `p` swallows the next one of the list if it starts where `p` ends. -/
def HeapMem.mergeNext (mem : HeapMem) (p : Nat) : HeapMem :=
  if mem.limit p = (mem p).u then
    (mem.setSize p (wordAdd (mem p).size (wordAdd (mem (mem p).u).size sizeofHeader))).setU p (mem (mem p).u).u
  else mem

theorem insertBlock_eq (other : q ≠ hp) :
    insertBlock q hp mem = (((mem.setU hp (mem q).u).setU q hp).mergeNext hp).mergeNext q := by
  have still : ((((mem.setU hp (mem q).u).setU q hp).mergeNext hp) q).u = hp := by
    unfold mergeNext
    split <;> simp [other]
  conv_rhs => rw [mergeNext, still]
  simp only [insertBlock, mergeNext, setSize_u]
  rfl

/-- The tiles at `a` after the merge. -/
def mergedTiles (a s : Nat) : List Tile → List Tile
  | ⟨_, n, none⟩ :: U => ⟨a, s + sizeofHeader + n, none⟩ :: U
  | U => ⟨a, s, none⟩ :: U

theorem HeapRep.merge (rep : HeapRep c mem (T ++ ⟨a, s, none⟩ :: U)) :
    HeapRep c (mem.mergeNext a) (T ++ mergedTiles a s U) := by
  have size := rep.sizes ⟨a, s, none⟩ (by simp)
  have limit := rep.limit_eq (t := ⟨a, s, none⟩) (by simp)
  have link := rep.seg_behind
  have after := rep.tiled.after
  simp only [Tile.limit, sizeofHeader] at size limit after
  cases U with
  | nil =>
    have last : (mem a).u = 0 := next_eq_none.1 link
    have : mem.limit a ≠ (mem a).u := by omega
    rwa [mergeNext, if_neg this]
  | cons t U =>
    obtain ⟨b, n, use⟩ := t
    obtain rfl : b = a + 8 + s := rep.tiled.around.2.1
    cases use with
    | some k =>
      have : mem.limit a ≠ (mem a).u := by
        rw [limit]
        intro bad
        rcases free : freeAddrs U with _ | ⟨f, F⟩
        · rw [freeAddrs_cons_live, free] at link
          have := next_eq_none.1 link
          omega
        · rw [freeAddrs_cons_live, free] at link
          obtain ⟨-, link⟩ := next_eq_some.1 link.1
          obtain ⟨m, member⟩ := mem_freeAddrs.1 (free ▸ .head _ : f ∈ freeAddrs U)
          have split : T ++ [⟨a, s, none⟩] ++ ⟨a + 8 + s, n, some k⟩ :: U =
              T ++ ⟨a, s, none⟩ :: ⟨a + 8 + s, n, some k⟩ :: U := by simp
          have := (split ▸ rep.tiled).after _ member
          simp only [Tile.limit, sizeofHeader] at this
          omega
      rwa [mergeNext, if_neg this]
    | none =>
      obtain ⟨nonnull, next⟩ := next_eq_some.1 link.1
      have size₂ := rep.sizes ⟨a + 8 + s, n, none⟩ (by simp)
      have bound := rep.in_buffer (t := ⟨a + 8 + s, n, none⟩) (by simp)
      have inMemory := c.inMemory
      have aligned := rep.aligned ⟨a, s, none⟩ (by simp)
      have aligned₂ := rep.aligned ⟨a + 8 + s, n, none⟩ (by simp)
      simp only [Tile.limit, sizeofHeader] at size₂ bound aligned aligned₂
      have sum : wordAdd s (wordAdd n sizeofHeader) = s + 8 + n := by
        rw [wordAdd_of_lt (a := n), wordAdd_of_lt] <;> simp only [sizeofHeader] <;> omega
      have mem' : mem.mergeNext a = (mem.setSize a (s + 8 + n)).setU a (mem (a + 8 + s)).u := by
        rw [mergeNext, if_pos (limit.trans next.symm), next, size, size₂, sum]
      rw [mem', mergedTiles]
      obtain ⟨G, q, pred⟩ := exists_pred (hFree c.heapp) T
      have outside := rep.pred_outside (x := q) (by rw [pred]; simp)
      simp only [Tile.limit, sizeofHeader] at outside
      refine rep.splice [_, _] [_] (a := a) (e := a + 8 + (s + 8 + n)) ⟨rfl, rfl, ?_⟩
        ⟨rfl, rfl⟩ (by omega) pred ?_ ?_ ?_ ?_ ?_ ?_
      · simp only [Tiles, Tile.limit, sizeofHeader]; omega
      · intro x out
        simp [show x ≠ a by omega]
      · intro x out _
        simp [show x ≠ a by omega]
      · simp only [List.mem_singleton, forall_eq, sizeofHeader]; omega
      · simp [sizeofHeader]
      · simp
      · rintro m ⟨toA, -, last⟩
        have last : mem.next (a + 8 + s) = m := last
        refine ⟨?_, ?_⟩
        · simpa [HeapMem.next, show q ≠ a by omega] using toA
        · simpa [Seg, HeapMem.next] using last

/-- The list header swallows nothing: it ends inside the descriptor. -/
theorem HeapRep.merge_head (rep : HeapRep c mem ts) : mem.mergeNext (hFree c.heapp) = mem := by
  have disjoint := c.disjoint
  have descriptor := c.descriptor
  have link := rep.chain.2
  simp only [sizeofMemoryHeap] at disjoint descriptor
  have limit : mem.limit (hFree c.heapp) = c.heapp + 16 := by
    rw [limit, rep.header]
    simp only [wordAdd, sizeofHeader, hFree]; omega
  refine if_neg ?_
  rw [limit]
  rcases free : freeAddrs ts with _ | ⟨f, F⟩
  · rw [free] at link
    rw [next_eq_none.1 link]
    omega
  · rw [free] at link
    rw [(next_eq_some.1 link.1).2]
    obtain ⟨m, member⟩ := mem_freeAddrs.1 (free ▸ .head _ : f ∈ freeAddrs ts)
    have := rep.in_buffer member
    simp only [Tile.limit, sizeofHeader] at this
    omega

/-- The block `hp` enters the list behind `q`. -/
theorem HeapRep.link {n : Nat} (rep : HeapRep c mem (T ++ ⟨hp, s, some n⟩ :: U))
    (pred : hFree c.heapp :: freeAddrs T = G ++ [q]) :
    HeapRep c ((mem.setU hp (mem q).u).setU q hp) (T ++ ⟨hp, s, none⟩ :: U) := by
  have bound := rep.in_buffer (t := ⟨hp, s, some n⟩) (by simp)
  have outside := rep.pred_outside (x := q) (by rw [pred]; simp)
  have nonnull := c.buf_pos
  simp only [Tile.limit, sizeofHeader] at outside bound
  have other : hp ≠ q := by omega
  refine rep.splice [_] [_] (a := hp) (e := hp + 8 + s) ⟨rfl, rfl⟩ ⟨rfl, rfl⟩ (by omega) pred
    (by simp) ?_ ?_ ?_ (by simp) ?_
  · intro x out notPred
    simp [notPred, show x ≠ hp by omega]
  · simpa using rep.aligned ⟨hp, s, some n⟩ (by simp)
  · simpa using rep.sizes ⟨hp, s, some n⟩ (by simp)
  · intro m last
    have last : mem.next q = m := last
    refine ⟨by simp [next]; omega, ?_⟩
    simpa [Seg, next, other] using last

/-- The search stops behind the last block before `hp`. -/
theorem freeLoop_spec (head hp : Nat) {B : List Nat} (above : ∀ x ∈ B, hp < x) : ∀ (fuel q : Nat) (A : List Nat),
    (A ++ B).length < fuel → Seg mem.next (some q) (q :: (A ++ B)) none → (q = head ∨ q < hp) → (∀ x ∈ A, x < hp) →
    ∃ G q', q :: A = G ++ [q'] ∧ freeLoop head hp fuel q mem = some (insertBlock q' hp mem)
  | 0, _, _, short, _, _, _ => by omega
  | fuel + 1, q, [], _, seg, at_, _ => by
    refine ⟨[], q, rfl, ?_⟩
    cases B with
    | nil =>
      have last : (mem q).u = 0 := next_eq_none.1 seg.2
      simp [freeLoop, at_, last]
    | cons b B =>
      obtain ⟨-, link⟩ := next_eq_some.1 seg.2.1
      simp [freeLoop, at_, link, above b (by simp)]
  | fuel + 1, q, x :: A, short, ⟨_, seg⟩, at_, below => by
    obtain ⟨nonnull, link⟩ := next_eq_some.1 seg.1
    obtain ⟨before, below⟩ := List.forall_mem_cons.1 below
    have next : freeLoop head hp (fuel + 1) q mem = freeLoop head hp fuel x mem := by
      conv_lhs => rw [freeLoop]
      simp [link, nonnull, before.le]
    obtain ⟨G, q', pred, done⟩ := freeLoop_spec head hp above fuel x A (by simpa using short) ⟨rfl, seg.2⟩ (.inr before) below
    exact ⟨q :: G, q', by rw [pred]; rfl, next.trans done⟩

end Rep

/-! ## The running heap -/

/-- A heap, the memory, and the blocks handed out with the sizes asked for. -/
structure HeapSys where
  heap : MemoryHeap
  mem : HeapMem
  core : MemCore
  live : List (Nat × Nat)

/-- `chHeapAlloc`, `chHeapFree` of a live block, and the application storing
anything in a block that it holds. -/
inductive HeapLabel
  | alloc (size : Nat)
  | free (p : Nat)
  | write (p a : Nat) (h : HeapHeader)

/-- Steps that suffice for any search: a header takes its size from the buffer. -/
def HeapConf.fuel (c : HeapConf) : Nat := c.size / sizeofHeader + 1

def heapNext (c : HeapConf) : HeapLabel → HeapSys → Option HeapSys
  | .alloc n, s =>
    if n + memAlignMask < 2 ^ 32 ∧ memAlignNext n + sizeofHeader < 2 ^ 32 then
      (chHeapAlloc c.fuel s.heap n s.mem s.core).map fun (p, mem, core) =>
        { s with mem := mem, core := core, live := if p = 0 then s.live else (p, n) :: s.live }
    else none
  | .free p, s =>
    if p ∈ s.live.map Prod.fst then
      (chHeapFree c.fuel p s.mem).map fun mem =>
        { s with mem := mem, live := s.live.filter fun b => b.1 ≠ p }
    else none
  | .write p a h, s =>
    if p ∈ s.live.map Prod.fst ∧ p ≤ a ∧ a + sizeofHeader ≤ p + (s.mem (p - sizeofHeader)).size then
      some { s with mem := Function.update s.mem a h }
    else none

/-- A heap from `chHeapInit` on. -/
def heapLts (c : HeapConf) : Lts HeapSys HeapLabel where
  init :=
    let (heap, mem) := chHeapInit c.heapp c.buf c.size c.mem
    ⟨heap, mem, c.core, []⟩
  next := heapNext c

/-- The invariant of the running heap. -/
structure HeapInv (c : HeapConf) (s : HeapSys) (ts : List Tile) : Prop extends HeapRep c s.mem ts where
  heap : s.heap = ⟨c.heapp, none⟩
  apart : Apart ts
  live : ∀ b, b ∈ s.live ↔ b ∈ liveBlocks ts
  large : ∀ t ∈ ts, ∀ n, t.use = some n → n ≤ t.size

section Running

variable {c : HeapConf} {s s' : HeapSys} {ts : List Tile} {mem : HeapMem} {n : Nat} {U : List Tile}

theorem heapInv_init : HeapInv c (heapLts c).init [⟨c.buf, c.size - sizeofHeader, none⟩] := by
  have room := c.room
  have outside := c.hFree_outside
  have inMemory := c.inMemory
  have buf := memIsAligned_iff.1 c.alignedBuf
  have size := memIsAligned_iff.1 c.alignedSize
  have sub : wordSub c.size sizeofHeader = c.size - 8 := wordSub_of_le room (by omega)
  simp only [sizeofHeader] at room sub
  refine ⟨⟨⟨rfl, ?_⟩, ?_, ?_, by simp, ?_, rfl, ?_⟩, rfl, .singleton _, by simp [heapLts, chHeapInit], by simp⟩
  · simp only [Tiles, Tile.limit, sizeofHeader]; omega
  · simp only [List.mem_singleton, forall_eq, sizeofHeader]; omega
  · simp [heapLts, chHeapInit, sub, sizeofHeader]
  · simp [heapLts, chHeapInit, show hFree c.heapp ≠ c.buf by omega]
  · simp [heapLts, chHeapInit, next, Seg, show hFree c.heapp ≠ c.buf by omega, c.nonnull]

theorem Tiles.length_le {e : Nat} : ∀ {ts : List Tile} {a : Nat}, Tiles a ts e → a + 8 * ts.length ≤ e
  | [], _, tiled => le_of_eq tiled
  | t :: ts, a, ⟨at_, rest⟩ => by
    have := rest.length_le
    simp only [Tile.limit, sizeofHeader] at this
    simp only [List.length_cons]
    omega

theorem HeapRep.fuel_enough (rep : HeapRep c mem ts) : (freeAddrs ts).length < c.fuel := by
  have : (freeAddrs ts).length ≤ ts.length := by
    simpa [freeAddrs] using List.length_filter_le _ ts
  have := rep.tiled.length_le
  simp only [HeapConf.fuel, sizeofHeader]
  omega

/-- Aligned sizes admit a request exactly when they admit it rounded up. -/
theorem memAlignNext_spec (fits : n + memAlignMask < 2 ^ 32) :
    memAlignNext n % 8 = 0 ∧ ∀ s, s % 8 = 0 → (memAlignNext n ≤ s ↔ n ≤ s) := by
  rw [memAlignNext_eq fits]
  refine ⟨by omega, fun s aligned => ?_⟩
  omega

/-- `chHeapAlloc` takes the first free block that is large enough, or there is
none. -/
theorem HeapInv.alloc_spec (inv : HeapInv c s ts) (fits : n + memAlignMask < 2 ^ 32) :
    ((∀ t ∈ ts, t.use = none → t.size < n) ∧
      chHeapAlloc c.fuel s.heap n s.mem s.core = some (0, s.mem, s.core)) ∨
    ∃ T hp size U mem', ts = T ++ ⟨hp, size, none⟩ :: U ∧ (∀ t ∈ T, t.use = none → t.size < n) ∧
      n ≤ size ∧ chHeapAlloc c.fuel s.heap n s.mem s.core = some (hp + sizeofHeader, mem', s.core) ∧
      HeapRep c mem' (T ++ (takenTiles hp size (memAlignNext n) n ++ U)) := by
  obtain ⟨aligned, admits⟩ := memAlignNext_spec fits
  have rep := inv.toHeapRep
  have small : ∀ t ∈ ts, (s.mem t.addr).size < memAlignNext n → t.size < n := by
    intro t member lt
    rw [rep.sizes t member] at lt
    have := admits t.size (rep.aligned t member)
    omega
  rcases allocLoop_spec c.heapp (memAlignNext n) c.fuel (hFree c.heapp) (freeAddrs ts) rep.fuel_enough rep.chain
    with ⟨none_fits, done⟩ | ⟨A, hp, B, G, q, split, pred, none_fits, large, done⟩
  · refine .inl ⟨fun t member free => small t member (none_fits _ ?_), ?_⟩
    · obtain ⟨a, m, _⟩ := t
      cases free
      exact mem_freeAddrs.2 ⟨m, member⟩
    · simp [chHeapAlloc, inv.heap, done]
  · obtain ⟨T, size, U, rfl, rfl, -⟩ := freeAddrs_split split
    have member : (⟨hp, size, none⟩ : Tile) ∈ T ++ ⟨hp, size, none⟩ :: U := by simp
    have holds : (s.mem hp).size = size := rep.sizes _ member
    have fitsHere := (admits size (rep.aligned _ member)).1 (holds ▸ large)
    refine .inr ⟨T, hp, size, U, _, rfl, fun t inT free => ?_, fitsHere, ?_,
      rep.take n pred aligned ((admits size (rep.aligned _ member)).2 fitsHere)⟩
    · refine small t (by simp [inT]) (none_fits _ ?_)
      obtain ⟨a, m, _⟩ := t
      cases free
      exact mem_freeAddrs.2 ⟨m, inT⟩
    · have bound := rep.in_buffer member
      have := c.inMemory
      simp only [Tile.limit, sizeofHeader] at bound
      have sum : wordAdd hp sizeofHeader = hp + sizeofHeader := wordAdd_header (by omega)
      simp [chHeapAlloc, inv.heap, done, sum]

theorem HeapInv.alloc_taken {T : List Tile} {hp size : Nat} {core : MemCore}
    (inv : HeapInv c s (T ++ ⟨hp, size, none⟩ :: U)) (fits : n + memAlignMask < 2 ^ 32) (large : n ≤ size)
    (rep : HeapRep c mem (T ++ (takenTiles hp size (memAlignNext n) n ++ U))) :
    HeapInv c { s with mem := mem, core := core, live := (hp + sizeofHeader, n) :: s.live }
      (T ++ (takenTiles hp size (memAlignNext n) n ++ U)) := by
  have room : n ≤ memAlignNext n := ((memAlignNext_spec fits).2 _ (memAlignNext_spec fits).1).1 le_rfl
  have left := inv.apart.left_of_append
  have right := inv.apart.right_of_append
  have blocks : liveBlocks (takenTiles hp size (memAlignNext n) n) = [(hp + sizeofHeader, n)] := by
    rw [takenTiles]
    split <;> rfl
  refine ⟨rep, inv.heap, ?_, fun b => ?_, fun t member k use => ?_⟩
  · rw [takenTiles]
    split
    · exact apart_live left right.tail (by simp)
    · exact apart_live left (apart_congr (T := []) right rfl) (by simp)
  · have := inv.live b
    simp only [liveBlocks_append, blocks, mem_append, mem_cons, not_mem_nil, or_false, this]
    tauto
  · rcases mem_around member with member | member
    · rw [takenTiles] at member
      split at member
      · obtain rfl := List.mem_singleton.1 member
        cases use; exact large
      · simp only [mem_cons, not_mem_nil, or_false] at member
        rcases member with rfl | rfl
        · cases use; exact room
        · cases use
    · exact inv.large t (mem_of_around [_] member) k use

theorem liveBlocks_mergedTiles (a s : Nat) (U : List Tile) : liveBlocks (mergedTiles a s U) = liveBlocks U := by
  unfold mergedTiles
  split <;> rfl

/-- The merge at `a` separates it from what is behind it. -/
theorem apart_mergedTiles (a s : Nat) (apart : Apart U) : Apart (mergedTiles a s U) := by
  unfold mergedTiles
  split
  · exact apart_congr (T := []) apart rfl
  next live =>
    refine isChain_cons.2 ⟨fun u head bad => ?_, apart⟩
    cases U with
    | nil => cases head
    | cons t U =>
      obtain rfl : t = u := by simpa using head
      obtain ⟨b, n, use⟩ := t
      cases bad.2
      exact live b n U rfl

theorem mem_mergedTiles {a s : Nat} {t : Tile} (member : t ∈ mergedTiles a s U) : t.use = none ∨ t ∈ U := by
  unfold mergedTiles at member
  split at member <;> simp only [mem_cons] at member ⊢ <;> rcases member with rfl | member <;> simp [*]

theorem mergedTiles_head (a s : Nat) (U : List Tile) : ∃ n U', mergedTiles a s U = ⟨a, n, none⟩ :: U' := by
  unfold mergedTiles
  split <;> exact ⟨_, _, rfl⟩

/-- The tiles after the merge at the block before: `T` is what lies before the
freed block, `X` starts with it. -/
theorem HeapRep.merge_pred {T X : List Tile} {q : Nat} {G : List Nat} (rep : HeapRep c mem (T ++ X))
    (pred : hFree c.heapp :: freeAddrs T = G ++ [q]) (left : Apart T) (right : Apart X) :
    ∃ ts', HeapRep c (mem.mergeNext q) ts' ∧ Apart ts' ∧ liveBlocks ts' = liveBlocks (T ++ X) ∧
      ∀ t ∈ ts', t.use = none ∨ t ∈ T ++ X := by
  rcases List.eq_nil_or_concat (freeAddrs T) with none_free | ⟨F, q', last⟩
  · -- no free block before it: `q` is the list header
    obtain rfl : q = hFree c.heapp := by
      rw [none_free] at pred
      cases G <;> simp_all
    exact ⟨T ++ X, rep.merge_head.symm ▸ rep, apart_behind_live left none_free right, rfl, fun _ mem => .inr mem⟩
  · obtain rfl : q = q' := by
      rw [last, List.concat_eq_append, ← cons_append] at pred
      exact (List.append_inj_right' pred.symm rfl |> List.cons.inj).1
    obtain ⟨T₁, m, T₂, rfl, -, live⟩ := freeAddrs_split (by rw [last, List.concat_eq_append] : _ = F ++ q :: [])
    have apart₂ : Apart (T₂ ++ X) := apart_behind_live left.right_of_append.tail live right
    rw [List.append_assoc, cons_append] at rep
    obtain ⟨m', U, merged⟩ := mergedTiles_head q m (T₂ ++ X)
    refine ⟨_, rep.merge, ?_, ?_, fun t mem => ?_⟩
    · have behind := apart_mergedTiles q m apart₂
      rw [merged] at behind ⊢
      exact List.isChain_split.2 ⟨apart_congr (List.isChain_split.1 left).1 rfl, behind⟩
    · simp [liveBlocks_mergedTiles]
    · rcases mem_append.1 mem with mem | mem
      · exact .inr (by simp [mem])
      · rcases mem_mergedTiles mem with free | mem
        · exact .inl free
        · refine .inr ?_
          simp only [mem_append, mem_cons] at mem ⊢
          tauto

/-- `chHeapFree` returns, and leaves the block merged with its free neighbours. -/
theorem HeapInv.free_spec (inv : HeapInv c s ts) {p : Nat} (live : p ∈ s.live.map Prod.fst) :
    ∃ mem ts', chHeapFree c.fuel p s.mem = some mem ∧
      HeapInv c { s with mem := mem, live := s.live.filter fun b => b.1 ≠ p } ts' := by
  obtain ⟨⟨p, n⟩, member, rfl⟩ := mem_map.1 live
  obtain ⟨hp, size, tile, rfl⟩ := mem_liveBlocks.1 ((inv.live _).1 member)
  obtain ⟨T, U, rfl⟩ := append_of_mem tile
  have rep := inv.toHeapRep
  have bound := rep.in_buffer tile
  have inMemory := c.inMemory
  have before := rep.tiled.before
  have after := rep.tiled.after
  simp only [Tile.limit, sizeofHeader] at bound before after
  have back : wordSub (hp + sizeofHeader) sizeofHeader = hp := by
    rw [wordSub_of_le (by omega) (by simp only [sizeofHeader]; omega)]; omega
  have owner : (s.mem hp).u = c.heapp := rep.owned _ tile (by simp)
  have belowT : ∀ x ∈ freeAddrs T, x < hp := fun x mem => by
    obtain ⟨m, mem⟩ := mem_freeAddrs.1 mem
    have := before _ mem
    simp only at this; omega
  have aboveU : ∀ x ∈ freeAddrs U, hp < x := fun x mem => by
    obtain ⟨m, mem⟩ := mem_freeAddrs.1 mem
    have := after _ mem
    simp only at this; omega
  have freeList : freeAddrs (T ++ ⟨hp, size, some n⟩ :: U) = freeAddrs T ++ freeAddrs U := by simp
  obtain ⟨G, q, pred, done⟩ := freeLoop_spec (hFree c.heapp) hp aboveU c.fuel (hFree c.heapp) _
    (freeList ▸ rep.fuel_enough) (freeList ▸ rep.chain) (.inl rfl) belowT
  have other : q ≠ hp := by
    have := rep.pred_outside (x := q) (by rw [pred]; simp)
    simp only [Tile.limit, sizeofHeader] at this
    omega
  obtain ⟨ts', rep', apart', blocks', tiles'⟩ := (rep.link pred).merge.merge_pred pred
    inv.apart.left_of_append (apart_mergedTiles hp size inv.apart.right_of_append.tail)
  rw [← insertBlock_eq other] at rep'
  refine ⟨insertBlock q hp s.mem, ts', ?_, rep', inv.heap, apart', fun b => ?_, fun t mem k use => ?_⟩
  · simp only [chHeapFree, back, owner, done]
  · have was := inv.live b
    simp only [liveBlocks_append, liveBlocks_cons_live, mem_append, mem_cons] at was
    simp only [List.mem_filter, was, blocks', liveBlocks_append, liveBlocks_mergedTiles, mem_append,
      decide_eq_true_eq]
    have apartT : b ∈ liveBlocks T → b.1 ≠ hp + sizeofHeader := fun mem same => by
      obtain ⟨a, k, mem, at_⟩ := mem_liveBlocks.1 mem
      have := before _ mem
      simp only [sizeofHeader] at *; omega
    have apartU : b ∈ liveBlocks U → b.1 ≠ hp + sizeofHeader := fun mem same => by
      obtain ⟨a, k, mem, at_⟩ := mem_liveBlocks.1 mem
      have := after _ mem
      simp only [sizeofHeader] at *; omega
    constructor
    · rintro ⟨mem | rfl | mem, notP⟩
      · exact .inl mem
      · exact absurd rfl notP
      · exact .inr mem
    · rintro (mem | mem)
      · exact ⟨.inl mem, apartT mem⟩
      · exact ⟨.inr (.inr mem), apartU mem⟩
  · rcases tiles' t mem with free | mem
    · rw [free] at use; cases use
    · rcases mem_append.1 mem with mem | mem
      · exact inv.large t (by simp [mem]) k use
      · rcases mem_mergedTiles mem with free | mem
        · rw [free] at use; cases use
        · exact inv.large t (by simp [mem]) k use

/-- The invariant reads the list header and the blocks' headers only. -/
theorem HeapRep.frame {mem' : HeapMem} (rep : HeapRep c mem ts)
    (head : mem' (hFree c.heapp) = mem (hFree c.heapp)) (tiles : ∀ t ∈ ts, mem' t.addr = mem t.addr) : HeapRep c mem' ts := by
  refine ⟨rep.tiled, rep.aligned, fun t member => ?_, fun t member live => ?_, ?_, rep.chain.frame fun x member => ?_⟩
  · rw [tiles t member, rep.sizes t member]
  · rw [tiles t member, rep.owned t member live]
  · rw [head, rep.header]
  · rcases mem_cons.1 member with rfl | member
    · rw [next, head]; rfl
    · obtain ⟨n, member⟩ := mem_freeAddrs.1 member
      have := tiles _ member
      simp only at this
      rw [next, this]; rfl

/-- What the application stores in its blocks does not matter. -/
theorem HeapInv.write {p a : Nat} {h : HeapHeader} (inv : HeapInv c s ts) (live : p ∈ s.live.map Prod.fst)
    (start : p ≤ a) (stop : a + sizeofHeader ≤ p + (s.mem (p - sizeofHeader)).size) :
    HeapInv c { s with mem := Function.update s.mem a h } ts := by
  obtain ⟨⟨p, n⟩, member, rfl⟩ := mem_map.1 live
  obtain ⟨hp, size, tile, rfl⟩ := mem_liveBlocks.1 ((inv.live _).1 member)
  obtain ⟨T, U, rfl⟩ := append_of_mem tile
  have rep := inv.toHeapRep
  have bound := rep.in_buffer tile
  have outside := c.hFree_outside
  have size_eq := rep.sizes _ tile
  simp only [Tile.limit, sizeofHeader, Nat.add_sub_cancel] at bound size_eq start stop
  rw [size_eq] at stop
  refine ⟨rep.frame ?_ fun t mem => ?_, inv.heap, inv.apart, inv.live, inv.large⟩
  · exact Function.update_of_ne (by omega) _ _
  · refine Function.update_of_ne ?_ _ _
    rcases mem_append.1 mem with mem | mem
    · have := rep.tiled.before t mem
      simp only [Tile.limit, sizeofHeader] at this
      omega
    · rcases mem_cons.1 mem with rfl | mem
      · simp only; omega
      · have := rep.tiled.after t mem
        simp only [Tile.limit, sizeofHeader] at this
        omega

theorem heapInv_step (s : HeapSys) (l : HeapLabel) (s' : HeapSys) (inv : ∃ ts, HeapInv c s ts)
    (taken : heapNext c l s = some s') : ∃ ts, HeapInv c s' ts := by
  obtain ⟨ts, inv⟩ := inv
  cases l with
  | alloc n =>
    simp only [heapNext] at taken
    split at taken
    next fits =>
      rcases inv.alloc_spec fits.1 with ⟨-, done⟩ | ⟨T, hp, size, U, mem, rfl, -, large, done, rep⟩
      · rw [done] at taken
        cases taken
        exact ⟨ts, inv⟩
      · rw [done] at taken
        cases taken
        have nonnull : hp + sizeofHeader ≠ 0 := by simp [sizeofHeader]
        exact ⟨_, inv.alloc_taken fits.1 large rep⟩
    · cases taken
  | free p =>
    simp only [heapNext] at taken
    split at taken
    next live =>
      obtain ⟨mem, ts', done, inv'⟩ := inv.free_spec live
      rw [done] at taken
      cases taken
      exact ⟨ts', inv'⟩
    · cases taken
  | write p a h =>
    simp only [heapNext] at taken
    split at taken <;> cases taken
    next inside => exact ⟨ts, inv.write inside.1 inside.2.1 inside.2.2⟩

/-- The state of a heap whose buffer is cut into the blocks `ts`. -/
structure HeapIntegrity (c : HeapConf) (s : HeapSys) (ts : List Tile) : Prop where
  /-- Free and live blocks, with their headers, tile the buffer. -/
  tiled : Tiles c.buf ts (c.buf + c.size)
  sizes : ∀ t ∈ ts, (s.mem t.addr).size = t.size
  live : ∀ b, b ∈ s.live ↔ b ∈ liveBlocks ts
  freeList : Seg s.mem.next (s.mem.next (hFree c.heapp)) (freeAddrs ts) none
  increasing : (freeAddrs ts).Pairwise (· < ·)
  notAdjacent : ∀ t ∈ ts, ∀ u ∈ ts, t.use = none → u.use = none → t.limit ≠ u.addr
  /-- Live blocks are aligned and as large as requested. -/
  fit : ∀ a n k, ⟨a, n, some k⟩ ∈ ts → memIsAligned (a + sizeofHeader) = true ∧ k ≤ n
  /-- First fit. -/
  alloc : ∀ n, n + memAlignMask < 2 ^ 32 → memAlignNext n + sizeofHeader < 2 ^ 32 →
    ∃ p mem, chHeapAlloc c.fuel s.heap n s.mem s.core = some (p, mem, s.core) ∧
      ((p = 0 ∧ ∀ t ∈ ts, t.use = none → t.size < n) ∨
        ∃ t ∈ ts, t.use = none ∧ n ≤ t.size ∧ p = t.addr + sizeofHeader ∧
          ∀ u ∈ ts, u.use = none → u.addr < t.addr → u.size < n)
  free : ∀ p ∈ s.live.map Prod.fst, (chHeapFree c.fuel p s.mem).isSome = true
  /-- With nothing live, the initial block is back. -/
  drained : s.live = [] → ts = [⟨c.buf, c.size - sizeofHeader, none⟩]

theorem HeapInv.notAdjacent (inv : HeapInv c s ts) : ∀ t ∈ ts, ∀ u ∈ ts, t.use = none → u.use = none →
    t.limit ≠ u.addr := by
  intro t tmem u umem tfree ufree touch
  obtain ⟨T, U, rfl⟩ := append_of_mem tmem
  have := t.addr_lt_limit
  have := u.addr_lt_limit
  have tiled := inv.tiled
  simp only [sizeofHeader] at *
  rcases mem_append.1 umem with mem | mem
  · have := tiled.before u mem
    omega
  · rcases mem_cons.1 mem with rfl | mem
    · omega
    · cases U with
      | nil => cases mem
      | cons v U =>
        obtain rfl : v = u := tiled.addr_inj (by simp) umem (tiled.around.2.1.trans touch)
        have next := (List.isChain_append.1 inv.apart).2.1
        exact (List.isChain_cons_cons.1 next).1 ⟨tfree, ufree⟩

theorem Tiles.addr_aligned {e : Nat} : ∀ {ts : List Tile} {a : Nat}, Tiles a ts e → a % 8 = 0 →
    (∀ t ∈ ts, t.size % 8 = 0) → ∀ t ∈ ts, t.addr % 8 = 0
  | [], _, _, _, _ => by simp
  | t :: ts, a, ⟨at_, rest⟩, start, sizes => by
    have size := sizes t (by simp)
    have limit : t.limit % 8 = 0 := by simp only [Tile.limit, sizeofHeader]; omega
    rintro u (_ | ⟨_, mem⟩)
    · omega
    · exact rest.addr_aligned limit (fun v mem => sizes v (by simp [mem])) u mem

theorem HeapInv.drained (inv : HeapInv c s ts) (empty : s.live = []) :
    ts = [⟨c.buf, c.size - sizeofHeader, none⟩] := by
  have room := c.room
  have allFree : ∀ t ∈ ts, t.use = none := fun t mem => by
    by_contra live
    obtain ⟨k, use⟩ := Option.ne_none_iff_exists'.1 live
    obtain ⟨a, n, _⟩ := t
    cases use
    have := (inv.live (a + sizeofHeader, k)).2 (mem_liveBlocks.2 ⟨a, n, mem, rfl⟩)
    rw [empty] at this
    cases this
  have tiled := inv.tiled
  have apart := inv.apart
  simp only [sizeofHeader] at room
  rcases ts with _ | ⟨⟨a, n, use⟩, _ | ⟨u, ts⟩⟩
  · have : c.buf = c.buf + c.size := tiled
    omega
  · have limit : a + 8 + n = c.buf + c.size := tiled.2
    have start : a = c.buf := tiled.1
    have free : use = none := allFree ⟨a, n, use⟩ (by simp)
    simp only [free, start, sizeofHeader, List.cons.injEq, Tile.mk.injEq, true_and, and_true]
    omega
  · exact absurd ⟨allFree ⟨a, n, use⟩ (by simp), allFree u (by simp)⟩ (List.isChain_cons_cons.1 apart).1

/-- **Heap integrity**, in every state reached by allocations, by frees of live
blocks and by the application's use of its blocks. -/
theorem heap_integrity {c : HeapConf} {s : HeapSys} (reached : (heapLts c).Reach (fun _ _ => True) s) :
    ∃ ts, HeapIntegrity c s ts := by
  obtain ⟨ts, inv⟩ := reached.invariant ⟨_, heapInv_init⟩
    fun s l s' inv _ taken => heapInv_step s l s' inv taken
  refine ⟨ts, inv.tiled, inv.sizes, inv.live, inv.chain.2, inv.tiled.freeAddrs_sorted, inv.notAdjacent, ?_, ?_, ?_,
    inv.drained⟩
  · intro a n k mem
    have := inv.tiled.addr_aligned (memIsAligned_iff.1 c.alignedBuf) inv.aligned _ mem
    refine ⟨memIsAligned_iff.2 ?_, inv.large _ mem k rfl⟩
    simp only [sizeofHeader] at *; omega
  · intro n fits _
    rcases inv.alloc_spec fits with ⟨small, done⟩ | ⟨T, hp, size, U, mem, rfl, small, large, done, -⟩
    · exact ⟨0, s.mem, done, .inl ⟨rfl, small⟩⟩
    · refine ⟨_, mem, done, .inr ⟨⟨hp, size, none⟩, by simp, rfl, large, rfl, fun u umem free below => ?_⟩⟩
      rcases mem_append.1 umem with umem | umem
      · exact small u umem free
      · rcases mem_cons.1 umem with rfl | umem
        · exact absurd below (lt_irrefl _)
        · have := inv.tiled.after u umem
          simp only [Tile.limit] at *; omega
  · intro p live
    obtain ⟨mem, -, done, -⟩ := inv.free_spec live
    rw [done]; rfl

/-- A heap of 64 bytes. -/
def heap64 : HeapConf where
  heapp := 256
  buf := 4096
  size := 64
  mem := fun _ => ⟨0, 0⟩
  core := ⟨0, 0⟩
  alignedBuf := by decide
  alignedSize := by decide
  room := by decide
  nonnull := by decide
  inMemory := by decide
  descriptor := by decide
  disjoint := by decide

/-- Two blocks taken, and the first one freed. -/
theorem heap_integrity_heap64 : ∃ s, s.live = [(4128, 3)] ∧ ∃ ts, HeapIntegrity heap64 s ts := by
  have ran := @Lts.Reach.of_run _ _ (heapLts heap64) (fun _ _ => true) [.alloc 10, .alloc 3, .free 4104] _ rfl rfl
  exact ⟨_, rfl, heap_integrity (ran.mono fun _ _ _ => trivial)⟩

end Running

end ChibiOS.Kernel
