import Mathlib.Tactic

/-!
# The heap allocator

`chheap.c` over a byte-addressed memory of which only the block headers are
read: `HeapMem` gives the header stored at each address. Addresses and sizes are
32-bit words kept as naturals, with the wrap of each addition and subtraction
written out. `NULL` is address zero.

`H_LOCK` and `H_UNLOCK` make each function one step with respect to the others.
-/

namespace ChibiOS.Kernel

/-! ## Words -/

def wordAdd (a b : Nat) : Nat := (a + b) % 2 ^ 32

def wordSub (a b : Nat) : Nat := (a + (2 ^ 32 - b)) % 2 ^ 32

/-- `MEM_ALIGN_SIZE`. -/
def memAlignSize : Nat := 8

/-- `MEM_ALIGN_MASK`. -/
def memAlignMask : Nat := memAlignSize - 1

/-- `MEM_ALIGN_PREV`: the low bits cleared. -/
def memAlignPrev (p : Nat) : Nat := p &&& (2 ^ 32 - 1 - memAlignMask)

/-- `MEM_ALIGN_NEXT`. -/
def memAlignNext (p : Nat) : Nat := memAlignPrev (wordAdd p memAlignMask)

/-- `MEM_IS_ALIGNED`. -/
def memIsAligned (p : Nat) : Bool := (p &&& memAlignMask) == 0

/-! ## The core allocator -/

/-- The free core memory: `nextmem` and `endmem`. -/
structure MemCore where
  nextmem : Nat
  endmem : Nat

def chCoreAllocI (size : Nat) (core : MemCore) : Nat × MemCore :=
  let size := memAlignNext size
  if wordSub core.endmem core.nextmem < size then (0, core)
  else (core.nextmem, { core with nextmem := wordAdd core.nextmem size })

def chCoreAlloc (size : Nat) (core : MemCore) : Nat × MemCore := chCoreAllocI size core

/-! ## Headers -/

/-- `union heap_header`: the word that `u.next` and `u.heap` share, and the size. -/
@[ext] structure HeapHeader where
  u : Nat
  size : Nat

/-- `sizeof(union heap_header)`. -/
def sizeofHeader : Nat := 8

/-- The header at each address. -/
abbrev HeapMem := Nat → HeapHeader

def HeapMem.setU (mem : HeapMem) (p v : Nat) : HeapMem := Function.update mem p { mem p with u := v }

def HeapMem.setSize (mem : HeapMem) (p v : Nat) : HeapMem :=
  Function.update mem p { mem p with size := v }

/-- `LIMIT`: the address after the block at `p`. -/
def HeapMem.limit (mem : HeapMem) (p : Nat) : Nat := wordAdd (wordAdd p sizeofHeader) (mem p).size

/-- `MemoryHeap`: its address and its provider. The list header `h_free` is in
the memory. -/
structure MemoryHeap where
  addr : Nat
  hProvider : Option (Nat → MemCore → Nat × MemCore)

/-- `&heapp->h_free`, after the provider and its padding. -/
def hFree (heapp : Nat) : Nat := heapp + 8

/-- `sizeof(MemoryHeap)`: the provider, the list header and the mutex. -/
def sizeofMemoryHeap : Nat := 32

/-! ## Operations -/

def chHeapInit (heapp buf size : Nat) (mem : HeapMem) : MemoryHeap × HeapMem :=
  let mem := mem.setU (hFree heapp) buf
  let mem := mem.setSize (hFree heapp) 0
  let mem := mem.setU buf 0
  let mem := mem.setSize buf (wordSub size sizeofHeader)
  (⟨heapp, none⟩, mem)

/-- The free block `hp`, found behind `qp`, is taken whole or split. -/
def takeBlock (heapp size qp hp : Nat) (mem : HeapMem) : HeapMem :=
  let mem :=
    if (mem hp).size < wordAdd size sizeofHeader then mem.setU qp (mem hp).u
    else
      let fp := wordAdd (wordAdd hp sizeofHeader) size
      let mem := mem.setU fp (mem hp).u
      let mem := mem.setSize fp (wordSub (wordSub (mem hp).size sizeofHeader) size)
      let mem := mem.setU qp fp
      mem.setSize hp size
  mem.setU hp heapp

/-- The search of `chHeapAlloc` from `qp` on: the block found, if one fits. The
outer `none` is lack of fuel. -/
def allocLoop (heapp size : Nat) : Nat → Nat → HeapMem → Option (Option Nat × HeapMem)
  | 0, _, _ => none
  | fuel + 1, qp, mem =>
    let hp := (mem qp).u
    if hp = 0 then some (none, mem)
    else if size ≤ (mem hp).size then some (some hp, takeBlock heapp size qp hp mem)
    else allocLoop heapp size fuel hp mem

def chHeapAlloc (fuel : Nat) (heap : MemoryHeap) (size : Nat) (mem : HeapMem) (core : MemCore) :
    Option (Nat × HeapMem × MemCore) := do
  let size := memAlignNext size
  match ← allocLoop heap.addr size fuel (hFree heap.addr) mem, heap.hProvider with
  | (some hp, mem), _ => return (wordAdd hp sizeofHeader, mem, core)
  | (none, mem), none => return (0, mem, core)
  | (none, mem), some provider =>
    let (hp, core) := provider (wordAdd size sizeofHeader) core
    if hp = 0 then return (0, mem, core)
    return (wordAdd hp sizeofHeader, (mem.setU hp heap.addr).setSize hp size, core)

/-- The block `hp` is linked behind `qp`, then merged with its neighbours. -/
def insertBlock (qp hp : Nat) (mem : HeapMem) : HeapMem :=
  let mem := mem.setU hp (mem qp).u
  let mem := mem.setU qp hp
  let mem :=
    if mem.limit hp = (mem hp).u then
      let mem := mem.setSize hp (wordAdd (mem hp).size (wordAdd (mem (mem hp).u).size sizeofHeader))
      mem.setU hp (mem (mem hp).u).u
    else mem
  if mem.limit qp = hp then
    let mem := mem.setSize qp (wordAdd (mem qp).size (wordAdd (mem hp).size sizeofHeader))
    mem.setU qp (mem hp).u
  else mem

/-- The search of `chHeapFree` for the place of `hp`, from `qp` on. -/
def freeLoop (head hp : Nat) : Nat → Nat → HeapMem → Option HeapMem
  | 0, _, _ => none
  | fuel + 1, qp, mem =>
    if (qp = head ∨ qp < hp) ∧ ((mem qp).u = 0 ∨ hp < (mem qp).u) then some (insertBlock qp hp mem)
    else freeLoop head hp fuel (mem qp).u mem

def chHeapFree (fuel p : Nat) (mem : HeapMem) : Option HeapMem :=
  let hp := wordSub p sizeofHeader
  let heapp := (mem hp).u
  freeLoop (hFree heapp) hp fuel (hFree heapp) mem

/-! ## Word lemmas -/

theorem wordAdd_of_lt {a b : Nat} (fits : a + b < 2 ^ 32) : wordAdd a b = a + b := by
  simp only [wordAdd]; omega

theorem wordSub_of_le {a b : Nat} (le : b ≤ a) (fits : a < 2 ^ 32) : wordSub a b = a - b := by
  simp only [wordSub]; omega

theorem memAlignPrev_eq {p : Nat} (fits : p < 2 ^ 32) : memAlignPrev p = p / 8 * 8 := by
  have mask : 2 ^ 32 - 1 - memAlignMask = (2 ^ 29 - 1) <<< 3 := by decide
  have shifts : p / 8 * 8 = (p >>> 3) <<< 3 := by simp [Nat.shiftLeft_eq, Nat.shiftRight_eq_div_pow]
  rw [memAlignPrev, mask, shifts]
  refine Nat.eq_of_testBit_eq fun i => ?_
  simp only [Nat.testBit_and, Nat.testBit_shiftLeft, Nat.testBit_two_pow_sub_one, Nat.testBit_shiftRight]
  by_cases low : 3 ≤ i
  · by_cases high : i < 32
    · simp [low, show i - 3 < 29 by omega, show 3 + (i - 3) = i by omega]
    · have : p.testBit i = false :=
        Nat.testBit_lt_two_pow (lt_of_lt_of_le fits (Nat.pow_le_pow_right (by decide) (by omega)))
      simp [low, this, show 3 + (i - 3) = i by omega]
  · simp [low]

theorem memIsAligned_iff {p : Nat} : memIsAligned p = true ↔ p % 8 = 0 := by
  rw [memIsAligned, beq_iff_eq, show memAlignMask = 2 ^ 3 - 1 from rfl, Nat.and_two_pow_sub_one_eq_mod]

/-- Rounding up, where it does not wrap. -/
theorem memAlignNext_eq {n : Nat} (fits : n + memAlignMask < 2 ^ 32) : memAlignNext n = (n + 7) / 8 * 8 := by
  rw [memAlignNext, wordAdd_of_lt fits, memAlignPrev_eq fits]
  rfl

end ChibiOS.Kernel
