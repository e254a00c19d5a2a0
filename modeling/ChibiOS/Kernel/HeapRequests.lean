import ChibiOS.Kernel.HeapBlocks

/-!
# Requests of any size

`chCoreAlloc` and `chHeapAlloc` serve a request with memory of their own that nothing else
uses, or refuse it. Rounding up wraps for the last seven sizes, and the addition of a header
for the eight before them, which matters if the heap has a provider: those requests are
served with less than they ask for.
-/

namespace ChibiOS.Kernel

open Lib HeapMem
open Extent (stop)

/-! ## The core allocator -/

structure MemCore.Ok (core : MemCore) : Prop where
  nonnull : 0 < core.nextmem
  order : core.nextmem ≤ core.endmem
  inMemory : core.endmem < 2 ^ 32

/-- The memory that is left. -/
def MemCore.extent (core : MemCore) : Extent := ⟨core.nextmem, core.endmem - core.nextmem⟩

/-- A request of `n` bytes is refused, or served with memory that was left and is used by nothing else. -/
def CoreServes (n : Nat) (core : MemCore) (live : List Extent) : Prop :=
  ∃ p core', chCoreAlloc n core = (p, core') ∧
    (p = 0 ∧ core' = core ∨ p ≠ 0 ∧ Extent.Within ⟨p, n⟩ core.extent ∧ (∀ x ∈ live, x.Apart ⟨p, n⟩) ∧ core'.Ok ∧
      core'.extent.Within core.extent ∧ Extent.Apart ⟨p, n⟩ core'.extent)

variable {core : MemCore} {n k : Nat} {heap : MemoryHeap} {mem : HeapMem} {A B F G : List Nat} {live : List Extent}
  {q hp fuel : Nat}

theorem chCoreAlloc_eq (ok : core.Ok) (n : Nat) :
    chCoreAlloc n core = if core.endmem - core.nextmem < memAlignNext n then (0, core)
      else (core.nextmem, { core with nextmem := core.nextmem + memAlignNext n }) := by
  have order := ok.order
  have inMemory := ok.inMemory
  rw [chCoreAlloc, chCoreAllocI, wordSub_of_le order inMemory]
  split
  · rfl
  · rw [wordAdd_of_lt (by omega)]

theorem MemCore.Ok.advance (ok : core.Ok) (room : k ≤ core.endmem - core.nextmem) :
    MemCore.Ok { core with nextmem := core.nextmem + k } := by
  obtain ⟨nonnull, order, inMemory⟩ := ok
  exact ⟨by dsimp only; omega, by dsimp only; omega, inMemory⟩

theorem memAlignNext_of_aligned (aligned : k % 8 = 0) (fits : k < 2 ^ 32) : memAlignNext k = k := by
  rw [memAlignNext_eq (by simp only [memAlignMask, memAlignSize]; omega)]
  omega

/-- Rounding up wraps to nothing. -/
theorem memAlignNext_wraps (word : n < 2 ^ 32) (wraps : 2 ^ 32 ≤ n + memAlignMask) : memAlignNext n = 0 := by
  simp only [memAlignMask, memAlignSize] at wraps
  have sum : wordAdd n memAlignMask = n + 7 - 2 ^ 32 := by simp only [wordAdd, memAlignMask, memAlignSize]; omega
  rw [memAlignNext, sum, memAlignPrev_eq (by omega)]
  omega

theorem core_serves (ok : core.Ok) {live : List Extent} (apart : ∀ x ∈ live, x.Apart core.extent)
    (rounds : n + memAlignMask < 2 ^ 32) : CoreServes n core live := by
  obtain ⟨aligned, admits⟩ := memAlignNext_spec rounds
  have more : n ≤ memAlignNext n := (admits _ aligned).1 le_rfl
  have done := chCoreAlloc_eq ok n
  split at done
  · exact ⟨_, _, done, .inl ⟨rfl, rfl⟩⟩
  next room =>
    have order := ok.order
    have within : Extent.Within ⟨core.nextmem, n⟩ core.extent := by
      simp only [Extent.Within, stop, MemCore.extent]
      omega
    refine ⟨_, _, done, .inr ⟨ok.nonnull.ne', within, fun x mem => (apart x mem).mono within, ok.advance (by omega), ?_, ?_⟩⟩
    · simp only [Extent.Within, stop, MemCore.extent]
      omega
    · simp only [Extent.Apart, stop, MemCore.extent]
      omega

/-! ## Heaps -/

/-- A heap with the free blocks `F`, and the extents `live` of all blocks in use. If it has a provider, that is the
core allocator. -/
structure HeapOk (heap : MemoryHeap) (mem : HeapMem) (core : MemCore) (F : List Nat) (live : List Extent) : Prop where
  list : FreeList heap.addr mem F
  apart : ∀ x ∈ live, ∀ a ∈ F, x.Apart (mem.extent a)
  provider : heap.hProvider = none ∨ heap.hProvider = some chCoreAlloc ∧ core.Ok ∧
    (descriptorExtent heap.addr).Apart core.extent ∧ (∀ x ∈ live, x.Apart core.extent) ∧ ∀ a ∈ F, (mem.extent a).Apart core.extent

/-- A request of `n` bytes is refused, or served with a block of the heap's own memory, at least as large and apart from
all blocks in use. -/
def HeapServes (fuel n : Nat) (heap : MemoryHeap) (mem : HeapMem) (core : MemCore) (F : List Nat) (live : List Extent) : Prop :=
  ∃ p mem' core', chHeapAlloc fuel heap n mem core = some (p, mem', core') ∧
    (p = 0 ∧ mem' = mem ∧ core' = core ∨ ∃ a F', p = a + sizeofHeader ∧ n ≤ (mem' a).size ∧
      ((∃ f ∈ F, (mem'.extent a).Within (mem.extent f)) ∨ heap.hProvider ≠ none ∧ (mem'.extent a).Within core.extent) ∧
      (∀ x ∈ live, x.Apart (mem'.extent a)) ∧ HeapOk heap mem' core' F' (mem'.extent a :: live))

/-- The blocks after `k` bytes are taken from `hp`. -/
structure Taken (mem mem' : HeapMem) (hp k : Nat) (others new : List Nat) : Prop where
  within : (mem'.extent hp).Within (mem.extent hp)
  size : k ≤ (mem' hp).size
  others : ∀ a ∈ others, mem'.extent a = mem.extent a
  new : ∀ a ∈ new, (mem'.extent a).Within (mem.extent hp) ∧ (mem'.extent hp).Apart (mem'.extent a)

theorem FreeList.taken {heapp : Nat} (list : FreeList heapp mem (A ++ hp :: B)) (pred : hFree heapp :: A = G ++ [q])
    (fits : k + 8 < 2 ^ 32) (large : k ≤ (mem hp).size) :
    Taken mem (takeBlock heapp k q hp mem) hp k (A ++ B) (leftover mem hp k) := by
  have outside := fun x (member : x ∈ A ++ B) => list.node_outside (.tail _ member)
  have outQ := list.pred_outside pred
  have inMemory := (list.inMemory hp (by simp)).2
  simp only [stop, extent, sizeofHeader] at outside outQ inMemory
  by_cases whole : (mem hp).size < k + 8
  · rw [takeBlock_whole whole fits, show leftover mem hp k = [] from if_pos whole]
    refine ⟨?_, by simpa using large, fun a _ => by simp [extent], by simp⟩
    simp [Extent.Within, stop, extent]
  · rw [takeBlock_split (by omega) (by omega), show leftover mem hp k = [hp + 8 + k] from if_neg whole]
    refine ⟨?_, by simp, fun a member => ?_, fun a member => ?_⟩
    · simp [Extent.Within, stop, extent, large]
    · have := outside a member
      simp [extent, show a ≠ hp by omega, show a ≠ hp + 8 + k by omega]
    · obtain rfl := List.mem_singleton.1 member
      simp [Extent.Within, Extent.Apart, stop, extent, sizeofHeader, show hp + 8 + k ≠ hp by omega]
      omega

theorem FreeList.apart_block {heapp a : Nat} (list : FreeList heapp mem (A ++ hp :: B)) (member : a ∈ A ++ B) :
    (mem.extent a).Apart (mem.extent hp) := by
  obtain ⟨-, right, before⟩ := List.pairwise_append.1 list.sorted
  rcases List.mem_append.1 member with member | member
  · exact .inl (before a member hp (by simp)).le
  · exact .inr ((List.pairwise_cons.1 right).1 a member).le

theorem HeapOk.take (ok : HeapOk heap mem core (A ++ hp :: B) live) (pred : hFree heap.addr :: A = G ++ [q])
    (fits : k + 8 < 2 ^ 32) (large : k ≤ (mem hp).size) :
    HeapOk heap (takeBlock heap.addr k q hp mem) core (A ++ (leftover mem hp k ++ B))
      ((takeBlock heap.addr k q hp mem).extent hp :: live) := by
  have taken := ok.list.taken pred fits large
  -- A block of the new list is one of the old list, or lies in the block that was taken.
  have cover : ∀ a ∈ A ++ (leftover mem hp k ++ B), ∃ f ∈ A ++ hp :: B,
      ((takeBlock heap.addr k q hp mem).extent a).Within (mem.extent f) := by
    intro a member
    rcases mem_around member with member | member
    · exact ⟨hp, by simp, (taken.new a member).1⟩
    · exact ⟨a, mem_of_around [hp] member, by rw [taken.others a member]; exact ⟨le_rfl, le_rfl⟩⟩
  refine ⟨ok.list.take pred fits large, fun x inLive a member => ?_, ?_⟩
  · rcases List.mem_cons.1 inLive with rfl | inLive
    · rcases mem_around member with member | member
      · exact (taken.new a member).2
      · rw [taken.others a member]
        exact ((ok.list.apart_block member).mono taken.within).symm
    · obtain ⟨f, inF, within⟩ := cover a member
      exact (ok.apart x inLive f inF).mono within
  · rcases ok.provider with none | ⟨given, coreOk, descriptor, inUse, free⟩
    · exact .inl none
    · refine .inr ⟨given, coreOk, descriptor, fun x inLive => ?_, fun a member => ?_⟩
      · rcases List.mem_cons.1 inLive with rfl | inLive
        · exact ((free hp (by simp)).symm.mono taken.within).symm
        · exact inUse x inLive
      · obtain ⟨f, inF, within⟩ := cover a member
        exact ((free f inF).symm.mono within).symm

/-- The list is in its own headers only. -/
theorem FreeList.frame {heapp : Nat} {mem' : HeapMem} (list : FreeList heapp mem F)
    (same : ∀ x ∈ hFree heapp :: F, mem' x = mem x) :
    FreeList heapp mem' F := by
  have extent : ∀ a ∈ F, mem'.extent a = mem.extent a := fun a member => by
    rw [extent, same a (.tail _ member)]
    rfl
  refine ⟨list.chain.frame fun x member => ?_, ?_, list.descriptor, fun a member => ?_, fun a member => ?_, ?_⟩
  · simp only [next, same x member]
  · rw [same _ (.head _), list.header]
  · rw [extent a member]
    exact list.inMemory a member
  · rw [extent a member]
    exact list.outside a member
  · exact list.sorted.imp_of_mem fun {a b} left _ before => by rwa [extent a left]

/-- A block of the core memory with its header. -/
def provided (heapp k hp : Nat) (mem : HeapMem) : HeapMem := (mem.setU hp heapp).setSize hp k

theorem provided_extent (heapp : Nat) : (provided heapp k hp mem).extent hp = ⟨hp, 8 + k⟩ := by
  simp [provided, extent, sizeofHeader]

theorem HeapOk.provide (ok : HeapOk heap mem core F live) (given : heap.hProvider ≠ none)
    (room : k + 8 ≤ core.endmem - core.nextmem) :
    HeapOk heap (provided heap.addr k core.nextmem mem) { core with nextmem := core.nextmem + (k + 8) } F
      ((provided heap.addr k core.nextmem mem).extent core.nextmem :: live) := by
  obtain ⟨given, coreOk, descriptor, inUse, free⟩ := ok.provider.resolve_left given
  have order := coreOk.order
  have apart : ∀ x ∈ hFree heap.addr :: F, x ≠ core.nextmem := by
    rintro x member rfl
    rcases List.mem_cons.1 member with same | member
    · simp only [Extent.Apart, stop, descriptorExtent, MemCore.extent, sizeofMemoryHeap] at descriptor
      simp only [hFree] at same
      omega
    · have out := free _ member
      simp only [Extent.Apart, stop, extent, MemCore.extent, sizeofHeader] at out
      omega
  have same : ∀ x ∈ hFree heap.addr :: F, provided heap.addr k core.nextmem mem x = mem x := fun x member => by
    ext <;> simp [provided, apart x member]
  have extent : ∀ a ∈ F, (provided heap.addr k core.nextmem mem).extent a = mem.extent a := fun a member => by
    rw [extent, same a (.tail _ member)]
    rfl
  have within : Extent.Within ⟨core.nextmem, 8 + k⟩ core.extent := by
    simp only [Extent.Within, stop, MemCore.extent]
    omega
  have rest : Extent.Within (MemCore.extent { core with nextmem := core.nextmem + (k + 8) }) core.extent := by
    simp only [Extent.Within, stop, MemCore.extent]
    omega
  rw [provided_extent]
  refine ⟨ok.list.frame same, fun x inLive a member => ?_, .inr ⟨given, coreOk.advance room, descriptor.mono rest, fun x inLive => ?_,
    fun a member => ?_⟩⟩
  · rw [extent a member]
    rcases List.mem_cons.1 inLive with rfl | inLive
    · exact ((free a member).mono within).symm
    · exact ok.apart x inLive a member
  · rcases List.mem_cons.1 inLive with rfl | inLive
    · simp only [Extent.Apart, stop, MemCore.extent]
      omega
    · exact (inUse x inLive).mono rest
  · rw [extent a member]
    exact (free a member).mono rest

/-- A request that no free block can serve is handed on to the core allocator. -/
theorem chHeapAlloc_provided (given : heap.hProvider = some chCoreAlloc) (coreOk : core.Ok) (rounds : n + memAlignMask < 2 ^ 32)
    (adds : memAlignNext n + sizeofHeader < 2 ^ 32)
    (done : allocLoop heap.addr (memAlignNext n) fuel (hFree heap.addr) mem = some (none, mem)) :
    chHeapAlloc fuel heap n mem core = some (if core.endmem - core.nextmem < memAlignNext n + 8 then (0, mem, core)
      else (core.nextmem + sizeofHeader, provided heap.addr (memAlignNext n) core.nextmem mem,
        { core with nextmem := core.nextmem + (memAlignNext n + 8) })) := by
  have aligned := (memAlignNext_spec rounds).1
  have sum : wordAdd (memAlignNext n) sizeofHeader = memAlignNext n + 8 := wordAdd_of_lt adds
  have order := coreOk.order
  have inMemory := coreOk.inMemory
  simp only [sizeofHeader] at adds
  have core' := chCoreAlloc_eq coreOk (memAlignNext n + 8)
  rw [memAlignNext_of_aligned (by omega) adds] at core'
  simp only [chHeapAlloc, done, given, sum, core', Option.bind_eq_bind, Option.bind_some]
  split
  · rfl
  · rw [wordAdd_of_lt (by simp only [sizeofHeader]; omega)]
    exact if_neg coreOk.nonnull.ne'

theorem HeapOk.serves (ok : HeapOk heap mem core F live) (enough : F.length < fuel) (rounds : n + memAlignMask < 2 ^ 32)
    (adds : heap.hProvider ≠ none → memAlignNext n + sizeofHeader < 2 ^ 32) : HeapServes fuel n heap mem core F live := by
  obtain ⟨aligned, admits⟩ := memAlignNext_spec rounds
  have more : n ≤ memAlignNext n := (admits _ aligned).1 le_rfl
  rcases allocLoop_spec heap.addr (memAlignNext n) fuel _ F enough ok.list.chain with
    ⟨-, done⟩ | ⟨A, hp, B, G, q, rfl, pred, -, large, done⟩
  · cases given : heap.hProvider with
    | none => exact ⟨0, mem, core, by simp [chHeapAlloc, done, given], .inl ⟨rfl, rfl, rfl⟩⟩
    | some provider =>
      have notNone : heap.hProvider ≠ none := by simp [given]
      obtain ⟨given, coreOk, -, inUse, -⟩ := ok.provider.resolve_left notNone
      have alloc := chHeapAlloc_provided given coreOk rounds (adds notNone) done
      split at alloc
      · exact ⟨_, _, _, alloc, .inl ⟨rfl, rfl, rfl⟩⟩
      next room =>
        have within : Extent.Within ⟨core.nextmem, 8 + memAlignNext n⟩ core.extent := by
          have order := coreOk.order
          simp only [Extent.Within, stop, MemCore.extent]
          omega
        refine ⟨_, _, _, alloc, .inr ⟨core.nextmem, F, rfl, ?_, .inr ⟨notNone, ?_⟩, fun x inLive => ?_, ok.provide notNone (by omega)⟩⟩
        · simpa [provided] using more
        · rwa [provided_extent]
        · rw [provided_extent]
          exact (inUse x inLive).mono within
  · have inMemory := (ok.list.inMemory hp (by simp)).2
    simp only [stop, extent, sizeofHeader] at inMemory
    have sum : wordAdd hp sizeofHeader = hp + sizeofHeader := wordAdd_header (by omega)
    have taken := ok.list.taken pred (by omega) large
    refine ⟨hp + sizeofHeader, takeBlock heap.addr (memAlignNext n) q hp mem, core, ?_, .inr ⟨hp, _, rfl, more.trans taken.size,
      .inl ⟨hp, by simp, taken.within⟩, fun x inLive => (ok.apart x inLive hp (by simp)).mono taken.within,
      ok.take pred (by omega) large⟩⟩
    simp only [chHeapAlloc, done, sum, Option.bind_eq_bind, Option.bind_some]
    rfl

/-! ## Where the sizes wrap -/

/-- Sixty-four bytes of core memory. -/
def core64 : MemCore := ⟨8192, 8256⟩

theorem core64_ok : core64.Ok := ⟨by decide, by decide, by decide⟩

/-- An empty heap that takes its memory from there. -/
def coreHeap : MemoryHeap := ⟨256, some chCoreAlloc⟩

theorem heap64_ok : HeapOk (heapLts heap64).init.heap (heapLts heap64).init.mem core64 [4096] [] :=
  ⟨(heapInv_init).freeListOk, nofun, .inl rfl⟩

theorem coreHeap_ok : HeapOk coreHeap (fun _ => ⟨0, 0⟩) core64 [] [] := by
  refine ⟨⟨⟨rfl, rfl⟩, rfl, by decide, nofun, nofun, .nil⟩, nofun, .inr ⟨rfl, core64_ok, .inl ?_, nofun, nofun⟩⟩
  decide

theorem core64_short (word : n < 2 ^ 32) (wraps : 2 ^ 32 ≤ n + memAlignMask) : ¬ CoreServes n core64 [] := by
  rintro ⟨p, core', done, result⟩
  rw [chCoreAlloc_eq core64_ok, memAlignNext_wraps word wraps] at done
  obtain ⟨rfl, rfl⟩ := Prod.mk.inj (done : (8192, _) = _)
  rcases result with ⟨bad, -⟩ | ⟨-, within, -⟩
  · cases bad
  · simp only [Extent.Within, stop, MemCore.extent, core64, memAlignMask, memAlignSize] at within wraps
    omega

theorem heap64_short (word : n < 2 ^ 32) (wraps : 2 ^ 32 ≤ n + memAlignMask) :
    ¬ HeapServes 2 n (heapLts heap64).init.heap (heapLts heap64).init.mem core64 [4096] [] := by
  rintro ⟨p, mem', core', done, result⟩
  rw [chHeapAlloc, memAlignNext_wraps word wraps] at done
  obtain ⟨rfl, rfl, rfl⟩ : 4104 = p ∧ takeBlock 256 0 264 4096 (heapLts heap64).init.mem = mem' ∧ core64 = core' := by
    simpa using (Option.some.inj done : (4104, takeBlock 256 0 264 4096 (heapLts heap64).init.mem, core64) = _)
  rcases result with ⟨bad, -⟩ | ⟨a, F', is, large, -⟩
  · cases bad
  · obtain rfl : a = 4096 := by simp only [sizeofHeader] at is; omega
    have size : (takeBlock 256 0 264 4096 (heapLts heap64).init.mem 4096).size = 0 := rfl
    simp only [memAlignMask, memAlignSize] at wraps
    omega

theorem memAlignNext_last (rounds : n + memAlignMask < 2 ^ 32) (wraps : 2 ^ 32 ≤ n + memAlignMask + sizeofHeader) :
    memAlignNext n = 2 ^ 32 - 8 := by
  rw [memAlignNext_eq rounds]
  simp only [memAlignMask, memAlignSize, sizeofHeader] at rounds wraps
  omega

theorem coreHeap_short (word : n < 2 ^ 32) (wraps : 2 ^ 32 ≤ n + memAlignMask + sizeofHeader) :
    ¬ HeapServes 1 n coreHeap (fun _ => ⟨0, 0⟩) core64 [] [] := by
  rintro ⟨p, mem', core', done, result⟩
  -- The block handed out is at the start of the core memory, with a header for the rounded size.
  have served : p = 8200 ∧ mem' = provided 256 (memAlignNext n) 8192 fun _ => ⟨0, 0⟩ := by
    rcases lt_or_ge (n + memAlignMask) (2 ^ 32) with rounds | wraps
    · have last := memAlignNext_last rounds ‹_›
      rw [chHeapAlloc, last] at done
      rw [last]
      have done : (8200, provided 256 (2 ^ 32 - 8) 8192 fun _ => ⟨0, 0⟩, core64) = _ := Option.some.inj done
      exact ⟨congrArg Prod.fst done.symm, congrArg (fun r => r.2.1) done.symm⟩
    · have zero := memAlignNext_wraps word wraps
      rw [chHeapAlloc, zero] at done
      rw [zero]
      have done : (8200, provided 256 0 8192 fun _ => ⟨0, 0⟩, (⟨8200, 8256⟩ : MemCore)) = _ := Option.some.inj done
      exact ⟨congrArg Prod.fst done.symm, congrArg (fun r => r.2.1) done.symm⟩
  obtain ⟨rfl, rfl⟩ := served
  rcases result with ⟨bad, -⟩ | ⟨a, F', is, large, inside, -⟩
  · cases bad
  · obtain rfl : a = 8192 := by simp only [sizeofHeader] at is; omega
    rcases inside with ⟨f, bad, -⟩ | ⟨-, within⟩
    · cases bad
    · rw [provided_extent] at within
      have size : (provided 256 (memAlignNext n) 8192 (fun _ => ⟨0, 0⟩) 8192).size = memAlignNext n := rfl
      simp only [Extent.Within, stop, MemCore.extent, core64, memAlignMask, memAlignSize, sizeofHeader] at within wraps
      omega

/-- The sizes for which a request is always served with as much as it asks for, or refused. -/
theorem oversized_requests_fail (n : Nat) (word : n < 2 ^ 32) :
    ((∀ core live, core.Ok → (∀ x ∈ live, Extent.Apart x core.extent) → CoreServes n core live) ↔ n + memAlignMask < 2 ^ 32) ∧
    ((∀ heap mem core F live fuel, heap.hProvider = none → HeapOk heap mem core F live → F.length < fuel →
      HeapServes fuel n heap mem core F live) ↔ n + memAlignMask < 2 ^ 32) ∧
    ((∀ heap mem core F live fuel, heap.hProvider = some chCoreAlloc → HeapOk heap mem core F live → F.length < fuel →
      HeapServes fuel n heap mem core F live) ↔ n + memAlignMask + sizeofHeader < 2 ^ 32) := by
  refine ⟨⟨fun serves => ?_, fun rounds core live ok apart => core_serves ok apart rounds⟩,
    ⟨fun serves => ?_, fun rounds heap mem core F live fuel none ok enough => ?_⟩,
    fun serves => ?_, fun adds heap mem core F live fuel given ok enough => ?_⟩
  · by_contra wraps
    exact core64_short word (not_lt.1 wraps) (serves core64 [] core64_ok nofun)
  · by_contra wraps
    exact heap64_short word (not_lt.1 wraps) (serves _ _ _ _ _ 2 rfl heap64_ok (by decide))
  · exact ok.serves enough rounds fun bad => absurd none bad
  · by_contra wraps
    exact coreHeap_short word (not_lt.1 wraps) (serves _ _ _ _ _ 1 rfl coreHeap_ok (by decide))
  · have rounds : n + memAlignMask < 2 ^ 32 := by omega
    refine ok.serves enough rounds fun _ => ?_
    rw [memAlignNext_eq rounds]
    simp only [memAlignMask, memAlignSize, sizeofHeader] at adds ⊢
    omega

/-- The request that the heap test makes. -/
theorem oversized_requests_fail_test : HeapServes 1 (2 ^ 32 - 256) coreHeap (fun _ => ⟨0, 0⟩) core64 [] [] :=
  (oversized_requests_fail (2 ^ 32 - 256) (by decide)).2.2.2 (by decide) _ _ _ _ _ 1 rfl coreHeap_ok (by decide)

/-- The largest request gets no memory at all, and one that is fifteen bytes smaller gets a header for memory that the
heap does not have. -/
theorem oversized_request_served : chCoreAlloc (2 ^ 32 - 1) core64 = (8192, core64) ∧ ¬ CoreServes (2 ^ 32 - 1) core64 [] ∧
    ¬ HeapServes 2 (2 ^ 32 - 1) (heapLts heap64).init.heap (heapLts heap64).init.mem core64 [4096] [] ∧
    ¬ HeapServes 1 (2 ^ 32 - 15) coreHeap (fun _ => ⟨0, 0⟩) core64 [] [] :=
  ⟨rfl, core64_short (by decide) (by decide), heap64_short (by decide) (by decide), coreHeap_short (by decide) (by decide)⟩

end ChibiOS.Kernel
