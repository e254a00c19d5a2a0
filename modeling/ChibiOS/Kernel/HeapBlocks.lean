import ChibiOS.Kernel.HeapIntegrity

/-!
# Heaps from anywhere

A heap with a provider is not one buffer: its blocks come from where the provider got them.
`FreeList` says what any heap has to be like for `chHeapAlloc` and `chHeapFree` to work on
it: a list of blocks by address that leave room between them and to the descriptor.

Freeing a block that has just been allocated puts the list back as it was. Requests that are
too large are refused, up to the sizes for which the 32-bit arithmetic wraps.
-/

namespace ChibiOS.Kernel

open Lib HeapMem
open Function (update)
open List (cons_append pairwise_append mem_append pairwise_cons)

/-- The addresses from `addr` on, `len` of them. -/
structure Extent where
  addr : Nat
  len : Nat

namespace Extent

def stop (x : Extent) : Nat := x.addr + x.len

def Apart (x y : Extent) : Prop := x.stop ≤ y.addr ∨ y.stop ≤ x.addr

def Within (x y : Extent) : Prop := y.addr ≤ x.addr ∧ x.stop ≤ y.stop

theorem Apart.symm {x y : Extent} (apart : x.Apart y) : y.Apart x := Or.symm apart

theorem Apart.mono {x y z : Extent} (apart : x.Apart y) (within : z.Within y) : x.Apart z := by
  rcases apart with before | after
  · exact .inl (before.trans within.1)
  · exact .inr (within.2.trans after)

end Extent

open Extent (stop)

/-- A block with its header. -/
def HeapMem.extent (mem : HeapMem) (a : Nat) : Extent := ⟨a, sizeofHeader + (mem a).size⟩

def descriptorExtent (heapp : Nat) : Extent := ⟨heapp, sizeofMemoryHeap⟩

/-- The free list of the heap at `heapp`: blocks by address, none of them next to another. -/
structure FreeList (heapp : Nat) (mem : HeapMem) (F : List Nat) : Prop where
  chain : Seg mem.next (some (hFree heapp)) (hFree heapp :: F) none
  header : (mem (hFree heapp)).size = 0
  descriptor : (descriptorExtent heapp).stop < 2 ^ 32
  inMemory : ∀ a ∈ F, 0 < a ∧ (mem.extent a).stop < 2 ^ 32
  outside : ∀ a ∈ F, (mem.extent a).Apart (descriptorExtent heapp)
  sorted : F.Pairwise fun a b => (mem.extent a).stop < b

variable {heapp k q hp : Nat} {mem : HeapMem} {A B F G : List Nat}

theorem FreeList.increasing (list : FreeList heapp mem F) : F.Pairwise (· < ·) :=
  list.sorted.imp fun {a b} before => by
    simp only [stop, extent] at before
    omega

section

variable (list : FreeList heapp mem (A ++ hp :: B))
include list

theorem FreeList.behind : Seg mem.next (mem.next hp) B none := by
  have chain := list.chain
  rw [← cons_append] at chain
  obtain ⟨m, -, -, behind⟩ := (seg_append _ _).1 chain
  exact behind

/-- The header of the list and the other blocks start outside the block `hp`. -/
theorem FreeList.node_outside {x : Nat} (member : x ∈ hFree heapp :: (A ++ B)) :
    x < hp ∨ (mem.extent hp).stop ≤ x := by
  obtain ⟨-, right, before⟩ := pairwise_append.1 list.sorted
  rcases List.mem_cons.1 member with rfl | member
  · have apart := list.outside hp (by simp)
    simp only [Extent.Apart, stop, extent, descriptorExtent, sizeofMemoryHeap, hFree] at *
    omega
  · rcases mem_append.1 member with member | member
    · have first := before x member hp (by simp)
      simp only [stop, extent] at first
      omega
    · exact .inr ((pairwise_cons.1 right).1 x member).le

theorem FreeList.pred_outside (pred : hFree heapp :: A = G ++ [q]) : q < hp ∨ (mem.extent hp).stop ≤ q := by
  have member : q ∈ hFree heapp :: A := by rw [pred]; simp
  exact list.node_outside (by rw [← cons_append]; exact List.mem_append_left B member)

/-- No node before `hp` ends where it starts. -/
theorem FreeList.limit_ne {x : Nat} (member : x ∈ hFree heapp :: A) : mem.limit x ≠ hp := by
  rcases List.mem_cons.1 member with rfl | member
  · have apart := list.outside hp (by simp)
    have descriptor := list.descriptor
    simp only [Extent.Apart, stop, extent, descriptorExtent, sizeofMemoryHeap, sizeofHeader] at apart descriptor
    rw [limit, list.header]
    simp only [wordAdd, sizeofHeader, hFree]
    omega
  · have before := (pairwise_append.1 list.sorted).2.2 x member hp (by simp)
    have inMemory := (list.inMemory x (by simp [member])).2
    simp only [stop, extent, sizeofHeader] at before inMemory
    rw [limit_of_lt (by omega)]
    omega

end

theorem FreeList.limit_eq (list : FreeList heapp mem F) (member : hp ∈ F) : mem.limit hp = (mem.extent hp).stop := by
  have inMemory := (list.inMemory hp member).2
  simp only [stop, extent, sizeofHeader] at inMemory ⊢
  rw [limit_of_lt (by omega)]
  omega

/-- The next block does not start where this one ends. -/
theorem FreeList.limit_ne_next (list : FreeList heapp mem (A ++ hp :: B)) : mem.limit hp ≠ (mem hp).u := by
  rw [list.limit_eq (by simp)]
  have pos := (list.inMemory hp (by simp)).1
  have behind := list.behind
  cases B with
  | nil =>
    rw [next_eq_none.1 behind]
    simp only [stop, extent]
    omega
  | cons b B =>
    rw [(next_eq_some.1 behind.1).2]
    have before := (pairwise_cons.1 (pairwise_append.1 list.sorted).2.1).1 b (by simp)
    omega

theorem FreeList.pred_link (list : FreeList heapp mem (A ++ hp :: B)) (pred : hFree heapp :: A = G ++ [q]) :
    (mem q).u = hp := by
  have chain := list.chain
  rw [← cons_append, pred, List.append_assoc] at chain
  obtain ⟨m, -, -, rest⟩ := (seg_append G _).1 chain
  exact (next_eq_some.1 rest.1).2

/-- The header and the blocks are distinct. -/
theorem FreeList.nodup (list : FreeList heapp mem F) : (hFree heapp :: F).Nodup := by
  refine List.nodup_cons.2 ⟨fun bad => ?_, list.increasing.imp fun lt => ne_of_lt lt⟩
  have apart := list.outside _ bad
  simp only [Extent.Apart, stop, extent, descriptorExtent, sizeofMemoryHeap, sizeofHeader, hFree] at apart
  omega

/-- What is left in the list of a block of which `k` bytes are taken. -/
def leftover (mem : HeapMem) (hp k : Nat) : List Nat := if (mem hp).size < k + sizeofHeader then [] else [hp + sizeofHeader + k]

section

variable (list : FreeList heapp mem (A ++ hp :: B)) (pred : hFree heapp :: A = G ++ [q])
include list pred

/-- The list after an edit of what lies behind `q`. -/
theorem FreeList.edit {mem' : HeapMem} {new : List Nat}
    (size : ∀ x ∈ hFree heapp :: (A ++ B), (mem' x).size = (mem x).size)
    (u : ∀ x ∈ hFree heapp :: (A ++ B), x ≠ q → (mem' x).u = (mem x).u)
    (within : ∀ a ∈ new, (mem'.extent a).Within (mem.extent hp))
    (alone : new.Pairwise fun a b => (mem'.extent a).stop < b)
    (relink : ∀ m, mem.next hp = m → Seg mem'.next (mem'.next q) new m) :
    FreeList heapp mem' (A ++ (new ++ B)) := by
  have sizeA (x : Nat) (member : x ∈ A ++ B) : mem'.extent x = mem.extent x := by
    rw [extent, size x (by simp [member])]
    rfl
  have kept (x : Nat) (member : x ∈ A ++ (new ++ B)) : x ∈ new ∨ x ∈ A ++ hp :: B ∧ mem'.extent x = mem.extent x :=
    (mem_around member).imp_right fun member => ⟨mem_of_around [hp] member, sizeA x member⟩
  obtain ⟨sortedA, sortedB, sortedAB⟩ := pairwise_append.1 list.sorted
  obtain ⟨below, sortedB⟩ := pairwise_cons.1 sortedB
  have chain : Seg mem.next (some (hFree heapp)) (hFree heapp :: (A ++ ([hp] ++ B))) none := list.chain
  have inHp := list.inMemory hp (by simp)
  refine ⟨?_, (size _ (by simp)).trans list.header, list.descriptor, fun a member => ?_, fun a member => ?_, ?_⟩
  · refine chain.relink list.nodup pred (fun x member other => ?_) fun m seg => relink m seg.2
    rw [next, next, u x member other]
  · rcases kept a member with member | ⟨member, same⟩
    · exact ⟨inHp.1.trans_le (within a member).1, (within a member).2.trans_lt inHp.2⟩
    · rw [same]
      exact list.inMemory a member
  · rcases kept a member with member | ⟨member, same⟩
    · exact ((list.outside hp (by simp)).symm.mono (within a member)).symm
    · rw [same]
      exact list.outside a member
  · refine pairwise_append.2 ⟨sortedA.imp_of_mem fun {a b} left _ before => ?_, pairwise_append.2
      ⟨alone, sortedB.imp_of_mem fun {a b} left _ before => ?_, fun a left b right => ?_⟩, fun a left b right => ?_⟩
    · rwa [sizeA a (by simp [left])]
    · rwa [sizeA a (by simp [left])]
    · exact (within a left).2.trans_lt (below b right)
    · rw [sizeA a (by simp [left])]
      rcases mem_append.1 right with right | right
      · exact (sortedAB a left hp (by simp)).trans_le (within b right).1
      · exact sortedAB a left b (by simp [right])

/-- `chHeapAlloc` takes the block out of the list, or its first part. -/
theorem FreeList.take (fits : k + 8 < 2 ^ 32) (large : k ≤ (mem hp).size) :
    FreeList heapp (takeBlock heapp k q hp mem) (A ++ (leftover mem hp k ++ B)) := by
  have outside := fun x => list.node_outside (x := x)
  have outQ := list.pred_outside pred
  have inMemory := (list.inMemory hp (by simp)).2
  simp only [stop, extent, sizeofHeader] at outside outQ inMemory
  by_cases whole : (mem hp).size < k + 8
  · rw [takeBlock_whole whole fits, show leftover mem hp k = [] from if_pos whole]
    refine list.edit pred (by simp) (fun x member other => ?_) (by simp) .nil fun m last => ?_
    · have := outside x member
      simp [other, show x ≠ hp by omega]
    · have apart : q ≠ hp := by omega
      simpa [Seg, next, apart] using last
  · rw [takeBlock_split (by omega) (by omega), show leftover mem hp k = [hp + 8 + k] from if_neg whole]
    have apart : hp + 8 + k ≠ q ∧ hp + 8 + k ≠ hp ∧ q ≠ hp := by omega
    refine list.edit pred (fun x member => ?_) (fun x member other => ?_) (fun a member => ?_) (List.pairwise_singleton ..) fun m last => ?_
    · have := outside x member
      simp [show x ≠ hp by omega, show x ≠ hp + 8 + k by omega]
    · have := outside x member
      simp [other, show x ≠ hp by omega, show x ≠ hp + 8 + k by omega]
    · obtain rfl := List.mem_singleton.1 member
      simp [Extent.Within, stop, extent, sizeofHeader, apart]
      omega
    · refine ⟨by simp [next, apart], ?_⟩
      simpa [Seg, next, apart] using last

/-! ## Freeing the block again -/

/-- A whole block is put back. -/
theorem FreeList.insert_whole (whole : (mem hp).size < k + 8) (fits : k + 8 < 2 ^ 32) :
    insertBlock q hp (takeBlock heapp k q hp mem) = mem := by
  have inQ : q ∈ hFree heapp :: A := by rw [pred]; simp
  have apart : q ≠ hp := by
    have := list.pred_outside pred
    simp only [stop, extent, sizeofHeader] at this
    omega
  have link := list.pred_link pred
  have linked : (((takeBlock heapp k q hp mem).setU hp ((takeBlock heapp k q hp mem) q).u).setU q hp) = mem := by
    rw [takeBlock_whole whole fits]
    funext x
    refine HeapHeader.ext ?_ (by simp)
    by_cases isQ : x = q
    · simp [isQ, link]
    · by_cases isHp : x = hp <;> simp [isQ, isHp, apart, apart.symm]
  rw [insertBlock_eq apart, linked, show mem.mergeNext hp = mem from if_neg list.limit_ne_next]
  exact if_neg fun bad => list.limit_ne inQ (bad.trans link)

/-- The two parts of a block are put together again. The header of the second stays behind. -/
theorem FreeList.insert_split (split : k + 8 ≤ (mem hp).size) : insertBlock q hp (takeBlock heapp k q hp mem) =
      update mem (hp + 8 + k) ⟨(mem hp).u, (mem hp).size - 8 - k⟩ := by
  have inQ : q ∈ hFree heapp :: A := by rw [pred]; simp
  have out := list.pred_outside pred
  have inMemory := (list.inMemory hp (by simp)).2
  have link := list.pred_link pred
  simp only [stop, extent, sizeofHeader] at out inMemory
  have apart : q ≠ hp ∧ q ≠ hp + 8 + k ∧ hp ≠ hp + 8 + k := by omega
  have linked : ((takeBlock heapp k q hp mem).setU hp ((takeBlock heapp k q hp mem) q).u).setU q hp =
      update (update mem hp ⟨hp + 8 + k, k⟩) (hp + 8 + k) ⟨(mem hp).u, (mem hp).size - 8 - k⟩ := by
    rw [takeBlock_split split (by omega)]
    funext x
    by_cases isQ : x = q
    · subst isQ
      ext <;> simp [link, apart]
    · by_cases isHp : x = hp
      · subst isHp
        ext <;> simp [apart, apart.1.symm]
      · by_cases isFp : x = hp + 8 + k
        · subst isFp
          ext <;> simp [apart, apart.2.2.symm, apart.2.1.symm]
        · ext <;> simp [isQ, isHp, isFp]
  have merged : HeapMem.mergeNext (update (update mem hp ⟨hp + 8 + k, k⟩) (hp + 8 + k)
      ⟨(mem hp).u, (mem hp).size - 8 - k⟩) hp = update mem (hp + 8 + k) ⟨(mem hp).u, (mem hp).size - 8 - k⟩ := by
    have limit : wordAdd (wordAdd hp sizeofHeader) k = hp + 8 + k := by
      rw [wordAdd_header (by omega), wordAdd_of_lt (by omega)]
    have sum : wordAdd k (wordAdd ((mem hp).size - 8 - k) sizeofHeader) = (mem hp).size := by
      simp only [wordAdd, sizeofHeader]
      omega
    rw [HeapMem.mergeNext, if_pos (by simpa [HeapMem.limit, apart] using limit)]
    funext x
    by_cases isHp : x = hp
    · subst isHp
      ext <;> simp [apart, sum]
    · by_cases isFp : x = hp + 8 + k
      · subst isFp
        ext <;> simp [isHp]
      · ext <;> simp [isHp, isFp]
  rw [insertBlock_eq apart.1, linked, merged]
  refine if_neg fun bad => list.limit_ne inQ ?_
  simpa [HeapMem.limit, apart, link] using bad

end

/-- The search of `chHeapFree` for the place of a block that is not in the list. -/
theorem FreeList.place {fuel : Nat} (list : FreeList heapp mem (A ++ B)) (enough : (A ++ B).length < fuel)
    (pred : hFree heapp :: A = G ++ [q]) (below : ∀ a ∈ A, a < hp) (above : ∀ b ∈ B, hp < b) :
    freeLoop (hFree heapp) hp fuel (hFree heapp) mem = some (insertBlock q hp mem) := by
  obtain ⟨G', q', pred', done⟩ := freeLoop_spec (hFree heapp) hp above fuel (hFree heapp) A enough list.chain (.inl rfl) below
  obtain ⟨-, same⟩ := List.append_inj' (pred.symm.trans pred') rfl
  rw [done, List.singleton_inj.1 same]

/-- All that is left of the block's time outside the list is a header inside it. -/
theorem FreeList.insert_take (list : FreeList heapp mem (A ++ hp :: B)) (pred : hFree heapp :: A = G ++ [q])
    (fits : k + 8 < 2 ^ 32)
    (x : Nat) : insertBlock q hp (takeBlock heapp k q hp mem) x = mem x ∨ x = hp + 8 + k ∧ k + 8 ≤ (mem hp).size := by
  rcases lt_or_ge (mem hp).size (k + 8) with whole | split
  · rw [list.insert_whole pred whole fits]
    exact .inl rfl
  · rw [list.insert_split pred split]
    by_cases rest : x = hp + 8 + k
    · exact .inr ⟨rest, split⟩
    · exact .inl (Function.update_of_ne rest ..)

theorem FreeList.place_taken {fuel : Nat} (list : FreeList heapp mem (A ++ hp :: B)) (enough : (A ++ hp :: B).length < fuel)
    (pred : hFree heapp :: A = G ++ [q]) (fits : k + 8 < 2 ^ 32) (large : k ≤ (mem hp).size) :
    freeLoop (hFree heapp) hp fuel (hFree heapp) (takeBlock heapp k q hp mem) =
      some (insertBlock q hp (takeBlock heapp k q hp mem)) := by
  obtain ⟨-, right, before⟩ := pairwise_append.1 list.increasing
  obtain ⟨behind, -⟩ := pairwise_cons.1 right
  refine (list.take pred fits large).place ?_ pred (fun a member => before a member hp (by simp)) fun b member => ?_
  · refine lt_of_le_of_lt ?_ enough
    rw [leftover]
    split <;> simp
  · rcases mem_append.1 member with member | member
    · rw [leftover] at member
      split at member
      · cases member
      · rw [List.mem_singleton.1 member, sizeofHeader]
        omega
    · exact behind b member

/-- Freeing a block that has just been allocated from the list puts the list back. -/
theorem free_undoes_alloc {heap : MemoryHeap} {core : MemCore} {n fuel : Nat} (list : FreeList heap.addr mem F)
    (enough : F.length < fuel) (adds : memAlignNext n + sizeofHeader < 2 ^ 32) (fits : ∃ a ∈ F, memAlignNext n ≤ (mem a).size) :
    ∃ a ∈ F, ∃ mem' mem'', chHeapAlloc fuel heap n mem core = some (a + sizeofHeader, mem', core) ∧
      chHeapFree fuel (a + sizeofHeader) mem' = some mem'' ∧ (∀ x ∈ hFree heap.addr :: F, mem'' x = mem x) ∧
      ∀ x, mem'' x ≠ mem x → Extent.Within ⟨x, sizeofHeader⟩ ⟨a + sizeofHeader, (mem a).size⟩ := by
  rcases allocLoop_spec heap.addr (memAlignNext n) fuel _ F enough list.chain with
    ⟨small, -⟩ | ⟨A, hp, B, G, q, rfl, pred, -, large, done⟩
  · obtain ⟨a, member, fits⟩ := fits
    exact absurd fits (not_le.2 (small a member))
  · have inMemory := (list.inMemory hp (by simp)).2
    simp only [stop, extent, sizeofHeader] at inMemory
    have sum : wordAdd hp sizeofHeader = hp + sizeofHeader := wordAdd_header (by omega)
    have back : wordSub (hp + sizeofHeader) sizeofHeader = hp := by
      rw [wordSub_of_le (by omega) (by simp only [sizeofHeader]; omega), Nat.add_sub_cancel]
    have owner : (takeBlock heap.addr (memAlignNext n) q hp mem hp).u = heap.addr := by simp [takeBlock]
    have left := list.insert_take pred adds
    refine ⟨hp, by simp, takeBlock heap.addr (memAlignNext n) q hp mem, insertBlock q hp
      (takeBlock heap.addr (memAlignNext n) q hp mem), ?_, ?_, fun x member => ?_, fun x changed => ?_⟩
    · simp only [chHeapAlloc, done, sum, Option.bind_eq_bind, Option.bind_some]
      rfl
    · simp only [chHeapFree, back, owner]
      exact list.place_taken enough pred adds large
    · refine (left x).resolve_right fun rest => ?_
      by_cases same : x = hp
      · omega
      · have out := list.node_outside (by simpa [same] using member)
        simp only [stop, extent, sizeofHeader] at out
        omega
    · obtain ⟨rfl, split⟩ := (left x).resolve_left changed
      simp only [Extent.Within, stop, sizeofHeader]
      omega

/-- A heap in its own buffer has such a list at all times. -/
theorem HeapInv.freeListOk {c : HeapConf} {s : HeapSys} {ts : List Tile} (inv : HeapInv c s ts) :
    FreeList c.heapp s.mem (freeAddrs ts) := by
  have tile {a : Nat} (member : a ∈ freeAddrs ts) : ∃ n, ⟨a, n, none⟩ ∈ ts ∧ s.mem.extent a = ⟨a, 8 + n⟩ ∧
      c.buf ≤ a ∧ a + 8 + n ≤ c.buf + c.size := by
    obtain ⟨n, mem⟩ := mem_freeAddrs.1 member
    have size := inv.sizes _ mem
    have bound := inv.in_buffer mem
    exact ⟨n, mem, by simp [extent, size, sizeofHeader], bound⟩
  have inMemory := c.inMemory
  have disjoint := c.disjoint
  simp only [sizeofMemoryHeap] at disjoint
  refine ⟨inv.chain, inv.header, c.descriptor, fun a member => ?_, fun a member => ?_, ?_⟩
  · obtain ⟨n, -, extent, start, last⟩ := tile member
    have pos := c.buf_pos
    rw [extent, stop]
    dsimp only
    omega
  · obtain ⟨n, -, extent, start, last⟩ := tile member
    rw [extent]
    simp only [Extent.Apart, stop, descriptorExtent, sizeofMemoryHeap]
    omega
  · refine List.pairwise_map.2 ((inv.tiled.sorted.filter _).imp_of_mem fun {t u} left right before => ?_)
    obtain ⟨memT, freeT⟩ := List.mem_filter.1 left
    obtain ⟨memU, freeU⟩ := List.mem_filter.1 right
    have apart := inv.notAdjacent t memT u memU (Option.isNone_iff_eq_none.1 freeT) (Option.isNone_iff_eq_none.1 freeU)
    have size := inv.sizes t memT
    simp only [Tile.limit, sizeofHeader] at before apart
    simp only [stop, extent, size, sizeofHeader]
    omega

/-- The only block of a fresh heap, split by a request of ten bytes. -/
theorem free_undoes_alloc_heap64 : ∃ a ∈ [4096], ∃ mem' mem'',
    chHeapAlloc 2 (heapLts heap64).init.heap 10 (heapLts heap64).init.mem ⟨0, 0⟩ = some (a + sizeofHeader, mem', ⟨0, 0⟩) ∧
      chHeapFree 2 (a + sizeofHeader) mem' = some mem'' ∧
      (∀ x ∈ hFree (heapLts heap64).init.heap.addr :: [4096], mem'' x = (heapLts heap64).init.mem x) ∧
      ∀ x, mem'' x ≠ (heapLts heap64).init.mem x →
        Extent.Within ⟨x, sizeofHeader⟩ ⟨a + sizeofHeader, ((heapLts heap64).init.mem a).size⟩ :=
  free_undoes_alloc (heapInv_init).freeListOk (by decide) (by decide) ⟨4096, by simp, by decide⟩

end ChibiOS.Kernel
