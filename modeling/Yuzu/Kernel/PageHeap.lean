/-
  File:      Yuzu/Kernel/PageHeap.lean
  Subject:   KPageHeap (k_page_heap.h, k_page_heap.cpp): the free pages of a region as blocks of
             seven sizes.

  Physical addresses lie far below `2 ^ 64`, so they are plain numbers here; 0 is the null address
  of the source and stands for "no block". A level keeps its free blocks in a bitmap; the free
  pages of the heap are the pages of the free blocks of its levels (`freePages`).

  * `Block.LevelOk` and its operations -- one level;
  * `HeapInv` -- the levels are disjoint and lie inside the region;
  * `HeapInv.free` -- freeing adds exactly the pages freed;
  * `HeapInv.allocateByLinearSearch`, `HeapInv.allocateByRandom` -- allocating takes exactly the
    pages returned;
  * `HeapOp.run_conserves` -- all of it, in every reachable heap.
-/
import Yuzu.Common.Alignment
import Yuzu.Lib.Runs
import Yuzu.Kernel.MemoryBlock
import Yuzu.Kernel.PageBitmap

namespace Yuzu.Kernel

open Yuzu.Common (alignUp alignDown)

/-! ## 1. The heap -/

namespace KPageHeap

def memoryBlockPageShifts : List Nat := [0xC, 0x10, 0x15, 0x16, 0x19, 0x1D, 0x1E]

def numMemoryBlockPageShifts : Nat := 7

/-- The shift of a level, and 0 past the last one. -/
def blockShift (i : Nat) : Nat := memoryBlockPageShifts.getD i 0

/-- `KPageHeap::Block`. -/
structure Block where
  bitmap : KPageBitmap
  heapAddress : Nat
  endOffset : Nat
  shift : Nat
  nextShift : Nat

namespace Block

def size (b : Block) : Nat := 2 ^ b.shift

def numPages (b : Block) : Nat := b.size / PageSize

def numFreeBlocks (b : Block) : Nat := b.bitmap.numBits

def numFreePages (b : Block) : Nat := b.numFreeBlocks * b.numPages

/-- The alignment of the first and of the end address of a level with the shifts `bs` and `nbs`. -/
def alignment (bs nbs : Nat) : Nat := if nbs ≠ 0 then 2 ^ nbs else 2 ^ bs

/-- `Initialize`, with the number of words its bitmap takes. -/
def initializeBlock (rng : RandomBitGenerator) (addr size bs nbs : Nat) : Option (Block × Nat) := do
  let align := alignment bs nbs
  let heapAddress := alignDown addr align
  let endOffset := (alignUp (addr + size) align - heapAddress) / 2 ^ bs
  let (bitmap, words) ← KPageBitmap.initializeBitmap rng endOffset
  return (⟨bitmap, heapAddress, endOffset, bs, nbs⟩, words)

/-- `PushBlock`: the address of the next larger block if this one completes it, or 0. -/
def pushBlock (b : Block) (address : Nat) : Option (Nat × Block) := do
  let offset := (address - b.heapAddress) / 2 ^ b.shift
  let bitmap ← b.bitmap.setBit offset
  if b.nextShift ≠ 0 then do
    let diff := 2 ^ (b.nextShift - b.shift)
    let offset := alignDown offset diff
    let (coalesced, bitmap) ← bitmap.clearRange offset diff
    return (if coalesced then b.heapAddress + offset * 2 ^ b.shift else 0, { b with bitmap := bitmap })
  else return (0, { b with bitmap := bitmap })

def popBlock (b : Block) (random : Bool) : Option (Nat × Block) := do
  match ← b.bitmap.findFreeBlock random with
  | (none, bitmap) => return (0, { b with bitmap := bitmap })
  | (some offset, bitmap) => do
    let bitmap ← bitmap.clearBit offset
    return (b.heapAddress + offset * 2 ^ b.shift, { b with bitmap := bitmap })

/-- The offsets whose bits are set. -/
def freeOffsets (b : Block) : Finset Nat :=
  (Finset.range b.endOffset).filter fun o => b.bitmap.storage.bit (b.bitmap.usedDepths - 1) o

/-- The pages of the free blocks of the level, by number. -/
def freePages (b : Block) : Finset Nat := runs (b.heapAddress / PageSize) b.numPages b.freeOffsets

end Block

end KPageHeap

structure KPageHeap where
  heapAddress : Nat
  heapSize : Nat
  numBlocks : Nat
  blocks : Nat → KPageHeap.Block
  rng : RandomBitGenerator

namespace KPageHeap

def endAddress (h : KPageHeap) : Nat := h.heapAddress + h.heapSize

def setBlock (h : KPageHeap) (i : Nat) (b : Block) : KPageHeap :=
  { h with blocks := fun j => if j = i then b else h.blocks j }

def setRng (h : KPageHeap) (g : RandomBitGenerator) : KPageHeap := { h with rng := g }

/-- The loop of `Initialize` over the first `n` levels. -/
def initializeBlocks (rngs : Nat → RandomBitGenerator) (address size : Nat) : Nat → Option (Nat → Block)
  | 0 => some fun _ => ⟨⟨fun _ _ => 0, fun _ => 0, rngs 0, 0, 0⟩, 0, 0, 0, 0⟩
  | n + 1 => do
    let blocks ← initializeBlocks rngs address size n
    let (b, _) ← Block.initializeBlock (rngs n) address size (blockShift n) (blockShift (n + 1))
    return fun i => if i = n then b else blocks i

/-- `Initialize`, for generators of the bitmaps and of the heap that draw from any streams. -/
def initializeHeap (rngs : Nat → RandomBitGenerator) (rng : RandomBitGenerator)
    (address size : Nat) : Option KPageHeap := do
  assert (address % PageSize = 0)
  assert (size % PageSize = 0)
  let blocks ← initializeBlocks rngs address size numMemoryBlockPageShifts
  return ⟨address, size, numMemoryBlockPageShifts, blocks, rng⟩

def numFreePages (h : KPageHeap) : Nat :=
  ((List.range h.numBlocks).map fun i => (h.blocks i).numFreePages).sum

def getFreeSize (h : KPageHeap) : Nat := h.numFreePages * PageSize

/-- The free pages of the heap: those of its levels. -/
def freePages (h : KPageHeap) : Finset Nat :=
  (Finset.range h.numBlocks).biUnion fun i => (h.blocks i).freePages

/-- The loop of `FreeBlock` with `n` levels left: a completed block is pushed one level up. -/
def freeBlockLoop : Nat → Nat → Nat → KPageHeap → Option KPageHeap
  | 0, _, _, _ => none
  | n + 1, block, index, h => do
    let (block, b) ← (h.blocks index).pushBlock block
    let h := h.setBlock index b
    if block ≠ 0 then freeBlockLoop n block (index + 1) h else some h

def freeBlock (h : KPageHeap) (block index : Nat) : Option KPageHeap :=
  freeBlockLoop (h.numBlocks - index) block index h

/-- The search for the largest block size below level `n` that fits: its level and the first and
    last addresses at which its blocks fit. -/
def findBig (h : KPageHeap) (start stop : Nat) : Nat → Option (Nat × Nat × Nat)
  | 0 => none
  | n + 1 =>
    let blockSize := (h.blocks n).size
    let bigStart := alignUp start blockSize
    let bigEnd := alignDown stop blockSize
    if bigStart < bigEnd then some (n, bigStart, bigEnd) else findBig h start stop n

/-- Free as many big blocks as fit, from `block` to `bigEnd`. -/
def freeBig (index : Nat) : Nat → Nat → Nat → KPageHeap → Option KPageHeap
  | 0, _, _, _ => none
  | fuel + 1, block, bigEnd, h =>
    if block < bigEnd then do
      let size := (h.blocks index).size
      freeBig index fuel (block + size) bigEnd (← h.freeBlock block index)
    else some h

/-- The blocks of one level before the big blocks, downwards from `stop`. -/
def freeDown (index : Nat) : Nat → Nat → Nat → KPageHeap → Option (Nat × KPageHeap)
  | 0, _, _, _ => none
  | fuel + 1, start, stop, h =>
    if start + (h.blocks index).size ≤ stop then do
      let stop := stop - (h.blocks index).size
      freeDown index fuel start stop (← h.freeBlock stop index)
    else some (stop, h)

/-- The blocks of one level after the big blocks, upwards from `start`. -/
def freeUp (index : Nat) : Nat → Nat → Nat → KPageHeap → Option (Nat × KPageHeap)
  | 0, _, _, _ => none
  | fuel + 1, start, stop, h =>
    if start + (h.blocks index).size ≤ stop then do
      let size := (h.blocks index).size
      freeUp index fuel (start + size) stop (← h.freeBlock start index)
    else some (start, h)

/-- Free space before the big blocks, level by level downwards. -/
def freeBefore (fuel : Nat) : Nat → Nat → Nat → KPageHeap → Option KPageHeap
  | 0, _, _, h => some h
  | i + 1, start, stop, h => do
    let (stop, h) ← freeDown i fuel start stop h
    freeBefore fuel i start stop h

/-- Free space after the big blocks. -/
def freeAfter (fuel : Nat) : Nat → Nat → Nat → KPageHeap → Option KPageHeap
  | 0, _, _, h => some h
  | i + 1, start, stop, h => do
    let (start, h) ← freeUp i fuel start stop h
    freeAfter fuel i start stop h

def free (h : KPageHeap) (addr numPages : Nat) : Option KPageHeap :=
  if numPages = 0 then some h
  else do
    let stop := addr + numPages * PageSize
    let (bigIndex, bigStart, bigEnd) ← h.findBig addr stop h.numBlocks
    let h ← freeBig bigIndex (numPages + 1) bigStart bigEnd h
    let h ← freeBefore (numPages + 1) bigIndex addr bigStart h
    freeAfter (numPages + 1) bigIndex bigEnd stop h

/-- `if (cond) this->Free(addr, num_pages)`. -/
def freeIf (h : KPageHeap) (cond : Bool) (addr numPages : Nat) : Option KPageHeap :=
  if cond then h.free addr numPages else some h

/-- The loop of `AllocateByLinearSearch` with `n` levels left. -/
def allocateByLinearSearchLoop (neededSize : Nat) : Nat → Nat → KPageHeap → Option (Nat × KPageHeap)
  | 0, _, h => some (0, h)
  | n + 1, i, h => do
    let (addr, b) ← (h.blocks i).popBlock false
    let h := h.setBlock i b
    if addr ≠ 0 then do
      let allocatedSize := (h.blocks i).size
      let h ← h.freeIf (allocatedSize > neededSize) (addr + neededSize)
        ((allocatedSize - neededSize) / PageSize)
      return (addr, h)
    else allocateByLinearSearchLoop neededSize n (i + 1) h

def allocateByLinearSearch (h : KPageHeap) (index : Nat) : Option (Nat × KPageHeap) :=
  allocateByLinearSearchLoop (h.blocks index).size (h.numBlocks - index) index h

/-- The alignments a level offers. -/
def levelAlignments (h : KPageHeap) (neededSize alignShift i : Nat) : Nat :=
  (1 + ((h.blocks i).size - neededSize) / 2 ^ alignShift) * (h.blocks i).numFreeBlocks

/-- The first loop of `AllocateByRandom`, `n` levels left from level `i`: the levels to look at
    and the alignments they offer. -/
def countAlignments (h : KPageHeap) (neededSize alignShift : Nat) : Nat → Nat → Nat → Nat × Nat
  | 0, i, possible => (i, possible)
  | n + 1, i, possible =>
    let possible := possible + h.levelAlignments neededSize alignShift i
    if possible ≥ 4 then (i + 1, possible)
    else countAlignments h neededSize alignShift n (i + 1) possible

/-- The second loop: the level of the alignment chosen, or the one given. -/
def chooseLevel (h : KPageHeap) (neededSize alignShift rnd index : Nat) : Nat → Nat → Nat → Nat
  | 0, _, _ => index
  | n + 1, i, possible =>
    let possible := possible + h.levelAlignments neededSize alignShift i
    if rnd < possible then i
    else chooseLevel h neededSize alignShift rnd index n (i + 1) possible

/-- Decide on a level to allocate from. -/
def selectLevel (h : KPageHeap) (index neededSize alignShift : Nat) : Nat × KPageHeap :=
  let (maxBlocks, possible) :=
    h.countAlignments neededSize alignShift (h.numBlocks - index) index 0
  if possible > 0 ∧ index + 1 < maxBlocks then
    let (rnd, g) := h.rng.generateRandom possible
    (h.chooseLevel neededSize alignShift rnd index (maxBlocks - index) index 0, h.setRng g)
  else (index, h)

def allocateByRandom (h : KPageHeap) (index numPages alignPages : Nat) : Option (Nat × KPageHeap) := do
  let neededSize := numPages * PageSize
  let alignSize := alignPages * PageSize
  let alignShift := countrZero 64 alignSize
  -- a 64-bit word cannot be shifted by 64
  assert (alignShift < 64)
  let (index, h) := h.selectLevel index neededSize alignShift
  let (addr, b) ← (h.blocks index).popBlock true
  let h := h.setBlock index b
  if addr ≠ 0 then
    let leftoverSize := (h.blocks index).size - neededSize
    if leftoverSize > 0 then do
      let possibleAlignments := 1 + leftoverSize / 2 ^ alignShift
      let (rnd, g) := h.rng.generateRandom possibleAlignments
      let h := h.setRng g
      let randomOffset := rnd * 2 ^ alignShift
      let h ← h.freeIf (randomOffset ≠ 0) addr (randomOffset / PageSize)
      let addr := addr + randomOffset
      let h ← h.freeIf (randomOffset ≠ leftoverSize) (addr + neededSize)
        ((leftoverSize - randomOffset) / PageSize)
      return (addr, h)
    else some (addr, h)
  else some (0, h)

def allocateBlock (h : KPageHeap) (index : Nat) (random : Bool) : Option (Nat × KPageHeap) :=
  if random then
    let blockPages := (h.blocks index).numPages
    h.allocateByRandom index blockPages blockPages
  else h.allocateByLinearSearch index

def allocateAligned (h : KPageHeap) (index numPages alignPages : Nat) : Option (Nat × KPageHeap) :=
  h.allocateByRandom index numPages alignPages

/-- `GetAlignedBlockIndex`, with `none` for -1. -/
def getAlignedBlockIndex (numPages alignPages : Nat) : Option Nat :=
  (List.range numMemoryBlockPageShifts).find? fun i =>
    max numPages alignPages ≤ 2 ^ blockShift i / PageSize

end KPageHeap

/-! ## 2. One level -/

namespace KPageHeap

/-- The pages from one address to another, by number. -/
def pageRange (start stop : Nat) : Finset Nat := Finset.Ico (start / PageSize) (stop / PageSize)

theorem blockShift_spec : ∀ i < 7, 12 ≤ blockShift i ∧ blockShift i ≤ 30 ∧
    (blockShift (i + 1) = 0 ↔ i = 6) ∧
    (i < 6 → blockShift i < blockShift (i + 1) ∧ blockShift (i + 1) ≤ blockShift i + 5) := by
  decide

/-- The alignment of the first block of level `i`. -/
def levelAlign (i : Nat) : Nat := Block.alignment (blockShift i) (blockShift (i + 1))

theorem blockSize_dvd_levelAlign {i : Nat} (hi : i < 7) : 2 ^ blockShift i ∣ levelAlign i := by
  obtain ⟨-, -, h3, h4⟩ := blockShift_spec i hi
  unfold levelAlign Block.alignment
  split
  · exact Nat.pow_dvd_pow 2 (Nat.le_of_lt (h4 (by omega)).1)
  · exact Nat.dvd_refl _

theorem pageSize_dvd_blockSize {i : Nat} (hi : i < 7) : PageSize ∣ 2 ^ blockShift i :=
  Nat.pow_dvd_pow 2 (m := 12) (blockShift_spec i hi).1

namespace Block

/-- The level `i` of a heap from `lo` to `hi`. -/
structure LevelOk (b : Block) (i lo hi : Nat) : Prop where
  shift_eq : b.shift = blockShift i
  next_eq : b.nextShift = blockShift (i + 1)
  aligned : levelAlign i ∣ b.heapAddress
  base_le : b.heapAddress ≤ lo
  offset_lt : ∀ a, lo ≤ a → a < hi → (a - b.heapAddress) / 2 ^ b.shift < b.endOffset
  rep : b.bitmap.Represents b.endOffset b.freeOffsets

variable {b : Block} {i lo hi : Nat}

theorem freeOffsets_eq {S : Finset Nat} (h : b.bitmap.Represents b.endOffset S) : b.freeOffsets = S := by
  ext o
  rw [freeOffsets, Finset.mem_filter, Finset.mem_range, h.mem]
  exact ⟨And.right, fun ho => ⟨h.lt o ho, ho⟩⟩

/-- A level whose bitmap has changed to the set `S`. -/
theorem LevelOk.withBitmap (h : b.LevelOk i lo hi) {bm : KPageBitmap} {S : Finset Nat}
    (hb : bm.Represents b.endOffset S) :
    LevelOk { b with bitmap := bm } i lo hi ∧
      freePages { b with bitmap := bm } = runs (b.heapAddress / PageSize) b.numPages S := by
  have e : freeOffsets { b with bitmap := bm } = S :=
    freeOffsets_eq (b := { b with bitmap := bm }) hb
  refine ⟨⟨h.shift_eq, h.next_eq, h.aligned, h.base_le, h.offset_lt, ?_⟩, ?_⟩
  · rw [e]
    exact hb
  · rw [freePages, e]
    rfl

section

variable (h : b.LevelOk i lo hi) (hi7 : i < 7)

include h hi7

theorem LevelOk.numPages_eq : b.numPages * PageSize = 2 ^ b.shift ∧ 0 < b.numPages := by
  have hd : PageSize ∣ 2 ^ b.shift := by
    rw [h.shift_eq]
    exact pageSize_dvd_blockSize hi7
  have e : b.numPages * PageSize = 2 ^ b.shift := Nat.div_mul_cancel hd
  refine ⟨e, Nat.pos_of_ne_zero fun hz => ?_⟩
  rw [hz, Nat.zero_mul] at e
  exact absurd e.symm (Nat.pos_iff_ne_zero.mp (Nat.two_pow_pos _))

theorem LevelOk.pageRange_eq (o o' : Nat) :
    pageRange (b.heapAddress + o * 2 ^ b.shift) (b.heapAddress + o' * 2 ^ b.shift) =
      Finset.Ico (b.heapAddress / PageSize + o * b.numPages)
        (b.heapAddress / PageSize + o' * b.numPages) := by
  have e : ∀ k, (b.heapAddress + k * 2 ^ b.shift) / PageSize =
      b.heapAddress / PageSize + k * b.numPages := fun k => by
    rw [← (h.numPages_eq hi7).1, ← Nat.mul_assoc, Nat.add_mul_div_right _ _ (by decide)]
  rw [pageRange, e, e]

theorem LevelOk.offset_spec {a : Nat} (ha : 2 ^ b.shift ∣ a) (hlo : lo ≤ a) :
    b.heapAddress + (a - b.heapAddress) / 2 ^ b.shift * 2 ^ b.shift = a := by
  have hb : 2 ^ b.shift ∣ b.heapAddress := by
    rw [h.shift_eq]
    exact (blockSize_dvd_levelAlign hi7).trans h.aligned
  have hle := h.base_le
  rw [Nat.div_mul_cancel (Nat.dvd_sub ha hb)]
  omega

/-- **Pushing a block**: its pages become free; or they complete a block of the next level, whose
    pages leave this level and whose address is returned. -/
theorem LevelOk.pushBlock {a : Nat} (ha : 2 ^ b.shift ∣ a) (hlo : lo ≤ a)
    (hhi : a + 2 ^ b.shift ≤ hi) (hd : Disjoint (pageRange a (a + 2 ^ b.shift)) b.freePages) :
    ∃ r b', b.pushBlock a = some (r, b') ∧ b'.LevelOk i lo hi ∧
      ((r = 0 ∧ b'.freePages = b.freePages ∪ pageRange a (a + 2 ^ b.shift)) ∨
        (i < 6 ∧ r = alignDown a (2 ^ blockShift (i + 1)) ∧ pageRange r (r + 2 ^ blockShift (i + 1)) ⊆
            b.freePages ∪ pageRange a (a + 2 ^ b.shift) ∧
          b'.freePages = (b.freePages ∪ pageRange a (a + 2 ^ b.shift)) \
            pageRange r (r + 2 ^ blockShift (i + 1)))) := by
  obtain ⟨hn, hpos⟩ := h.numPages_eq hi7
  have hsz : 0 < 2 ^ b.shift := Nat.two_pow_pos _
  have eo := h.offset_spec hi7 ha hlo
  have holt := h.offset_lt a hlo (by omega)
  generalize (a - b.heapAddress) / 2 ^ b.shift = o at eo holt
  have hX : pageRange a (a + 2 ^ b.shift) = Finset.Ico (b.heapAddress / PageSize + o * b.numPages)
      (b.heapAddress / PageSize + (o + 1) * b.numPages) := by
    rw [← h.pageRange_eq hi7, eo, Nat.add_mul, Nat.one_mul, ← Nat.add_assoc, eo]
  have hoS : o ∉ b.freeOffsets := fun ho => by
    have hp : b.heapAddress / PageSize + o * b.numPages ∈ b.freePages := by
      rw [freePages, mem_runs hpos]
      exact ⟨Nat.le_add_right _ _, by rwa [Nat.add_sub_cancel_left, Nat.mul_div_cancel _ hpos]⟩
    rw [hX] at hd
    refine Finset.disjoint_left.mp hd (Finset.mem_Ico.mpr ⟨Nat.le_refl _, ?_⟩) hp
    rw [Nat.add_mul]
    omega
  obtain ⟨bm1, hbm1, hrep1⟩ := h.rep.setBit holt hoS
  have hpages : ∀ S : Finset Nat, S = insert o b.freeOffsets →
      runs (b.heapAddress / PageSize) b.numPages S = b.freePages ∪ pageRange a (a + 2 ^ b.shift) := by
    rintro S rfl
    rw [runs_insert, hX]
    rfl
  have hoff : (a - b.heapAddress) / 2 ^ b.shift = o := by
    rw [← eo, Nat.add_sub_cancel_left, Nat.mul_div_cancel _ hsz]
  rw [Block.pushBlock]
  rw [hoff, hbm1]
  by_cases hnext : b.nextShift = 0
  · have hlev := h.withBitmap hrep1
    refine ⟨0, { b with bitmap := bm1 }, ?_, hlev.1, .inl ⟨rfl, hlev.2.trans (hpages _ rfl)⟩⟩
    simp only [hnext, ne_eq, not_true_eq_false, if_false, Option.bind_eq_bind, Option.bind_some]
    rfl
  · obtain ⟨-, -, h3, h4⟩ := blockShift_spec i hi7
    have hi6 : i < 6 := by
      rw [h.next_eq] at hnext
      omega
    obtain ⟨hlt, hle⟩ := h4 hi6
    rw [← h.next_eq, ← h.shift_eq] at hlt hle
    -- the blocks of the next one: fewer than 64, and aligned inside a word
    have hdiff : 2 ^ (b.nextShift - b.shift) ∣ 2 ^ 5 := Nat.pow_dvd_pow 2 (by omega)
    have hsplit : 2 ^ blockShift (i + 1) = 2 ^ (b.nextShift - b.shift) * 2 ^ b.shift := by
      rw [← Nat.pow_add, ← h.next_eq]
      congr 1
      omega
    have hal : 2 ^ blockShift (i + 1) ∣ b.heapAddress := by
      have := h.aligned
      rwa [levelAlign, alignment, if_pos (by rw [← h.next_eq]; exact hnext)] at this
    have hdpos : 0 < 2 ^ (b.nextShift - b.shift) := Nat.two_pow_pos _
    simp only [hnext, ne_eq, not_false_eq_true, if_true, Option.bind_eq_bind, Option.bind_some]
    generalize 2 ^ (b.nextShift - b.shift) = diff at hdiff hsplit hdpos
    have hd64 : diff < 64 := Nat.lt_of_le_of_lt (Nat.le_of_dvd (by decide) hdiff) (by decide)
    have hfit : alignDown o diff % 64 + diff ≤ 64 := by
      have h1 : diff ∣ alignDown o diff % 64 :=
        (Nat.dvd_mod_iff (hdiff.trans (by decide))).mpr Common.dvd_alignDown
      have h2 : diff ∣ 64 := hdiff.trans (by decide)
      have h4 := Nat.le_of_dvd (by omega) (Nat.dvd_sub h2 h1)
      omega
    obtain ⟨bm2, hbm2, hrep2⟩ := hrep1.clearRange hdpos hd64 hfit
    have hlev := h.withBitmap hrep2
    rw [hbm2]
    refine ⟨_, { b with bitmap := bm2 }, rfl, hlev.1, ?_⟩
    by_cases hall : ∀ j ∈ Finset.Ico (alignDown o diff) (alignDown o diff + diff),
        j ∈ insert o b.freeOffsets
    · rw [if_pos hall] at hlev
      have hr : b.heapAddress + alignDown o diff * 2 ^ b.shift = alignDown a (2 ^ blockShift (i + 1)) := by
        obtain ⟨c, hc⟩ := hal
        rw [Common.alignDown_eq_mul_div, Common.alignDown_eq_mul_div, ← eo, hc, hsplit,
          Nat.mul_add_div (Nat.mul_pos hdpos hsz), Nat.mul_comm diff,
          ← Nat.div_div_eq_div_mul, Nat.mul_div_cancel _ hsz]
        ring
      have hY : pageRange (alignDown a (2 ^ blockShift (i + 1)))
          (alignDown a (2 ^ blockShift (i + 1)) + 2 ^ blockShift (i + 1)) =
          Finset.Ico (b.heapAddress / PageSize + alignDown o diff * b.numPages)
            (b.heapAddress / PageSize + (alignDown o diff + diff) * b.numPages) := by
        rw [← h.pageRange_eq hi7, hr, Nat.add_mul, ← Nat.add_assoc, hr, hsplit]
      refine .inr ⟨hi6, ?_, ?_, ?_⟩
      · rw [decide_eq_true hall, if_pos rfl, hr]
      · rw [decide_eq_true hall, if_pos rfl, hr, hY, ← hpages _ rfl]
        exact Ico_subset_runs hpos hall
      · rw [decide_eq_true hall, if_pos rfl, hr, hY, hlev.2, runs_sdiff_Ico hpos, hpages _ rfl]
    · rw [if_neg hall] at hlev
      refine .inl ⟨?_, hlev.2.trans (hpages _ rfl)⟩
      rw [decide_eq_false hall]
      rfl

/-- **Popping a block**: none if the level has none, else the pages of the block returned leave
    the level. -/
theorem LevelOk.popBlock (random : Bool) : ∃ r b', b.popBlock random = some (r, b') ∧ b'.LevelOk i lo hi ∧
    ((r = 0 ∧ b'.freePages = b.freePages) ∨ (2 ^ b.shift ∣ r ∧ pageRange r (r + 2 ^ b.shift) ⊆ b.freePages ∧
        b'.freePages = b.freePages \ pageRange r (r + 2 ^ b.shift))) := by
  obtain ⟨hn, hpos⟩ := h.numPages_eq hi7
  obtain ⟨r, g, hfind, hmem, -⟩ := h.rep.findFreeBlock random
  rw [Block.popBlock, hfind]
  cases r with
  | none =>
    have hlev := h.withBitmap (h.rep.withRng g)
    exact ⟨0, _, rfl, hlev.1, .inl ⟨rfl, hlev.2⟩⟩
  | some o =>
    have ho := hmem o rfl
    obtain ⟨bm, hbm, hrep⟩ := (h.rep.withRng g).clearBit ho
    have hlev := h.withBitmap hrep
    refine ⟨b.heapAddress + o * 2 ^ b.shift, { b with bitmap := bm }, ?_, hlev.1, .inr ⟨?_, ?_⟩⟩
    · simp only [Option.bind_eq_bind, Option.bind_some, hbm]
      rfl
    · refine Nat.dvd_add ?_ (Nat.dvd_mul_left _ _)
      rw [h.shift_eq]
      exact (blockSize_dvd_levelAlign hi7).trans h.aligned
    · have hX : pageRange (b.heapAddress + o * 2 ^ b.shift)
          (b.heapAddress + o * 2 ^ b.shift + 2 ^ b.shift) =
          Finset.Ico (b.heapAddress / PageSize + o * b.numPages)
            (b.heapAddress / PageSize + (o + 1) * b.numPages) := by
        rw [← h.pageRange_eq hi7, Nat.add_mul, Nat.one_mul, ← Nat.add_assoc]
      rw [hX, hlev.2, runs_erase hpos]
      refine ⟨Ico_subset_runs hpos fun j hj => ?_, rfl⟩
      obtain rfl : j = o := by
        rw [Finset.mem_Ico] at hj
        omega
      exact ho

end

end Block

end KPageHeap

/-! ## 3. The levels together -/

namespace KPageHeap

/-- The invariant of the heap: every level is in order, its free pages lie in the region, and no
    page is free at two levels. -/
structure HeapInv (h : KPageHeap) : Prop where
  numBlocks_eq : h.numBlocks = 7
  address_pos : 0 < h.heapAddress
  address_aligned : PageSize ∣ h.heapAddress
  size_aligned : PageSize ∣ h.heapSize
  level : ∀ i < 7, (h.blocks i).LevelOk i h.heapAddress h.endAddress
  inside : ∀ i < 7, (h.blocks i).freePages ⊆ pageRange h.heapAddress h.endAddress
  disjoint : ∀ i < 7, ∀ j < 7, i ≠ j → Disjoint (h.blocks i).freePages (h.blocks j).freePages

/-- `h'` is a heap of the region of `h` whose free pages are `F`. -/
structure Keeps (h h' : KPageHeap) (F : Finset Nat) : Prop where
  inv : HeapInv h'
  address_eq : h'.heapAddress = h.heapAddress
  size_eq : h'.heapSize = h.heapSize
  free_eq : h'.freePages = F

variable {h h' h'' : KPageHeap} {i index : Nat} {F X : Finset Nat}

theorem Keeps.trans (h1 : Keeps h h' X) (h2 : Keeps h' h'' F) : Keeps h h'' F :=
  ⟨h2.inv, h2.address_eq.trans h1.address_eq, h2.size_eq.trans h1.size_eq, h2.free_eq⟩

theorem HeapInv.refl (hv : HeapInv h) : Keeps h h h.freePages := ⟨hv, rfl, rfl, rfl⟩

theorem Keeps.endAddress_eq (hk : Keeps h h' F) : h'.endAddress = h.endAddress := by
  rw [endAddress, endAddress, hk.address_eq, hk.size_eq]

theorem HeapInv.size_eq (hv : HeapInv h) (hi : i < 7) : (h.blocks i).size = 2 ^ blockShift i := by
  rw [Block.size, (hv.level i hi).shift_eq]

theorem HeapInv.mem_freePages (hv : HeapInv h) {p : Nat} :
    p ∈ h.freePages ↔ ∃ i < 7, p ∈ (h.blocks i).freePages := by
  simp only [freePages, Finset.mem_biUnion, Finset.mem_range, hv.numBlocks_eq]

theorem HeapInv.level_subset (hv : HeapInv h) (hi : i < 7) : (h.blocks i).freePages ⊆ h.freePages :=
  fun _ hp => hv.mem_freePages.mpr ⟨i, hi, hp⟩

theorem HeapInv.free_subset (hv : HeapInv h) :
    h.freePages ⊆ pageRange h.heapAddress h.endAddress := fun p hp => by
  obtain ⟨i, hi, hp⟩ := hv.mem_freePages.mp hp
  exact hv.inside i hi hp

theorem HeapInv.end_aligned (hv : HeapInv h) : PageSize ∣ h.endAddress :=
  Nat.dvd_add hv.address_aligned hv.size_aligned

/-- Changing one level: the new level must lie in the region and keep off the other levels. -/
theorem HeapInv.setBlock (hv : HeapInv h) (hi : i < 7) {b : Block}
    (hb : b.LevelOk i h.heapAddress h.endAddress)
    (hin : b.freePages ⊆ pageRange h.heapAddress h.endAddress)
    (hoff : Disjoint b.freePages (h.freePages \ (h.blocks i).freePages)) :
    Keeps h (h.setBlock i b) (h.freePages \ (h.blocks i).freePages ∪ b.freePages) := by
  have hself : (h.setBlock i b).blocks i = b := if_pos rfl
  have hother : ∀ j, j ≠ i → (h.setBlock i b).blocks j = h.blocks j := fun j hj => if_neg hj
  have hdis : ∀ j < 7, j ≠ i → Disjoint b.freePages (h.blocks j).freePages := fun j hj hji => by
    refine Finset.disjoint_left.mpr fun p hp hp' => ?_
    refine Finset.disjoint_left.mp hoff hp (Finset.mem_sdiff.mpr ⟨hv.level_subset hj hp', ?_⟩)
    exact Finset.disjoint_left.mp (hv.disjoint j hj i hi hji) hp'
  have hinv : HeapInv (h.setBlock i b) := by
    refine ⟨hv.numBlocks_eq, hv.address_pos, hv.address_aligned, hv.size_aligned, fun j hj => ?_,
      fun j hj => ?_, fun j hj k hk hjk => ?_⟩
    · by_cases hji : j = i
      · rw [hji, hself]
        exact hb
      · rw [hother j hji]
        exact hv.level j hj
    · by_cases hji : j = i
      · rw [hji, hself]
        exact hin
      · rw [hother j hji]
        exact hv.inside j hj
    · by_cases hji : j = i
      · rw [hji, hself, hother k (by omega)]
        exact hdis k hk (by omega)
      · rw [hother j hji]
        by_cases hki : k = i
        · rw [hki, hself]
          exact (hdis j hj hji).symm
        · rw [hother k hki]
          exact hv.disjoint j hj k hk hjk
  refine ⟨hinv, rfl, rfl, ?_⟩
  ext p
  rw [hinv.mem_freePages, Finset.mem_union, Finset.mem_sdiff, hv.mem_freePages]
  constructor
  · rintro ⟨j, hj, hp⟩
    by_cases hji : j = i
    · rw [hji, hself] at hp
      exact .inr hp
    · rw [hother j hji] at hp
      exact .inl ⟨⟨j, hj, hp⟩, Finset.disjoint_left.mp (hv.disjoint j hj i hi hji) hp⟩
  · rintro (⟨⟨j, hj, hp⟩, hn⟩ | hp)
    · have hji : j ≠ i := fun e => hn (e ▸ hp)
      exact ⟨j, hj, by rwa [hother j hji]⟩
    · exact ⟨i, hi, by rwa [hself]⟩

theorem pageRange_subset {a n lo hi : Nat} (ha : PageSize ∣ a) (hn : PageSize ∣ n) (hpos : 0 < n)
    (hlo : PageSize ∣ lo) (hhi : PageSize ∣ hi) :
    pageRange a (a + n) ⊆ pageRange lo hi ↔ lo ≤ a ∧ a + n ≤ hi := by
  simp only [pageRange, PageSize] at *
  rw [Finset.Ico_subset_Ico_iff]
  · omega
  · omega

/-- **Freeing a block**, by induction over the levels: the pages that leave a level are those of
    the block pushed to the next one. -/
theorem HeapInv.freeBlockLoop : ∀ {n a index : Nat} {h : KPageHeap}, HeapInv h → index + n = 7 →
    index < 7 → 2 ^ blockShift index ∣ a → h.heapAddress ≤ a →
    a + 2 ^ blockShift index ≤ h.endAddress →
    Disjoint (pageRange a (a + 2 ^ blockShift index)) h.freePages →
    ∃ h', freeBlockLoop n a index h = some h' ∧
      Keeps h h' (h.freePages ∪ pageRange a (a + 2 ^ blockShift index)) := by
  intro n
  induction n with
  | zero => intro a index h _ hn hi; omega
  | succ n ih =>
    intro a index h hv hn hi ha hlo hhi hd
    have hl := hv.level index hi
    have hpg := pageSize_dvd_blockSize hi
    have hX := (pageRange_subset (hpg.trans ha) hpg (Nat.two_pow_pos _) hv.address_aligned
      hv.end_aligned).mpr ⟨hlo, hhi⟩
    have hsub := hv.level_subset hi
    obtain ⟨r, b', hpush, hl', hcase⟩ := hl.pushBlock hi (a := a) (by rwa [hl.shift_eq]) hlo
      (by rwa [hl.shift_eq]) (by rw [hl.shift_eq]; exact hd.mono_right hsub)
    rw [hl.shift_eq] at hcase
    generalize hXe : pageRange a (a + 2 ^ blockShift index) = X at *
    rw [KPageHeap.freeBlockLoop, hpush]
    simp only [Option.bind_eq_bind, Option.bind_some]
    rcases hcase with ⟨rfl, hfree⟩ | ⟨hi6, hr, hYs, hfree⟩
    · rw [if_neg (by simp)]
      refine ⟨_, rfl, ?_⟩
      have hk := hv.setBlock hi hl' (by
        rw [hfree]
        exact Finset.union_subset (hv.inside index hi) hX) (by
        rw [hfree]
        exact Finset.disjoint_union_left.mpr ⟨Finset.disjoint_sdiff, hd.mono_right Finset.sdiff_subset⟩)
      rwa [hfree, ← Finset.union_assoc, Finset.sdiff_union_of_subset hsub] at hk
    · -- the completed block
      have hpg' := pageSize_dvd_blockSize (i := index + 1) (by omega)
      have hrd : 2 ^ blockShift (index + 1) ∣ r := hr ▸ Common.dvd_alignDown
      have hYin : pageRange r (r + 2 ^ blockShift (index + 1)) ⊆ pageRange h.heapAddress h.endAddress :=
        hYs.trans (Finset.union_subset (hv.inside index hi) hX)
      obtain ⟨hlo', hhi'⟩ := (pageRange_subset (hpg'.trans hrd) hpg' (Nat.two_pow_pos _)
        hv.address_aligned hv.end_aligned).mp hYin
      have hrpos : r ≠ 0 := by
        have := hv.address_pos
        omega
      rw [if_pos hrpos]
      generalize hYe : pageRange r (r + 2 ^ blockShift (index + 1)) = Y at *
      have hYoff : Disjoint Y (h.freePages \ (h.blocks index).freePages) := by
        refine Finset.disjoint_of_subset_left hYs (Finset.disjoint_union_left.mpr
          ⟨Finset.disjoint_sdiff, hd.mono_right Finset.sdiff_subset⟩)
      have hk := hv.setBlock hi hl' (by
        rw [hfree]
        exact Finset.sdiff_subset.trans (Finset.union_subset (hv.inside index hi) hX)) (by
        rw [hfree]
        exact Finset.disjoint_of_subset_left Finset.sdiff_subset (Finset.disjoint_union_left.mpr
          ⟨Finset.disjoint_sdiff, hd.mono_right Finset.sdiff_subset⟩))
      have hF : h.freePages \ (h.blocks index).freePages ∪ b'.freePages = (h.freePages ∪ X) \ Y := by
        rw [hfree, ← Finset.sdiff_eq_self_of_disjoint hYoff.symm, ← Finset.union_sdiff_distrib,
          ← Finset.union_assoc, Finset.sdiff_union_of_subset hsub]
      rw [hF] at hk
      obtain ⟨h', hh', hk'⟩ := @ih r (index + 1) _ hk.inv (by omega) (by omega) hrd
        hlo' hhi' (by rw [hYe, hk.free_eq]; exact Finset.disjoint_sdiff)
      refine ⟨h', hh', ?_⟩
      have hYF : Y ⊆ h.freePages ∪ X := hYs.trans (Finset.union_subset_union_left hsub)
      have := hk.trans hk'
      rwa [hYe, hk.free_eq, Finset.sdiff_union_of_subset hYF] at this

theorem HeapInv.freeBlock (hv : HeapInv h) {a : Nat} (hi : index < 7)
    (ha : 2 ^ blockShift index ∣ a) (hlo : h.heapAddress ≤ a)
    (hhi : a + 2 ^ blockShift index ≤ h.endAddress)
    (hd : Disjoint (pageRange a (a + 2 ^ blockShift index)) h.freePages) :
    ∃ h', h.freeBlock a index = some h' ∧
      Keeps h h' (h.freePages ∪ pageRange a (a + 2 ^ blockShift index)) := by
  rw [KPageHeap.freeBlock, hv.numBlocks_eq]
  exact hv.freeBlockLoop (by omega) hi ha hlo hhi hd

/-! ## 4. Freeing a range -/

section Range

variable {a b c : Nat}

theorem pageRange_append (hab : a ≤ b) (hbc : b ≤ c) :
    F ∪ pageRange a b ∪ pageRange b c = F ∪ pageRange a c := by
  rw [Finset.union_assoc, pageRange, pageRange, pageRange, Finset.Ico_union_Ico_eq_Ico
    (Nat.div_le_div_right hab) (Nat.div_le_div_right hbc)]

theorem pageRange_append' (hab : a ≤ b) (hbc : b ≤ c) :
    F ∪ pageRange b c ∪ pageRange a b = F ∪ pageRange a c := by
  rw [Finset.union_right_comm, pageRange_append hab hbc]

theorem disjoint_pageRange_left (hbc : b ≤ c) (h : Disjoint (pageRange a c) F) :
    Disjoint (pageRange a b) F :=
  h.mono_left (Finset.Ico_subset_Ico_right (Nat.div_le_div_right hbc))

theorem disjoint_pageRange_right (hab : a ≤ b) (h : Disjoint (pageRange a c) F) :
    Disjoint (pageRange b c) F :=
  h.mono_left (Finset.Ico_subset_Ico_left (Nat.div_le_div_right hab))

theorem disjoint_pageRange_union (hab : a ≤ b) (h : Disjoint (pageRange a c) F) :
    Disjoint (pageRange b c) (F ∪ pageRange a b) :=
  Finset.disjoint_union_right.mpr ⟨disjoint_pageRange_right hab h,
    (Finset.Ico_disjoint_Ico_consecutive _ _ _).symm⟩

theorem disjoint_pageRange_union' (hbc : b ≤ c) (h : Disjoint (pageRange a c) F) :
    Disjoint (pageRange a b) (F ∪ pageRange b c) :=
  Finset.disjoint_union_right.mpr ⟨disjoint_pageRange_left hbc h, Finset.Ico_disjoint_Ico_consecutive _ _ _⟩

theorem add_le_of_dvd {n : Nat} (ha : n ∣ a) (hb : n ∣ b) (h : a < b) : a + n ≤ b := by
  have := Nat.le_of_dvd (by omega) (Nat.dvd_sub hb ha)
  omega

end Range

theorem HeapInv.freeBig (hi : index < 7) {stop : Nat} (hstop : 2 ^ blockShift index ∣ stop) :
    ∀ {fuel block : Nat} {h : KPageHeap}, HeapInv h → 2 ^ blockShift index ∣ block →
    h.heapAddress ≤ block → stop ≤ h.endAddress → block ≤ stop → stop - block < fuel * PageSize →
    Disjoint (pageRange block stop) h.freePages →
    ∃ h', freeBig index fuel block stop h = some h' ∧ Keeps h h' (h.freePages ∪ pageRange block stop) := by
  intro fuel
  induction fuel with
  | zero => intro block h _ _ _ _ _ hf; omega
  | succ fuel ih =>
    intro block h hv hb hlo hhi hle hf hd
    have hpg := Nat.le_of_dvd (Nat.two_pow_pos _) (pageSize_dvd_blockSize hi)
    rw [KPageHeap.freeBig]
    rw [hv.size_eq hi]
    by_cases hlt : block < stop
    · have hroom := add_le_of_dvd hb hstop hlt
      rw [if_pos hlt]
      obtain ⟨h1, hh1, hk1⟩ := hv.freeBlock hi hb hlo (by omega) (disjoint_pageRange_left hroom hd)
      obtain ⟨h', hh', hk'⟩ := ih hk1.inv (Nat.dvd_add hb (Nat.dvd_refl _))
        (by rw [hk1.address_eq]; omega) (by rw [hk1.endAddress_eq]; exact hhi) hroom
        (by simp only [PageSize] at *; omega)
        (by rw [hk1.free_eq]; exact disjoint_pageRange_union (by omega) hd)
      rw [hk1.free_eq, pageRange_append (by omega) hroom] at hk'
      refine ⟨h', ?_, hk1.trans hk'⟩
      rw [hh1]
      exact hh'
    · rw [if_neg hlt]
      obtain rfl : block = stop := by omega
      refine ⟨h, rfl, ?_⟩
      rw [pageRange, Finset.Ico_self, Finset.union_empty]
      exact hv.refl

theorem HeapInv.freeDown (hi : index < 7) {start : Nat} : ∀ {fuel stop : Nat} {h : KPageHeap},
    HeapInv h → 2 ^ blockShift index ∣ stop → h.heapAddress ≤ start → stop ≤ h.endAddress →
    start ≤ stop → stop - start < fuel * PageSize → Disjoint (pageRange start stop) h.freePages →
    ∃ stop' h', freeDown index fuel start stop h = some (stop', h') ∧ start ≤ stop' ∧
      stop' ≤ stop ∧ stop' < start + 2 ^ blockShift index ∧ 2 ^ blockShift index ∣ stop' ∧
      Keeps h h' (h.freePages ∪ pageRange stop' stop) := by
  intro fuel
  induction fuel with
  | zero => intro stop h _ _ _ _ _ hf; omega
  | succ fuel ih =>
    intro stop h hv hs hlo hhi hle hf hd
    have hpg := Nat.le_of_dvd (Nat.two_pow_pos _) (pageSize_dvd_blockSize hi)
    rw [KPageHeap.freeDown]
    dsimp only
    rw [hv.size_eq hi]
    by_cases hroom : start + 2 ^ blockShift index ≤ stop
    · rw [if_pos hroom]
      have hsub : stop - 2 ^ blockShift index + 2 ^ blockShift index = stop := by omega
      have hs' := Nat.dvd_sub hs (Nat.dvd_refl (2 ^ blockShift index))
      obtain ⟨h1, hh1, hk1⟩ := hv.freeBlock hi hs' (by omega) (by omega)
        (by rw [hsub]; exact disjoint_pageRange_right (by omega) hd)
      rw [hsub] at hk1
      obtain ⟨stop', h', hh', h1', h2', h3', h4', hk'⟩ := ih hk1.inv hs'
        (by rw [hk1.address_eq]; exact hlo) (by rw [hk1.endAddress_eq]; omega) (by omega)
        (by simp only [PageSize] at *; omega)
        (by rw [hk1.free_eq]; exact disjoint_pageRange_union' (by omega) hd)
      rw [hk1.free_eq, pageRange_append' h2' (by omega)] at hk'
      refine ⟨stop', h', ?_, h1', by omega, h3', h4', hk1.trans hk'⟩
      rw [hh1]
      exact hh'
    · rw [if_neg hroom]
      refine ⟨stop, h, rfl, hle, Nat.le_refl _, by omega, hs, ?_⟩
      rw [pageRange, Finset.Ico_self, Finset.union_empty]
      exact hv.refl

theorem HeapInv.freeUp (hi : index < 7) {stop : Nat} : ∀ {fuel start : Nat} {h : KPageHeap},
    HeapInv h → 2 ^ blockShift index ∣ start → h.heapAddress ≤ start → stop ≤ h.endAddress →
    start ≤ stop → stop - start < fuel * PageSize → Disjoint (pageRange start stop) h.freePages →
    ∃ start' h', freeUp index fuel start stop h = some (start', h') ∧ start ≤ start' ∧
      start' ≤ stop ∧ stop < start' + 2 ^ blockShift index ∧ 2 ^ blockShift index ∣ start' ∧
      Keeps h h' (h.freePages ∪ pageRange start start') := by
  intro fuel
  induction fuel with
  | zero => intro start h _ _ _ _ _ hf; omega
  | succ fuel ih =>
    intro start h hv hs hlo hhi hle hf hd
    have hpg := Nat.le_of_dvd (Nat.two_pow_pos _) (pageSize_dvd_blockSize hi)
    rw [KPageHeap.freeUp]
    rw [hv.size_eq hi]
    by_cases hroom : start + 2 ^ blockShift index ≤ stop
    · rw [if_pos hroom]
      obtain ⟨h1, hh1, hk1⟩ := hv.freeBlock hi hs hlo (by omega) (disjoint_pageRange_left hroom hd)
      obtain ⟨start', h', hh', h1', h2', h3', h4', hk'⟩ := ih hk1.inv
        (Nat.dvd_add hs (Nat.dvd_refl _)) (by rw [hk1.address_eq]; omega)
        (by rw [hk1.endAddress_eq]; exact hhi) hroom (by simp only [PageSize] at *; omega)
        (by rw [hk1.free_eq]; exact disjoint_pageRange_union (by omega) hd)
      rw [hk1.free_eq, pageRange_append (by omega) h1'] at hk'
      refine ⟨start', h', ?_, by omega, h2', h3', h4', hk1.trans hk'⟩
      rw [hh1]
      exact hh'
    · rw [if_neg hroom]
      refine ⟨start, h, rfl, Nat.le_refl _, hle, by omega, hs, ?_⟩
      rw [pageRange, Finset.Ico_self, Finset.union_empty]
      exact hv.refl

theorem blockSize_dvd_succ {i : Nat} (hi : i + 1 < 7) : 2 ^ blockShift i ∣ 2 ^ blockShift (i + 1) :=
  Nat.pow_dvd_pow 2 (Nat.le_of_lt ((blockShift_spec i (by omega)).2.2.2 (by omega)).1)

theorem eq_of_lt_pageSize {a b : Nat} (ha : PageSize ∣ a) (hb : PageSize ∣ b) (h1 : a ≤ b)
    (h2 : b < a + 2 ^ blockShift 0) : a = b := by
  have e : blockShift 0 = 12 := rfl
  simp only [PageSize, e] at *
  omega

theorem HeapInv.freeBefore (fuel : Nat) {start : Nat} (hst : PageSize ∣ start) :
    ∀ {n stop : Nat} {h : KPageHeap}, n < 7 → HeapInv h → 2 ^ blockShift n ∣ stop →
    (n = 0 → start = stop) → h.heapAddress ≤ start → stop ≤ h.endAddress → start ≤ stop →
    stop - start < fuel * PageSize → Disjoint (pageRange start stop) h.freePages →
    ∃ h', freeBefore fuel n start stop h = some h' ∧ Keeps h h' (h.freePages ∪ pageRange start stop) := by
  intro n
  induction n with
  | zero =>
    intro stop h _ hv _ h0 _ _ _ _ _
    obtain rfl := h0 rfl
    refine ⟨h, rfl, ?_⟩
    rw [pageRange, Finset.Ico_self, Finset.union_empty]
    exact hv.refl
  | succ n ih =>
    intro stop h hn hv hs _ hlo hhi hle hf hd
    have hs' := (blockSize_dvd_succ hn).trans hs
    obtain ⟨stop', h1, hh1, h1', h2', h3', h4', hk1⟩ :=
      hv.freeDown (by omega) hs' hlo hhi hle hf hd
    obtain ⟨h', hh', hk'⟩ := ih (by omega) hk1.inv h4'
      (fun e => eq_of_lt_pageSize hst ((pageSize_dvd_blockSize (by omega)).trans h4') h1'
        (by rw [e] at h3'; exact h3'))
      (by rw [hk1.address_eq]; exact hlo) (by rw [hk1.endAddress_eq]; omega) h1'
      (by omega) (by rw [hk1.free_eq]; exact disjoint_pageRange_union' h2' hd)
    rw [hk1.free_eq, pageRange_append' h1' h2'] at hk'
    refine ⟨h', ?_, hk1.trans hk'⟩
    rw [KPageHeap.freeBefore, hh1]
    exact hh'

theorem HeapInv.freeAfter (fuel : Nat) {stop : Nat} (hst : PageSize ∣ stop) :
    ∀ {n start : Nat} {h : KPageHeap}, n < 7 → HeapInv h → 2 ^ blockShift n ∣ start →
    (n = 0 → start = stop) → h.heapAddress ≤ start → stop ≤ h.endAddress → start ≤ stop →
    stop - start < fuel * PageSize → Disjoint (pageRange start stop) h.freePages →
    ∃ h', freeAfter fuel n start stop h = some h' ∧ Keeps h h' (h.freePages ∪ pageRange start stop) := by
  intro n
  induction n with
  | zero =>
    intro start h _ hv _ h0 _ _ _ _ _
    obtain rfl := h0 rfl
    refine ⟨h, rfl, ?_⟩
    rw [pageRange, Finset.Ico_self, Finset.union_empty]
    exact hv.refl
  | succ n ih =>
    intro start h hn hv hs _ hlo hhi hle hf hd
    have hs' := (blockSize_dvd_succ hn).trans hs
    obtain ⟨start', h1, hh1, h1', h2', h3', h4', hk1⟩ :=
      hv.freeUp (by omega) hs' hlo hhi hle hf hd
    obtain ⟨h', hh', hk'⟩ := ih (by omega) hk1.inv h4'
      (fun e => eq_of_lt_pageSize ((pageSize_dvd_blockSize (by omega)).trans h4') hst h2'
        (by rw [e] at h3'; exact h3'))
      (by rw [hk1.address_eq]; omega) (by rw [hk1.endAddress_eq]; exact hhi) h2'
      (by omega) (by rw [hk1.free_eq]; exact disjoint_pageRange_union h1' hd)
    rw [hk1.free_eq, pageRange_append h1' h2'] at hk'
    refine ⟨h', ?_, hk1.trans hk'⟩
    rw [KPageHeap.freeAfter, hh1]
    exact hh'

/-- The search ends at a level with aligned bounds inside the range; at the bottom level these are
    the range's own. -/
theorem HeapInv.findBig (hv : HeapInv h) {start stop : Nat} (hst : PageSize ∣ start)
    (hsp : PageSize ∣ stop) (hlt : start < stop) : ∀ {n : Nat}, 0 < n → n ≤ 7 →
    ∃ k bs be, h.findBig start stop n = some (k, bs, be) ∧ k < 7 ∧ bs < be ∧ start ≤ bs ∧
      be ≤ stop ∧ 2 ^ blockShift k ∣ bs ∧ 2 ^ blockShift k ∣ be ∧
      (k = 0 → start = bs ∧ be = stop)
  | n + 1, _, hn => by
    rw [KPageHeap.findBig, hv.size_eq (by omega)]
    split
    · rename_i hbig
      refine ⟨n, _, _, rfl, by omega, hbig, Common.le_alignUp (Nat.two_pow_pos _),
        Common.alignDown_le, Common.dvd_alignUp, Common.dvd_alignDown, ?_⟩
      rintro rfl
      exact ⟨(Common.alignUp_of_dvd hst).symm, Common.alignDown_of_dvd hsp⟩
    · rename_i hbig
      cases n with
      | zero =>
        refine absurd ?_ hbig
        rw [Common.alignUp_of_dvd (show 2 ^ blockShift 0 ∣ start from hst),
          Common.alignDown_of_dvd (show 2 ^ blockShift 0 ∣ stop from hsp)]
        exact hlt
      | succ n => exact hv.findBig hst hsp hlt (Nat.succ_pos n) (by omega)

/-- **Free**: a range of pages of the region, none of which is free, becomes free. -/
theorem HeapInv.free (hv : HeapInv h) (addr numPages : Nat) (ha : PageSize ∣ addr)
    (hlo : h.heapAddress ≤ addr) (hhi : addr + numPages * PageSize ≤ h.endAddress)
    (hd : Disjoint (pageRange addr (addr + numPages * PageSize)) h.freePages) :
    ∃ h', h.free addr numPages = some h' ∧
      Keeps h h' (h.freePages ∪ pageRange addr (addr + numPages * PageSize)) := by
  rw [KPageHeap.free]
  by_cases hn : numPages = 0
  · rw [if_pos hn, hn, Nat.zero_mul, Nat.add_zero, pageRange, Finset.Ico_self, Finset.union_empty]
    exact ⟨h, rfl, hv.refl⟩
  rw [if_neg hn]
  dsimp only
  have hsp : PageSize ∣ addr + numPages * PageSize := Nat.dvd_add ha (Nat.dvd_mul_left _ _)
  have hfuel : addr + numPages * PageSize - addr < (numPages + 1) * PageSize := by
    simp only [PageSize]
    omega
  have hlt : addr < addr + numPages * PageSize := by
    simp only [PageSize]
    omega
  obtain ⟨k, bs, be, hfind, hk7, hbe, h1, h2, hbs, hbed, hk0⟩ :=
    hv.findBig ha hsp hlt (n := h.numBlocks) (by rw [hv.numBlocks_eq]; decide)
      (Nat.le_of_eq hv.numBlocks_eq)
  rw [hfind]
  simp only [Option.bind_eq_bind, Option.bind_some]
  have hbig : be - bs < (numPages + 1) * PageSize := by omega
  obtain ⟨ha1, hh1, hk1⟩ := hv.freeBig hk7 hbed hbs (by omega) (by omega) (Nat.le_of_lt hbe) hbig
    (disjoint_pageRange_left h2 (disjoint_pageRange_right h1 hd))
  obtain ⟨ha2, hh2, hk2⟩ := hk1.inv.freeBefore (numPages + 1) ha hk7 hbs
    (fun e => (hk0 e).1) (by rw [hk1.address_eq]; exact hlo) (by rw [hk1.endAddress_eq]; omega) h1
    (by omega) (by
      rw [hk1.free_eq]
      exact disjoint_pageRange_union' (Nat.le_of_lt hbe) (disjoint_pageRange_left h2 hd))
  rw [hk1.free_eq, pageRange_append' h1 (Nat.le_of_lt hbe)] at hk2
  obtain ⟨h', hh', hk'⟩ := hk2.inv.freeAfter (numPages + 1) hsp hk7 hbed
    (fun e => (hk0 e).2) (by rw [hk2.address_eq, hk1.address_eq]; omega)
    (by rw [hk2.endAddress_eq, hk1.endAddress_eq]; exact hhi) h2 (by omega) (by
      rw [hk2.free_eq]
      exact disjoint_pageRange_union (by omega) hd)
  rw [hk2.free_eq, pageRange_append (by omega) h2] at hk'
  refine ⟨h', ?_, (hk1.trans hk2).trans hk'⟩
  rw [hh1, Option.bind_some, hh2, Option.bind_some, hh']

/-! ## 5. Allocating -/

section GiveBack

variable {a b c : Nat}

/-- Taking a range and giving its second part back takes the first part. -/
theorem giveBack_right (hab : a ≤ b) (hbc : b ≤ c) (hF : pageRange a c ⊆ F) :
    F \ pageRange a c ∪ pageRange b c = F \ pageRange a b := by
  have h1 := Nat.div_le_div_right (c := PageSize) hab
  have h2 := Nat.div_le_div_right (c := PageSize) hbc
  ext p
  have hp : p ∈ pageRange a c → p ∈ F := fun h => hF h
  simp only [pageRange, Finset.mem_union, Finset.mem_sdiff, Finset.mem_Ico] at hp ⊢
  by_cases hpF : p ∈ F
  · simp only [hpF, true_and]
    omega
  · simp only [hpF, false_and, false_or, iff_false]
    have := mt hp hpF
    omega

theorem giveBack_left (hab : a ≤ b) (hbc : b ≤ c) (hF : pageRange a c ⊆ F) :
    F \ pageRange a c ∪ pageRange a b = F \ pageRange b c := by
  have h1 := Nat.div_le_div_right (c := PageSize) hab
  have h2 := Nat.div_le_div_right (c := PageSize) hbc
  ext p
  have hp : p ∈ pageRange a c → p ∈ F := fun h => hF h
  simp only [pageRange, Finset.mem_union, Finset.mem_sdiff, Finset.mem_Ico] at hp ⊢
  by_cases hpF : p ∈ F
  · simp only [hpF, true_and]
    omega
  · simp only [hpF, false_and, false_or, iff_false]
    have := mt hp hpF
    omega

theorem pageRange_subset_of_le {d : Nat} (hab : a ≤ b) (hcd : c ≤ d) : pageRange b c ⊆ pageRange a d :=
  Finset.Ico_subset_Ico (Nat.div_le_div_right hab) (Nat.div_le_div_right hcd)

end GiveBack

/-- What an allocation of `size` bytes at a multiple of `align` does: it fails and no level
    changes, or it takes exactly the pages from the address returned on, all of them free. -/
def Allocated (h : KPageHeap) (size align r : Nat) (h' : KPageHeap) : Prop :=
  (r = 0 ∧ Keeps h h' h.freePages ∧ ∀ i, (h'.blocks i).freePages = (h.blocks i).freePages) ∨
    (r ≠ 0 ∧ align ∣ r ∧ pageRange r (r + size) ⊆ h.freePages ∧
      Keeps h h' (h.freePages \ pageRange r (r + size)))

theorem freeIf_eq {cond : Bool} {addr n : Nat} (hc : cond = false → n = 0) :
    h.freeIf cond addr n = h.free addr n := by
  cases cond with
  | true => rfl
  | false => rw [KPageHeap.free, if_pos (hc rfl), freeIf, if_neg Bool.false_ne_true]

/-- Popping a block of a level. -/
theorem HeapInv.popBlock (hv : HeapInv h) (hi : i < 7) (random : Bool) :
    ∃ r b, (h.blocks i).popBlock random = some (r, b) ∧
      Allocated h (2 ^ blockShift i) (2 ^ blockShift i) r (h.setBlock i b) ∧
      (r ≠ 0 → h.heapAddress ≤ r ∧ r + 2 ^ blockShift i ≤ h.endAddress) := by
  have hl := hv.level i hi
  have hsub := hv.level_subset hi
  have hpg := pageSize_dvd_blockSize hi
  obtain ⟨r, b, hpop, hl', hcase⟩ := hl.popBlock hi random
  rw [hl.shift_eq] at hcase
  refine ⟨r, b, hpop, ?_⟩
  rcases hcase with ⟨rfl, hfree⟩ | ⟨hr, hX, hfree⟩
  · have hk := hv.setBlock hi hl' (by rw [hfree]; exact hv.inside i hi)
      (by rw [hfree]; exact Finset.disjoint_sdiff)
    rw [hfree, Finset.sdiff_union_of_subset hsub] at hk
    refine ⟨.inl ⟨rfl, hk, fun j => ?_⟩, fun e => absurd rfl e⟩
    by_cases hj : j = i
    · rw [hj, ← hfree]
      exact congrArg Block.freePages (if_pos rfl)
    · exact congrArg Block.freePages (if_neg hj)
  · have hb := (pageRange_subset (hpg.trans hr) hpg (Nat.two_pow_pos _) hv.address_aligned
      hv.end_aligned).mp (hX.trans (hv.inside i hi))
    have hpos : r ≠ 0 := by
      have := hv.address_pos
      omega
    have hk := hv.setBlock hi hl' (by rw [hfree]; exact Finset.sdiff_subset.trans (hv.inside i hi)) (by
        rw [hfree]
        exact Finset.disjoint_of_subset_left Finset.sdiff_subset Finset.disjoint_sdiff)
    have hF : h.freePages \ (h.blocks i).freePages ∪ b.freePages =
        h.freePages \ pageRange r (r + 2 ^ blockShift i) := by
      rw [hfree]
      ext p
      simp only [Finset.mem_union, Finset.mem_sdiff]
      tauto
    rw [hF] at hk
    exact ⟨.inr ⟨hpos, hr, hX.trans hsub, hk⟩, fun _ => hb⟩

theorem blockSize_dvd_of_le {i j : Nat} (hij : i ≤ j) (hj : j < 7) :
    2 ^ blockShift i ∣ 2 ^ blockShift j := by
  induction j with
  | zero =>
    obtain rfl : i = 0 := by omega
    exact Nat.dvd_refl _
  | succ j ih =>
    rcases Nat.lt_or_ge j i with h | h
    · obtain rfl : i = j + 1 := by omega
      exact Nat.dvd_refl _
    · exact (ih h (by omega)).trans (blockSize_dvd_succ hj)

/-- The first free block of at least the size asked for is taken, and the rest of it given back. -/
theorem HeapInv.allocateByLinearSearchLoop (hidx : index < 7) : ∀ {n i : Nat} {h : KPageHeap},
    HeapInv h → i + n = 7 → index ≤ i →
    ∃ r h', allocateByLinearSearchLoop (2 ^ blockShift index) n i h = some (r, h') ∧
      Allocated h (2 ^ blockShift index) (2 ^ blockShift index) r h' := by
  intro n
  induction n with
  | zero => exact fun hv _ _ => ⟨0, _, rfl, .inl ⟨rfl, hv.refl, fun _ => rfl⟩⟩
  | succ n ih =>
    intro i h hv hn hle
    have hi : i < 7 := by omega
    have hdvd := blockSize_dvd_of_le hle hi
    have hsz := Nat.le_of_dvd (Nat.two_pow_pos _) hdvd
    obtain ⟨r, b, hpop, hal, hb⟩ := hv.popBlock hi false
    rw [KPageHeap.allocateByLinearSearchLoop, hpop]
    simp only [Option.bind_eq_bind, Option.bind_some]
    rcases hal with ⟨rfl, hk, hsame⟩ | ⟨hr, hrd, hX, hk⟩
    · rw [if_neg (by simp)]
      obtain ⟨r, h', hh', hal'⟩ := ih hk.inv (i := i + 1) (by omega) (by omega)
      refine ⟨r, h', hh', ?_⟩
      rcases hal' with ⟨rfl, hk', hsame'⟩ | ⟨hr, hrd, hX, hk'⟩
      · rw [hk.free_eq] at hk'
        exact .inl ⟨rfl, hk.trans hk', fun j => (hsame' j).trans (hsame j)⟩
      · rw [hk.free_eq] at hX hk'
        exact .inr ⟨hr, hrd, hX, hk.trans hk'⟩
    · rw [if_pos hr, hk.inv.size_eq hi]
      obtain ⟨hlo, hhi⟩ := hb hr
      have hpg := pageSize_dvd_blockSize hidx
      have hsub : (2 ^ blockShift i - 2 ^ blockShift index) / PageSize * PageSize =
          2 ^ blockShift i - 2 ^ blockShift index :=
        Nat.div_mul_cancel (Nat.dvd_sub (pageSize_dvd_blockSize hi) hpg)
      have hend : r + 2 ^ blockShift index +
          (2 ^ blockShift i - 2 ^ blockShift index) / PageSize * PageSize = r + 2 ^ blockShift i := by omega
      obtain ⟨h', hh', hk'⟩ := hk.inv.free (r + 2 ^ blockShift index)
        ((2 ^ blockShift i - 2 ^ blockShift index) / PageSize)
        (Nat.dvd_add ((pageSize_dvd_blockSize hi).trans hrd) hpg)
        (by rw [hk.address_eq]; omega) (by rw [hk.endAddress_eq, hend]; exact hhi)
        (by
          rw [hk.free_eq, hend]
          exact Finset.disjoint_of_subset_left (pageRange_subset_of_le (by omega) (Nat.le_refl _))
            Finset.disjoint_sdiff)
      rw [hk.free_eq, hend, giveBack_right (by omega) (by omega) hX] at hk'
      have hres : Allocated h (2 ^ blockShift index) (2 ^ blockShift index) r h' :=
        .inr ⟨hr, hdvd.trans hrd, (pageRange_subset_of_le (Nat.le_refl _) (by omega)).trans hX,
          hk.trans hk'⟩
      refine ⟨r, h', ?_, hres⟩
      rw [freeIf_eq fun e => ?_, hh']
      · rfl
      · have := of_decide_eq_false e
        rw [show 2 ^ blockShift i - 2 ^ blockShift index = 0 by omega, Nat.zero_div]

theorem HeapInv.allocateByLinearSearch (hv : HeapInv h) (hi : index < 7) :
    ∃ r h', h.allocateByLinearSearch index = some (r, h') ∧
      Allocated h (2 ^ blockShift index) (2 ^ blockShift index) r h' := by
  rw [KPageHeap.allocateByLinearSearch, hv.size_eq hi, hv.numBlocks_eq]
  exact HeapInv.allocateByLinearSearchLoop hi hv (by omega) (Nat.le_refl _)

theorem HeapInv.withRng (hv : HeapInv h) (g : RandomBitGenerator) : Keeps h (h.setRng g) h.freePages :=
  ⟨⟨hv.numBlocks_eq, hv.address_pos, hv.address_aligned, hv.size_aligned, hv.level, hv.inside,
    hv.disjoint⟩, rfl, rfl, rfl⟩

theorem countAlignments_bounds (neededSize alignShift : Nat) : ∀ (n i possible : Nat),
    i ≤ (h.countAlignments neededSize alignShift n i possible).1 ∧
      (h.countAlignments neededSize alignShift n i possible).1 ≤ i + n
  | 0, i, _ => ⟨Nat.le_refl _, Nat.le_refl _⟩
  | n + 1, i, possible => by
    rw [KPageHeap.countAlignments]
    split
    · dsimp only
      omega
    · have := countAlignments_bounds neededSize alignShift n (i + 1)
        (possible + h.levelAlignments neededSize alignShift i)
      omega

theorem chooseLevel_bounds (neededSize alignShift rnd : Nat) : ∀ (n possible : Nat) {i : Nat}, index ≤ i →
    index ≤ h.chooseLevel neededSize alignShift rnd index n i possible ∧
      (h.chooseLevel neededSize alignShift rnd index n i possible < i + n ∨
        h.chooseLevel neededSize alignShift rnd index n i possible = index)
  | 0, _, i, _ => ⟨Nat.le_refl _, .inr rfl⟩
  | n + 1, possible, i, hle => by
    rw [KPageHeap.chooseLevel]
    split
    · exact ⟨hle, .inl (by omega)⟩
    · have hle' : index ≤ i + 1 := by omega
      have := chooseLevel_bounds neededSize alignShift rnd n
        (possible + h.levelAlignments neededSize alignShift i) hle'
      omega

/-- Some level is chosen, at or above the one asked for; only the generator changes. -/
theorem HeapInv.selectLevel (hv : HeapInv h) (hi : index < 7) (neededSize alignShift : Nat) :
    ∃ i g, h.selectLevel index neededSize alignShift = (i, h.setRng g) ∧ index ≤ i ∧ i < 7 := by
  have hc := countAlignments_bounds (h := h) neededSize alignShift (7 - index) index 0
  rw [KPageHeap.selectLevel, hv.numBlocks_eq]
  dsimp only
  split
  · have hb := chooseLevel_bounds (h := h) neededSize alignShift
      (h.rng.generateRandom (h.countAlignments neededSize alignShift (7 - index) index 0).2).1
      ((h.countAlignments neededSize alignShift (7 - index) index 0).1 - index) 0
      (Nat.le_refl index)
    exact ⟨_, _, rfl, hb.1, by omega⟩
  · exact ⟨index, h.rng, rfl, Nat.le_refl _, hi⟩

/-- **AllocateByRandom**: a block is taken from the level chosen, and what lies before and after a
    random aligned place in it is given back. -/
theorem HeapInv.allocateByRandom (hv : HeapInv h) (hidx : index < 7) {numPages alignPages s : Nat}
    (hn : numPages * PageSize ≤ 2 ^ blockShift index)
    (hs64 : countrZero 64 (alignPages * PageSize) = s) (hpg : 12 ≤ s)
    (hsi : s ≤ blockShift index) :
    ∃ r h', h.allocateByRandom index numPages alignPages = some (r, h') ∧
      Allocated h (numPages * PageSize) (2 ^ s) r h' := by
  have hs12 : PageSize ∣ 2 ^ s := Nat.pow_dvd_pow 2 hpg
  obtain ⟨i, g, hsel, hle, hi⟩ := hv.selectLevel hidx (numPages * PageSize) s
  have hk0 := hv.withRng g
  generalize hh0 : h.setRng g = h0 at hsel hk0
  have hdvd := blockSize_dvd_of_le hle hi
  have hsz := Nat.le_of_dvd (Nat.two_pow_pos _) hdvd
  have hsd : 2 ^ s ∣ 2 ^ blockShift i := (Nat.pow_dvd_pow 2 hsi).trans hdvd
  obtain ⟨r, b, hpop, hal, hb⟩ := hk0.inv.popBlock hi true
  have h64 : s < 64 := by
    have := (blockShift_spec index hidx).2.1
    omega
  rw [KPageHeap.allocateByRandom]
  dsimp only
  rw [hs64, assert_bind_of h64, hsel]
  rw [hpop]
  simp only [Option.bind_eq_bind, Option.bind_some]
  rcases hal with ⟨rfl, hk, hsame⟩ | ⟨hr, hrd, hX, hk⟩
  · rw [if_neg (by simp)]
    rw [hk0.free_eq] at hk
    refine ⟨0, _, rfl, .inl ⟨rfl, hk0.trans hk, fun j => (hsame j).trans ?_⟩⟩
    rw [← hh0]
    rfl
  · obtain ⟨hlo, hhi⟩ := hb hr
    rw [if_pos hr, hk.inv.size_eq hi]
    rw [hk0.free_eq] at hX hk
    have hpgi := pageSize_dvd_blockSize hi
    have hpgr : PageSize ∣ r := hpgi.trans hrd
    have hnpg : PageSize ∣ numPages * PageSize := Nat.dvd_mul_left _ _
    -- whatever aligned offset is chosen, the two parts around it are given back
    have hgive : ∀ (off : Nat) (g : RandomBitGenerator), 2 ^ s ∣ off →
        off ≤ 2 ^ blockShift i - numPages * PageSize →
        ∃ h1 h2, ((h0.setBlock i b).setRng g).free r (off / PageSize) = some h1 ∧
          h1.free (r + off + numPages * PageSize)
            ((2 ^ blockShift i - numPages * PageSize - off) / PageSize) = some h2 ∧
          Allocated h (numPages * PageSize) (2 ^ s) (r + off) h2 := by
      intro off g hoff hle'
      have hkg := hk.inv.withRng g
      rw [hk.free_eq] at hkg
      have hopg : PageSize ∣ off := hs12.trans hoff
      have e1 : r + off / PageSize * PageSize = r + off := by rw [Nat.div_mul_cancel hopg]
      have e2 : r + off + numPages * PageSize +
          (2 ^ blockShift i - numPages * PageSize - off) / PageSize * PageSize = r + 2 ^ blockShift i := by
        rw [Nat.div_mul_cancel (Nat.dvd_sub (Nat.dvd_sub hpgi hnpg) hopg)]
        omega
      obtain ⟨h1, hh1, hk1⟩ := hkg.inv.free r (off / PageSize) hpgr
        (by rw [hkg.address_eq, hk.address_eq]; exact hlo)
        (by rw [hkg.endAddress_eq, hk.endAddress_eq, e1]; omega)
        (by
          rw [hkg.free_eq, e1]
          exact Finset.disjoint_of_subset_left (pageRange_subset_of_le (Nat.le_refl _) (by omega))
            Finset.disjoint_sdiff)
      rw [hkg.free_eq, e1, giveBack_left (by omega) (by omega) hX] at hk1
      obtain ⟨h2, hh2, hk2⟩ := hk1.inv.free (r + off + numPages * PageSize)
        ((2 ^ blockShift i - numPages * PageSize - off) / PageSize)
        (Nat.dvd_add (Nat.dvd_add hpgr hopg) hnpg)
        (by rw [hk1.address_eq, hkg.address_eq, hk.address_eq]; omega)
        (by rw [hk1.endAddress_eq, hkg.endAddress_eq, hk.endAddress_eq, e2]; exact hhi)
        (by
          rw [hk1.free_eq, e2]
          exact Finset.disjoint_of_subset_left (pageRange_subset_of_le (by omega) (Nat.le_refl _))
            Finset.disjoint_sdiff)
      rw [hk1.free_eq, e2, giveBack_right (by omega) (by omega)
        ((pageRange_subset_of_le (by omega) (Nat.le_refl _)).trans hX)] at hk2
      refine ⟨h1, h2, hh1, hh2, .inr ⟨by omega, ?_, ?_, ?_⟩⟩
      · exact Nat.dvd_add (hsd.trans hrd) hoff
      · exact (pageRange_subset_of_le (by omega) (by omega)).trans hX
      · exact (((hk0.trans hk).trans hkg).trans hk1).trans hk2
    split
    · -- a random place
      generalize hgen : (h0.setBlock i b).rng.generateRandom
        (1 + (2 ^ blockShift i - numPages * PageSize) / 2 ^ s) = rg
      have hrnd : rg.1 ≤ (2 ^ blockShift i - numPages * PageSize) / 2 ^ s := by
        have := (h0.setBlock i b).rng.generateRandom_lt
          (1 + (2 ^ blockShift i - numPages * PageSize) / 2 ^ s)
          (Nat.add_comm _ _ ▸ Nat.succ_pos _)
        rw [hgen] at this
        omega
      obtain ⟨h1, h2, hh1, hh2, hres⟩ := hgive (rg.1 * 2 ^ s) rg.2 (Nat.dvd_mul_left _ _)
        ((Nat.le_div_iff_mul_le (Nat.two_pow_pos _)).mp hrnd)
      refine ⟨r + rg.1 * 2 ^ s, h2, ?_, hres⟩
      rw [freeIf_eq fun e => ?_, hh1, Option.bind_some, freeIf_eq fun e => ?_, hh2]
      · rfl
      · rw [not_not.mp (of_decide_eq_false e), Nat.sub_self, Nat.zero_div]
      · rw [not_not.mp (of_decide_eq_false e), Nat.zero_div]
    · -- the block is exactly what is needed
      obtain ⟨h1, h2, hh1, hh2, hres⟩ := hgive 0 (h0.setBlock i b).rng (Nat.dvd_zero _) (Nat.zero_le _)
      cases hh1
      have e : 2 ^ blockShift i - numPages * PageSize - 0 = 0 := by omega
      rw [e, Nat.zero_div, KPageHeap.free, if_pos rfl] at hh2
      cases hh2
      exact ⟨r, _, rfl, hres⟩

/-! ## 6. Every reachable heap -/

theorem initializeBlocks_spec {rngs : Nat → RandomBitGenerator} {address size : Nat} :
    ∀ {n : Nat} {blocks : Nat → Block}, initializeBlocks rngs address size n = some blocks →
    ∀ i < n, ∃ words, Block.initializeBlock (rngs i) address size (blockShift i)
      (blockShift (i + 1)) = some (blocks i, words)
  | 0, _, _, i, hi => absurd hi (Nat.not_lt_zero i)
  | n + 1, blocks, h, i, hi => by
    simp only [initializeBlocks, Option.bind_eq_bind, Option.bind_eq_some_iff, Option.pure_def,
      Option.some.injEq, Prod.exists] at h
    obtain ⟨bs, hbs, b, words, hb, rfl⟩ := h
    dsimp only
    by_cases hin : i = n
    · rw [if_pos hin, hin]
      exact ⟨words, hb⟩
    · rw [if_neg hin]
      exact initializeBlocks_spec hbs i (by omega)

theorem initializeBlock_levelOk {rng : RandomBitGenerator} {address size words : Nat} {b : Block}
    (hi : i < 7) (h : Block.initializeBlock rng address size (blockShift i) (blockShift (i + 1)) =
      some (b, words)) : b.LevelOk i address (address + size) ∧ b.freePages = ∅ := by
  simp only [Block.initializeBlock, Option.bind_eq_bind, Option.bind_eq_some_iff, Option.pure_def,
    Option.some.injEq, Prod.mk.injEq, Prod.exists] at h
  obtain ⟨bm, words', hbm, rfl, -⟩ := h
  have hrep := KPageBitmap.initializeBitmap_represents hbm
  have hlpos : 0 < levelAlign i := by
    unfold levelAlign Block.alignment
    split <;> exact Nat.two_pow_pos _
  have hoff := Block.freeOffsets_eq (b := ⟨bm, alignDown address (levelAlign i),
    (alignUp (address + size) (levelAlign i) - alignDown address (levelAlign i)) / 2 ^ blockShift i,
    blockShift i, blockShift (i + 1)⟩) hrep
  refine ⟨⟨rfl, rfl, Common.dvd_alignDown, Common.alignDown_le, fun a hlo hhi => ?_, ?_⟩, ?_⟩
  · have h1 := Common.le_alignUp (v := address + size) hlpos
    have h2 : alignDown address (levelAlign i) ≤ address := Common.alignDown_le
    change (a - alignDown address (levelAlign i)) / 2 ^ blockShift i <
      (alignUp (address + size) (levelAlign i) - alignDown address (levelAlign i)) / 2 ^ blockShift i
    rw [Nat.div_lt_iff_lt_mul (Nat.two_pow_pos _), Nat.div_mul_cancel
      ((blockSize_dvd_levelAlign hi).trans (Nat.dvd_sub Common.dvd_alignUp Common.dvd_alignDown))]
    omega
  · exact (congrArg (bm.Represents _) hoff).mpr hrep
  · exact (congrArg (runs _ _) hoff).trans runs_empty

theorem initializeHeap_inv {rngs : Nat → RandomBitGenerator} {rng : RandomBitGenerator}
    {address size : Nat} (hpos : 0 < address)
    (h0 : initializeHeap rngs rng address size = some h) : HeapInv h ∧ h.freePages = ∅ := by
  simp only [initializeHeap, assert_bind_eq_some] at h0
  obtain ⟨ha, hs, h0⟩ := h0
  simp only [Option.bind_eq_bind, Option.bind_eq_some_iff, Option.pure_def, Option.some.injEq] at h0
  obtain ⟨blocks, hb, rfl⟩ := h0
  have hlev : ∀ i < 7, (blocks i).LevelOk i address (address + size) ∧ (blocks i).freePages = ∅ :=
    fun i hi => by
      obtain ⟨words, hw⟩ := initializeBlocks_spec hb i hi
      exact initializeBlock_levelOk hi hw
  have hinv : HeapInv ⟨address, size, numMemoryBlockPageShifts, blocks, rng⟩ := by
    refine ⟨rfl, hpos, Nat.dvd_of_mod_eq_zero ha, Nat.dvd_of_mod_eq_zero hs,
      fun i hi => (hlev i hi).1, fun i hi => ?_, fun i hi j hj _ => ?_⟩
    · dsimp only
      rw [(hlev i hi).2]
      exact Finset.empty_subset _
    · dsimp only
      rw [(hlev i hi).2]
      exact Finset.disjoint_empty_left _
  refine ⟨hinv, Finset.eq_empty_of_forall_notMem fun p hp => ?_⟩
  obtain ⟨i, hi, hp⟩ := hinv.mem_freePages.mp hp
  rw [(hlev i hi).2] at hp
  exact Finset.notMem_empty p hp

/-- The free size counts every free page once. -/
theorem HeapInv.getFreeSize (hv : HeapInv h) : h.getFreeSize = PageSize * h.freePages.card := by
  have hsum : h.numFreePages = h.freePages.card := by
    have hlevel : ∀ i ∈ Finset.range h.numBlocks,
        (h.blocks i).freePages.card = (h.blocks i).numFreePages := fun i hi => by
      rw [Finset.mem_range, hv.numBlocks_eq] at hi
      have hl := hv.level i hi
      rw [Block.freePages, card_runs (hl.numPages_eq hi).2, ← hl.rep.card]
      rfl
    rw [freePages, Finset.card_biUnion, Finset.sum_congr rfl hlevel]
    · rfl
    · intro i hi j hj hij
      rw [Finset.mem_coe, Finset.mem_range, hv.numBlocks_eq] at hi hj
      exact hv.disjoint i hi j hj hij
  rw [KPageHeap.getFreeSize, hsum, Nat.mul_comm]

theorem getAlignedBlockIndex_spec {numPages alignPages : Nat}
    (h : getAlignedBlockIndex numPages alignPages = some index) :
    index < 7 ∧ numPages * PageSize ≤ 2 ^ blockShift index ∧
      alignPages * PageSize ≤ 2 ^ blockShift index := by
  have hmem := List.mem_range.mp (List.mem_of_find?_eq_some h)
  have hle : max numPages alignPages ≤ 2 ^ blockShift index / PageSize :=
    of_decide_eq_true (List.find?_some (p := fun i =>
      decide (max numPages alignPages ≤ 2 ^ blockShift i / PageSize)) h)
  have hdiv := Nat.div_mul_le_self (2 ^ blockShift index) PageSize
  refine ⟨hmem, ?_, ?_⟩
  · exact Nat.le_trans (Nat.mul_le_mul_right _ (Nat.le_trans (Nat.le_max_left _ _) hle)) hdiv
  · exact Nat.le_trans (Nat.mul_le_mul_right _ (Nat.le_trans (Nat.le_max_right _ _) hle)) hdiv

theorem HeapInv.allocateBlock (hv : HeapInv h) (hi : index < 7) (random : Bool) :
    ∃ r h', h.allocateBlock index random = some (r, h') ∧
      Allocated h (2 ^ blockShift index) (2 ^ blockShift index) r h' := by
  cases random with
  | false => exact hv.allocateByLinearSearch hi
  | true =>
    obtain ⟨h12, h30, -⟩ := blockShift_spec index hi
    have hn : (h.blocks index).numPages * PageSize = 2 ^ blockShift index := by
      rw [((hv.level index hi).numPages_eq hi).1, (hv.level index hi).shift_eq]
    have hs : countrZero 64 ((h.blocks index).numPages * PageSize) = blockShift index := by
      rw [hn]
      exact countrZero_two_pow (by omega)
    have hal := hv.allocateByRandom hi (Nat.le_of_eq hn) hs h12 (Nat.le_refl _)
    rwa [hn] at hal

/-- A request that some block size can serve is served at a multiple of the largest power of two
    that divides its alignment. -/
theorem HeapInv.allocateAligned (hv : HeapInv h) {numPages alignPages : Nat} (hpos : 0 < alignPages)
    (hidx : getAlignedBlockIndex numPages alignPages = some index) :
    ∃ r h', h.allocateAligned index numPages alignPages = some (r, h') ∧
      Allocated h (numPages * PageSize) (2 ^ countrZero 64 (alignPages * PageSize)) r h' := by
  obtain ⟨hi, hn, hal⟩ := getAlignedBlockIndex_spec hidx
  have hle : 2 ^ countrZero 64 (alignPages * PageSize) ≤ 2 ^ blockShift index :=
    Nat.le_trans (Nat.le_of_dvd (Nat.mul_pos hpos (by decide)) (two_pow_countrZero_dvd _ _)) hal
  exact hv.allocateByRandom hi hn rfl (le_countrZero alignPages (by decide))
    ((Nat.pow_le_pow_iff_right (by decide)).mp hle)

end KPageHeap

/-- A call on a heap. -/
inductive HeapOp where
  | free (addr numPages : Nat)
  | allocateBlock (index : Nat) (random : Bool)
  | allocateAligned (numPages alignPages : Nat)
  deriving DecidableEq, Repr

namespace HeapOp

open KPageHeap Option Finset

/-- The call, with the address it returns. -/
def run (op : HeapOp) (h : KPageHeap) : Option (Nat × KPageHeap) :=
  match op with
  | free addr numPages => (h.free addr numPages).map fun h => (0, h)
  | allocateBlock index random => h.allocateBlock index random
  | allocateAligned numPages alignPages => do
    let index ← getAlignedBlockIndex numPages alignPages
    h.allocateAligned index numPages alignPages

/-- A range that is freed lies in the heap and is not free, a level exists, an alignment is a power
    of two and some block is large enough for the request. -/
def Legal (op : HeapOp) (h : KPageHeap) : Prop :=
  match op with
  | free addr numPages => PageSize ∣ addr ∧ h.heapAddress ≤ addr ∧
      addr + numPages * PageSize ≤ h.endAddress ∧
      Disjoint (pageRange addr (addr + numPages * PageSize)) h.freePages
  | allocateBlock index _ => index < numMemoryBlockPageShifts
  | allocateAligned numPages alignPages => (∃ k, alignPages = 2 ^ k) ∧
      (getAlignedBlockIndex numPages alignPages).isSome = true

/-- An allocation fails and no level changes, or returns an aligned address from which on exactly
    the pages asked for, all of them free, are free no longer. -/
def Takes (h : KPageHeap) (numPages alignPages r : Nat) (h' : KPageHeap) : Prop :=
  (r = 0 ∧ ∀ i, (h'.blocks i).freePages = (h.blocks i).freePages) ∨ (r ≠ 0 ∧ alignPages * PageSize ∣ r ∧
      pageRange r (r + numPages * PageSize) ⊆ h.freePages ∧
      h'.freePages = h.freePages \ pageRange r (r + numPages * PageSize))

/-- What the call does to the free pages. -/
def Outcome (op : HeapOp) (h : KPageHeap) (r : Nat) (h' : KPageHeap) : Prop :=
  match op with
  | free addr numPages =>
    h'.freePages = h.freePages ∪ pageRange addr (addr + numPages * PageSize)
  | allocateBlock index _ => Takes h ((h.blocks index).numPages) ((h.blocks index).numPages) r h'
  | allocateAligned numPages alignPages => Takes h numPages alignPages r h'

variable {h h' : KPageHeap}

theorem takes_of_allocated {numPages alignPages size align r : Nat} (hs : numPages * PageSize = size)
    (ha : alignPages * PageSize = align) (hal : Allocated h size align r h') :
    HeapInv h' ∧ Takes h numPages alignPages r h' := by
  subst hs ha
  rcases hal with ⟨rfl, hk, hsame⟩ | ⟨hr, hrd, hX, hk⟩
  · exact ⟨hk.inv, .inl ⟨rfl, hsame⟩⟩
  · exact ⟨hk.inv, .inr ⟨hr, hrd, hX, hk.free_eq⟩⟩

/-- One call: it returns, keeps the invariant and does what it should. -/
theorem run_step (hv : HeapInv h) {op : HeapOp} (hop : op.Legal h) :
    ∃ r h', op.run h = some (r, h') ∧ HeapInv h' ∧ op.Outcome h r h' := by
  cases op with
  | free addr numPages =>
    obtain ⟨ha, hlo, hhi, hd⟩ := hop
    obtain ⟨h', hh', hk⟩ := hv.free addr numPages ha hlo hhi hd
    exact ⟨0, h', by rw [run, hh']; rfl, hk.inv, hk.free_eq⟩
  | allocateBlock index random =>
    have hi : index < 7 := hop
    have hn : (h.blocks index).numPages * PageSize = 2 ^ blockShift index := by
      rw [((hv.level index hi).numPages_eq hi).1, (hv.level index hi).shift_eq]
    obtain ⟨r, h', hh', hal⟩ := hv.allocateBlock hi random
    obtain ⟨hv', ht⟩ := takes_of_allocated hn hn hal
    exact ⟨r, h', hh', hv', ht⟩
  | allocateAligned numPages alignPages =>
    obtain ⟨⟨k, rfl⟩, hidx⟩ := hop
    obtain ⟨index, hidx⟩ := isSome_iff_exists.mp hidx
    have hs : 2 ^ k * PageSize = 2 ^ (k + 12) := by rw [Nat.pow_add]
    have hk : k + 12 < 64 := by
      obtain ⟨hi, -, hal⟩ := getAlignedBlockIndex_spec hidx
      have := (blockShift_spec index hi).2.1
      rw [hs] at hal
      have := (Nat.pow_le_pow_iff_right (by decide)).mp hal
      omega
    obtain ⟨r, h', hh', hal⟩ := hv.allocateAligned (Nat.two_pow_pos k) hidx
    rw [hs, countrZero_two_pow hk] at hal
    obtain ⟨hv', ht⟩ := takes_of_allocated rfl hs hal
    refine ⟨r, h', ?_, hv', ht⟩
    rw [run, hidx]
    exact hh'

/-- The heaps legal calls lead to. -/
inductive Reachable (h₀ : KPageHeap) : KPageHeap → Prop
  | refl : Reachable h₀ h₀
  | step {h h' : KPageHeap} {op : HeapOp} {r : Nat} (hr : Reachable h₀ h) (hop : op.Legal h)
      (hs : op.run h = some (r, h')) : Reachable h₀ h'

theorem Reachable.inv {h0 : KPageHeap} (h₀v : HeapInv h0) (hr : Reachable h0 h) : HeapInv h := by
  induction hr with
  | refl => exact h₀v
  | step _ hop hs ih =>
    obtain ⟨r, h', hh', hv', -⟩ := run_step ih hop
    rw [hs] at hh'
    cases hh'
    exact hv'

/-- **The heap conserves pages.** In every heap that calls lead to, whatever random values are
    drawn, no page is free at two levels, the free size counts the free pages, and every further
    call returns and changes the free pages exactly as it should. -/
theorem run_conserves (rngs : Nat → RandomBitGenerator) (rng : RandomBitGenerator)
    (address size : Nat) (hpos : 0 < address) (h₀ h : KPageHeap)
    (hinit : initializeHeap rngs rng address size = some h₀) (hr : Reachable h₀ h) :
    (∀ i < numMemoryBlockPageShifts, ∀ j < numMemoryBlockPageShifts, i ≠ j →
      Disjoint (h.blocks i).freePages (h.blocks j).freePages) ∧
    h.getFreeSize = PageSize * h.freePages.card ∧
    ∀ op : HeapOp, op.Legal h → ∃ r h', op.run h = some (r, h') ∧ op.Outcome h r h' := by
  have hv := Reachable.inv (initializeHeap_inv hpos hinit).1 hr
  refine ⟨hv.disjoint, hv.getFreeSize, fun op hop => ?_⟩
  obtain ⟨r, h', hh', -, ho⟩ := run_step hv hop
  exact ⟨r, h', hh', ho⟩

/-- A region of sixteen pages, all of them freed, from which three pages are taken. -/
theorem run_conserves_sixteen : ∃ h₀ h r,
    initializeHeap (fun _ => .zeros) .zeros 0x10000 0x10000 = some h₀ ∧
    (free 0x10000 16).run h₀ = some (0, h) ∧ h.getFreeSize = PageSize * h.freePages.card ∧
    ∃ h', (allocateAligned 3 2).run h = some (r, h') ∧ (allocateAligned 3 2).Outcome h r h' := by
  have hex : ((initializeHeap (fun _ => .zeros) .zeros 0x10000 0x10000).map fun h =>
      (h.heapAddress, h.endAddress)) = some (0x10000, 0x20000) := by decide
  obtain ⟨h₀, h₀e, hb⟩ := map_eq_some_iff.mp hex
  obtain ⟨hlo, hhi⟩ := Prod.mk.inj hb
  obtain ⟨hv, hempty⟩ := initializeHeap_inv (by decide) h₀e
  have hlegal : (free 0x10000 16).Legal h₀ := by
    refine ⟨by decide, Nat.le_of_eq hlo, Nat.le_of_eq hhi.symm, ?_⟩
    rw [hempty]
    exact disjoint_empty_right _
  obtain ⟨r₀, h, hrun, -, -⟩ := run_step hv hlegal
  obtain rfl : r₀ = 0 := by
    obtain ⟨_, -, e⟩ := map_eq_some_iff.mp hrun
    exact (Prod.mk.inj e).1.symm
  obtain ⟨-, hsize, hops⟩ := run_conserves (fun _ => .zeros) .zeros 0x10000 0x10000 (by decide)
    h₀ h h₀e (.step .refl hlegal hrun)
  obtain ⟨r, h', hrun', ho⟩ := hops (allocateAligned 3 2) ⟨⟨1, rfl⟩, by decide⟩
  exact ⟨h₀, h, r, h₀e, hrun, hsize, h', hrun', ho⟩

/-- At address 0 a block that is found cannot be told from no block: the allocation fails, and the
    sixteen pages are gone. -/
theorem run_loses_null_block : ((initializeHeap (fun _ => .zeros) .zeros 0 0x10000).bind fun h₀ =>
      ((free 0 16).run h₀).bind fun rh =>
        ((allocateBlock 1 false).run rh.2).map fun rh' =>
          (rh.2.getFreeSize, rh'.1, rh'.2.getFreeSize)) = some (0x10000, 0, 0) := by
  decide

end HeapOp

end Yuzu.Kernel
