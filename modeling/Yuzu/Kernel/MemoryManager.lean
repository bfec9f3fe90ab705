/-
  File:      Yuzu/Kernel/MemoryManager.lean
  Subject:   KMemoryManager (k_memory_manager.h, k_memory_manager.cpp): reference counts over the
             page heaps.

  A manager (`Impl`) owns a heap, a reference count for each of its pages and the map of the pages
  the optimized process was given. Requests go through the managers of a pool in order.

  * `Impl.close_spec` -- closing frees exactly the maximal runs of pages whose count reached zero;
  * `Impl.Agrees` -- a page of the manager is free iff its count is zero;
  * `MemoryOp.run_agrees` -- it holds in every reachable state of a system with one manager.
-/
import Yuzu.Kernel.PageGroup
import Yuzu.Kernel.PageHeap

namespace Yuzu.Kernel

open KPageHeap (pageRange HeapInv Keeps Allocated blockShift)

/-! ## 1. One manager -/

/-- `KMemoryManager::Pool`. -/
inductive Pool where
  | application
  | applet
  | system
  | systemNonSecure
  deriving DecidableEq, Repr

/-- `KMemoryManager::Direction`. -/
inductive Direction where
  | fromFront
  | fromBack
  deriving DecidableEq, Repr

/-- `KMemoryManager::Impl`. A reference count is 16 bits wide. -/
structure Impl where
  heap : KPageHeap
  pageReferenceCounts : Nat → Nat
  optimizeMap : Nat → BitVec 64
  pool : Pool

namespace Impl

def setHeap (m : Impl) (h : KPageHeap) : Impl := { m with heap := h }

def setCount (m : Impl) (index count : Nat) : Impl :=
  { m with pageReferenceCounts := fun i => if i = index then count else m.pageReferenceCounts i }

def getPageOffset (m : Impl) (address : Nat) : Nat := (address - m.heap.heapAddress) / PageSize

def getPageOffsetToEnd (m : Impl) (address : Nat) : Nat := (m.heap.endAddress - address) / PageSize

def free (m : Impl) (addr numPages : Nat) : Option Impl :=
  (m.heap.free addr numPages).map m.setHeap

def allocateBlock (m : Impl) (index : Nat) (random : Bool) : Option (Nat × Impl) :=
  (m.heap.allocateBlock index random).map fun rh => (rh.1, m.setHeap rh.2)

/-- `AllocateAligned`; the index -1 of a request that no block size can serve is outside the
    array of blocks. -/
def allocateAligned (m : Impl) (index : Option Nat) (numPages alignPages : Nat) : Option (Nat × Impl) := do
  let index ← index
  (m.heap.allocateAligned index numPages alignPages).map fun rh => (rh.1, m.setHeap rh.2)

/-- `n` pages from `index` on get a reference, and each new count is checked. -/
def openLoop (check : Nat → Bool) : Nat → Nat → Impl → Option Impl
  | 0, _, m => some m
  | n + 1, index, m => do
    let refCount := (m.pageReferenceCounts index + 1) % 2 ^ 16
    assert (check refCount = true)
    openLoop check n (index + 1) (m.setCount index refCount)

def openFirst (m : Impl) (address numPages : Nat) : Option Impl :=
  openLoop (fun refCount => refCount == 1) numPages (m.getPageOffset address) m

/-- `Open`. -/
def openPages (m : Impl) (address numPages : Nat) : Option Impl :=
  openLoop (fun refCount => decide (refCount > 1)) numPages (m.getPageOffset address) m

/-- The loop of `Close`: `n` pages from `index` on lose a reference; the run of the `freeCount`
    pages from `freeStart` on, which ends at `index`, waits to be freed. -/
def closeLoop : Nat → Nat → Nat → Nat → Impl → Option Impl
  | 0, _, freeStart, freeCount, m =>
    if freeCount > 0 then m.free (m.heap.heapAddress + freeStart * PageSize) freeCount else some m
  | n + 1, index, freeStart, freeCount, m => do
    assert (m.pageReferenceCounts index > 0)
    let refCount := m.pageReferenceCounts index - 1
    let m := m.setCount index refCount
    if refCount = 0 then
      if freeCount > 0 then closeLoop n (index + 1) freeStart (freeCount + 1) m
      else closeLoop n (index + 1) index 1 m
    else
      if freeCount > 0 then do
        let m ← m.free (m.heap.heapAddress + freeStart * PageSize) freeCount
        closeLoop n (index + 1) freeStart 0 m
      else closeLoop n (index + 1) freeStart freeCount m

def close (m : Impl) (address numPages : Nat) : Option Impl :=
  closeLoop numPages (m.getPageOffset address) 0 0 m

/-- The loop of `TrackUnoptimizedAllocation`. -/
def trackUnoptimizedLoop : Nat → Nat → (Nat → BitVec 64) → Nat → BitVec 64
  | 0, _, optimizeMap => optimizeMap
  | n + 1, offset, optimizeMap =>
    trackUnoptimizedLoop n (offset + 1) fun i =>
      if i = offset / 64 then optimizeMap i &&& ~~~(1#64 <<< (offset % 64)) else optimizeMap i

def trackUnoptimizedAllocation (m : Impl) (block numPages : Nat) : Impl :=
  { m with optimizeMap := trackUnoptimizedLoop numPages (m.getPageOffset block) m.optimizeMap }

/-- `Initialize`. -/
def initializeImpl (rngs : Nat → RandomBitGenerator) (rng : RandomBitGenerator)
    (optimizeMap : Nat → BitVec 64) (address size : Nat) (p : Pool) : Option Impl := do
  let heap ← KPageHeap.initializeHeap rngs rng address size
  return ⟨heap, fun _ => 0, optimizeMap, p⟩

/-- `if (cond) manager.Free(addr, num_pages)`. -/
def freeIf (m : Impl) (cond : Bool) (addr numPages : Nat) : Option Impl :=
  if cond then m.free addr numPages else some m

/-- One region in the last loop of `KMemoryManager::Initialize`: its pages are freed to the heap,
    but those of the initial process binary get a reference. -/
def freeRegion (iniStart iniSize : Nat) (m : Impl) (curStart curSize : Nat) : Option Impl :=
  let iniEnd := iniStart + iniSize
  let iniLast := iniEnd - 1
  let curEnd := curStart + curSize
  let curLast := curEnd - 1
  if curStart ≤ iniStart ∧ iniLast ≤ curLast then do
    let m ← m.freeIf (curStart ≠ iniStart) curStart ((iniStart - curStart) / PageSize)
    let m ← m.openFirst iniStart (iniSize / PageSize)
    m.freeIf (iniLast ≠ curLast) iniEnd ((curEnd - iniEnd) / PageSize)
  else do
    assert (curStart ≤ iniLast → curLast < iniStart)
    m.free curStart (curSize / PageSize)

/-- The regions of a manager, which follow each other from `curStart` on. -/
def freeRegions (iniStart iniSize : Nat) : List Nat → Nat → Impl → Option Impl
  | [], _, m => some m
  | curSize :: sizes, curStart, m => do
    let m ← freeRegion iniStart iniSize m curStart curSize
    freeRegions iniStart iniSize sizes (curStart + curSize) m

/-- What `KMemoryManager::Initialize` makes of the manager of the regions of the given sizes. -/
def initializeManager (rngs : Nat → RandomBitGenerator) (rng : RandomBitGenerator)
    (optimizeMap : Nat → BitVec 64) (p : Pool) (iniStart iniSize address : Nat) (sizes : List Nat) :
    Option Impl := do
  let m ← initializeImpl rngs rng optimizeMap address sizes.sum p
  freeRegions iniStart iniSize sizes address m

end Impl

/-! ## 2. The managers together -/

/-- `KMemoryManager`. `managerIndex` is the attribute of the linear region an address lies in. -/
structure KMemoryManager where
  managers : Nat → Impl
  numManagers : Nat
  managerIndex : Nat → Nat
  hasOptimizedProcess : Pool → Bool

namespace KMemoryManager

def setManager (mm : KMemoryManager) (i : Nat) (m : Impl) : KMemoryManager :=
  { mm with managers := fun j => if j = i then m else mm.managers j }

/-- The managers of a pool in the order `GetFirstManager` and `GetNextManager` visit them. -/
def poolManagers (mm : KMemoryManager) (pool : Pool) (dir : Direction) : List Nat :=
  let is := (List.range mm.numManagers).filter fun i => (mm.managers i).pool = pool
  match dir with
  | .fromFront => is
  | .fromBack => is.reverse

/-- The loop of `Open`, `OpenFirst` and `Close` with at most `fuel` managers to go. -/
def walkManagers (f : Impl → Nat → Nat → Option Impl) :
    Nat → Nat → Nat → KMemoryManager → Option KMemoryManager
  | 0, _, numPages, mm => if numPages = 0 then some mm else none
  | fuel + 1, address, numPages, mm =>
    if numPages = 0 then some mm
    else do
      let i := mm.managerIndex address
      let curPages := min numPages ((mm.managers i).getPageOffsetToEnd address)
      let m ← f (mm.managers i) address curPages
      walkManagers f fuel (address + curPages * PageSize) (numPages - curPages) (mm.setManager i m)

def openFirst (mm : KMemoryManager) (address numPages : Nat) : Option KMemoryManager :=
  walkManagers Impl.openFirst numPages address numPages mm

/-- `Open`. -/
def openPages (mm : KMemoryManager) (address numPages : Nat) : Option KMemoryManager :=
  walkManagers Impl.openPages numPages address numPages mm

def close (mm : KMemoryManager) (address numPages : Nat) : Option KMemoryManager :=
  walkManagers Impl.close numPages address numPages mm

/-- The loop of `AllocateAndOpenContinuous` over the managers: the one that had a block, and the
    block. -/
def allocateContinuousLoop (heapIndex : Option Nat) (numPages alignPages : Nat) :
    List Nat → KMemoryManager → Option (Nat × Nat × KMemoryManager)
  | [], mm => some (0, 0, mm)
  | i :: is, mm => do
    let (allocatedBlock, m) ← (mm.managers i).allocateAligned heapIndex numPages alignPages
    let mm := mm.setManager i m
    if allocatedBlock ≠ 0 then some (i, allocatedBlock, mm)
    else allocateContinuousLoop heapIndex numPages alignPages is mm

/-- `if (unoptimized) manager->TrackUnoptimizedAllocation(block, num_pages)`. -/
def trackIf (m : Impl) (unoptimized : Bool) (block numPages : Nat) : Impl :=
  if unoptimized then m.trackUnoptimizedAllocation block numPages else m

def allocateAndOpenContinuous (mm : KMemoryManager) (numPages alignPages : Nat) (pool : Pool)
    (dir : Direction) : Option (Nat × KMemoryManager) :=
  if numPages = 0 then some (0, mm)
  else do
    let heapIndex := KPageHeap.getAlignedBlockIndex numPages alignPages
    let (i, allocatedBlock, mm) ←
      allocateContinuousLoop heapIndex numPages alignPages (mm.poolManagers pool dir) mm
    if allocatedBlock = 0 then some (0, mm)
    else do
      let m := trackIf (mm.managers i) (mm.hasOptimizedProcess pool) allocatedBlock numPages
      let m ← m.openFirst allocatedBlock numPages
      return (allocatedBlock, mm.setManager i m)

/-- `GetBlockIndex` from level `n - 1` down, with `none` for -1. -/
def getBlockIndexLoop (numPages : Nat) : Nat → Option Nat
  | 0 => none
  | i + 1 => if numPages ≥ 2 ^ blockShift i / PageSize then some i else getBlockIndexLoop numPages i

def getBlockIndex (numPages : Nat) : Option Nat :=
  getBlockIndexLoop numPages KPageHeap.numMemoryBlockPageShifts

def getBlockNumPages (index : Nat) : Nat := 2 ^ blockShift index / PageSize

/-- What `AllocatePageGroupImpl` carries through its loops. -/
structure GroupState where
  mm : KMemoryManager
  out : KPageGroup
  numPages : Nat

/-- The innermost loop: blocks of one level from one manager. A block that the group cannot take
    goes back at once. -/
def allocateBlocks (index i : Nat) (unoptimized random : Bool) :
    Nat → GroupState → Option (Result × GroupState)
  | 0, _ => none
  | fuel + 1, st =>
    let pagesPerAlloc := getBlockNumPages index
    if st.numPages ≥ pagesPerAlloc then do
      let (allocatedBlock, m) ← (st.mm.managers i).allocateBlock index random
      if allocatedBlock = 0 then some (.success, { st with mm := st.mm.setManager i m })
      else do
        let (res, out) ← st.out.addBlock allocatedBlock pagesPerAlloc
        if res = .success then
          let m := trackIf m unoptimized allocatedBlock pagesPerAlloc
          allocateBlocks index i unoptimized random fuel
            ⟨st.mm.setManager i m, out, st.numPages - pagesPerAlloc⟩
        else do
          let m ← m.free allocatedBlock pagesPerAlloc
          return (res, ⟨st.mm.setManager i m, out, st.numPages⟩)
    else some (.success, st)

/-- The loop over the managers of the pool. -/
def allocateFromManagers (index : Nat) (unoptimized random : Bool) :
    List Nat → GroupState → Option (Result × GroupState)
  | [], st => some (.success, st)
  | i :: is, st => do
    let (res, st) ← allocateBlocks index i unoptimized random (st.numPages + 1) st
    if res = .success then allocateFromManagers index unoptimized random is st
    else some (res, st)

/-- The loop over the levels, from level `n - 1` down. -/
def allocateLevels (pool : Pool) (dir : Direction) (unoptimized random : Bool) :
    Nat → GroupState → Option (Result × GroupState)
  | 0, st => some (.success, st)
  | index + 1, st =>
    if st.numPages > 0 then do
      let (res, st) ← allocateFromManagers index unoptimized random (st.mm.poolManagers pool dir) st
      if res = .success then allocateLevels pool dir unoptimized random index st
      else some (res, st)
    else some (.success, st)

/-- The clean-up of a failed allocation: every block of the group goes back to its manager. -/
def freeGroup : List KBlockInfo → KMemoryManager → Option KMemoryManager
  | [], mm => some mm
  | b :: bs, mm => do
    let i := mm.managerIndex b.getAddress
    let nodeNumPages :=
      min b.numPages (((mm.managers i).heap.endAddress - b.getAddress) / PageSize)
    let m ← (mm.managers i).free b.getAddress nodeNumPages
    freeGroup bs (mm.setManager i m)

def allocatePageGroupImpl (mm : KMemoryManager) (out : KPageGroup) (numPages : Nat) (pool : Pool)
    (dir : Direction) (unoptimized random : Bool) :
    Option (Result × KPageGroup × KMemoryManager) :=
  match getBlockIndex numPages with
  | none => some (.outOfMemory, out, mm)
  | some heapIndex => do
    let (res, st) ← allocateLevels pool dir unoptimized random (heapIndex + 1) ⟨mm, out, numPages⟩
    let res := if res = .success ∧ st.numPages ≠ 0 then Result.outOfMemory else res
    if res = .success then some (.success, st.out, st.mm)
    else do
      let mm ← freeGroup st.out.blocks st.mm
      return (res, st.out.finalize, mm)

/-- The first references to the pages of a group. -/
def openFirstGroup : List KBlockInfo → KMemoryManager → Option KMemoryManager
  | [], mm => some mm
  | b :: bs, mm => do
    let mm ← mm.openFirst b.getAddress b.numPages
    openFirstGroup bs mm

def allocateAndOpen (mm : KMemoryManager) (out : KPageGroup) (numPages : Nat) (pool : Pool)
    (dir : Direction) : Option (Result × KPageGroup × KMemoryManager) := do
  assert (out.getNumPages = 0)
  if numPages = 0 then some (.success, out, mm)
  else do
    let (res, out, mm) ← mm.allocatePageGroupImpl out numPages pool dir (mm.hasOptimizedProcess pool) true
    if res = .success then do
      let mm ← openFirstGroup out.blocks mm
      return (.success, out, mm)
    else some (res, out, mm)

end KMemoryManager

/-! ## 3. Counting references -/

namespace Impl

/-- The counts of the `n` pages from `index` on are changed by `f`. -/
def mapCounts (m : Impl) (f : Nat → Nat) (index n : Nat) : Impl :=
  { m with pageReferenceCounts := fun i =>
      if index ≤ i ∧ i < index + n then f (m.pageReferenceCounts i) else m.pageReferenceCounts i }

theorem mapCounts_zero {m : Impl} {f : Nat → Nat} {index : Nat} : m.mapCounts f index 0 = m := by
  have h : ∀ i, ¬(index ≤ i ∧ i < index + 0) := fun i => by omega
  simp only [mapCounts, h, if_false]

theorem mapCounts_succ (m : Impl) (f : Nat → Nat) (index n : Nat) :
    (m.setCount index (f (m.pageReferenceCounts index))).mapCounts f (index + 1) n =
      m.mapCounts f index (n + 1) := by
  simp only [mapCounts, setCount]
  congr 1
  funext i
  by_cases hi : i = index
  · subst hi
    rw [if_neg (by omega), if_pos rfl, if_pos (by omega)]
  · simp only [if_neg hi]
    by_cases h : index + 1 ≤ i ∧ i < index + 1 + n
    · rw [if_pos h, if_pos (by omega)]
    · rw [if_neg h, if_neg (by omega)]

theorem openLoop_eq {check : Nat → Bool} : ∀ {n index : Nat} {m : Impl},
    (∀ i, index ≤ i → i < index + n → check ((m.pageReferenceCounts i + 1) % 2 ^ 16) = true) →
    openLoop check n index m = some (m.mapCounts (fun c => (c + 1) % 2 ^ 16) index n)
  | 0, index, m, _ => by rw [openLoop, mapCounts_zero]
  | n + 1, index, m, h => by
    rw [openLoop, assert_bind_of (h index (Nat.le_refl _) (by omega)), openLoop_eq]
    · exact congrArg some (mapCounts_succ m (fun c => (c + 1) % 2 ^ 16) index n)
    · intro i h1 h2
      have hne : i ≠ index := by omega
      simp only [setCount, if_neg hne]
      exact h i (by omega) (by omega)

/-- The ranges of pages that the loop of `Close` frees, from first to last. -/
def closeRuns (counts : Nat → Nat) : Nat → Nat → Nat → Nat → List (Nat × Nat)
  | 0, _, freeStart, freeCount => if freeCount > 0 then [(freeStart, freeCount)] else []
  | n + 1, index, freeStart, freeCount =>
    if counts index - 1 = 0 then
      if freeCount > 0 then closeRuns counts n (index + 1) freeStart (freeCount + 1)
      else closeRuns counts n (index + 1) index 1
    else
      if freeCount > 0 then
        (freeStart, freeCount) :: closeRuns counts n (index + 1) freeStart 0
      else closeRuns counts n (index + 1) freeStart freeCount

/-- The calls of `Free` for the ranges `rs` of a region at `address`, in order, lead from `h` to
    `h'`. -/
inductive Frees (address : Nat) : List (Nat × Nat) → KPageHeap → KPageHeap → Prop
  | nil (h : KPageHeap) : Frees address [] h h
  | cons {r : Nat × Nat} {rs : List (Nat × Nat)} {h h₁ h' : KPageHeap}
      (hf : h.free (address + r.1 * PageSize) r.2 = some h₁) (ha : h₁.heapAddress = address)
      (hs : Frees address rs h₁ h') : Frees address (r :: rs) h h'

/-- **Close** makes exactly the calls of `Free` for `closeRuns`, and takes one reference off each
    page. -/
theorem closeLoop_eq {counts : Nat → Nat} {h' : KPageHeap} :
    ∀ {n index freeStart freeCount : Nat} {m : Impl},
      (∀ i, index ≤ i → i < index + n → m.pageReferenceCounts i = counts i ∧ 0 < counts i) →
      Frees m.heap.heapAddress (closeRuns counts n index freeStart freeCount) m.heap h' →
      closeLoop n index freeStart freeCount m = some ((m.setHeap h').mapCounts (fun c => c - 1) index n)
  | 0, index, freeStart, freeCount, m, _, hf => by
    rw [closeLoop, mapCounts_zero]
    rw [closeRuns] at hf
    split at hf
    · rename_i hc
      cases hf with
      | cons hf _ hs =>
        cases hs
        rw [if_pos hc, free, hf]
        rfl
    · rename_i hc
      cases hf
      rw [if_neg hc]
      rfl
  | n + 1, index, freeStart, freeCount, m, hpos, hf => by
    obtain ⟨hc, hc0⟩ := hpos index (Nat.le_refl _) (by omega)
    have hrest : ∀ {m₁ : Impl}, (∀ i, i ≠ index → m₁.pageReferenceCounts i =
        m.pageReferenceCounts i) → ∀ i, index + 1 ≤ i → i < index + 1 + n →
        m₁.pageReferenceCounts i = counts i ∧ 0 < counts i := fun hm i h1 h2 => by
      rw [hm i (by omega)]
      exact hpos i (by omega) (by omega)
    have hother : ∀ c i, i ≠ index → (m.setCount index c).pageReferenceCounts i =
        m.pageReferenceCounts i := fun c i hi => if_neg hi
    rw [closeLoop, assert_bind_of (hc ▸ hc0)]
    rw [closeRuns] at hf
    have hgoal : ((m.setCount index (counts index - 1)).setHeap h').mapCounts (fun c => c - 1)
        (index + 1) n = (m.setHeap h').mapCounts (fun c => c - 1) index (n + 1) := by
      rw [← hc]
      exact mapCounts_succ (m.setHeap h') (fun c => c - 1) index n
    rw [hc, ← hgoal]
    split at hf
    · rename_i hz
      rw [if_pos hz]
      split at hf
      · rename_i hfc
        rw [if_pos hfc]
        exact closeLoop_eq (hrest (hother _)) hf
      · rename_i hfc
        rw [if_neg hfc]
        exact closeLoop_eq (hrest (hother _)) hf
    · rename_i hz
      rw [if_neg hz]
      split at hf
      · rename_i hfc
        rw [if_pos hfc]
        cases hf with
        | @cons _ _ _ h1 _ hf ha hs =>
          have hm : (m.setCount index (counts index - 1)).free
              ((m.setCount index (counts index - 1)).heap.heapAddress + freeStart * PageSize)
              freeCount = some ((m.setCount index (counts index - 1)).setHeap h1) := by
            exact congrArg (Option.map _) hf
          rw [hm]
          refine (closeLoop_eq (m := (m.setCount index (counts index - 1)).setHeap h1)
            (hrest (hother _)) ?_)
          rw [← ha] at hs
          exact hs
      · rename_i hfc
        rw [if_neg hfc]
        exact closeLoop_eq (hrest (hother _)) hf

/-- The ranges freed are maximal. In the loop, the pages before `index` are cut into the runs that
    are freed already and the one that waits. -/
theorem closeRuns_maximal {counts : Nat → Nat} {lo : Nat} :
    ∀ {n index freeStart freeCount : Nat} {freed : List (Nat × Nat)}, lo ≤ index →
      MaximalRuns (fun i => counts i - 1 = 0) lo index
        (freed ++ if freeCount > 0 then [(freeStart, freeCount)] else []) →
      (0 < freeCount → freeStart + freeCount = index) →
      (freeCount = 0 → ∀ r ∈ freed, r.1 + r.2 < index) →
      MaximalRuns (fun i => counts i - 1 = 0) lo (index + n)
        (freed ++ closeRuns counts n index freeStart freeCount)
  | 0, index, freeStart, freeCount, freed, _, h, _, _ => h
  | n + 1, index, freeStart, freeCount, freed, hlo, h, hend, hfreed => by
    have hn : index + (n + 1) = index + 1 + n := by omega
    rw [hn, closeRuns]
    by_cases hz : counts index - 1 = 0
    · rw [if_pos hz]
      by_cases hfc : freeCount > 0
      · rw [if_pos hfc] at h ⊢
        refine closeRuns_maximal (by omega) ?_ (fun _ => by have := hend hfc; omega) (fun h0 => by omega)
        exact h.extend (hend hfc) hz
      · rw [if_neg hfc] at h ⊢
        rw [List.append_nil] at h
        refine closeRuns_maximal (by omega) ?_ (fun _ => rfl) (fun h0 => by omega)
        exact h.start hlo hz (hfreed (by omega))
    · rw [if_neg hz]
      have h' := h.skip hz
      by_cases hfc : freeCount > 0
      · rw [if_pos hfc] at h' ⊢
        rw [← List.singleton_append, ← List.append_assoc]
        refine closeRuns_maximal (by omega) ?_ (fun h0 => absurd h0 (Nat.lt_irrefl 0)) (fun _ r hr => ?_)
        · rw [if_neg (Nat.lt_irrefl 0), List.append_nil]
          exact h'
        · rw [if_pos hfc] at h
          have := (h.inside r hr).2.2
          omega
      · rw [if_neg hfc] at h' ⊢
        refine closeRuns_maximal (by omega) ?_ (fun h0 => absurd h0 hfc) (fun h0 r hr => ?_)
        · rw [if_neg hfc]
          exact h'
        · have := hfreed h0 r hr
          omega

end Impl

/-! ## 4. The pages of a manager -/

namespace Impl

/-- The number of the first page. -/
def firstPage (m : Impl) : Nat := m.heap.heapAddress / PageSize

def numPages (m : Impl) : Nat := m.heap.heapSize / PageSize

/-- A range of pages of the manager. -/
structure Holds (m : Impl) (address n : Nat) : Prop where
  aligned : PageSize ∣ address
  lower : m.heap.heapAddress ≤ address
  upper : address + n * PageSize ≤ m.heap.endAddress

variable {m m' : Impl} {address n o : Nat}

/-- Two managers of the same region. -/
structure SameRegion (m m' : Impl) : Prop where
  address_eq : m'.heap.heapAddress = m.heap.heapAddress
  size_eq : m'.heap.heapSize = m.heap.heapSize
  pool_eq : m'.pool = m.pool

theorem SameRegion.refl (m : Impl) : m.SameRegion m := ⟨rfl, rfl, rfl⟩

theorem SameRegion.trans {m'' : Impl} (h1 : m.SameRegion m') (h2 : m'.SameRegion m'') : m.SameRegion m'' :=
  ⟨h2.address_eq.trans h1.address_eq, h2.size_eq.trans h1.size_eq, h2.pool_eq.trans h1.pool_eq⟩

theorem SameRegion.firstPage_eq (h : m.SameRegion m') : m'.firstPage = m.firstPage := by
  rw [firstPage, firstPage, h.address_eq]

theorem SameRegion.numPages_eq (h : m.SameRegion m') : m'.numPages = m.numPages := by
  rw [numPages, numPages, h.size_eq]

theorem SameRegion.endAddress_eq (h : m.SameRegion m') : m'.heap.endAddress = m.heap.endAddress := by
  rw [KPageHeap.endAddress, KPageHeap.endAddress, h.address_eq, h.size_eq]

theorem pageRange_offset (address n : Nat) : pageRange address (address + n * PageSize) =
      Finset.Ico (address / PageSize) (address / PageSize + n) := by
  rw [pageRange, Nat.add_mul_div_right _ _ (by decide)]

theorem Holds.offset (hv : HeapInv m.heap) (h : m.Holds address n) :
    address = m.heap.heapAddress + m.getPageOffset address * PageSize ∧
      m.getPageOffset address + n ≤ m.numPages ∧
      address / PageSize = m.firstPage + m.getPageOffset address := by
  obtain ⟨c, hc⟩ := hv.address_aligned
  obtain ⟨a, _⟩ := h.aligned
  have hlo := h.lower
  have hhi := h.upper
  simp only [getPageOffset, numPages, firstPage, KPageHeap.endAddress, PageSize] at *
  omega

theorem Holds.mem (hv : HeapInv m.heap) (h : m.Holds address n) {p : Nat}
    (hp : p ∈ KPageGroup.newPages address n) : ∃ k < m.numPages, p = m.firstPage + k := by
  obtain ⟨-, hoff, hpg⟩ := h.offset hv
  rw [KPageGroup.newPages, hpg, Finset.mem_Ico] at hp
  exact ⟨p - m.firstPage, by omega, by omega⟩

theorem SameRegion.holds (h : m.SameRegion m') (hh : m.Holds address n) : m'.Holds address n :=
  ⟨hh.aligned, h.address_eq ▸ hh.lower, h.endAddress_eq ▸ hh.upper⟩

theorem free_subset (hv : HeapInv m.heap) {p : Nat} (hp : p ∈ m.heap.freePages) :
    ∃ i < m.numPages, p = m.firstPage + i := by
  have hmem := hv.free_subset hp
  obtain ⟨c, hc⟩ := hv.address_aligned
  simp only [pageRange, Finset.mem_Ico, numPages, firstPage, KPageHeap.endAddress, PageSize] at *
  exact ⟨p - m.heap.heapAddress / 4096, by omega, by omega⟩

/-- `HeapInv.free` in page numbers. -/
theorem free_offset (hv : HeapInv m.heap) (ho : o + n ≤ m.numPages)
    (hd : ∀ i, o ≤ i → i < o + n → m.firstPage + i ∉ m.heap.freePages) :
    ∃ h', m.heap.free (m.heap.heapAddress + o * PageSize) n = some h' ∧
      Keeps m.heap h' (m.heap.freePages ∪ Finset.Ico (m.firstPage + o) (m.firstPage + o + n)) := by
  have hal : PageSize ∣ m.heap.heapAddress + o * PageSize :=
    Nat.dvd_add hv.address_aligned (Nat.dvd_mul_left _ _)
  have hpg : (m.heap.heapAddress + o * PageSize) / PageSize = m.firstPage + o := by
    rw [Nat.add_mul_div_right _ _ (by decide), firstPage]
  have hr := pageRange_offset (m.heap.heapAddress + o * PageSize) n
  rw [hpg] at hr
  rw [← hr]
  refine hv.free _ n hal (Nat.le_add_right _ _) ?_ ?_
  · have hs : m.numPages * PageSize = m.heap.heapSize := Nat.div_mul_cancel hv.size_aligned
    have := Nat.mul_le_mul_right PageSize ho
    rw [KPageHeap.endAddress, ← hs, Nat.add_assoc, ← Nat.add_mul]
    omega
  · rw [hr]
    refine Finset.disjoint_left.mpr fun p hp hp' => ?_
    rw [Finset.mem_Ico] at hp
    have e : m.firstPage + (p - m.firstPage) = p := by omega
    exact hd (p - m.firstPage) (by omega) (by omega) (e.symm ▸ hp')

theorem frees_spec : ∀ {rs : List (Nat × Nat)} {m : Impl}, HeapInv m.heap →
    (∀ r ∈ rs, r.1 + r.2 ≤ m.numPages) → rs.Pairwise (fun r s => r.1 + r.2 < s.1) →
    (∀ r ∈ rs, ∀ i, r.1 ≤ i → i < r.1 + r.2 → m.firstPage + i ∉ m.heap.freePages) →
    ∃ h', Frees m.heap.heapAddress rs m.heap h' ∧
      Keeps m.heap h' (m.heap.freePages ∪ runPositions m.firstPage rs)
  | [], m, hv, _, _, _ => by
    refine ⟨m.heap, .nil _, ?_⟩
    rw [runPositions, Finset.union_empty]
    exact hv.refl
  | r :: rs, m, hv, hin, hsep, hd => by
    obtain ⟨h1, hf, hk⟩ := free_offset hv (hin r List.mem_cons_self) (hd r List.mem_cons_self)
    obtain ⟨hsep1, hsep⟩ := List.pairwise_cons.mp hsep
    have hfirst : (m.setHeap h1).firstPage = m.firstPage := by
      rw [firstPage, firstPage, setHeap, hk.address_eq]
    have hnum : (m.setHeap h1).numPages = m.numPages := by
      rw [numPages, numPages, setHeap, hk.size_eq]
    obtain ⟨h', hfs, hk'⟩ := @frees_spec rs (m.setHeap h1) hk.inv
      (fun t ht => hnum ▸ hin t (List.mem_cons_of_mem _ ht)) hsep
      (fun t ht i h1' h2' hmem => by
        rw [hfirst] at hmem
        rcases Finset.mem_union.mp (hk.free_eq ▸ hmem) with hmem | hmem
        · exact hd t (List.mem_cons_of_mem _ ht) i h1' h2' hmem
        · have := hsep1 t ht
          rw [Finset.mem_Ico] at hmem
          omega)
    refine ⟨h', .cons hf hk.address_eq ?_, ?_⟩
    · rw [← hk.address_eq]
      exact hfs
    · have hfree : (m.setHeap h1).heap.freePages = _ := hk.free_eq
      rw [hfirst, hfree, Finset.union_assoc] at hk'
      exact hk.trans hk'

/-! ## 5. Counts and heap agree -/

/-- A page of the manager is free iff its count is zero, but for the pages of `P`: they have left
    the heap, and their first reference is still to come. -/
structure Agrees (m : Impl) (P : Finset Nat) : Prop where
  inv : HeapInv m.heap
  below : m.heap.endAddress ≤ 2 ^ 44
  small : ∀ i, m.pageReferenceCounts i < 2 ^ 16
  agree : ∀ i < m.numPages, m.firstPage + i ∉ P →
    (m.firstPage + i ∈ m.heap.freePages ↔ m.pageReferenceCounts i = 0)
  owed : ∀ i < m.numPages, m.firstPage + i ∈ P →
    m.firstPage + i ∉ m.heap.freePages ∧ m.pageReferenceCounts i = 0

variable {P : Finset Nat} {P' : Finset Nat}

/-- The invariant of a manager of the same region, read off its free pages and counts. -/
theorem Agrees.of_region (h : m.Agrees P) (hs : m.SameRegion m') (hv : HeapInv m'.heap)
    (hsmall : ∀ i, m'.pageReferenceCounts i < 2 ^ 16)
    (hagree : ∀ i < m.numPages, (m.firstPage + i ∉ P' →
        (m.firstPage + i ∈ m'.heap.freePages ↔ m'.pageReferenceCounts i = 0)) ∧
      (m.firstPage + i ∈ P' →
        m.firstPage + i ∉ m'.heap.freePages ∧ m'.pageReferenceCounts i = 0)) : m'.Agrees P' := by
  refine ⟨hv, ?_, hsmall, fun i hi => ?_, fun i hi => ?_⟩
  · rw [hs.endAddress_eq]
    exact h.below
  · rw [hs.numPages_eq] at hi
    rw [hs.firstPage_eq]
    exact (hagree i hi).1
  · rw [hs.numPages_eq] at hi
    rw [hs.firstPage_eq]
    exact (hagree i hi).2

theorem Agrees.trackIf (h : m.Agrees P) (unoptimized : Bool) (block n : Nat) :
    (KMemoryManager.trackIf m unoptimized block n).Agrees P ∧
      m.SameRegion (KMemoryManager.trackIf m unoptimized block n) := by
  cases unoptimized with
  | true => exact ⟨⟨h.inv, h.below, h.small, h.agree, h.owed⟩, rfl, rfl, rfl⟩
  | false => exact ⟨h, .refl m⟩

theorem Agrees.take (h : m.Agrees P) {h' : KPageHeap} {X : Finset Nat} (hX : X ⊆ m.heap.freePages)
    (hk : Keeps m.heap h' (m.heap.freePages \ X)) : (m.setHeap h').Agrees (P ∪ X) := by
  have hs : m.SameRegion (m.setHeap h') := ⟨hk.address_eq, hk.size_eq, rfl⟩
  refine h.of_region hs hk.inv h.small
    fun i hi => ?_
  have hfree : (m.setHeap h').heap.freePages = m.heap.freePages \ X := hk.free_eq
  rw [hfree, Finset.mem_union, Finset.mem_sdiff]
  refine ⟨fun hn => ?_, fun hm => ?_⟩
  · have hp : m.firstPage + i ∉ P := fun hp => hn (.inl hp)
    have hx : m.firstPage + i ∉ X := fun hx => hn (.inr hx)
    rw [h.agree i hi hp]
    exact and_iff_left hx
  · rcases hm with hp | hx
    · obtain ⟨h1, h2⟩ := h.owed i hi hp
      exact ⟨fun hf => h1 hf.1, h2⟩
    · refine ⟨fun hf => hf.2 hx, ?_⟩
      have hp : m.firstPage + i ∉ P := fun hp => (h.owed i hi hp).1 (hX hx)
      exact (h.agree i hi hp).mp (hX hx)

theorem Agrees.congr (h : m.Agrees P)
    (hP : ∀ i < m.numPages, (m.firstPage + i ∈ P' ↔ m.firstPage + i ∈ P)) : m.Agrees P' :=
  ⟨h.inv, h.below, h.small, fun i hi hn => h.agree i hi fun hm => hn ((hP i hi).mpr hm),
    fun i hi hm => h.owed i hi ((hP i hi).mp hm)⟩

theorem Agrees.allocated (h : m.Agrees P) (hn : 0 < n) {align r : Nat} {h' : KPageHeap}
    (hpg : PageSize ∣ align) (hal : Allocated m.heap (n * PageSize) align r h') :
    m.SameRegion (m.setHeap h') ∧ ((r = 0 ∧ (m.setHeap h').Agrees P) ∨
      (r ≠ 0 ∧ m.Holds r n ∧ Disjoint P (KPageGroup.newPages r n) ∧
        (m.setHeap h').Agrees (P ∪ KPageGroup.newPages r n))) := by
  rcases hal with ⟨hr, hk, -⟩ | ⟨hr, hrd, hX, hk⟩
  · refine ⟨⟨hk.address_eq, hk.size_eq, rfl⟩, .inl ⟨hr, ?_⟩⟩
    have hs : m.SameRegion (m.setHeap h') := ⟨hk.address_eq, hk.size_eq, rfl⟩
    refine h.of_region hs hk.inv h.small
      fun i hi => ?_
    have hfree : (m.setHeap h').heap.freePages = _ := hk.free_eq
    rw [hfree]
    exact ⟨h.agree i hi, h.owed i hi⟩
  · rw [pageRange_offset] at hX hk
    have htake := h.take hX hk
    have hfirst := free_subset h.inv (hX (Finset.mem_Ico.mpr ⟨Nat.le_refl _, by omega⟩))
    have hlast := free_subset h.inv (hX (Finset.mem_Ico.mpr
      ⟨Nat.le_add_right _ (n - 1), Nat.add_lt_add_left (by omega) _⟩))
    refine ⟨⟨hk.address_eq, hk.size_eq, rfl⟩, .inr ⟨hr, ⟨hpg.trans hrd, ?_, ?_⟩, ?_, htake⟩⟩
    · obtain ⟨c, hc⟩ := h.inv.address_aligned
      simp only [firstPage, PageSize] at *
      omega
    · obtain ⟨c, hc⟩ := h.inv.address_aligned
      obtain ⟨e, he⟩ := hpg.trans hrd
      simp only [firstPage, numPages, KPageHeap.endAddress, PageSize] at *
      omega
    · refine Finset.disjoint_left.mpr fun p hp hx => ?_
      obtain ⟨i, hi, rfl⟩ := free_subset h.inv (hX hx)
      exact (h.owed i hi hp).1 (hX hx)

theorem Agrees.free (h : m.Agrees P) (hh : m.Holds address n)
    (hP : KPageGroup.newPages address n ⊆ P) : ∃ m', m.free address n = some m' ∧
      m'.Agrees (P \ KPageGroup.newPages address n) ∧ m.SameRegion m' := by
  obtain ⟨ha, hoff, hpg⟩ := hh.offset h.inv
  rw [KPageGroup.newPages, hpg] at hP ⊢
  generalize m.getPageOffset address = o at *
  have hown : ∀ i, o ≤ i → i < o + n → m.firstPage + i ∈ P := fun i h1 h2 =>
    hP (Finset.mem_Ico.mpr ⟨by omega, by omega⟩)
  obtain ⟨h', hf, hk⟩ := free_offset h.inv hoff fun i h1 h2 =>
    (h.owed i (by omega) (hown i h1 h2)).1
  have hs : m.SameRegion (m.setHeap h') := ⟨hk.address_eq, hk.size_eq, rfl⟩
  refine ⟨m.setHeap h', by rw [Impl.free, ha, hf]; rfl, ?_, hs⟩
  refine h.of_region hs hk.inv h.small fun i hi => ?_
  have hfree : (m.setHeap h').heap.freePages = _ := hk.free_eq
  have hcount : (m.setHeap h').pageReferenceCounts i = m.pageReferenceCounts i := rfl
  rw [hfree, hcount, Finset.mem_sdiff, Finset.mem_union, Finset.mem_Ico]
  by_cases hr : o ≤ i ∧ i < o + n
  · have hp := hown i hr.1 hr.2
    have h2 := (h.owed i hi hp).2
    exact ⟨fun _ => iff_of_true (.inr (by omega)) h2, fun hn => absurd (by omega) hn.2⟩
  · have hnr : ¬(m.firstPage + o ≤ m.firstPage + i ∧ m.firstPage + i < m.firstPage + o + n) := by
      omega
    rw [and_iff_left hnr, or_iff_left hnr]
    exact ⟨h.agree i hi, h.owed i hi⟩

theorem Agrees.openFirst (h : m.Agrees P) (hh : m.Holds address n)
    (hP : KPageGroup.newPages address n ⊆ P) : ∃ m', m.openFirst address n = some m' ∧
      m'.Agrees (P \ KPageGroup.newPages address n) ∧ m.SameRegion m' := by
  obtain ⟨-, hoff, hpg⟩ := hh.offset h.inv
  rw [KPageGroup.newPages, hpg] at hP ⊢
  rw [Impl.openFirst]
  generalize m.getPageOffset address = o at *
  have hown : ∀ i, o ≤ i → i < o + n → m.firstPage + i ∈ P := fun i h1 h2 =>
    hP (Finset.mem_Ico.mpr ⟨by omega, by omega⟩)
  have hs : m.SameRegion (m.mapCounts (fun c => (c + 1) % 2 ^ 16) o n) := ⟨rfl, rfl, rfl⟩
  refine ⟨_, openLoop_eq fun i h1 h2 => ?_, ?_, hs⟩
  · rw [(h.owed i (by omega) (hown i h1 h2)).2]
    rfl
  · refine h.of_region hs h.inv (fun i => ?_) fun i hi => ?_
    · have := h.small i
      dsimp only [mapCounts]
      split <;> omega
    · dsimp only [mapCounts]
      rw [Finset.mem_sdiff, Finset.mem_Ico]
      by_cases hr : o ≤ i ∧ i < o + n
      · obtain ⟨h1, h2⟩ := h.owed i hi (hown i hr.1 hr.2)
        rw [if_pos hr, h2]
        exact ⟨fun _ => iff_of_false h1 (by decide), fun hn => absurd (by omega) hn.2⟩
      · have hnr : ¬(m.firstPage + o ≤ m.firstPage + i ∧ m.firstPage + i < m.firstPage + o + n) := by
          omega
        rw [and_iff_left hnr, if_neg hr]
        exact ⟨h.agree i hi, h.owed i hi⟩

theorem Agrees.openPages (h : m.Agrees ∅) (hh : m.Holds address n)
    (hpos : ∀ i, m.getPageOffset address ≤ i → i < m.getPageOffset address + n →
      0 < m.pageReferenceCounts i ∧ m.pageReferenceCounts i + 1 < 2 ^ 16) :
    ∃ m', m.openPages address n = some m' ∧ m'.Agrees ∅ ∧ m.SameRegion m' := by
  rw [Impl.openPages]
  generalize m.getPageOffset address = o at *
  have hs : m.SameRegion (m.mapCounts (fun c => (c + 1) % 2 ^ 16) o n) := ⟨rfl, rfl, rfl⟩
  refine ⟨_, openLoop_eq fun i h1 h2 => ?_, ?_, hs⟩
  · obtain ⟨h3, h4⟩ := hpos i h1 h2
    rw [Nat.mod_eq_of_lt h4, decide_eq_true_eq]
    omega
  · refine h.of_region hs h.inv (fun i => ?_) fun i hi =>
      ⟨fun hn => ?_, fun hm => absurd hm (Finset.notMem_empty _)⟩
    · have := h.small i
      dsimp only [mapCounts]
      split <;> omega
    · have hagree := h.agree i hi hn
      dsimp only [mapCounts]
      by_cases hr : o ≤ i ∧ i < o + n
      · obtain ⟨h3, h4⟩ := hpos i hr.1 hr.2
        rw [if_pos hr, Nat.mod_eq_of_lt h4, hagree]
        exact iff_of_false (by omega) (by omega)
      · rw [if_neg hr]
        exact hagree

/-- `Close` of the pages from an address on: the calls of `Free` are those for the maximal runs of
    pages whose count reaches zero, and every page loses one reference. -/
def Closes (m : Impl) (address n : Nat) (m' : Impl) : Prop :=
  ∃ rs, MaximalRuns (fun i => m.pageReferenceCounts i - 1 = 0) (m.getPageOffset address)
      (m.getPageOffset address + n) rs ∧
    Frees m.heap.heapAddress rs m.heap m'.heap ∧
    m'.pageReferenceCounts = (m.mapCounts (fun c => c - 1) (m.getPageOffset address) n).pageReferenceCounts

theorem Agrees.close (h : m.Agrees ∅) (hh : m.Holds address n)
    (hpos : ∀ i, m.getPageOffset address ≤ i → i < m.getPageOffset address + n →
      0 < m.pageReferenceCounts i) :
    ∃ m', m.close address n = some m' ∧ m'.Agrees ∅ ∧ m.Closes address n m' ∧ m.SameRegion m' := by
  obtain ⟨-, hoff, -⟩ := hh.offset h.inv
  generalize ho : m.getPageOffset address = o at *
  have hmax : MaximalRuns (fun i => m.pageReferenceCounts i - 1 = 0) o (o + n)
      (closeRuns m.pageReferenceCounts n o 0 0) :=
    @closeRuns_maximal m.pageReferenceCounts o n o 0 0 [] (Nat.le_refl _)
      (by rw [if_neg (Nat.lt_irrefl 0)]; exact .nil) (fun h0 => absurd h0 (Nat.lt_irrefl 0))
      (fun _ r hr => absurd hr List.not_mem_nil)
  have hnot : ∀ i, o ≤ i → i < o + n → m.firstPage + i ∉ m.heap.freePages := fun i h1 h2 hmem => by
    have := (h.agree i (by omega) (Finset.notMem_empty _)).mp hmem
    have := hpos i h1 h2
    omega
  obtain ⟨h', hf, hk⟩ := frees_spec h.inv
    (fun r hr => by have := (hmax.inside r hr).2.2; omega) hmax.separated
    (fun r hr i h1 h2 => by
      obtain ⟨h3, -, h4⟩ := hmax.inside r hr
      exact hnot i (by omega) (by omega))
  have hclose : m.close address n = some ((m.setHeap h').mapCounts (fun c => c - 1) o n) := by
    rw [Impl.close, ho]
    exact closeLoop_eq (fun i h1 h2 => ⟨rfl, hpos i h1 h2⟩) hf
  have hs : m.SameRegion ((m.setHeap h').mapCounts (fun c => c - 1) o n) :=
    ⟨hk.address_eq, hk.size_eq, rfl⟩
  refine ⟨_, hclose, ?_, ⟨_, ho.symm ▸ hmax, hf, by rw [ho]; rfl⟩, hs⟩
  refine h.of_region hs hk.inv (fun i => ?_) fun i hi =>
    ⟨fun hn => ?_, fun hm => absurd hm (Finset.notMem_empty _)⟩
  · have := h.small i
    dsimp only [mapCounts, setHeap]
    split <;> omega
  · have hfree : ((m.setHeap h').mapCounts (fun c => c - 1) o n).heap.freePages = _ := hk.free_eq
    rw [hfree, Finset.mem_union, mem_runPositions, h.agree i hi hn]
    dsimp only [mapCounts, setHeap]
    by_cases hr : o ≤ i ∧ i < o + n
    · rw [if_pos hr, hmax.covers i hr.1 hr.2]
      have := hpos i hr.1 hr.2
      constructor
      · rintro (h0 | ⟨r, hr', h1, h2⟩)
        · omega
        · exact ⟨r, hr', by omega, by omega⟩
      · rintro ⟨r, hr', h1, h2⟩
        exact .inr ⟨r, hr', by omega, by omega⟩
    · rw [if_neg hr]
      constructor
      · rintro (h0 | ⟨r, hr', h1, h2⟩)
        · exact h0
        · have := hmax.inside r hr'
          omega
      · exact .inl

end Impl

/-! ## 6. Requests that go through the managers -/

namespace KMemoryManager

open Impl List Option Finset

/-- The invariant of the whole: every manager agrees with its heap but for the pages of `P`, and
    the layout finds the manager of each page of `P` and of each of its pages. -/
structure SystemAgrees (mm : KMemoryManager) (P : Finset Nat) : Prop where
  each : ∀ i < mm.numManagers, (mm.managers i).Agrees P
  index_eq : ∀ i < mm.numManagers, ∀ a, (mm.managers i).heap.heapAddress ≤ a →
    a < (mm.managers i).heap.endAddress → mm.managerIndex a = i
  inside : ∀ p ∈ P, ∃ i < mm.numManagers, ∃ k < (mm.managers i).numPages, p = (mm.managers i).firstPage + k

/-- The same managers, as far as the layout goes. -/
structure SameLayout (mm mm' : KMemoryManager) : Prop where
  numManagers_eq : mm'.numManagers = mm.numManagers
  managerIndex_eq : mm'.managerIndex = mm.managerIndex
  region : ∀ i, (mm.managers i).SameRegion (mm'.managers i)

variable {mm mm' mm'' : KMemoryManager} {P X : Finset Nat} {i : Nat} {m : Impl}

theorem SameLayout.refl (mm : KMemoryManager) : mm.SameLayout mm := ⟨rfl, rfl, fun _ => .refl _⟩

theorem SameLayout.trans (h1 : mm.SameLayout mm') (h2 : mm'.SameLayout mm'') : mm.SameLayout mm'' :=
  ⟨h2.numManagers_eq.trans h1.numManagers_eq, h2.managerIndex_eq.trans h1.managerIndex_eq,
    fun i => (h1.region i).trans (h2.region i)⟩

theorem sameLayout_setManager (hm : (mm.managers i).SameRegion m) : mm.SameLayout (mm.setManager i m) := by
  refine ⟨rfl, rfl, fun j => ?_⟩
  by_cases hj : j = i
  · subst hj
    dsimp only [setManager]
    rw [if_pos rfl]
    exact hm
  · dsimp only [setManager]
    rw [if_neg hj]
    exact .refl _

theorem SameLayout.poolManagers_eq (h : mm.SameLayout mm') (pool : Pool) (dir : Direction) :
    mm'.poolManagers pool dir = mm.poolManagers pool dir := by
  simp only [poolManagers, h.numManagers_eq, (h.region _).pool_eq]

theorem mem_poolManagers {pool : Pool} {dir : Direction} (h : i ∈ mm.poolManagers pool dir) :
    i < mm.numManagers := by
  cases dir with
  | fromFront => exact List.mem_range.mp (List.mem_of_mem_filter h)
  | fromBack => exact List.mem_range.mp (List.mem_of_mem_filter (List.mem_reverse.mp h))

/-- The layout finds one manager for a page, so regions do not overlap. -/
theorem SystemAgrees.apart (h : mm.SystemAgrees P) {j k l : Nat} (hi : i < mm.numManagers)
    (hj : j < mm.numManagers) (hk : k < (mm.managers i).numPages)
    (hl : l < (mm.managers j).numPages)
    (he : (mm.managers i).firstPage + k = (mm.managers j).firstPage + l) : i = j := by
  have hin : ∀ i < mm.numManagers, ∀ k < (mm.managers i).numPages,
      mm.managerIndex (((mm.managers i).firstPage + k) * PageSize) = i := fun i hi k hk => by
    obtain ⟨c, hc⟩ := (h.each i hi).inv.address_aligned
    simp only [numPages, firstPage] at hk ⊢
    refine h.index_eq i hi _ ?_ ?_
    · simp only [PageSize] at *
      omega
    · simp only [KPageHeap.endAddress, PageSize] at *
      omega
  rw [← hin i hi k hk, ← hin j hj l hl, he]

/-- One manager changes, and with it the pages owed among its own. -/
theorem SystemAgrees.setManager (h : mm.SystemAgrees P) (hi : i < mm.numManagers)
    (hm : m.Agrees P') (hr : (mm.managers i).SameRegion m)
    (hP : ∀ p, (p ∈ P ↔ p ∈ P') ∨ ∃ k < (mm.managers i).numPages,
      p = (mm.managers i).firstPage + k) : (mm.setManager i m).SystemAgrees P' := by
  have hl := sameLayout_setManager hr
  have hself : (mm.setManager i m).managers i = m := if_pos rfl
  refine ⟨fun j hj => ?_, fun j hj a => ?_, fun p hp => ?_⟩
  · by_cases hji : j = i
    · rw [hji, hself]
      exact hm
    · have hother : (mm.setManager i m).managers j = mm.managers j := if_neg hji
      rw [hother]
      refine (h.each j hj).congr fun k hk => ?_
      rcases hP ((mm.managers j).firstPage + k) with hP | ⟨l, hl, he⟩
      · exact hP.symm
      · exact absurd (h.apart hj hi hk hl he) hji
  · rw [(hl.region j).address_eq, (hl.region j).endAddress_eq, hl.managerIndex_eq]
    exact h.index_eq j hj a
  · have hfound : ∃ j < mm.numManagers, ∃ k < (mm.managers j).numPages,
        p = (mm.managers j).firstPage + k := by
      rcases hP p with hP | hown
      · exact h.inside p (hP.mpr hp)
      · exact ⟨i, hi, hown⟩
    obtain ⟨j, hj, k, hk, he⟩ := hfound
    refine ⟨j, hj, k, ?_, ?_⟩
    · rw [(hl.region j).numPages_eq]
      exact hk
    · rw [(hl.region j).firstPage_eq]
      exact he

theorem getBlockNumPages_spec {index : Nat} (hi : index < 7) :
    0 < getBlockNumPages index ∧ getBlockNumPages index * PageSize = 2 ^ blockShift index := by
  have hpg := KPageHeap.pageSize_dvd_blockSize hi
  exact ⟨Nat.div_pos (Nat.le_of_dvd (Nat.two_pow_pos _) hpg) (by decide), Nat.div_mul_cancel hpg⟩

/-- What the loops of `AllocatePageGroupImpl` keep: the pages of the group are those that have left
    the heaps. -/
structure GroupInv (mm₀ : KMemoryManager) (st : GroupState) : Prop where
  agrees : st.mm.SystemAgrees st.out.pages
  ok : KPageGroup.Ok st.out.blocks
  layout : mm₀.SameLayout st.mm

section Group

variable {mm₀ : KMemoryManager} {index : Nat} (hidx : index < 7) (unoptimized random : Bool)

include hidx

theorem GroupInv.allocateBlocks (hi : i < mm₀.numManagers) : ∀ {fuel : Nat} {st : GroupState},
    st.numPages < fuel → GroupInv mm₀ st →
    ∃ res st', allocateBlocks index i unoptimized random fuel st = some (res, st') ∧ GroupInv mm₀ st'
  | 0, _, hfuel, _ => absurd hfuel (Nat.not_lt_zero _)
  | fuel + 1, st, hfuel, h => by
    obtain ⟨hpos, hsize⟩ := getBlockNumPages_spec hidx
    rw [KMemoryManager.allocateBlocks]
    generalize getBlockNumPages index = n at *
    split
    · have hi' : i < st.mm.numManagers := h.layout.numManagers_eq ▸ hi
      have hag := h.agrees.each i hi'
      obtain ⟨r, h', hall, hres⟩ := hag.inv.allocateBlock hidx random
      rw [← hsize] at hres
      have hblock : (st.mm.managers i).allocateBlock index random =
          some (r, (st.mm.managers i).setHeap h') := by
        rw [Impl.allocateBlock, hall]
        rfl
      rw [hblock]
      simp only [bind_eq_bind, bind_some]
      obtain ⟨hreg, hcase⟩ := hag.allocated hpos (Nat.dvd_mul_left _ _) hres
      rcases hcase with ⟨rfl, hag'⟩ | ⟨hr, hholds, hdis, hag'⟩
      · -- the manager has no such block
        exact ⟨_, _, rfl, h.agrees.setManager hi' hag' hreg fun p => .inl Iff.rfl, h.ok,
          h.layout.trans (sameLayout_setManager hreg)⟩
      · rw [if_neg hr]
        have hhi : r / PageSize + n ≤ 2 ^ 32 := by
          have h1 := hholds.upper
          have h2 := hag.below
          simp only [PageSize] at *
          omega
        have hown : ∀ p, (p ∈ st.out.pages ↔ p ∈ st.out.pages ∪ KPageGroup.newPages r n) ∨
            ∃ k < (st.mm.managers i).numPages, p = (st.mm.managers i).firstPage + k := fun p => by
          by_cases hp : p ∈ KPageGroup.newPages r n
          · exact .inr (hholds.mem hag.inv hp)
          · refine .inl ?_
            rw [mem_union, or_iff_left hp]
        obtain ⟨res, out, hadd, hok, hout⟩ :=
          h.ok.addBlock hholds.aligned (Nat.pos_of_ne_zero hr) hhi hpos hdis
        rw [hadd, bind_some]
        rcases hout with ⟨rfl, hpages⟩ | ⟨rfl, hsame⟩
        · rw [if_pos rfl]
          obtain ⟨hagt, hregt⟩ := hag'.trackIf unoptimized r n
          refine GroupInv.allocateBlocks hi (by dsimp only; omega) ⟨?_, hok, ?_⟩
          · dsimp only
            rw [hpages]
            exact h.agrees.setManager hi' hagt (hreg.trans hregt) hown
          · exact h.layout.trans (sameLayout_setManager (hreg.trans hregt))
        · -- the block goes back to the heap it came from
          obtain ⟨m', hfree, hagf, hregf⟩ := hag'.free (hreg.holds hholds) subset_union_right
          rw [union_sdiff_cancel_right hdis] at hagf
          rw [hfree, bind_some]
          have hp : out.pages = st.out.pages := by rw [KPageGroup.pages, hsame]; rfl
          refine ⟨_, _, rfl, ?_, hok, h.layout.trans (sameLayout_setManager (hreg.trans hregf))⟩
          rw [hp]
          exact h.agrees.setManager hi' hagf (hreg.trans hregf) fun p => .inl Iff.rfl
    · exact ⟨_, _, rfl, h⟩

theorem GroupInv.allocateFromManagers : ∀ {is : List Nat} {st : GroupState},
    (∀ i ∈ is, i < mm₀.numManagers) → GroupInv mm₀ st →
    ∃ res st', allocateFromManagers index unoptimized random is st = some (res, st') ∧ GroupInv mm₀ st'
  | [], st, _, h => ⟨_, st, rfl, h⟩
  | i :: is, st, his, h => by
    obtain ⟨res, st1, hst1, h1⟩ := h.allocateBlocks hidx unoptimized random
      (his i mem_cons_self) (Nat.lt_succ_self st.numPages)
    rw [KMemoryManager.allocateFromManagers, hst1]
    simp only [bind_eq_bind, bind_some]
    split
    · exact h1.allocateFromManagers fun j hj => his j (mem_cons_of_mem _ hj)
    · exact ⟨_, _, rfl, h1⟩

omit hidx in
theorem GroupInv.allocateLevels (pool : Pool) (dir : Direction) : ∀ {n : Nat} {st : GroupState},
    n ≤ 7 → GroupInv mm₀ st →
    ∃ res st', allocateLevels pool dir unoptimized random n st = some (res, st') ∧ GroupInv mm₀ st'
  | 0, st, _, h => ⟨_, st, rfl, h⟩
  | n + 1, st, hn, h => by
    rw [KMemoryManager.allocateLevels]
    split
    · have hmem : ∀ i ∈ st.mm.poolManagers pool dir, i < mm₀.numManagers := fun i hi =>
        h.layout.numManagers_eq ▸ mem_poolManagers hi
      obtain ⟨res, st1, hst1, h1⟩ := h.allocateFromManagers hn unoptimized random hmem
      rw [hst1]
      simp only [bind_eq_bind, bind_some]
      split
      · exact h1.allocateLevels pool dir (by omega)
      · exact ⟨_, _, rfl, h1⟩
    · exact ⟨_, _, rfl, h⟩

end Group

/-! ## 7. A single manager -/

/-- `AllocateAndOpenContinuous` over the managers: none has a block, or the pages returned are owed
    a first reference by the manager chosen. -/
theorem SystemAgrees.allocateContinuousLoop {numPages alignPages index : Nat} (hn : 0 < numPages)
    (hal : 0 < alignPages) (hidx : KPageHeap.getAlignedBlockIndex numPages alignPages = some index) :
    ∀ {is : List Nat} {mm : KMemoryManager}, (∀ i ∈ is, i < mm.numManagers) →
      mm.SystemAgrees ∅ → ∃ i r mm', allocateContinuousLoop (some index) numPages alignPages is mm =
        some (i, r, mm') ∧ mm.SameLayout mm' ∧ ((r = 0 ∧ mm'.SystemAgrees ∅) ∨
          (r ≠ 0 ∧ i < mm.numManagers ∧ (mm'.managers i).Holds r numPages ∧
            mm'.SystemAgrees (KPageGroup.newPages r numPages)))
  | [], mm, _, h => ⟨0, 0, mm, rfl, .refl mm, .inl ⟨rfl, h⟩⟩
  | i :: is, mm, his, h => by
    have hi := his i mem_cons_self
    have hag := h.each i hi
    obtain ⟨r, h', hall, hres⟩ := hag.inv.allocateAligned hal hidx
    have hpg : PageSize ∣ 2 ^ countrZero 64 (alignPages * PageSize) :=
      Nat.pow_dvd_pow 2 (le_countrZero (k := 12) alignPages (by decide))
    obtain ⟨hreg, hcase⟩ := hag.allocated hn hpg hres
    have hblock : (mm.managers i).allocateAligned (some index) numPages alignPages =
        some (r, (mm.managers i).setHeap h') := by
      rw [Impl.allocateAligned]
      simp only [bind_eq_bind, bind_some, hall, map_some]
    have hl := sameLayout_setManager hreg
    rw [KMemoryManager.allocateContinuousLoop, hblock]
    simp only [bind_eq_bind, bind_some]
    rcases hcase with ⟨rfl, hag'⟩ | ⟨hr, hholds, -, hag'⟩
    · rw [if_neg (by simp)]
      have his' : ∀ j ∈ is, j < (mm.setManager i ((mm.managers i).setHeap h')).numManagers :=
        fun j hj => his j (mem_cons_of_mem _ hj)
      obtain ⟨j, r, mm', hmm', hl', hj⟩ := SystemAgrees.allocateContinuousLoop hn hal hidx his'
        (h.setManager hi hag' hreg fun p => .inl Iff.rfl)
      exact ⟨j, r, mm', hmm', hl.trans hl', hj⟩
    · rw [if_pos hr]
      refine ⟨i, r, _, rfl, hl, .inr ⟨hr, hi, (hl.region i).holds hholds, ?_⟩⟩
      refine h.setManager hi hag' hreg fun p => ?_
      by_cases hp : p ∈ KPageGroup.newPages r numPages
      · exact .inr (hholds.mem hag.inv hp)
      · exact .inl (iff_of_false (notMem_empty _) hp)

section Single

variable (hone : mm.numManagers = 1)

include hone

/-- A block of pages that are owed a reference lies in the one manager. -/
theorem SystemAgrees.block_holds {b : KBlockInfo} (h : mm.SystemAgrees P)
    (hb : KPageGroup.Bounded b) (hP : b.pages ⊆ P) :
    mm.managerIndex b.getAddress = 0 ∧ (mm.managers 0).Holds b.getAddress b.numPages := by
  have hin : ∀ p ∈ b.pages, ∃ k < (mm.managers 0).numPages, p = (mm.managers 0).firstPage + k :=
    fun p hp => by
      obtain ⟨i, hi, hk⟩ := h.inside p (hP hp)
      obtain rfl : i = 0 := by omega
      exact hk
  have hn := hb.numPages_pos
  obtain ⟨k, hk, hk'⟩ := hin b.pageIndex (mem_Ico.mpr ⟨Nat.le_refl _, by omega⟩)
  obtain ⟨l, hl, hl'⟩ := hin (b.pageIndex + (b.numPages - 1)) (mem_Ico.mpr ⟨Nat.le_add_right _ _, by omega⟩)
  have h0 : 0 < mm.numManagers := by omega
  obtain ⟨c, hc⟩ := (h.each 0 h0).inv.address_aligned
  have hholds : (mm.managers 0).Holds b.getAddress b.numPages := by
    refine ⟨Nat.dvd_mul_left _ _, ?_, ?_⟩
    · simp only [KBlockInfo.getAddress, firstPage, PageSize] at *
      omega
    · simp only [KBlockInfo.getAddress, firstPage, numPages, KPageHeap.endAddress, PageSize] at *
      omega
  refine ⟨h.index_eq 0 h0 _ hholds.lower ?_, hholds⟩
  have hu := hholds.upper
  simp only [PageSize] at hu
  omega

theorem SystemAgrees.settle {b : KBlockInfo} (h : mm.SystemAgrees P) (hb : KPageGroup.Bounded b)
    (hP : b.pages ⊆ P) (hm : m.Agrees (P \ b.pages)) (hr : (mm.managers 0).SameRegion m) :
    (mm.setManager 0 m).SystemAgrees (P \ b.pages) := by
  have h0 : 0 < mm.numManagers := by omega
  refine h.setManager h0 hm hr fun p => ?_
  by_cases hp : p ∈ b.pages
  · obtain ⟨-, hholds⟩ := h.block_holds hone hb hP
    rw [KPageGroup.pages_eq_newPages] at hp
    exact .inr (hholds.mem (h.each 0 h0).inv hp)
  · refine .inl ?_
    rw [mem_sdiff, and_iff_left hp]

omit hone in
/-- A walk inside one manager. -/
theorem walkManagers_one {f : Impl → Nat → Nat → Option Impl} {address n : Nat} (hn : 0 < n)
    (hi : mm.managerIndex address = i) (hh : (mm.managers i).Holds address n)
    (hf : f (mm.managers i) address n = some m) :
    walkManagers f n address n mm = some (mm.setManager i m) := by
  have hmin : min n ((mm.managers i).getPageOffsetToEnd address) = n := by
    have h1 := hh.upper
    refine Nat.min_eq_left ?_
    rw [getPageOffsetToEnd, Nat.le_div_iff_mul_le (by decide)]
    omega
  obtain ⟨k, rfl⟩ := Nat.exists_eq_add_of_le' hn
  rw [walkManagers, if_neg (by omega)]
  dsimp only
  rw [hi, hmin, hf]
  simp only [bind_eq_bind, bind_some, Nat.sub_self]
  cases k with
  | zero => rfl
  | succ k => rfl

omit hone in
theorem SystemAgrees.freeGroup : ∀ {bs : List KBlockInfo} {mm : KMemoryManager},
    mm.numManagers = 1 → KPageGroup.Ok bs → mm.SystemAgrees (KPageGroup.pagesOf bs) →
    ∃ mm', freeGroup bs mm = some mm' ∧ mm'.SystemAgrees ∅ ∧ mm.SameLayout mm'
  | [], mm, _, _, h => ⟨mm, rfl, h, .refl mm⟩
  | b :: bs, mm, hone, hok, h => by
    have hb := hok.bounded b mem_cons_self
    obtain ⟨hok', hdis⟩ := hok.of_cons
    have hP : b.pages ⊆ KPageGroup.pagesOf (b :: bs) := subset_union_left
    obtain ⟨hidx, hholds⟩ := h.block_holds hone hb hP
    have hag := h.each 0 (by omega)
    obtain ⟨m, hm, hagm, hreg⟩ := hag.free hholds (KPageGroup.pages_eq_newPages b ▸ hP)
    rw [← KPageGroup.pages_eq_newPages] at hagm
    have h' := h.settle hone hb hP hagm hreg
    have hrest : KPageGroup.pagesOf (b :: bs) \ b.pages = KPageGroup.pagesOf bs :=
      union_sdiff_cancel_left hdis
    rw [hrest] at h'
    have hone' : (mm.setManager 0 m).numManagers = 1 := hone
    obtain ⟨mm', hmm', hsys, hlay⟩ := SystemAgrees.freeGroup hone' hok' h'
    have hmin : min b.numPages (((mm.managers 0).heap.endAddress - b.getAddress) / PageSize) =
        b.numPages := by
      have h1 := hholds.upper
      refine Nat.min_eq_left ?_
      rw [Nat.le_div_iff_mul_le (by decide)]
      omega
    refine ⟨mm', ?_, hsys, (sameLayout_setManager hreg).trans hlay⟩
    rw [KMemoryManager.freeGroup, hidx, hmin, hm]
    exact hmm'

omit hone in
theorem SystemAgrees.openFirstGroup : ∀ {bs : List KBlockInfo} {mm : KMemoryManager},
    mm.numManagers = 1 → KPageGroup.Ok bs → mm.SystemAgrees (KPageGroup.pagesOf bs) →
    ∃ mm', openFirstGroup bs mm = some mm' ∧ mm'.SystemAgrees ∅ ∧ mm.SameLayout mm'
  | [], mm, _, _, h => ⟨mm, rfl, h, .refl mm⟩
  | b :: bs, mm, hone, hok, h => by
    have hb := hok.bounded b mem_cons_self
    obtain ⟨hok', hdis⟩ := hok.of_cons
    have hP : b.pages ⊆ KPageGroup.pagesOf (b :: bs) := subset_union_left
    obtain ⟨hidx, hholds⟩ := h.block_holds hone hb hP
    have hag := h.each 0 (by omega)
    obtain ⟨m, hm, hagm, hreg⟩ := hag.openFirst hholds (KPageGroup.pages_eq_newPages b ▸ hP)
    rw [← KPageGroup.pages_eq_newPages] at hagm
    have h' := h.settle hone hb hP hagm hreg
    have hrest : KPageGroup.pagesOf (b :: bs) \ b.pages = KPageGroup.pagesOf bs :=
      union_sdiff_cancel_left hdis
    rw [hrest] at h'
    have hone' : (mm.setManager 0 m).numManagers = 1 := hone
    obtain ⟨mm', hmm', hsys, hlay⟩ := SystemAgrees.openFirstGroup hone' hok' h'
    refine ⟨mm', ?_, hsys, (sameLayout_setManager hreg).trans hlay⟩
    rw [KMemoryManager.openFirstGroup, KMemoryManager.openFirst,
      walkManagers_one hb.numPages_pos hidx hholds hm]
    exact hmm'

omit hone in
theorem getBlockIndexLoop_lt {numPages index : Nat} : ∀ {n : Nat},
    getBlockIndexLoop numPages n = some index → index < n
  | 0, h => nomatch h
  | n + 1, h => by
    rw [getBlockIndexLoop] at h
    split at h
    · cases h
      exact Nat.lt_succ_self _
    · exact Nat.lt_succ_of_lt (getBlockIndexLoop_lt h)

/-- A group that could not be completed is empty again. -/
theorem SystemAgrees.allocatePageGroupImpl (h : mm.SystemAgrees ∅) (manager : KBlockInfoManager)
    (numPages : Nat) (pool : Pool) (dir : Direction) (unoptimized random : Bool) :
    ∃ res out mm', mm.allocatePageGroupImpl ⟨[], manager⟩ numPages pool dir unoptimized random =
        some (res, out, mm') ∧
      mm'.SystemAgrees out.pages ∧ KPageGroup.Ok out.blocks ∧ mm.SameLayout mm' ∧
      (res ≠ .success → out.blocks = []) := by
  rw [KMemoryManager.allocatePageGroupImpl]
  cases hidx : getBlockIndex numPages with
  | none => exact ⟨_, _, mm, rfl, h, KPageGroup.ok_nil, .refl mm, fun _ => rfl⟩
  | some index =>
    have hinit : GroupInv mm ⟨mm, ⟨[], manager⟩, numPages⟩ := ⟨h, KPageGroup.ok_nil, .refl mm⟩
    obtain ⟨res, st, hst, hinv⟩ := hinit.allocateLevels unoptimized random pool dir
      (getBlockIndexLoop_lt hidx)
    dsimp only
    rw [hst]
    simp only [bind_eq_bind, bind_some]
    generalize (if res = .success ∧ st.numPages ≠ 0 then Result.outOfMemory else res) = res'
    split
    · exact ⟨_, _, _, rfl, hinv.agrees, hinv.ok, hinv.layout, fun hne => absurd rfl hne⟩
    · obtain ⟨mm', hmm', hsys, hlay⟩ := SystemAgrees.freeGroup
        (hinv.layout.numManagers_eq.trans hone) hinv.ok hinv.agrees
      rw [hmm', bind_some]
      exact ⟨_, _, _, rfl, hsys, KPageGroup.ok_nil, hinv.layout.trans hlay, fun _ => rfl⟩

/-- **AllocateAndOpen** returns, and afterwards counts and heap agree again. -/
theorem SystemAgrees.allocateAndOpen (h : mm.SystemAgrees ∅) (manager : KBlockInfoManager)
    (numPages : Nat) (pool : Pool) (dir : Direction) : ∃ res out mm',
      mm.allocateAndOpen ⟨[], manager⟩ numPages pool dir = some (res, out, mm') ∧
      mm'.SystemAgrees ∅ ∧ mm.SameLayout mm' := by
  have h0 : (⟨[], manager⟩ : KPageGroup).getNumPages = 0 := rfl
  rw [KMemoryManager.allocateAndOpen, assert_bind_of h0]
  split
  · exact ⟨_, _, mm, rfl, h, .refl mm⟩
  · obtain ⟨res, out, mm1, hmm1, hsys, hok, hlay, hfail⟩ := h.allocatePageGroupImpl hone manager
      numPages pool dir (mm.hasOptimizedProcess pool) true
    rw [hmm1]
    simp only [bind_eq_bind, bind_some]
    split
    · obtain ⟨mm', hmm', hsys', hlay'⟩ := SystemAgrees.openFirstGroup
        (hlay.numManagers_eq.trans hone) hok hsys
      rw [hmm']
      exact ⟨_, _, _, rfl, hsys', hlay.trans hlay'⟩
    · rename_i hres
      rw [KPageGroup.pages, hfail hres] at hsys
      exact ⟨_, _, _, rfl, hsys, hlay⟩

omit hone in
/-- **AllocateAndOpenContinuous** of a request that some block size can serve. -/
theorem SystemAgrees.allocateAndOpenContinuous (h : mm.SystemAgrees ∅) {numPages alignPages : Nat}
    (hreq : numPages ≠ 0 → 0 < alignPages ∧
      (KPageHeap.getAlignedBlockIndex numPages alignPages).isSome = true)
    (pool : Pool) (dir : Direction) : ∃ r mm',
      mm.allocateAndOpenContinuous numPages alignPages pool dir = some (r, mm') ∧
      mm'.SystemAgrees ∅ ∧ mm.SameLayout mm' := by
  rw [KMemoryManager.allocateAndOpenContinuous]
  split
  · exact ⟨_, mm, rfl, h, .refl mm⟩
  · rename_i hn
    obtain ⟨hal, hidx⟩ := hreq hn
    obtain ⟨index, hidx⟩ := isSome_iff_exists.mp hidx
    have his : ∀ i ∈ mm.poolManagers pool dir, i < mm.numManagers := fun i hi =>
      mem_poolManagers hi
    obtain ⟨i, r, mm1, hmm1, hlay, hcase⟩ := SystemAgrees.allocateContinuousLoop
      (Nat.pos_of_ne_zero hn) hal hidx his h
    dsimp only
    rw [hidx, hmm1]
    simp only [bind_eq_bind, bind_some]
    rcases hcase with ⟨rfl, hsys⟩ | ⟨hr, hi, hholds, hsys⟩
    · rw [if_pos rfl]
      exact ⟨_, _, rfl, hsys, hlay⟩
    · rw [if_neg hr]
      have hi1 : i < mm1.numManagers := hlay.numManagers_eq ▸ hi
      obtain ⟨hagt, hregt⟩ := (hsys.each i hi1).trackIf (mm1.hasOptimizedProcess pool) r numPages
      obtain ⟨m, hm, hagm, hregm⟩ := hagt.openFirst (hregt.holds hholds) (Finset.Subset.refl _)
      rw [sdiff_self] at hagm
      rw [hm]
      have hreg := hregt.trans hregm
      refine ⟨_, _, rfl, hsys.setManager hi1 hagm hreg fun p => ?_, hlay.trans (sameLayout_setManager hreg)⟩
      by_cases hp : p ∈ KPageGroup.newPages r numPages
      · exact .inr (hholds.mem (hsys.each i hi1).inv hp)
      · exact .inl (iff_of_false hp (notMem_empty _))

end Single

end KMemoryManager

/-! ## 8. The state after Initialize -/

namespace Impl

variable {m m₁ : Impl} {cur n e iniStart iniSize : Nat}

/-- The pages from `cur` up to page `e`, less the first `n` of them. -/
theorem ico_sdiff_newPages (hn : cur / PageSize + n ≤ e) :
    KPageGroup.newPages cur n ⊆ Finset.Ico (cur / PageSize) e ∧
      Finset.Ico (cur / PageSize) e \ KPageGroup.newPages cur n =
        Finset.Ico ((cur + n * PageSize) / PageSize) e := by
  rw [KPageGroup.newPages, Nat.add_mul_div_right _ _ (by decide)]
  refine ⟨Finset.Ico_subset_Ico (Nat.le_refl _) hn, ?_⟩
  ext p
  simp only [Finset.mem_sdiff, Finset.mem_Ico]
  omega

/-- The pages of the manager from `cur` on are owed a reference, or a place in the heap. -/
def AgreesUpTo (m : Impl) (cur : Nat) : Prop :=
  m.Agrees (Finset.Ico (cur / PageSize) (m.heap.endAddress / PageSize))

theorem holds_of_le (hc : PageSize ∣ cur) (hlo : m.heap.heapAddress ≤ cur)
    (hhi : cur + n * PageSize ≤ m.heap.endAddress) :
    m.Holds cur n ∧ cur / PageSize + n ≤ m.heap.endAddress / PageSize := by
  refine ⟨⟨hc, hlo, hhi⟩, ?_⟩
  have := Nat.div_le_div_right (c := PageSize) hhi
  rwa [Nat.add_mul_div_right _ _ (by decide)] at this

theorem AgreesUpTo.free (h : m.AgreesUpTo cur) (hc : PageSize ∣ cur)
    (hlo : m.heap.heapAddress ≤ cur) (hhi : cur + n * PageSize ≤ m.heap.endAddress) :
    ∃ m', m.free cur n = some m' ∧ m'.AgreesUpTo (cur + n * PageSize) ∧ m.SameRegion m' := by
  obtain ⟨hh, hle⟩ := holds_of_le hc hlo hhi
  obtain ⟨hsub, hrest⟩ := ico_sdiff_newPages hle
  obtain ⟨m', hm', hag, hreg⟩ := Agrees.free h hh hsub
  refine ⟨m', hm', ?_, hreg⟩
  rw [AgreesUpTo, hreg.endAddress_eq, ← hrest]
  exact hag

theorem AgreesUpTo.openFirst (h : m.AgreesUpTo cur) (hc : PageSize ∣ cur)
    (hlo : m.heap.heapAddress ≤ cur) (hhi : cur + n * PageSize ≤ m.heap.endAddress) :
    ∃ m', m.openFirst cur n = some m' ∧ m'.AgreesUpTo (cur + n * PageSize) ∧ m.SameRegion m' := by
  obtain ⟨hh, hle⟩ := holds_of_le hc hlo hhi
  obtain ⟨hsub, hrest⟩ := ico_sdiff_newPages hle
  obtain ⟨m', hm', hag, hreg⟩ := Agrees.openFirst h hh hsub
  refine ⟨m', hm', ?_, hreg⟩
  rw [AgreesUpTo, hreg.endAddress_eq, ← hrest]
  exact hag

theorem freeIf_eq {cond : Bool} {addr : Nat} (hc : cond = false → n = 0) :
    m.freeIf cond addr n = m.free addr n := by
  cases cond with
  | true => rfl
  | false =>
    rw [hc rfl, free, KPageHeap.free, if_pos rfl]
    rfl

section Regions

variable (hs : PageSize ∣ iniStart) (hz : PageSize ∣ iniSize)

include hs hz

theorem AgreesUpTo.freeRegion {size : Nat} (h : m.AgreesUpTo cur) (hpos : 0 < cur)
    (hc : PageSize ∣ cur) (hsz : PageSize ∣ size) (hlo : m.heap.heapAddress ≤ cur)
    (hhi : cur + size ≤ m.heap.endAddress) (hr : freeRegion iniStart iniSize m cur size = some m₁) :
    m₁.AgreesUpTo (cur + size) ∧ m.SameRegion m₁ := by
  rw [Impl.freeRegion] at hr
  split at hr
  · rename_i hini
    have e1 : cur + (iniStart - cur) / PageSize * PageSize = iniStart := by
      rw [Nat.div_mul_cancel (Nat.dvd_sub hs hc)]
      omega
    have e2 : iniStart + iniSize / PageSize * PageSize = iniStart + iniSize := by
      rw [Nat.div_mul_cancel hz]
    have e3 : iniStart + iniSize + (cur + size - (iniStart + iniSize)) / PageSize * PageSize =
        cur + size := by
      rw [Nat.div_mul_cancel (Nat.dvd_sub (Nat.dvd_add hc hsz) (Nat.dvd_add hs hz))]
      omega
    have n1 : decide (cur ≠ iniStart) = false → (iniStart - cur) / PageSize = 0 := fun e => by
      rw [not_not.mp (of_decide_eq_false e), Nat.sub_self, Nat.zero_div]
    have n3 : decide (iniStart + iniSize - 1 ≠ cur + size - 1) = false →
        (cur + size - (iniStart + iniSize)) / PageSize = 0 := fun e => by
      have := not_not.mp (of_decide_eq_false e)
      have e0 : cur + size - (iniStart + iniSize) = 0 := by omega
      rw [e0, Nat.zero_div]
    obtain ⟨m', hm', ha', hr'⟩ := h.free (n := (iniStart - cur) / PageSize) hc hlo (by rw [e1]; omega)
    rw [e1] at ha'
    obtain ⟨m'', hm'', ha'', hr''⟩ := ha'.openFirst (n := iniSize / PageSize) hs
      (by rw [hr'.address_eq]; omega) (by rw [hr'.endAddress_eq, e2]; omega)
    rw [e2] at ha''
    have hreg := hr'.trans hr''
    obtain ⟨m3, hm3, ha3, hr3⟩ := ha''.free
      (n := (cur + size - (iniStart + iniSize)) / PageSize) (Nat.dvd_add hs hz)
      (by rw [hreg.address_eq]; omega) (by rw [hreg.endAddress_eq, e3]; exact hhi)
    rw [e3] at ha3
    rw [freeIf_eq n1, hm', Option.bind_eq_bind, Option.bind_some, hm'', Option.bind_some,
      freeIf_eq n3, hm3] at hr
    cases hr
    exact ⟨ha3, hreg.trans hr3⟩
  · have e : cur + size / PageSize * PageSize = cur + size := by rw [Nat.div_mul_cancel hsz]
    rw [assert_bind_eq_some] at hr
    obtain ⟨m', hm', ha', hr'⟩ := h.free (n := size / PageSize) hc hlo (by rw [e]; exact hhi)
    rw [e] at ha'
    rw [hm'] at hr
    cases hr.2
    exact ⟨ha', hr'⟩

theorem AgreesUpTo.freeRegions : ∀ {sizes : List Nat} {cur : Nat} {m : Impl}, m.AgreesUpTo cur →
    0 < cur → PageSize ∣ cur → (∀ size ∈ sizes, PageSize ∣ size) → m.heap.heapAddress ≤ cur →
    cur + sizes.sum ≤ m.heap.endAddress → freeRegions iniStart iniSize sizes cur m = some m₁ →
    m₁.AgreesUpTo (cur + sizes.sum) ∧ m.SameRegion m₁
  | [], cur, m, h, _, _, _, _, _, hr => by
    cases hr
    exact ⟨h, .refl _⟩
  | size :: sizes, cur, m, h, hpos, hc, hsz, hlo, hhi, hr => by
    rw [List.sum_cons] at hhi ⊢
    rw [Impl.freeRegions, Option.bind_eq_bind, Option.bind_eq_some_iff] at hr
    obtain ⟨m', hm', hr⟩ := hr
    have hsz1 := hsz size List.mem_cons_self
    obtain ⟨ha', hreg⟩ := h.freeRegion hs hz hpos hc hsz1 hlo (by omega) hm'
    have hend : cur + size + sizes.sum ≤ m'.heap.endAddress := by
      rw [hreg.endAddress_eq]
      omega
    obtain ⟨ha1, hreg1⟩ := AgreesUpTo.freeRegions ha' (by omega) (Nat.dvd_add hc hsz1)
      (fun t ht => hsz t (List.mem_cons_of_mem _ ht)) (by rw [hreg.address_eq]; omega) hend hr
    rw [← Nat.add_assoc]
    exact ⟨ha1, hreg.trans hreg1⟩

/-- After `Initialize`, counts and heap agree. -/
theorem initializeManager_agrees {rngs : Nat → RandomBitGenerator} {rng : RandomBitGenerator}
    {om : Nat → BitVec 64} {pool : Pool} {address : Nat} {sizes : List Nat} (hpos : 0 < address)
    (hbelow : address + sizes.sum ≤ 2 ^ 44) (hsz : ∀ size ∈ sizes, PageSize ∣ size)
    (h : initializeManager rngs rng om pool iniStart iniSize address sizes = some m) :
    m.Agrees ∅ := by
  rw [initializeManager, Option.bind_eq_bind, Option.bind_eq_some_iff] at h
  obtain ⟨m0, hm0, h⟩ := h
  rw [initializeImpl, Option.bind_eq_bind, Option.bind_eq_some_iff] at hm0
  obtain ⟨heap, hheap, hm0⟩ := hm0
  cases hm0
  obtain ⟨hv, hempty⟩ := KPageHeap.initializeHeap_inv hpos hheap
  obtain ⟨hal, hsize⟩ : heap.heapAddress = address ∧ heap.heapSize = sizes.sum := by
    simp only [KPageHeap.initializeHeap, assert_bind_eq_some] at hheap
    obtain ⟨-, -, hheap⟩ := hheap
    simp only [Option.bind_eq_bind, Option.bind_eq_some_iff, Option.pure_def, Option.some.injEq] at hheap
    obtain ⟨blocks, -, rfl⟩ := hheap
    exact ⟨rfl, rfl⟩
  have hend : heap.endAddress = address + sizes.sum := by rw [KPageHeap.endAddress, hal, hsize]
  have h0 : (⟨heap, fun _ => 0, om, pool⟩ : Impl).AgreesUpTo address := by
    refine ⟨hv, by rw [hend]; exact hbelow, fun _ => Nat.two_pow_pos 16, fun i hi hn => ?_,
      fun i hi hm => ?_⟩
    · exfalso
      refine hn (Finset.mem_Ico.mpr ⟨?_, ?_⟩)
      · simp only [firstPage, hal]
        exact Nat.le_add_right _ _
      · obtain ⟨c, hc⟩ := hv.address_aligned
        simp only [firstPage, numPages, KPageHeap.endAddress, PageSize] at *
        omega
    · refine ⟨?_, rfl⟩
      rw [hempty]
      exact Finset.notMem_empty _
  have hlo : (⟨heap, fun _ => 0, om, pool⟩ : Impl).heap.heapAddress ≤ address := Nat.le_of_eq hal
  have hhi : address + sizes.sum ≤ (⟨heap, fun _ => 0, om, pool⟩ : Impl).heap.endAddress :=
    Nat.le_of_eq hend.symm
  obtain ⟨ha, hreg⟩ := AgreesUpTo.freeRegions hs hz h0 hpos (hal ▸ hv.address_aligned) hsz hlo hhi h
  rw [AgreesUpTo, hreg.endAddress_eq] at ha
  rw [hend, Finset.Ico_self] at ha
  exact ha

end Regions

end Impl

/-! ## 9. Every reachable state -/

/-- A call on the memory manager. `manager` is where the page group takes its block infos from. -/
inductive MemoryOp where
  | allocateAndOpen (manager : KBlockInfoManager) (numPages : Nat) (pool : Pool) (dir : Direction)
  | allocateAndOpenContinuous (numPages alignPages : Nat) (pool : Pool) (dir : Direction)
  | openPages (address numPages : Nat)
  | close (address numPages : Nat)

namespace MemoryOp

open KMemoryManager Impl

def run (op : MemoryOp) (mm : KMemoryManager) : Option KMemoryManager :=
  match op with
  | allocateAndOpen manager numPages pool dir =>
    (mm.allocateAndOpen ⟨[], manager⟩ numPages pool dir).map fun r => r.2.2
  | allocateAndOpenContinuous numPages alignPages pool dir =>
    (mm.allocateAndOpenContinuous numPages alignPages pool dir).map fun r => r.2
  | openPages address numPages => mm.openPages address numPages
  | close address numPages => mm.close address numPages

/-- Pages that are opened or closed are pages of the manager with a reference, and no count
    overflows. -/
def Legal (op : MemoryOp) (mm : KMemoryManager) : Prop :=
  match op with
  | allocateAndOpen .. => True
  | allocateAndOpenContinuous .. => True
  | openPages address n => (mm.managers 0).Holds address n ∧
      ∀ i, (mm.managers 0).getPageOffset address ≤ i → i < (mm.managers 0).getPageOffset address + n →
        0 < (mm.managers 0).pageReferenceCounts i ∧ (mm.managers 0).pageReferenceCounts i + 1 < 2 ^ 16
  | close address n => (mm.managers 0).Holds address n ∧
      ∀ i, (mm.managers 0).getPageOffset address ≤ i → i < (mm.managers 0).getPageOffset address + n →
        0 < (mm.managers 0).pageReferenceCounts i

/-- Some block size can serve a continuous request: it asks for an alignment, and for no more than
    the largest block. -/
def Servable (op : MemoryOp) : Prop :=
  match op with
  | allocateAndOpenContinuous numPages alignPages _ _ =>
    numPages ≠ 0 → 0 < alignPages ∧ max numPages alignPages ≤ 2 ^ 18
  | _ => True

/-- What is said of a call beyond the agreement: `Close` frees the maximal runs. -/
def Outcome (op : MemoryOp) (mm mm' : KMemoryManager) : Prop :=
  match op with
  | close address n => n ≠ 0 → (mm.managers 0).Closes address n (mm'.managers 0)
  | _ => True

theorem getAlignedBlockIndex_isSome {numPages alignPages : Nat} (h : max numPages alignPages ≤ 2 ^ 18) :
    (KPageHeap.getAlignedBlockIndex numPages alignPages).isSome = true := by
  rw [KPageHeap.getAlignedBlockIndex, List.find?_isSome]
  exact ⟨6, by decide, decide_eq_true h⟩

variable {mm mm' : KMemoryManager}

/-- One call: it returns, and counts and heap still agree. -/
theorem run_step (hone : mm.numManagers = 1) (h : mm.SystemAgrees ∅) {op : MemoryOp}
    (hop : op.Legal mm) (hs : op.Servable) : ∃ mm', op.run mm = some mm' ∧ mm'.SystemAgrees ∅ ∧
      mm'.numManagers = 1 ∧ op.Outcome mm mm' := by
  have h0 : 0 < mm.numManagers := by omega
  -- a call on pages of the one manager
  have hwalk : ∀ {f : Impl → Nat → Nat → Option Impl} {address n : Nat} {m : Impl},
      (mm.managers 0).Holds address n → f (mm.managers 0) address n = some m → m.Agrees ∅ →
      (mm.managers 0).SameRegion m → 0 < n →
      walkManagers f n address n mm = some (mm.setManager 0 m) ∧
        (mm.setManager 0 m).SystemAgrees ∅ := fun {f address n m} hh hf hag hreg hn => by
    have hidx : mm.managerIndex address = 0 := by
      refine h.index_eq 0 h0 _ hh.lower ?_
      have := hh.upper
      simp only [PageSize] at this
      omega
    exact ⟨walkManagers_one hn hidx hh hf, h.setManager h0 hag hreg fun p => .inl Iff.rfl⟩
  cases op with
  | allocateAndOpen manager numPages pool dir =>
    obtain ⟨res, out, mm', hmm', hsys, hlay⟩ := h.allocateAndOpen hone manager numPages pool dir
    exact ⟨mm', by rw [run, hmm']; rfl, hsys, hlay.numManagers_eq.trans hone, trivial⟩
  | allocateAndOpenContinuous numPages alignPages pool dir =>
    obtain ⟨r, mm', hmm', hsys, hlay⟩ := h.allocateAndOpenContinuous
      (fun hn => ⟨(hs hn).1, getAlignedBlockIndex_isSome (hs hn).2⟩) pool dir
    exact ⟨mm', by rw [run, hmm']; rfl, hsys, hlay.numManagers_eq.trans hone, trivial⟩
  | openPages address n =>
    obtain ⟨hh, hpos⟩ := hop
    rcases Nat.eq_zero_or_pos n with rfl | hn
    · exact ⟨mm, rfl, h, hone, trivial⟩
    · obtain ⟨m, hm, hag, hreg⟩ := (h.each 0 h0).openPages hh hpos
      obtain ⟨hw, hsys⟩ := hwalk hh hm hag hreg hn
      exact ⟨_, hw, hsys, hone, trivial⟩
  | close address n =>
    obtain ⟨hh, hpos⟩ := hop
    rcases Nat.eq_zero_or_pos n with rfl | hn
    · exact ⟨mm, rfl, h, hone, fun h0 => absurd rfl h0⟩
    · obtain ⟨m, hm, hag, hcl, hreg⟩ := (h.each 0 h0).close hh hpos
      obtain ⟨hw, hsys⟩ := hwalk hh hm hag hreg hn
      exact ⟨_, hw, hsys, hone, fun _ => hcl⟩

/-- The states that legal calls with servable requests lead to. -/
inductive Reachable (mm₀ : KMemoryManager) : KMemoryManager → Prop
  | refl : Reachable mm₀ mm₀
  | step {mm mm' : KMemoryManager} {op : MemoryOp} (hr : Reachable mm₀ mm) (hop : op.Legal mm)
      (hs : op.Servable) (hrun : op.run mm = some mm') : Reachable mm₀ mm'

theorem Reachable.agrees {mm₀ : KMemoryManager} (hone : mm₀.numManagers = 1)
    (h : mm₀.SystemAgrees ∅) (hr : Reachable mm₀ mm) :
    mm.numManagers = 1 ∧ mm.SystemAgrees ∅ := by
  induction hr with
  | refl => exact ⟨hone, h⟩
  | step _ hop hs hrun ih =>
    obtain ⟨mm', hmm', hsys, hone', -⟩ := run_step ih.1 ih.2 hop hs
    rw [hrun] at hmm'
    cases hmm'
    exact ⟨hone', hsys⟩

/-- **Counts and heap agree.** A system with one manager, set up by `Initialize` below the last
    address a block info can name: in every state that calls with servable requests lead to, a page
    is free iff its count is zero, and every further such call returns; `Close` frees exactly the
    maximal runs of pages whose count reaches zero. -/
theorem run_agrees (rngs : Nat → RandomBitGenerator) (rng : RandomBitGenerator)
    (om : Nat → BitVec 64) (pool : Pool) (iniStart iniSize address : Nat) (sizes : List Nat)
    (hs : PageSize ∣ iniStart) (hz : PageSize ∣ iniSize) (hpos : 0 < address)
    (hbelow : address + sizes.sum ≤ 2 ^ 44) (hsz : ∀ size ∈ sizes, PageSize ∣ size)
    (mm₀ mm : KMemoryManager) (hone : mm₀.numManagers = 1)
    (hinit : initializeManager rngs rng om pool iniStart iniSize address sizes = some (mm₀.managers 0))
    (hidx : ∀ a, (mm₀.managers 0).heap.heapAddress ≤ a → a < (mm₀.managers 0).heap.endAddress →
      mm₀.managerIndex a = 0)
    (hr : Reachable mm₀ mm) :
    (∀ i < (mm.managers 0).numPages, ((mm.managers 0).firstPage + i ∈
      (mm.managers 0).heap.freePages ↔ (mm.managers 0).pageReferenceCounts i = 0)) ∧
    ∀ op : MemoryOp, op.Legal mm → op.Servable → ∃ mm', op.run mm = some mm' ∧ op.Outcome mm mm' := by
  have hag₀ := initializeManager_agrees hs hz hpos hbelow hsz hinit
  have h₀ : mm₀.SystemAgrees ∅ := by
    refine ⟨fun i hi => ?_, fun i hi => ?_, fun p hp => absurd hp (Finset.notMem_empty p)⟩
    · obtain rfl : i = 0 := by omega
      exact hag₀
    · obtain rfl : i = 0 := by omega
      exact hidx
  obtain ⟨hone', h⟩ := hr.agrees hone h₀
  have hag := h.each 0 (by omega)
  refine ⟨fun i hi => hag.agree i hi (Finset.notMem_empty _), fun op hop hsv => ?_⟩
  obtain ⟨mm', hmm', -, -, ho⟩ := run_step hone' h hop hsv
  exact ⟨mm', hmm', ho⟩

/-- A system whose one manager has sixteen pages from `0x10000` on, all of them free. -/
def sixteenPages : Option Impl :=
  initializeManager (fun _ => .zeros) .zeros (fun _ => 0) .application 0x40000 0x1000
    0x10000 [0x8000, 0x8000]

/-- The system of one manager. -/
def singleton (m : Impl) : KMemoryManager := ⟨fun _ => m, 1, fun _ => 0, fun _ => false⟩

theorem run_agrees_sixteen : ∃ m, sixteenPages = some m ∧
    (∀ i < m.numPages, (m.firstPage + i ∈ m.heap.freePages ↔ m.pageReferenceCounts i = 0)) ∧
    ∃ mm', (allocateAndOpenContinuous 3 1 .application .fromFront).run (singleton m) =
      some mm' := by
  have hsome : sixteenPages.isSome = true := by decide
  obtain ⟨m, hm⟩ := Option.isSome_iff_exists.mp hsome
  obtain ⟨hagree, hops⟩ := run_agrees (fun _ => .zeros) .zeros (fun _ => 0)
    .application 0x40000 0x1000 0x10000 [0x8000, 0x8000] (by decide) (by decide) (by decide)
    (by decide) (by decide) (singleton m) (singleton m) rfl hm (fun _ _ _ => rfl) .refl
  obtain ⟨mm', hmm', -⟩ := hops (allocateAndOpenContinuous 3 1 .application .fromFront) trivial
    (fun _ => by decide)
  exact ⟨m, hm, hagree, mm', hmm'⟩

/-- A continuous request for more pages than the largest block has leaves the array of blocks. -/
theorem run_leaves_blocks : ∃ m, sixteenPages = some m ∧
    (allocateAndOpenContinuous (2 ^ 18 + 1) 1 .application .fromFront).Legal (singleton m) ∧
    (allocateAndOpenContinuous (2 ^ 18 + 1) 1 .application .fromFront).run (singleton m) = none := by
  have hsome : (sixteenPages.map fun m => ((allocateAndOpenContinuous (2 ^ 18 + 1) 1 .application
      .fromFront).run (singleton m)).isNone) = some true := by decide
  obtain ⟨m, hm, hnone⟩ := Option.map_eq_some_iff.mp hsome
  exact ⟨m, hm, trivial, Option.isNone_iff_eq_none.mp hnone⟩

end MemoryOp

end Yuzu.Kernel
