/-
  File:      Yuzu/Kernel/OptimizedAllocation.lean
  Subject:   `KMemoryManager::AllocateForProcess` (k_memory_manager.cpp): the pages that are filled for
             the optimized process of a pool, and the map of the pages it was given.

  * `fillNode_spec` -- a node's pages without a bit are filled; the flag that comes back is about the
    last manager of the node only;
  * `processNodes_spec` -- which bits are set after all nodes;
  * `allocateForProcess_fillsOnce` -- every page of the group has its bit exactly when each node that
    has new pages has one in its last manager.
-/
import Yuzu.Kernel.PageGroupAllocation

namespace Yuzu.Kernel

open KPageGroup (newPages pagesOf Bounded)

/-! ## 1. One manager -/

/-- The bytes of the device memory, by physical address. -/
abbrev DeviceBytes := Nat → BitVec 8

/-- `memset`. -/
def memset (memory : DeviceBytes) (ptr : Nat) (fillPattern : BitVec 8) (size : Nat) : DeviceBytes :=
  fun a => if ptr ≤ a ∧ a < ptr + size then fillPattern else memory a

namespace Impl

/-- The test of a page's bit in the map. -/
def optimizeBit (m : Impl) (offset : Nat) : Bool :=
  m.optimizeMap (offset / 64) &&& 1#64 <<< (offset % 64) != 0

/-- The loop of `TrackOptimizedAllocation`. -/
def trackOptimizedLoop : Nat → Nat → (Nat → BitVec 64) → Nat → BitVec 64
  | 0, _, optimizeMap => optimizeMap
  | n + 1, offset, optimizeMap =>
    trackOptimizedLoop n (offset + 1) fun i =>
      if i = offset / 64 then optimizeMap i ||| 1#64 <<< (offset % 64) else optimizeMap i

def trackOptimizedAllocation (m : Impl) (block numPages : Nat) : Impl :=
  { m with optimizeMap := trackOptimizedLoop numPages (m.getPageOffset block) m.optimizeMap }

/-- The loop of `ProcessOptimizedAllocation`: pages without a bit are filled. -/
def processOptimizedLoop (m : Impl) (fillPattern : BitVec 8) :
    Nat → Nat → Bool → DeviceBytes → Bool × DeviceBytes
  | 0, _, anyNew, memory => (anyNew, memory)
  | n + 1, offset, anyNew, memory =>
    if m.optimizeBit offset = false then
      processOptimizedLoop m fillPattern n (offset + 1) true
        (memset memory (m.heap.heapAddress + offset * PageSize) fillPattern PageSize)
    else processOptimizedLoop m fillPattern n (offset + 1) anyNew memory

def processOptimizedAllocation (m : Impl) (memory : DeviceBytes) (block numPages : Nat)
    (fillPattern : BitVec 8) : Bool × DeviceBytes :=
  processOptimizedLoop m fillPattern numPages (m.getPageOffset block) false memory

end Impl

/-! ## 2. The nodes of a group -/

namespace KMemoryManager

open Impl

/-- The first pass over a node, with at most `fuel` managers to go. The flag of a manager takes the
place of the flags before it. -/
def fillNode (mm : KMemoryManager) (fillPattern : BitVec 8) :
    Nat → Nat → Nat → Bool → DeviceBytes → Option (Bool × DeviceBytes)
  | 0, _, remainingPages, anyNew, memory =>
    if remainingPages = 0 then some (anyNew, memory) else none
  | fuel + 1, curAddress, remainingPages, anyNew, memory =>
    if remainingPages = 0 then some (anyNew, memory)
    else
      let m := mm.managers (mm.managerIndex curAddress)
      let curPages := min remainingPages (m.getPageOffsetToEnd curAddress)
      let (anyNew, memory) := m.processOptimizedAllocation memory curAddress curPages fillPattern
      fillNode mm fillPattern fuel (curAddress + curPages * PageSize) (remainingPages - curPages)
        anyNew memory

/-- The second pass over a node. -/
def trackNode (mm : KMemoryManager) (address numPages : Nat) : Option KMemoryManager :=
  walkManagers (fun m curAddress curPages => some (m.trackOptimizedAllocation curAddress curPages))
    numPages address numPages mm

/-- `if (any_new)` before the second pass. -/
def trackNodeIf (mm : KMemoryManager) (anyNew : Bool) (address numPages : Nat) : Option KMemoryManager :=
  if anyNew then mm.trackNode address numPages else some mm

/-- The loop over the nodes for the optimized process. -/
def processNodes (fillPattern : BitVec 8) :
    List KBlockInfo → KMemoryManager → DeviceBytes → Option (KMemoryManager × DeviceBytes)
  | [], mm, memory => some (mm, memory)
  | b :: bs, mm, memory =>
    if b.numPages = 0 then processNodes fillPattern bs mm memory
    else do
      let (anyNew, memory) ← mm.fillNode fillPattern b.numPages b.getAddress b.numPages false memory
      let mm ← mm.trackNodeIf anyNew b.getAddress b.numPages
      processNodes fillPattern bs mm memory

/-- The loop over the nodes for any other process: all pages are set. -/
def setNodes (fillPattern : BitVec 8) : List KBlockInfo → DeviceBytes → DeviceBytes
  | [], memory => memory
  | b :: bs, memory =>
    setNodes fillPattern bs (memset memory b.getAddress fillPattern (b.numPages * PageSize))

def allocateForProcess (mm : KMemoryManager) (optimizedProcessIds : Pool → Nat)
    (memory : DeviceBytes) (out : KPageGroup) (numPages : Nat) (pool : Pool) (dir : Direction)
    (processId : Nat) (fillPattern : BitVec 8) :
    Option (Result × KPageGroup × KMemoryManager × DeviceBytes) := do
  assert (out.getNumPages = 0)
  let hasOptimized := mm.hasOptimizedProcess pool
  let isOptimized := optimizedProcessIds pool == processId
  let (res, out, mm) ← mm.allocatePageGroupImpl out numPages pool dir (hasOptimized && !isOptimized) false
  if res = .success then
    if hasOptimized && isOptimized then do
      let (mm, memory) ← processNodes fillPattern out.blocks mm memory
      return (.success, out, mm, memory)
    else return (.success, out, mm, setNodes fillPattern out.blocks memory)
  else return (res, out, mm, memory)

end KMemoryManager

/-! ## 3. Bits and pages of one manager -/

namespace Impl

variable {m : Impl} {n offset o a : Nat} {anyNew : Bool} {memory : DeviceBytes} {fillPattern : BitVec 8}

theorem optimizeBit_eq : m.optimizeBit o = (m.optimizeMap (o / 64)).getLsbD (o % 64) := by
  have hbit := and_bit_eq_zero (v := m.optimizeMap (o / 64)) (Nat.mod_lt o (by decide : 0 < 64))
  rw [optimizeBit]
  cases hb : (m.optimizeMap (o / 64)).getLsbD (o % 64) with
  | false =>
    rw [hbit.mpr hb]
    rfl
  | true =>
    rw [bne_iff_ne]
    intro hzero
    rw [hbit.mp hzero] at hb
    cases hb

theorem getLsbD_trackOptimizedLoop : ∀ {n offset : Nat} {optimizeMap : Nat → BitVec 64},
    (trackOptimizedLoop n offset optimizeMap (o / 64)).getLsbD (o % 64) =
      ((optimizeMap (o / 64)).getLsbD (o % 64) || decide (offset ≤ o ∧ o < offset + n))
  | 0, offset, optimizeMap => by
    rw [trackOptimizedLoop, decide_eq_false (by omega), Bool.or_false]
  | n + 1, offset, optimizeMap => by
    rw [trackOptimizedLoop, getLsbD_trackOptimizedLoop]
    by_cases hword : o / 64 = offset / 64
    · rw [if_pos hword, getLsbD_or_bit, Bool.or_assoc, ← Bool.decide_or]
      congr 2
      exact propext (by omega)
    · rw [if_neg hword]
      congr 2
      exact propext (by omega)

theorem optimizeBit_trackOptimizedAllocation {block : Nat} :
    (m.trackOptimizedAllocation block n).optimizeBit o =
      (m.optimizeBit o || decide (m.getPageOffset block ≤ o ∧ o < m.getPageOffset block + n)) := by
  rw [optimizeBit_eq, optimizeBit_eq, trackOptimizedAllocation]
  exact getLsbD_trackOptimizedLoop

/-- A page is new in a range of pages. -/
theorem processOptimizedLoop_anyNew : ∀ {n offset : Nat} {anyNew : Bool} {memory : DeviceBytes},
    ((processOptimizedLoop m fillPattern n offset anyNew memory).1 = true ↔
      anyNew = true ∨ ∃ o, offset ≤ o ∧ o < offset + n ∧ m.optimizeBit o = false)
  | 0, offset, anyNew, memory => by
    rw [processOptimizedLoop]
    refine (or_iff_left fun hex => ?_).symm
    obtain ⟨o, h1, h2, -⟩ := hex
    omega
  | n + 1, offset, anyNew, memory => by
    rw [processOptimizedLoop]
    have hstep : (∃ o, offset ≤ o ∧ o < offset + (n + 1) ∧ m.optimizeBit o = false) ↔
        m.optimizeBit offset = false ∨
          ∃ o, offset + 1 ≤ o ∧ o < offset + 1 + n ∧ m.optimizeBit o = false := by
      constructor
      · intro hex
        obtain ⟨o, h1, h2, ho⟩ := hex
        rcases Nat.eq_or_lt_of_le h1 with rfl | h1
        · exact .inl ho
        · exact .inr ⟨o, h1, by omega, ho⟩
      · intro hex
        rcases hex with ho | ⟨o, h1, h2, ho⟩
        · exact ⟨offset, le_rfl, by omega, ho⟩
        · exact ⟨o, by omega, by omega, ho⟩
    rw [hstep]
    split
    · rename_i hnew
      rw [processOptimizedLoop_anyNew]
      simp [hnew]
    · rename_i hold
      rw [processOptimizedLoop_anyNew]
      simp [hold]

/-- The pages of a range that have no bit are filled, and nothing else is. -/
theorem processOptimizedLoop_memory : ∀ {n offset : Nat} {anyNew : Bool} {memory : DeviceBytes},
    (processOptimizedLoop m fillPattern n offset anyNew memory).2 a =
      if m.heap.heapAddress ≤ a ∧ (offset ≤ m.getPageOffset a ∧ m.getPageOffset a < offset + n) ∧
        m.optimizeBit (m.getPageOffset a) = false
      then fillPattern else memory a
  | 0, offset, anyNew, memory => by
    rw [processOptimizedLoop, if_neg (by omega)]
  | n + 1, offset, anyNew, memory => by
    rw [processOptimizedLoop]
    by_cases hpage : m.heap.heapAddress ≤ a ∧ m.getPageOffset a = offset
    · -- the byte lies in the first page of the range
      obtain ⟨hlow, hpage⟩ := hpage
      have hlater : ∀ memory : DeviceBytes, ∀ anyNew,
          (processOptimizedLoop m fillPattern n (offset + 1) anyNew memory).2 a = memory a := by
        intro memory anyNew
        rw [processOptimizedLoop_memory, if_neg (by omega)]
      have hin : m.heap.heapAddress + offset * PageSize ≤ a ∧
          a < m.heap.heapAddress + offset * PageSize + PageSize := by
        rw [getPageOffset] at hpage
        simp only [PageSize] at hpage ⊢
        omega
      split
      · rename_i hnew
        rw [hlater, memset, if_pos hin, if_pos ⟨hlow, by omega, hpage ▸ hnew⟩]
      · rename_i hold
        rw [hlater, if_neg]
        intro hcond
        exact hold (hpage ▸ hcond.2.2)
    · have hout : ¬(m.heap.heapAddress + offset * PageSize ≤ a ∧
          a < m.heap.heapAddress + offset * PageSize + PageSize) := by
        intro hin
        refine hpage ⟨by omega, ?_⟩
        rw [getPageOffset]
        simp only [PageSize] at hin ⊢
        omega
      have hrange : (m.heap.heapAddress ≤ a ∧ (offset + 1 ≤ m.getPageOffset a ∧
            m.getPageOffset a < offset + 1 + n) ∧ m.optimizeBit (m.getPageOffset a) = false) ↔
          m.heap.heapAddress ≤ a ∧ (offset ≤ m.getPageOffset a ∧ m.getPageOffset a < offset + (n + 1)) ∧
            m.optimizeBit (m.getPageOffset a) = false := by
        refine and_congr_right fun hlow => and_congr_left fun _ => ?_
        have hne : m.getPageOffset a ≠ offset := fun he => hpage ⟨hlow, he⟩
        omega
      split
      · rw [processOptimizedLoop_memory, memset, if_neg hout]
        simp only [hrange]
      · rw [processOptimizedLoop_memory]
        simp only [hrange]

end Impl

/-! ## 4. The passes over a node -/

namespace KMemoryManager

open Impl

/-- The bit of a page in its own manager's map. -/
def optimizeBit (mm : KMemoryManager) (p : Nat) : Bool :=
  let m := mm.managers (mm.managerIndex (p * PageSize))
  m.optimizeBit (m.getPageOffset (p * PageSize))

/-- The pages from `first` on lie in managers. -/
def Managed (mm : KMemoryManager) (first n : Nat) : Prop :=
  ∀ p, first ≤ p → p < first + n → ∃ i < mm.numManagers, p ∈ mm.region i

/-- The heaps and where they lie are the same; only the maps may differ. -/
structure SameHeaps (mm mm' : KMemoryManager) : Prop where
  layout : mm.SameLayout mm'
  heap_eq : ∀ i, (mm'.managers i).heap = (mm.managers i).heap

variable {mm mm' mm'' : KMemoryManager} {i p first n a : Nat} {anyNew : Bool}
  {memory : DeviceBytes} {fillPattern : BitVec 8} {b : KBlockInfo} {bs : List KBlockInfo}

theorem SameHeaps.trans (h : mm.SameHeaps mm') (h' : mm'.SameHeaps mm'') : mm.SameHeaps mm'' :=
  ⟨h.layout.trans h'.layout, fun i => (h'.heap_eq i).trans (h.heap_eq i)⟩

theorem SameHeaps.laidOut (h : mm.SameHeaps mm') (hl : mm.Layout) : mm'.Layout :=
  hl.congr h.layout fun i hi => h.heap_eq i ▸ hl.inv i hi

theorem SameHeaps.managed (h : mm.SameHeaps mm') (hm : mm.Managed first n) : mm'.Managed first n := by
  intro p hlow hhigh
  obtain ⟨i, hi, hp⟩ := hm p hlow hhigh
  exact ⟨i, h.layout.numManagers_eq.symm ▸ hi, region_eq h.layout i ▸ hp⟩

theorem Layout.optimizeBit_eq (hl : mm.Layout) (hi : i < mm.numManagers) (hp : p ∈ mm.region i) :
    mm.optimizeBit p = (mm.managers i).optimizeBit ((mm.managers i).getPageOffset (p * PageSize)) := by
  rw [optimizeBit, hl.index_of_mem hi hp]

/-- The first pages of a range up to the end of their manager: how many there are, and where the next
page lies. -/
theorem Layout.firstPages (hl : mm.Layout) (hi : i < mm.numManagers) (hp : first ∈ mm.region i)
    (hn : 0 < n) :
    0 < min n ((mm.managers i).getPageOffsetToEnd (first * PageSize)) ∧ (∀ p, first ≤ p →
        p < first + min n ((mm.managers i).getPageOffsetToEnd (first * PageSize)) → p ∈ mm.region i) ∧
      ∀ p, first + min n ((mm.managers i).getPageOffsetToEnd (first * PageSize)) ≤ p →
        p < first + n → p ∉ mm.region i := by
  obtain ⟨d, hd⟩ := (hl.inv i hi).end_aligned
  have hcount : (mm.managers i).getPageOffsetToEnd (first * PageSize) = d - first := by
    rw [getPageOffsetToEnd, hd, Nat.mul_comm first, ← Nat.mul_sub, Nat.mul_div_cancel_left _ (by decide)]
  rw [hl.mem_region hi, hd] at hp
  simp only [hcount, hl.mem_region hi, hd]
  simp only [PageSize] at hp ⊢
  refine ⟨?_, ?_, ?_⟩
  · omega
  · intro p hlow hhigh
    constructor <;> omega
  · intro p hlow hhigh hin
    omega

theorem Layout.pageOffset_eq (hl : mm.Layout) (hi : i < mm.numManagers) (hp : p ∈ mm.region i) :
    (mm.managers i).heap.heapAddress + (mm.managers i).getPageOffset (p * PageSize) * PageSize =
      p * PageSize := by
  obtain ⟨c, hc⟩ := (hl.inv i hi).address_aligned
  rw [hl.mem_region hi, hc] at hp
  rw [getPageOffset, hc]
  simp only [PageSize] at hp ⊢
  omega

/-- **One manager's part of the first pass.** -/
theorem Layout.processOptimizedAllocation (hl : mm.Layout) (hi : i < mm.numManagers) (hn : 0 < n)
    (hin : ∀ p, first ≤ p → p < first + n → p ∈ mm.region i) :
    (((mm.managers i).processOptimizedAllocation memory (first * PageSize) n fillPattern).1 = true ↔
      ∃ p, first ≤ p ∧ p < first + n ∧ mm.optimizeBit p = false) ∧
    ∀ a, ((mm.managers i).processOptimizedAllocation memory (first * PageSize) n fillPattern).2 a =
      if (first ≤ a / PageSize ∧ a / PageSize < first + n) ∧ mm.optimizeBit (a / PageSize) = false
      then fillPattern else memory a := by
  have hoffset : ∀ p, first ≤ p → p < first + n → (mm.managers i).getPageOffset (p * PageSize) =
        (mm.managers i).getPageOffset (first * PageSize) + (p - first) := by
    intro p hlow hhigh
    have hfirst := hl.pageOffset_eq hi (hin first le_rfl (by omega))
    have hpage := hl.pageOffset_eq hi (hin p hlow hhigh)
    simp only [PageSize] at hfirst hpage ⊢
    omega
  rw [Impl.processOptimizedAllocation]
  constructor
  · rw [processOptimizedLoop_anyNew]
    simp only [Bool.false_eq_true, false_or]
    constructor
    · intro hex
      obtain ⟨o, hlow, hhigh, ho⟩ := hex
      obtain ⟨k, rfl⟩ := Nat.exists_eq_add_of_le hlow
      refine ⟨first + k, by omega, by omega, ?_⟩
      rw [hl.optimizeBit_eq hi (hin _ (by omega) (by omega)), hoffset _ (by omega) (by omega),
        Nat.add_sub_cancel_left]
      exact ho
    · intro hex
      obtain ⟨p, hlow, hhigh, hp⟩ := hex
      rw [hl.optimizeBit_eq hi (hin p hlow hhigh), hoffset p hlow hhigh] at hp
      exact ⟨_, by omega, by omega, hp⟩
  · intro a
    rw [processOptimizedLoop_memory]
    have hfirst := hl.pageOffset_eq hi (hin first le_rfl (by omega))
    obtain ⟨c, hc⟩ := (hl.inv i hi).address_aligned
    have hiff : (mm.managers i).heap.heapAddress ≤ a ∧
        ((mm.managers i).getPageOffset (first * PageSize) ≤ (mm.managers i).getPageOffset a ∧
          (mm.managers i).getPageOffset a < (mm.managers i).getPageOffset (first * PageSize) + n) ↔
        first ≤ a / PageSize ∧ a / PageSize < first + n := by
      simp only [getPageOffset] at hfirst ⊢
      rw [hc] at hfirst ⊢
      simp only [PageSize] at hfirst ⊢
      omega
    simp only [← and_assoc, hiff]
    by_cases hrange : first ≤ a / PageSize ∧ a / PageSize < first + n
    · have hsame : (mm.managers i).getPageOffset a =
          (mm.managers i).getPageOffset (a / PageSize * PageSize) := by
        have hmem := (hl.mem_region hi).mp (hin _ hrange.1 hrange.2)
        simp only [getPageOffset]
        rw [hc] at hmem ⊢
        simp only [PageSize] at hmem ⊢
        omega
      rw [hl.optimizeBit_eq hi (hin _ hrange.1 hrange.2), hsame]
    · rw [if_neg (fun hcond => hrange hcond.1), if_neg (fun hcond => hrange hcond.1)]

/-- The pages of a range that lie in the manager of its last page. -/
def InLastManager (mm : KMemoryManager) (first n p : Nat) : Prop :=
  mm.managerIndex (p * PageSize) = mm.managerIndex ((first + n - 1) * PageSize)

theorem Managed.firstManager (hl : mm.Layout) (hm : mm.Managed first n) (hn : 0 < n) :
    ∃ cur, mm.managerIndex (first * PageSize) < mm.numManagers ∧
      min n ((mm.managers (mm.managerIndex (first * PageSize))).getPageOffsetToEnd
        (first * PageSize)) = cur ∧ 0 < cur ∧ cur ≤ n ∧
      (∀ p, first ≤ p → p < first + cur → p ∈ mm.region (mm.managerIndex (first * PageSize))) ∧
      ∀ p, first + cur ≤ p → p < first + n → p ∉ mm.region (mm.managerIndex (first * PageSize)) := by
  obtain ⟨i, hi, hfirst⟩ := hm first le_rfl (by omega)
  rw [hl.index_of_mem hi hfirst]
  obtain ⟨hpos, hin, hout⟩ := hl.firstPages hi hfirst hn
  exact ⟨_, hi, rfl, hpos, Nat.min_le_left _ _, hin, hout⟩

/-- **The first pass over a node** fills its pages without a bit. The flag says whether there is such a
page in the manager of the last page. -/
theorem fillNode_spec (hl : mm.Layout) : ∀ {fuel n first : Nat} {anyNew : Bool}
    {memory : DeviceBytes}, n ≤ fuel → mm.Managed first n →
    ∃ anyNew' memory', mm.fillNode fillPattern fuel (first * PageSize) n anyNew memory =
        some (anyNew', memory') ∧
      (∀ a, memory' a = if (first ≤ a / PageSize ∧ a / PageSize < first + n) ∧
        mm.optimizeBit (a / PageSize) = false then fillPattern else memory a) ∧
      (n = 0 → anyNew' = anyNew) ∧
      (0 < n → (anyNew' = true ↔ ∃ p, first ≤ p ∧ p < first + n ∧ mm.InLastManager first n p ∧
        mm.optimizeBit p = false))
  | 0, n, first, anyNew, memory, hfuel, _ => by
    obtain rfl : n = 0 := by omega
    refine ⟨anyNew, memory, if_pos rfl, fun a => ?_, fun _ => rfl,
      fun h => absurd h (Nat.lt_irrefl 0)⟩
    rw [if_neg (by omega)]
  | fuel + 1, n, first, anyNew, memory, hfuel, hm => by
    rw [fillNode]
    by_cases hzero : n = 0
    · subst hzero
      refine ⟨anyNew, memory, if_pos rfl, fun a => ?_, fun _ => rfl,
        fun h => absurd h (Nat.lt_irrefl 0)⟩
      rw [if_neg (by omega)]
    · rw [if_neg hzero]
      have hn := Nat.pos_of_ne_zero hzero
      obtain ⟨cur, hi, hcur, hpos, hle, hin, hout⟩ := hm.firstManager hl hn
      dsimp only
      rw [hcur]
      obtain ⟨hnew, hmemory⟩ := @Layout.processOptimizedAllocation mm _ first cur memory
        fillPattern hl hi hpos hin
      rcases hproc : (mm.managers (mm.managerIndex (first * PageSize))).processOptimizedAllocation
        memory (first * PageSize) cur fillPattern with ⟨anyNew1, memory1⟩
      rw [hproc] at hnew hmemory
      dsimp only at hnew hmemory
      have hnext : first * PageSize + cur * PageSize = (first + cur) * PageSize :=
        (Nat.add_mul _ _ _).symm
      have hrest : mm.Managed (first + cur) (n - cur) := fun p hlow hhigh =>
        hm p (by omega) (by omega)
      have hless : n - cur ≤ fuel := by omega
      obtain ⟨anyNew', memory', hfill, hmemory', hsame, hflag⟩ :=
        @fillNode_spec hl fuel (n - cur) (first + cur) anyNew1 memory1 hless hrest
      have hlast : first + cur + (n - cur) - 1 = first + n - 1 := by
        rw [Nat.add_assoc, Nat.add_sub_cancel' hle]
      refine ⟨anyNew', memory', by rw [hnext]; exact hfill, fun a => ?_,
        fun h => absurd h hzero, fun _ => ?_⟩
      · rw [hmemory', hmemory]
        by_cases hbit : mm.optimizeBit (a / PageSize) = false
        · simp only [hbit, and_true]
          split
          · rw [if_pos (by omega)]
          · split
            · rw [if_pos (by omega)]
            · rw [if_neg (by omega)]
        · rw [if_neg fun h => hbit h.2, if_neg fun h => hbit h.2, if_neg fun h => hbit h.2]
      · rcases Nat.eq_zero_or_pos (n - cur) with hdone | hmore
        · -- the node ends in this manager
          obtain rfl : cur = n := by omega
          rw [hsame hdone, hnew]
          refine exists_congr fun p => ?_
          constructor
          · intro hp
            obtain ⟨hlow, hhigh, hbit⟩ := hp
            refine ⟨hlow, hhigh, ?_, hbit⟩
            rw [InLastManager, hl.index_of_mem hi (hin p hlow hhigh),
              hl.index_of_mem hi (hin (first + cur - 1) (by omega) (by omega))]
          · intro hp
            exact ⟨hp.1, hp.2.1, hp.2.2.2⟩
        · rw [hflag hmore]
          refine exists_congr fun p => ?_
          rw [InLastManager, InLastManager, hlast]
          constructor
          · intro hp
            obtain ⟨hlow, hhigh, hrest⟩ := hp
            exact ⟨by omega, by omega, hrest⟩
          · intro hp
            obtain ⟨hlow, hhigh, hindex, hbit⟩ := hp
            refine ⟨?_, by omega, hindex, hbit⟩
            by_contra hbefore
            -- the last page would lie in the first manager
            obtain ⟨j, hj, hlastpage⟩ := hm (first + n - 1) (by omega) (by omega)
            rw [hl.index_of_mem hi (hin p hlow (by omega)), hl.index_of_mem hj hlastpage] at hindex
            exact hout (first + n - 1) (by omega) (by omega) (hindex ▸ hlastpage)

/-- **The second pass over a node** sets the bits of its pages, and no others. -/
theorem trackNode_spec : ∀ {fuel n first : Nat} {mm : KMemoryManager}, mm.Layout → n ≤ fuel →
    mm.Managed first n →
    ∃ mm', walkManagers (fun m curAddress curPages =>
        some (m.trackOptimizedAllocation curAddress curPages)) fuel (first * PageSize) n mm =
        some mm' ∧ mm.SameHeaps mm' ∧
      ∀ p, (∃ i < mm.numManagers, p ∈ mm.region i) →
        mm'.optimizeBit p = (mm.optimizeBit p || decide (first ≤ p ∧ p < first + n))
  | 0, n, first, mm, _, hfuel, _ => by
    obtain rfl : n = 0 := by omega
    refine ⟨mm, if_pos rfl, ⟨.refl mm, fun _ => rfl⟩, fun p _ => ?_⟩
    rw [decide_eq_false (by omega), Bool.or_false]
  | fuel + 1, n, first, mm, hl, hfuel, hm => by
    rw [walkManagers]
    by_cases hzero : n = 0
    · subst hzero
      refine ⟨mm, if_pos rfl, ⟨.refl mm, fun _ => rfl⟩, fun p _ => ?_⟩
      rw [decide_eq_false (by omega), Bool.or_false]
    · rw [if_neg hzero]
      have hn := Nat.pos_of_ne_zero hzero
      obtain ⟨cur, hi, hcur, hpos, hle, hin, hout⟩ := hm.firstManager hl hn
      dsimp only
      rw [hcur]
      generalize hindex : mm.managerIndex (first * PageSize) = i at hi hin hout ⊢
      have hnext : first * PageSize + cur * PageSize = (first + cur) * PageSize :=
        (Nat.add_mul _ _ _).symm
      have hheaps : mm.SameHeaps (mm.setManager i
          ((mm.managers i).trackOptimizedAllocation (first * PageSize) cur)) := by
        refine ⟨sameLayout_setManager ⟨rfl, rfl, rfl⟩, fun j => ?_⟩
        rw [KMemoryManager.setManager]
        dsimp only
        split
        · rename_i hji
          rw [hji]
          rfl
        · rfl
      have hbits : ∀ p, (∃ j < mm.numManagers, p ∈ mm.region j) →
          (mm.setManager i ((mm.managers i).trackOptimizedAllocation (first * PageSize)
            cur)).optimizeBit p = (mm.optimizeBit p || decide (first ≤ p ∧ p < first + cur)) := by
        intro p hp
        obtain ⟨j, hj, hpj⟩ := hp
        rw [(hheaps.laidOut hl).optimizeBit_eq (hheaps.layout.numManagers_eq.symm ▸ hj)
          (region_eq hheaps.layout j ▸ hpj), hl.optimizeBit_eq hj hpj]
        by_cases hji : j = i
        · subst hji
          have hself : (mm.setManager j ((mm.managers j).trackOptimizedAllocation
              (first * PageSize) cur)).managers j =
              (mm.managers j).trackOptimizedAllocation (first * PageSize) cur := if_pos rfl
          have hfirst := hl.pageOffset_eq hj (hin first le_rfl (by omega))
          have hpage := hl.pageOffset_eq hj hpj
          have hoffset : ((mm.managers j).trackOptimizedAllocation (first * PageSize)
              cur).getPageOffset (p * PageSize) = (mm.managers j).getPageOffset (p * PageSize) :=
            rfl
          rw [hself, optimizeBit_trackOptimizedAllocation, hoffset]
          congr 2
          simp only [PageSize] at hfirst hpage ⊢
          exact propext (by omega)
        · have hother : (mm.setManager i ((mm.managers i).trackOptimizedAllocation
              (first * PageSize) cur)).managers j = mm.managers j := if_neg hji
          rw [hother, decide_eq_false, Bool.or_false]
          intro hrange
          exact hji (hl.region_unique hj hi hpj (hin p hrange.1 hrange.2))
      have hrest : mm.Managed (first + cur) (n - cur) := fun p hlow hhigh =>
        hm p (by omega) (by omega)
      obtain ⟨mm', hwalk, hheaps', hbits'⟩ := trackNode_spec (hheaps.laidOut hl)
        (by omega : n - cur ≤ fuel) (hheaps.managed hrest)
      refine ⟨mm', ?_, hheaps.trans hheaps', fun p hp => ?_⟩
      · rw [hnext]
        exact hwalk
      · obtain ⟨j, hj, hpj⟩ := hp
        rw [hbits' p ⟨j, hj, region_eq hheaps.layout j ▸ hpj⟩, hbits p ⟨j, hj, hpj⟩, Bool.or_assoc,
          ← Bool.decide_or]
        congr 2
        exact propext (by omega)

/-! ## 5. All nodes -/

/-- The flag is set for the node: the manager of its last page has a new page of it. -/
def NewInLast (mm : KMemoryManager) (b : KBlockInfo) : Prop :=
  ∃ p ∈ b.pages, mm.InLastManager b.pageIndex b.numPages p ∧ mm.optimizeBit p = false

/-- **The loop over the nodes** fills the pages without a bit, and sets the bits of the nodes whose
flag is set. -/
theorem processNodes_spec : ∀ {bs : List KBlockInfo} {mm : KMemoryManager} {memory : DeviceBytes},
    mm.Layout → KPageGroup.Ok bs → (∀ b ∈ bs, mm.Managed b.pageIndex b.numPages) →
    ∃ mm' memory', processNodes fillPattern bs mm memory = some (mm', memory') ∧ mm.SameHeaps mm' ∧
      (∀ a, memory' a = if a / PageSize ∈ pagesOf bs ∧ mm.optimizeBit (a / PageSize) = false
        then fillPattern else memory a) ∧
      ∀ p, (∃ i < mm.numManagers, p ∈ mm.region i) → (mm'.optimizeBit p = true ↔
          mm.optimizeBit p = true ∨ ∃ b ∈ bs, p ∈ b.pages ∧ mm.NewInLast b)
  | [], mm, memory, _, _, _ => by
    refine ⟨mm, memory, rfl, ⟨.refl mm, fun _ => rfl⟩, fun a => ?_, fun p _ => ?_⟩
    · rw [if_neg fun h => absurd h.1 (Finset.notMem_empty _)]
    · simp
  | b :: bs, mm, memory, hl, hok, hin => by
    have hpos := (hok.bounded b List.mem_cons_self).numPages_pos
    obtain ⟨hok', hdis⟩ := hok.of_cons
    have hb := hin b List.mem_cons_self
    obtain ⟨anyNew, memory1, hfill, hmemory, -, hflag⟩ :=
      @fillNode_spec mm fillPattern hl b.numPages b.numPages b.pageIndex false memory le_rfl hb
    have hflag : anyNew = true ↔ mm.NewInLast b := by
      rw [hflag hpos, NewInLast]
      simp only [KBlockInfo.pages, Finset.mem_Ico, and_assoc]
    -- the managers after the second pass
    have htrack : ∃ mm1, mm.trackNodeIf anyNew b.getAddress b.numPages = some mm1 ∧
        mm.SameHeaps mm1 ∧ ∀ p, (∃ i < mm.numManagers, p ∈ mm.region i) →
        (mm1.optimizeBit p = true ↔ mm.optimizeBit p = true ∨ p ∈ b.pages ∧ mm.NewInLast b) := by
      cases anyNew with
      | true =>
        obtain ⟨mm1, hwalk, hheaps, hbits⟩ := trackNode_spec hl (le_refl b.numPages) hb
        refine ⟨mm1, hwalk, hheaps, fun p hp => ?_⟩
        rw [hbits p hp, Bool.or_eq_true, decide_eq_true_eq, KBlockInfo.pages, Finset.mem_Ico,
          and_iff_left (hflag.mp rfl)]
      | false =>
        refine ⟨mm, rfl, ⟨.refl mm, fun _ => rfl⟩, fun p _ => ?_⟩
        rw [or_iff_left fun h => Bool.false_ne_true (hflag.mpr h.2)]
    obtain ⟨mm1, htrack, hheaps, hbits⟩ := htrack
    have hsame : ∀ p, (∃ i < mm.numManagers, p ∈ mm.region i) → p ∉ b.pages →
        mm1.optimizeBit p = mm.optimizeBit p := by
      intro p hp hout
      rw [Bool.eq_iff_iff, hbits p hp, or_iff_left fun h => hout h.1]
    have hin' : ∀ c ∈ bs, mm1.Managed c.pageIndex c.numPages := fun c hc =>
      hheaps.managed (hin c (List.mem_cons_of_mem _ hc))
    obtain ⟨mm', memory', hrun, hheaps', hmemory', hbits'⟩ :=
      @processNodes_spec bs mm1 memory1 (hheaps.laidOut hl) hok' hin'
    have hlater : ∀ c ∈ bs, ∀ p ∈ c.pages, mm1.optimizeBit p = mm.optimizeBit p := by
      intro c hc p hp
      have hpages := Finset.mem_Ico.mp hp
      refine hsame p (hin c (List.mem_cons_of_mem _ hc) p hpages.1 hpages.2) fun hpb => ?_
      exact Finset.disjoint_left.mp hdis hpb (KPageGroup.mem_pagesOf.mpr ⟨c, hc, hp⟩)
    have hnew : ∀ c ∈ bs, (mm1.NewInLast c ↔ mm.NewInLast c) := by
      intro c hc
      refine exists_congr fun p => and_congr_right fun hp => ?_
      rw [InLastManager, InLastManager, hheaps.layout.managerIndex_eq, hlater c hc p hp]
    refine ⟨mm', memory', ?_, hheaps.trans hheaps', fun a => ?_, fun p hp => ?_⟩
    · have hfill : mm.fillNode fillPattern b.numPages b.getAddress b.numPages false memory =
          some (anyNew, memory1) := hfill
      rw [processNodes, if_neg (Nat.ne_of_gt hpos), hfill]
      simp only [Option.bind_eq_bind, Option.bind_some]
      rw [htrack]
      exact hrun
    · have hmem : (b.pageIndex ≤ a / PageSize ∧ a / PageSize < b.pageIndex + b.numPages) ↔
          a / PageSize ∈ b.pages := Finset.mem_Ico.symm
      rw [hmemory', hmemory]
      simp only [hmem, pagesOf, Finset.mem_union]
      by_cases hrest : a / PageSize ∈ pagesOf bs
      · obtain ⟨c, hc, hpc⟩ := KPageGroup.mem_pagesOf.mp hrest
        have hnot : a / PageSize ∉ b.pages := fun hpb => Finset.disjoint_left.mp hdis hpb hrest
        rw [hlater c hc _ hpc]
        simp only [hrest, hnot, true_and, false_and, or_true, if_false]
      · simp only [hrest, false_and, or_false, if_false]
    · obtain ⟨i, hi, hpi⟩ := hp
      have hp1 : ∃ i < mm1.numManagers, p ∈ mm1.region i :=
        ⟨i, hheaps.layout.numManagers_eq.symm ▸ hi, region_eq hheaps.layout i ▸ hpi⟩
      rw [hbits' p hp1, hbits p ⟨i, hi, hpi⟩, or_assoc]
      simp only [List.mem_cons, exists_eq_or_imp]
      refine or_congr_right (or_congr_right (exists_congr fun c => and_congr_right fun hc => ?_))
      rw [hnew c hc]

/-! ## 6. The whole call -/

/-- **Each page is filled once.** Pages of the group without a bit are filled, no page with a bit is
changed, and afterwards every page of the group has its bit. -/
structure FillsOnce (mm : KMemoryManager) (memory : DeviceBytes) (fillPattern : BitVec 8)
    (out : KPageGroup) (mm' : KMemoryManager) (memory' : DeviceBytes) : Prop where
  filled : ∀ p ∈ out.pages, mm.optimizeBit p = false → ∀ a, a / PageSize = p → memory' a = fillPattern
  kept : ∀ a, mm.optimizeBit (a / PageSize) = true → memory' a = memory a
  tracked : ∀ p ∈ out.pages, mm'.optimizeBit p = true

/-- The node has no new page, or one in its last manager. -/
def FlagRight (mm : KMemoryManager) (b : KBlockInfo) : Prop :=
  (∀ p ∈ b.pages, mm.optimizeBit p = true) ∨ mm.NewInLast b

/-- **`AllocateForProcess`** by the optimized process of the pool returns, and where it succeeds it fills
each page once exactly when every node of the group that has new pages has one in the manager of its
last page. -/
theorem allocateForProcess_fillsOnce (mm : KMemoryManager) (hl : mm.Layout)
    (optimizedProcessIds : Pool → Nat) (memory : DeviceBytes) (manager : KBlockInfoManager)
    (numPages : Nat) (pool : Pool) (dir : Direction) (processId : Nat) (fillPattern : BitVec 8)
    (hhas : mm.hasOptimizedProcess pool = true) (his : optimizedProcessIds pool = processId) :
    ∃ res out mm' memory', mm.allocateForProcess optimizedProcessIds memory ⟨[], manager⟩ numPages
        pool dir processId fillPattern = some (res, out, mm', memory') ∧
      (res = .success → (FillsOnce mm memory fillPattern out mm' memory' ↔
        ∀ b ∈ out.blocks, mm.FlagRight b)) := by
  obtain ⟨res, out, mm₁, hrun, hdone, -⟩ :=
    allocatePageGroupImpl_spec hl manager numPages pool dir false false
  have hempty : (⟨[], manager⟩ : KPageGroup).getNumPages = 0 := rfl
  have hid : (optimizedProcessIds pool == processId) = true := beq_iff_eq.mpr his
  rw [allocateForProcess, assert_bind_of hempty]
  simp only [hhas, hid, Bool.not_true, Bool.and_false, Bool.and_self, if_true, hrun,
    Option.bind_eq_bind, Option.bind_some]
  by_cases hres : res = .success
  · rw [if_pos hres]
    have h := hdone hres
    have hs : mm.SameLayout mm₁ := h.same
    have hlt : ∀ j ∈ mm.poolManagers pool dir, j < mm.numManagers := fun j hj =>
      mem_poolManagers hj
    have hpages : ∀ p ∈ out.pages, ∃ i < mm.numManagers, p ∈ mm.region i := by
      intro p hp
      obtain ⟨i, hi, hfree⟩ := h.taken p hp
      exact ⟨i, hlt i hi, hl.free_subset (hlt i hi) hfree⟩
    have hpages₁ : ∀ p ∈ out.pages, ∃ i < mm₁.numManagers, p ∈ mm₁.region i := by
      intro p hp
      obtain ⟨i, hi, hregion⟩ := hpages p hp
      exact ⟨i, hs.numManagers_eq.symm ▸ hi, region_eq hs i ▸ hregion⟩
    have hbit : ∀ p, mm₁.optimizeBit p = mm.optimizeBit p := by
      intro p
      have hmap := h.maps rfl (mm.managerIndex (p * PageSize))
      have haddr := (hs.region (mm.managerIndex (p * PageSize))).address_eq
      dsimp only at hmap
      simp only [optimizeBit, Impl.optimizeBit, getPageOffset, hs.managerIndex_eq, hmap, haddr]
    have hnew : ∀ b, mm₁.NewInLast b ↔ mm.NewInLast b := by
      intro b
      simp only [NewInLast, InLastManager, hs.managerIndex_eq, hbit]
    have hmanaged : ∀ b ∈ out.blocks, mm₁.Managed b.pageIndex b.numPages := by
      intro b hb p hlow hhigh
      exact hpages₁ p (KPageGroup.mem_pagesOf.mpr ⟨b, hb, Finset.mem_Ico.mpr ⟨hlow, hhigh⟩⟩)
    obtain ⟨mm', memory', hprocess, -, hmemory, hbits⟩ :=
      @processNodes_spec fillPattern out.blocks mm₁ memory h.layout h.ok hmanaged
    rw [hprocess]
    simp only [hbit] at hmemory hbits
    refine ⟨_, _, _, _, rfl, fun _ => ?_⟩
    constructor
    · -- a node whose flag is not set keeps its bits
      intro hfills b hb
      by_cases hall : ∀ p ∈ b.pages, mm.optimizeBit p = true
      · exact .inl hall
      · obtain ⟨p, hp⟩ := not_forall.mp hall
        obtain ⟨hpb, hclear⟩ := Classical.not_imp.mp hp
        have hpout : p ∈ out.pages := KPageGroup.mem_pagesOf.mpr ⟨b, hb, hpb⟩
        rcases (hbits p (hpages₁ p hpout)).mp (hfills.tracked p hpout) with hset | hset
        · exact absurd hset hclear
        · obtain ⟨c, hc, hpc, hflag⟩ := hset
          have hbc : b = c := by
            by_contra hne
            have hsymm : Std.Symm fun b c : KBlockInfo => Disjoint b.pages c.pages :=
              ⟨fun _ _ hd => hd.symm⟩
            exact Finset.disjoint_left.mp (h.ok.disjoint.forall hb hc hne) hpb hpc
          exact .inr (hbc ▸ (hnew c).mp hflag)
    · intro hflags
      refine ⟨fun p hp hclear a ha => ?_, fun a hset => ?_, fun p hp => ?_⟩
      · subst ha
        exact (hmemory a).trans (if_pos ⟨hp, hclear⟩)
      · refine (hmemory a).trans (if_neg fun hcond => ?_)
        rw [hset] at hcond
        exact absurd hcond.2 (by decide)
      · obtain ⟨b, hb, hpb⟩ := KPageGroup.mem_pagesOf.mp hp
        rw [hbits p (hpages₁ p hp)]
        rcases hflags b hb with hall | hflag
        · exact .inl (hall p hpb)
        · exact .inr ⟨b, hb, hpb, (hnew b).mpr hflag⟩
  · rw [if_neg hres]
    exact ⟨_, _, _, _, rfl, fun hs => absurd hs hres⟩

/-- Two managers of one page each; the second page was given to the optimized process before. -/
def partlyTracked (m₀ m₁ : Impl) : KMemoryManager :=
  { adjoining m₀ { m₁ with optimizeMap := fun _ => 1#64 } with hasOptimizedProcess := fun _ => true }

theorem partlyTracked_layout {m0 m1 : Impl} (h0 : onePage 0x10000 = some m0)
    (h1 : onePage 0x11000 = some m1) : (partlyTracked m0 m1).Layout := by
  have hl := adjoining_layout h0 h1
  have hheap : ∀ i, ((partlyTracked m0 m1).managers i).heap = ((adjoining m0 m1).managers i).heap := by
    intro i
    simp only [partlyTracked, adjoining]
    split <;> rfl
  refine ⟨fun i hi => hheap i ▸ hl.inv i hi, fun i hi => hheap i ▸ hl.below i hi, fun i hi => ?_⟩
  rw [hheap i]
  exact hl.index_eq i hi

/-- The request for one page. -/
theorem allocateForProcess_fillsOnce_one : ∃ m₀ m₁, onePage 0x10000 = some m₀ ∧ onePage 0x11000 = some m₁ ∧
    ∃ res out mm' memory', (partlyTracked m₀ m₁).allocateForProcess (fun _ => 7) (fun _ => 0)
        ⟨[], ⟨fun _ => true, 0⟩⟩ 1 .application .fromFront 7 0xAA = some (res, out, mm', memory') ∧
      (res = .success → (FillsOnce (partlyTracked m₀ m₁) (fun _ => 0) 0xAA out mm' memory' ↔
        ∀ b ∈ out.blocks, (partlyTracked m₀ m₁).FlagRight b)) := by
  have hsome : (onePage 0x10000).isSome = true ∧ (onePage 0x11000).isSome = true := by decide
  obtain ⟨m₀, h₀⟩ := Option.isSome_iff_exists.mp hsome.1
  obtain ⟨m₁, h₁⟩ := Option.isSome_iff_exists.mp hsome.2
  exact ⟨m₀, m₁, h₀, h₁, allocateForProcess_fillsOnce (partlyTracked m₀ m₁)
    (partlyTracked_layout h₀ h₁) (fun _ => 7) (fun _ => 0) ⟨fun _ => true, 0⟩ 1 .application
    .fromFront 7 0xAA rfl rfl⟩

/-- **A page that will be filled again.** The node of both pages ends in the manager whose page has
its bit, so the first page is filled but gets no bit. -/
theorem allocateForProcess_forgets_page : ∃ m₀ m₁ out mm' memory', onePage 0x10000 = some m₀ ∧
    onePage 0x11000 = some m₁ ∧ (partlyTracked m₀ m₁).Layout ∧
    (partlyTracked m₀ m₁).allocateForProcess (fun _ => 7) (fun _ => 0) ⟨[], ⟨fun _ => true, 0⟩⟩ 2
      .application .fromFront 7 0xAA = some (.success, out, mm', memory') ∧
    0x10 ∈ out.pages ∧ memory' 0x10000 = 0xAA ∧ mm'.optimizeBit 0x10 = false := by
  have hrun : ((onePage 0x10000).bind fun m₀ => (onePage 0x11000).bind fun m₁ =>
      ((partlyTracked m₀ m₁).allocateForProcess (fun _ => 7) (fun _ => 0) ⟨[], ⟨fun _ => true, 0⟩⟩ 2
        .application .fromFront 7 0xAA).map fun r =>
          (r.1, decide (0x10 ∈ r.2.1.pages), r.2.2.2 0x10000, r.2.2.1.optimizeBit 0x10)) =
      some (.success, true, 0xAA#8, false) := by decide
  obtain ⟨m₀, h₀, hrun⟩ := Option.bind_eq_some_iff.mp hrun
  obtain ⟨m₁, h₁, hrun⟩ := Option.bind_eq_some_iff.mp hrun
  obtain ⟨⟨res, out, mm', memory'⟩, hcall, hr⟩ := Option.map_eq_some_iff.mp hrun
  obtain ⟨rfl, hr⟩ := Prod.mk.inj hr
  obtain ⟨hpage, hr⟩ := Prod.mk.inj hr
  obtain ⟨hfilled, hclear⟩ := Prod.mk.inj hr
  exact ⟨m₀, m₁, out, mm', memory', h₀, h₁, partlyTracked_layout h₀ h₁, hcall,
    of_decide_eq_true hpage, hfilled, hclear⟩

end KMemoryManager

end Yuzu.Kernel
