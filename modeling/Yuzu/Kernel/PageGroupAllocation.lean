/-
  File:      Yuzu/Kernel/PageGroupAllocation.lean
  Subject:   `KMemoryManager::AllocatePageGroupImpl` (k_memory_manager.cpp) over any number of managers:
             what a successful call takes, and what a failed one gives back.

  * `GroupTaken` -- the pages that have left the heaps are those of the group;
  * `freeGroup_spec` -- the clean-up frees of every node the part in the manager of its first page;
  * `allocatePageGroupImpl_allOrNothing` -- a failed call restores every heap exactly when no block
    was appended to a node that begins in another manager.
-/
import Yuzu.Kernel.MemoryManager

namespace Yuzu.Kernel.KMemoryManager

open Impl Finset
open KPageHeap (HeapInv Keeps Allocated pageRange blockShift)
open KPageGroup (newPages pagesOf Bounded)

/-! ## 1. The managers and their regions -/

/-- The free pages of a manager. -/
def freePages (mm : KMemoryManager) (i : Nat) : Finset Nat := (mm.managers i).heap.freePages

/-- The pages of a manager's region. -/
def region (mm : KMemoryManager) (i : Nat) : Finset Nat :=
  pageRange (mm.managers i).heap.heapAddress (mm.managers i).heap.endAddress

/-- **The layout**: every heap keeps its invariant and lies where a block info can name its pages, and
the linear region of an address names the manager of the address. -/
structure Layout (mm : KMemoryManager) : Prop where
  inv : ∀ i < mm.numManagers, HeapInv (mm.managers i).heap
  below : ∀ i < mm.numManagers, (mm.managers i).heap.endAddress ≤ 2 ^ 44
  index_eq : ∀ i < mm.numManagers, ∀ a, (mm.managers i).heap.heapAddress ≤ a →
    a < (mm.managers i).heap.endAddress → mm.managerIndex a = i

variable {mm mm' mm₀ : KMemoryManager} {i j p n r : Nat} {m : Impl} {b c : KBlockInfo}
  {bs : List KBlockInfo} {X : Finset Nat} {st st' : GroupState}

theorem region_eq (h : mm.SameLayout mm') (i : Nat) : mm'.region i = mm.region i := by
  rw [region, region, (h.region i).address_eq, (h.region i).endAddress_eq]

theorem Layout.congr (h : mm.Layout) (hs : mm.SameLayout mm')
    (hinv : ∀ i < mm.numManagers, HeapInv (mm'.managers i).heap) : mm'.Layout where
  inv i hi := hinv i (hs.numManagers_eq ▸ hi)
  below i hi := by
    rw [(hs.region i).endAddress_eq]
    exact h.below i (hs.numManagers_eq ▸ hi)
  index_eq i hi a := by
    rw [(hs.region i).address_eq, (hs.region i).endAddress_eq, hs.managerIndex_eq]
    exact h.index_eq i (hs.numManagers_eq ▸ hi) a

theorem Layout.mem_region (h : mm.Layout) (hi : i < mm.numManagers) : p ∈ mm.region i ↔
    (mm.managers i).heap.heapAddress ≤ p * PageSize ∧ p * PageSize < (mm.managers i).heap.endAddress := by
  obtain ⟨c, hc⟩ := (h.inv i hi).address_aligned
  obtain ⟨d, hd⟩ := (h.inv i hi).end_aligned
  rw [region, pageRange, mem_Ico, hc, hd]
  simp only [PageSize]
  omega

theorem Layout.index_of_mem (h : mm.Layout) (hi : i < mm.numManagers) (hp : p ∈ mm.region i) :
    mm.managerIndex (p * PageSize) = i := by
  obtain ⟨hlow, hhigh⟩ := (h.mem_region hi).mp hp
  exact h.index_eq i hi _ hlow hhigh

theorem Layout.region_unique (h : mm.Layout) (hi : i < mm.numManagers) (hj : j < mm.numManagers)
    (hpi : p ∈ mm.region i) (hpj : p ∈ mm.region j) : i = j :=
  (h.index_of_mem hi hpi).symm.trans (h.index_of_mem hj hpj)

theorem Layout.free_subset (h : mm.Layout) (hi : i < mm.numManagers) :
    mm.freePages i ⊆ mm.region i := (h.inv i hi).free_subset

/-- A range of pages of the manager, as pages. -/
theorem Layout.holds_iff (h : mm.Layout) (hi : i < mm.numManagers) {a : Nat} (ha : PageSize ∣ a)
    (hn : 0 < n) : (mm.managers i).Holds a n ↔ newPages a n ⊆ mm.region i := by
  obtain ⟨c, hc⟩ := (h.inv i hi).address_aligned
  obtain ⟨d, hd⟩ := (h.inv i hi).end_aligned
  obtain ⟨e, rfl⟩ := ha
  have hpage : PageSize * e / PageSize = e := Nat.mul_div_cancel_left _ (by decide)
  rw [newPages, hpage, region, pageRange, hc, hd, Nat.mul_div_cancel_left _ (by decide),
    Nat.mul_div_cancel_left _ (by decide)]
  constructor
  · intro hh
    have hlow := hh.lower
    have hhigh := hh.upper
    rw [hc] at hlow
    rw [hd] at hhigh
    simp only [PageSize] at hlow hhigh
    exact Ico_subset_Ico (by omega) (by omega)
  · intro hsub
    have hlow := mem_Ico.mp (hsub (mem_Ico.mpr ⟨le_rfl, by omega⟩))
    have hhigh := mem_Ico.mp (hsub (mem_Ico.mpr ⟨Nat.le_add_right e (n - 1), by omega⟩))
    refine ⟨Nat.dvd_mul_right _ _, ?_, ?_⟩
    · rw [hc]
      exact Nat.mul_le_mul_left _ hlow.1
    · rw [hd]
      simp only [PageSize]
      omega

theorem Layout.setManager (h : mm.Layout) (hr : (mm.managers i).SameRegion m)
    (hv : HeapInv m.heap) : (mm.setManager i m).Layout ∧ mm.SameLayout (mm.setManager i m) := by
  have hs := sameLayout_setManager hr
  refine ⟨h.congr hs fun j hj => ?_, hs⟩
  by_cases hji : j = i
  · have hself : (mm.setManager i m).managers j = m := if_pos hji
    rw [hself]
    exact hv
  · have hother : (mm.setManager i m).managers j = mm.managers j := if_neg hji
    rw [hother]
    exact h.inv j hj

theorem freePages_setManager : (mm.setManager i m).freePages j =
    if j = i then m.heap.freePages else mm.freePages j := by
  rw [freePages, KMemoryManager.setManager]
  dsimp only
  split <;> rfl

/-! ## 2. Blocks of the group -/

/-- The node lies in one manager. -/
def OneManager (mm : KMemoryManager) (b : KBlockInfo) : Prop :=
  ∃ i < mm.numManagers, b.pages ⊆ mm.region i

/-- `TryConcatenate` would append the block to a node that begins in another manager. -/
def JoinsAt (st : GroupState) (i allocatedBlock : Nat) : Prop :=
  ∃ b, st.out.blocks.getLast? = some b ∧ allocatedBlock = b.getEndAddress ∧
    st.mm.managerIndex b.getAddress ≠ i

/-- What `AddBlock` makes of the list of blocks. -/
theorem addBlock_cases {g g' : KPageGroup} {addr : Nat} {res : Result} (hok : KPageGroup.Ok g.blocks)
    (ha : PageSize ∣ addr) (h0 : 0 < addr) (hhi : addr / PageSize + n ≤ 2 ^ 32) (hn : 0 < n)
    (hadd : g.addBlock addr n = some (res, g')) :
    (res = .success ∧ ∃ init b, g.blocks = init ++ [b] ∧ addr = b.getEndAddress ∧
      b.pageIndex + b.numPages = addr / PageSize ∧
      g'.blocks = init ++ [⟨b.pageIndex, b.numPages + n⟩]) ∨
    ((∀ b, g.blocks.getLast? = some b → addr ≠ b.getEndAddress) ∧
      (res = .success ∧ g'.blocks = g.blocks ++ [⟨addr / PageSize, n⟩] ∨
        res = .outOfResource ∧ g'.blocks = g.blocks)) := by
  rw [KPageGroup.addBlock, if_neg (by omega)] at hadd
  obtain ⟨-, hadd⟩ := assert_bind_eq_some.mp hadd
  cases hlast : g.blocks.getLast?.bind (·.tryConcatenate addr n) with
  | some b' =>
    rw [hlast] at hadd
    obtain ⟨b, hb, hcat⟩ := Option.bind_eq_some_iff.mp hlast
    have hg : g.blocks = g.blocks.dropLast ++ [b] := (List.dropLast_append_getLast? b hb).symm
    have hbounded := hok.bounded b (List.mem_of_getLast? hb)
    have hends : addr = b.getEndAddress := by
      rw [KBlockInfo.tryConcatenate] at hcat
      split at hcat
      · rename_i hc
        exact hc.2
      · cases hcat
    obtain ⟨hbb, hpages⟩ := KPageGroup.tryConcatenate_spec ha h0 hhi hbounded hcat
    have hindex : b.pageIndex + b.numPages = addr / PageSize := by
      have hpos : 0 < addr / PageSize := Nat.div_pos (Nat.le_of_dvd h0 ha) (by decide)
      rw [hends, KBlockInfo.getEndAddress, Nat.mul_div_cancel _ (by decide)] at hpos ⊢
      have hbelow := hbounded.below
      omega
    have hb' : b' = ⟨b.pageIndex, b.numPages + n⟩ := by
      rw [KBlockInfo.tryConcatenate, if_pos ⟨Nat.ne_of_gt h0, hends⟩] at hcat
      rw [← Option.some.inj hcat]
      have hmod : (b.numPages + n) % 2 ^ 32 = b.numPages + n := by
        have hpos := hbounded.index_pos
        exact Nat.mod_eq_of_lt (by omega)
      rw [hmod]
    cases hadd
    exact .inl ⟨rfl, g.blocks.dropLast, b, hg, hends, hindex, by rw [hb']⟩
  | none =>
    rw [hlast] at hadd
    have hapart : ∀ b, g.blocks.getLast? = some b → addr ≠ b.getEndAddress := by
      intro b hb hends
      rw [hb, Option.bind_some, KBlockInfo.tryConcatenate, if_pos ⟨Nat.ne_of_gt h0, hends⟩] at hlast
      cases hlast
    refine .inr ⟨hapart, ?_⟩
    rcases hav : g.manager.allocate with ⟨available, manager⟩
    rw [hav] at hadd
    cases available with
    | true =>
      have hpos : 0 < addr / PageSize := Nat.div_pos (Nat.le_of_dvd h0 ha) (by decide)
      have hinfo : KBlockInfo.initializeInfo addr n = some ⟨addr / PageSize, n⟩ := by
        rw [KBlockInfo.initializeInfo, assert_bind_of (Nat.mod_eq_zero_of_dvd ha),
          assert_bind_of (Nat.mod_eq_of_lt (by omega)), Nat.mod_eq_of_lt (by omega),
          Nat.mod_eq_of_lt (by omega)]
        rfl
      dsimp only at hadd
      rw [if_pos rfl, hinfo] at hadd
      cases hadd
      exact .inl ⟨rfl, rfl⟩
    | false =>
      cases hadd
      exact .inr ⟨rfl, rfl⟩

/-- A concatenated node lies in one manager when the node did, and the block is of the manager the
node begins in. -/
theorem oneManager_concat (h : mm.Layout) (hb : Bounded b) (hi : i < mm.numManagers) (hn : 0 < n)
    (hends : b.pageIndex + b.numPages = r / PageSize) (hnew : newPages r n ⊆ mm.region i) :
    mm.OneManager ⟨b.pageIndex, b.numPages + n⟩ ↔ mm.OneManager b ∧ mm.managerIndex b.getAddress = i := by
  have hpos := hb.numPages_pos
  have hfirst : b.pageIndex ∈ b.pages := mem_Ico.mpr ⟨le_rfl, by omega⟩
  have hunion : (⟨b.pageIndex, b.numPages + n⟩ : KBlockInfo).pages = b.pages ∪ newPages r n := by
    rw [newPages, ← hends, KBlockInfo.pages, KBlockInfo.pages,
      Ico_union_Ico_eq_Ico (Nat.le_add_right _ _) (Nat.le_add_right _ _), Nat.add_assoc]
  rw [OneManager, hunion]
  constructor
  · intro hone
    obtain ⟨j, hj, hsub⟩ := hone
    obtain ⟨hsub, hsubn⟩ := union_subset_iff.mp hsub
    have hr : r / PageSize ∈ newPages r n := mem_Ico.mpr ⟨le_rfl, by omega⟩
    obtain rfl : j = i := h.region_unique hj hi (hsubn hr) (hnew hr)
    exact ⟨⟨j, hj, hsub⟩, h.index_of_mem hj (hsub hfirst)⟩
  · intro hone
    obtain ⟨⟨j, hj, hsub⟩, hindex⟩ := hone
    obtain rfl : j = i := (h.index_of_mem hj (hsub hfirst)).symm.trans hindex
    exact ⟨j, hj, union_subset hsub hnew⟩

/-! ## 3. The loops of the allocation -/

/-- **The block that goes wrong**: while the blocks of one level come from one manager, a block is
appended to a node that begins in another manager. -/
def joinsBlocks (index i : Nat) (unoptimized random : Bool) : Nat → GroupState → Prop
  | 0, _ => False
  | fuel + 1, st =>
    let pagesPerAlloc := getBlockNumPages index
    st.numPages ≥ pagesPerAlloc ∧
      match (st.mm.managers i).allocateBlock index random with
      | none => False
      | some (allocatedBlock, m) =>
        allocatedBlock ≠ 0 ∧ (JoinsAt st i allocatedBlock ∨
          match st.out.addBlock allocatedBlock pagesPerAlloc with
          | some (.success, out) =>
            joinsBlocks index i unoptimized random fuel
              ⟨st.mm.setManager i (trackIf m unoptimized allocatedBlock pagesPerAlloc), out,
                st.numPages - pagesPerAlloc⟩
          | _ => False)

/-- The same over the managers of the pool. -/
def joinsFromManagers (index : Nat) (unoptimized random : Bool) : List Nat → GroupState → Prop
  | [], _ => False
  | i :: is, st =>
    joinsBlocks index i unoptimized random (st.numPages + 1) st ∨
      match allocateBlocks index i unoptimized random (st.numPages + 1) st with
      | some (.success, st) => joinsFromManagers index unoptimized random is st
      | _ => False

/-- The same over the levels. -/
def joinsLevels (pool : Pool) (dir : Direction) (unoptimized random : Bool) : Nat → GroupState → Prop
  | 0, _ => False
  | index + 1, st =>
    st.numPages > 0 ∧ (joinsFromManagers index unoptimized random (st.mm.poolManagers pool dir) st ∨
        match allocateFromManagers index unoptimized random (st.mm.poolManagers pool dir) st with
        | some (.success, st) => joinsLevels pool dir unoptimized random index st
        | _ => False)

/-- Some block of a request is appended to a node that begins in another manager. -/
def JoinsManagers (mm : KMemoryManager) (out : KPageGroup) (numPages : Nat) (pool : Pool)
    (dir : Direction) (unoptimized random : Bool) : Prop :=
  match getBlockIndex numPages with
  | none => False
  | some heapIndex => joinsLevels pool dir unoptimized random (heapIndex + 1) ⟨mm, out, numPages⟩

/-- **What the loops keep**: the pages of the group are those that have left the heaps of the pool, and
with the pages still to come they are as many as were asked for; the maps change only where they
track other processes. -/
structure GroupTaken (mm₀ : KMemoryManager) (is : List Nat) (numPages : Nat) (unoptimized : Bool)
    (st : GroupState) : Prop where
  layout : st.mm.Layout
  same : mm₀.SameLayout st.mm
  ok : KPageGroup.Ok st.out.blocks
  free : ∀ i < mm₀.numManagers, st.mm.freePages i = mm₀.freePages i \ st.out.pages
  taken : ∀ p ∈ st.out.pages, ∃ i ∈ is, p ∈ mm₀.freePages i
  count : st.out.pages.card + st.numPages = numPages
  maps : unoptimized = false → ∀ i, (st.mm.managers i).optimizeMap = (mm₀.managers i).optimizeMap

/-- Every node lies in one manager. -/
def Apart (st : GroupState) : Prop := ∀ b ∈ st.out.blocks, st.mm.OneManager b

theorem oneManager_congr (h : mm.SameLayout mm') : mm'.OneManager b ↔ mm.OneManager b := by
  rw [OneManager, OneManager, h.numManagers_eq]
  simp only [region_eq h]

theorem Layout.allocateBlock (h : mm.Layout) (hi : i < mm.numManagers) {index : Nat}
    (hidx : index < 7) (random : Bool) : ∃ r m, (mm.managers i).allocateBlock index random =
        some (r, m) ∧ (mm.managers i).SameRegion m ∧ HeapInv m.heap ∧
      m.optimizeMap = (mm.managers i).optimizeMap ∧
      ((r = 0 ∧ m.heap.freePages = mm.freePages i) ∨
        (r ≠ 0 ∧ PageSize ∣ r ∧ newPages r (getBlockNumPages index) ⊆ mm.freePages i ∧
          m.heap.freePages = mm.freePages i \ newPages r (getBlockNumPages index))) := by
  obtain ⟨hpos, hsize⟩ := getBlockNumPages_spec hidx
  obtain ⟨r, h', hall, hres⟩ := (h.inv i hi).allocateBlock hidx random
  refine ⟨r, (mm.managers i).setHeap h', by rw [Impl.allocateBlock, hall]; rfl, ?_⟩
  rcases hres with ⟨hr, hk, -⟩ | ⟨hr, hal, hsub, hk⟩
  · exact ⟨⟨hk.address_eq, hk.size_eq, rfl⟩, hk.inv, rfl, .inl ⟨hr, hk.free_eq⟩⟩
  · rw [← hsize] at hal hsub hk
    rw [pageRange_offset] at hsub hk
    exact ⟨⟨hk.address_eq, hk.size_eq, rfl⟩, hk.inv, rfl,
      .inr ⟨hr, (Nat.dvd_mul_left _ _).trans hal, hsub, hk.free_eq⟩⟩

theorem Layout.freeBlock (h : mm.Layout) (hi : i < mm.numManagers) (hr : (mm.managers i).SameRegion m)
    (hv : HeapInv m.heap) {a : Nat} (ha : PageSize ∣ a) (hin : newPages a n ⊆ mm.region i)
    (hdis : Disjoint (newPages a n) m.heap.freePages) : ∃ m', m.free a n = some m' ∧
      (mm.managers i).SameRegion m' ∧ HeapInv m'.heap ∧ m'.optimizeMap = m.optimizeMap ∧
      m'.heap.freePages = m.heap.freePages ∪ newPages a n := by
  rcases Nat.eq_zero_or_pos n with rfl | hn
  · refine ⟨m, ?_, hr, hv, rfl, ?_⟩
    · rw [Impl.free, KPageHeap.free, if_pos rfl]
      rfl
    · rw [newPages, Nat.add_zero, Ico_self, union_empty]
  · have hholds := (h.holds_iff hi ha hn).mpr hin
    have hrange := pageRange_offset a n
    obtain ⟨h', hf, hk⟩ := hv.free a n ha (hr.address_eq ▸ hholds.lower)
      (hr.endAddress_eq ▸ hholds.upper) (by rw [hrange]; exact hdis)
    rw [hrange] at hk
    refine ⟨m.setHeap h', by rw [Impl.free, hf]; rfl, hr.trans ⟨hk.address_eq, hk.size_eq, rfl⟩,
      hk.inv, rfl, hk.free_eq⟩

theorem optimizeMap_setManager (hmap : m.optimizeMap = (mm.managers i).optimizeMap) (j : Nat) :
    ((mm.setManager i m).managers j).optimizeMap = (mm.managers j).optimizeMap := by
  rw [KMemoryManager.setManager]
  dsimp only
  split
  · rename_i hji
    rw [hmap, hji]
  · rfl

theorem GroupTaken.keep {is : List Nat} {numPages : Nat} {unoptimized : Bool}
    (h : GroupTaken mm₀ is numPages unoptimized st) (hr : (st.mm.managers i).SameRegion m)
    (hv : HeapInv m.heap) (hmap : m.optimizeMap = (st.mm.managers i).optimizeMap)
    (hfree : m.heap.freePages = st.mm.freePages i) {out : KPageGroup}
    (hout : out.blocks = st.out.blocks) :
    GroupTaken mm₀ is numPages unoptimized ⟨st.mm.setManager i m, out, st.numPages⟩ := by
  obtain ⟨hl, hs⟩ := h.layout.setManager hr hv
  have hpages : out.pages = st.out.pages := congrArg pagesOf hout
  refine ⟨hl, h.same.trans hs, hout ▸ h.ok, fun j hj => ?_, fun p hp => h.taken p (hpages ▸ hp),
    hpages ▸ h.count, fun hu j => (optimizeMap_setManager hmap j).trans (h.maps hu j)⟩
  dsimp only
  rw [freePages_setManager, hpages, ← h.free j hj]
  split
  · rename_i hji
    rw [hfree, hji]
  · rfl

theorem heap_trackIf (m : Impl) (unoptimized : Bool) (block n : Nat) :
    (trackIf m unoptimized block n).heap = m.heap := by
  cases unoptimized <;> rfl

theorem apart_congr (hs : st.mm.SameLayout mm') {out : KPageGroup}
    (hout : out.blocks = st.out.blocks) : Apart ⟨mm', out, n⟩ ↔ Apart st := by
  simp only [Apart, oneManager_congr hs, hout]

/-- A block that the group takes keeps the nodes apart, unless it is the one that goes wrong. -/
theorem apart_addBlock (h : st.mm.Layout) (hok : KPageGroup.Ok st.out.blocks)
    (hi : i < st.mm.numManagers) (ha : PageSize ∣ r) (h0 : 0 < r)
    (hhi : r / PageSize + n ≤ 2 ^ 32) (hn : 0 < n) (hnew : newPages r n ⊆ st.mm.region i)
    {out : KPageGroup} (hadd : st.out.addBlock r n = some (.success, out))
    (hs : st.mm.SameLayout mm') {k : Nat} :
    Apart ⟨mm', out, k⟩ ↔ Apart st ∧ ¬JoinsAt st i r := by
  have hmm : Apart ⟨mm', out, k⟩ ↔ ∀ b ∈ out.blocks, st.mm.OneManager b := by
    simp only [Apart, oneManager_congr hs]
  rw [hmm, Apart]
  rcases addBlock_cases hok ha h0 hhi hn hadd with
    ⟨-, init, b, hblocks, hends, hindex, hout⟩ | ⟨hapart, ⟨-, hout⟩ | ⟨hres, -⟩⟩
  · have hjoins : JoinsAt st i r ↔ st.mm.managerIndex b.getAddress ≠ i := by
      rw [JoinsAt, hblocks, List.getLast?_append]
      simp [hends]
    have hb := hok.bounded b (hblocks ▸ List.mem_append_right _ List.mem_cons_self)
    rw [hjoins, not_not, hout, hblocks]
    simp only [List.mem_append, List.mem_singleton, or_imp, forall_and, forall_eq,
      oneManager_concat h hb hi hn hindex hnew]
    tauto
  · have hjoins : ¬JoinsAt st i r := fun hj => by
      obtain ⟨b, hb, hends, -⟩ := hj
      exact hapart b hb hends
    have hone : st.mm.OneManager ⟨r / PageSize, n⟩ := ⟨i, hi, hnew⟩
    rw [and_iff_left hjoins, hout]
    simp only [List.mem_append, List.mem_singleton, or_imp, forall_and, forall_eq, hone, and_true]
  · cases hres

section Loops

variable {is : List Nat} {numPages index : Nat} (hlt : ∀ j ∈ is, j < mm₀.numManagers)
  (unoptimized random : Bool)

include hlt

/-- The pages of a block leave the heap and enter the group. -/
theorem GroupTaken.take (h : GroupTaken mm₀ is numPages unoptimized st) (hi : i ∈ is)
    (hr : (st.mm.managers i).SameRegion m) (hv : HeapInv m.heap)
    (hmap : unoptimized = false → m.optimizeMap = (st.mm.managers i).optimizeMap)
    (hsub : newPages r n ⊆ st.mm.freePages i)
    (hfree : m.heap.freePages = st.mm.freePages i \ newPages r n) {out : KPageGroup}
    (hok : KPageGroup.Ok out.blocks) (hout : out.pages = st.out.pages ∪ newPages r n)
    (hn : n ≤ st.numPages) :
    GroupTaken mm₀ is numPages unoptimized ⟨st.mm.setManager i m, out, st.numPages - n⟩ := by
  have hi0 := hlt i hi
  have hi' : i < st.mm.numManagers := h.same.numManagers_eq ▸ hi0
  obtain ⟨hl, hs⟩ := h.layout.setManager hr hv
  have hsub0 : newPages r n ⊆ mm₀.freePages i \ st.out.pages := h.free i hi0 ▸ hsub
  have hdis : Disjoint st.out.pages (newPages r n) :=
    (subset_sdiff.mp hsub0).2.symm
  refine ⟨hl, h.same.trans hs, hok, fun j hj => ?_, fun p hp => ?_, ?_, fun hu j =>
    (optimizeMap_setManager (hmap hu) j).trans (h.maps hu j)⟩
  · dsimp only
    rw [freePages_setManager, hout, ← sup_eq_union, ← sdiff_sdiff_left, ← h.free j hj]
    split
    · rename_i hji
      rw [hfree, hji]
    · -- the pages of another manager
      rename_i hji
      refine (sdiff_eq_self_of_disjoint (disjoint_left.mpr fun p hp hnew => ?_)).symm
      have hj' : j < st.mm.numManagers := h.same.numManagers_eq ▸ hj
      exact hji (h.layout.region_unique hj' hi' (h.layout.free_subset hj' hp)
        (h.layout.free_subset hi' (hsub hnew)))
  · rw [hout] at hp
    rcases mem_union.mp hp with hp | hp
    · exact h.taken p hp
    · exact ⟨i, hi, (mem_sdiff.mp (hsub0 hp)).1⟩
  · have hcard : (newPages r n).card = n := by
      rw [newPages, Nat.card_Ico, Nat.add_sub_cancel_left]
    have hcount := h.count
    dsimp only
    rw [hout, card_union_of_disjoint hdis, hcard]
    omega

/-- **Blocks of one level from one manager.** -/
theorem GroupTaken.allocateBlocks (hidx : index < 7) (hi : i ∈ is) : ∀ {fuel : Nat} {st : GroupState},
    st.numPages < fuel → GroupTaken mm₀ is numPages unoptimized st →
    ∃ res st', allocateBlocks index i unoptimized random fuel st = some (res, st') ∧
      GroupTaken mm₀ is numPages unoptimized st' ∧
      (Apart st' ↔ Apart st ∧ ¬joinsBlocks index i unoptimized random fuel st)
  | 0, _, hfuel, _ => absurd hfuel (Nat.not_lt_zero _)
  | fuel + 1, st, hfuel, h => by
    have hi' : i < st.mm.numManagers := h.same.numManagers_eq ▸ hlt i hi
    obtain ⟨hpos, hsize⟩ := getBlockNumPages_spec hidx
    obtain ⟨r, m, hblock, hreg, hv, hmap, hcase⟩ := h.layout.allocateBlock hi' hidx random
    rw [KMemoryManager.allocateBlocks, joinsBlocks]
    dsimp only
    rw [hblock]
    generalize getBlockNumPages index = n at *
    by_cases henough : st.numPages ≥ n
    · rw [if_pos henough]
      simp only [Option.bind_eq_bind, Option.bind_some, henough, true_and]
      rcases hcase with ⟨rfl, hfree⟩ | ⟨hr, hal, hsub, hfree⟩
      · -- the manager has no such block
        have hkeep := h.keep hreg hv hmap hfree rfl
        refine ⟨.success, _, if_pos rfl, hkeep, ?_⟩
        rw [apart_congr (sameLayout_setManager hreg) rfl]
        simp
      · rw [if_neg hr]
        have hnew := hsub.trans (h.layout.free_subset hi')
        have h0 := Nat.pos_of_ne_zero hr
        have hhi : r / PageSize + n ≤ 2 ^ 32 := by
          have hholds := (h.layout.holds_iff hi' hal hpos).mpr hnew
          have hupper := hholds.upper
          have hbelow := h.layout.below i hi'
          obtain ⟨e, rfl⟩ := hal
          simp only [PageSize] at *
          omega
        have hdis : Disjoint st.out.pages (newPages r n) := by
          have hsub0 := h.free i (hlt i hi) ▸ hsub
          exact (subset_sdiff.mp hsub0).2.symm
        obtain ⟨res, out, hadd, hok, hout⟩ := h.ok.addBlock hal h0 hhi hpos hdis
        rw [hadd, Option.bind_some]
        rcases hout with ⟨rfl, hpages⟩ | ⟨rfl, hsame⟩
        · dsimp only
          rw [if_pos rfl]
          have hheap := heap_trackIf m unoptimized r n
          have hregt : (st.mm.managers i).SameRegion (trackIf m unoptimized r n) :=
            hreg.trans (by cases unoptimized <;> exact ⟨rfl, rfl, rfl⟩)
          have hmapt : unoptimized = false →
              (trackIf m unoptimized r n).optimizeMap = (st.mm.managers i).optimizeMap := by
            intro hu
            rw [hu]
            exact hmap
          have htake := h.take hlt unoptimized hi hregt (hheap ▸ hv) hmapt hsub (hheap ▸ hfree) hok
            hpages henough
          have hless : st.numPages - n < fuel := by omega
          obtain ⟨res, st', hrun, htaken, hapart⟩ :=
            GroupTaken.allocateBlocks hidx hi hless htake
          refine ⟨res, st', hrun, htaken, ?_⟩
          rw [hapart, apart_addBlock h.layout h.ok hi' hal h0 hhi hpos hnew hadd
            (sameLayout_setManager hregt)]
          tauto
        · -- the block goes back to the heap it came from
          dsimp only
          rw [if_neg (by decide)]
          obtain ⟨m', hm', hreg', hv', hmap', hfree'⟩ := h.layout.freeBlock hi' hreg hv hal hnew
            (by rw [hfree]; exact disjoint_sdiff)
          rw [hfree, sdiff_union_of_subset hsub] at hfree'
          rw [hm', Option.bind_some]
          refine ⟨_, _, rfl, h.keep hreg' hv' (hmap'.trans hmap) hfree' hsame, ?_⟩
          have hjoins : ¬JoinsAt st i r := fun hj => by
            rcases addBlock_cases h.ok hal h0 hhi hpos hadd with ⟨hres, -⟩ | ⟨hapart, -⟩
            · cases hres
            · obtain ⟨b, hb, hends, -⟩ := hj
              exact hapart b hb hends
          rw [apart_congr (sameLayout_setManager hreg') hsame]
          simp [hjoins]
    · rw [if_neg henough]
      refine ⟨_, _, rfl, h, ?_⟩
      simp [henough]

theorem GroupTaken.allocateFromManagers (hidx : index < 7) : ∀ {js : List Nat} {st : GroupState},
    (∀ j ∈ js, j ∈ is) → GroupTaken mm₀ is numPages unoptimized st →
    ∃ res st', allocateFromManagers index unoptimized random js st = some (res, st') ∧
      GroupTaken mm₀ is numPages unoptimized st' ∧
      (Apart st' ↔ Apart st ∧ ¬joinsFromManagers index unoptimized random js st)
  | [], st, _, h => ⟨_, st, rfl, h, by simp [joinsFromManagers]⟩
  | j :: js, st, hjs, h => by
    obtain ⟨res, st1, hst1, h1, hapart1⟩ := h.allocateBlocks hlt unoptimized random hidx
      (hjs j List.mem_cons_self) (Nat.lt_succ_self st.numPages)
    rw [KMemoryManager.allocateFromManagers, joinsFromManagers, hst1]
    simp only [Option.bind_eq_bind, Option.bind_some]
    by_cases hres : res = .success
    · rw [if_pos hres, hres]
      obtain ⟨res', st', hst', h', hapart⟩ := h1.allocateFromManagers hidx
        fun k hk => hjs k (List.mem_cons_of_mem _ hk)
      refine ⟨res', st', hst', h', ?_⟩
      rw [hapart, hapart1]
      tauto
    · rw [if_neg hres]
      refine ⟨res, st1, rfl, h1, ?_⟩
      rw [hapart1]
      cases res <;> simp at hres ⊢

omit hlt in
theorem GroupTaken.allocateLevels (pool : Pool) (dir : Direction) : ∀ {k : Nat} {st : GroupState},
    k ≤ 7 → GroupTaken mm₀ (mm₀.poolManagers pool dir) numPages unoptimized st →
    ∃ res st', allocateLevels pool dir unoptimized random k st = some (res, st') ∧
      GroupTaken mm₀ (mm₀.poolManagers pool dir) numPages unoptimized st' ∧
      (Apart st' ↔ Apart st ∧ ¬joinsLevels pool dir unoptimized random k st)
  | 0, st, _, h => ⟨_, st, rfl, h, by simp [joinsLevels]⟩
  | index + 1, st, hk, h => by
    rw [KMemoryManager.allocateLevels, joinsLevels]
    by_cases hleft : st.numPages > 0
    · rw [if_pos hleft, h.same.poolManagers_eq]
      obtain ⟨res, st1, hst1, h1, hapart1⟩ := h.allocateFromManagers
        (fun j hj => mem_poolManagers hj) unoptimized random hk fun j hj => hj
      rw [hst1]
      simp only [Option.bind_eq_bind, Option.bind_some, hleft, true_and]
      by_cases hres : res = .success
      · rw [if_pos hres, hres]
        obtain ⟨res', st', hst', h', hapart⟩ := h1.allocateLevels (k := index) pool dir (by omega)
        refine ⟨res', st', hst', h', ?_⟩
        rw [hapart, hapart1]
        tauto
      · rw [if_neg hres]
        refine ⟨res, st1, rfl, h1, ?_⟩
        rw [hapart1]
        cases res <;> simp at hres ⊢
    · rw [if_neg hleft]
      refine ⟨_, st, rfl, h, ?_⟩
      simp [hleft]

end Loops

/-! ## 4. The clean-up -/

/-- The pages of a node that the clean-up frees: those before the end of the manager that its first
page lies in. -/
def firstPart (mm : KMemoryManager) (b : KBlockInfo) : Finset Nat :=
  newPages b.getAddress (min b.numPages
    (((mm.managers (mm.managerIndex b.getAddress)).heap.endAddress - b.getAddress) / PageSize))

theorem firstPart_congr (h : mm.SameLayout mm') : mm'.firstPart b = mm.firstPart b := by
  rw [firstPart, firstPart, h.managerIndex_eq, (h.region _).endAddress_eq]

theorem firstPart_subset : mm.firstPart b ⊆ b.pages := by
  rw [KPageGroup.pages_eq_newPages]
  exact Ico_subset_Ico le_rfl (Nat.add_le_add_left (Nat.min_le_left _ _) _)

theorem firstPart_subset_region (h : mm.Layout) (hi : i < mm.numManagers)
    (hfirst : b.pageIndex ∈ mm.region i) : mm.firstPart b ⊆ mm.region i := by
  have hindex : mm.managerIndex b.getAddress = i := h.index_of_mem hi hfirst
  obtain ⟨d, hd⟩ := (h.inv i hi).end_aligned
  intro p hp
  obtain ⟨hlow, hhigh⟩ := (h.mem_region hi).mp hfirst
  rw [firstPart, hindex, newPages, mem_Ico, KBlockInfo.getAddress,
    Nat.mul_div_cancel _ (by decide), hd] at hp
  rw [hd] at hhigh
  rw [h.mem_region hi, hd]
  simp only [PageSize] at hp hlow hhigh ⊢
  omega

theorem firstPart_eq_iff (h : mm.Layout) (hb : Bounded b) (hi : i < mm.numManagers)
    (hfirst : b.pageIndex ∈ mm.region i) : mm.firstPart b = b.pages ↔ mm.OneManager b := by
  have hindex : mm.managerIndex b.getAddress = i := h.index_of_mem hi hfirst
  have hpos := hb.numPages_pos
  have hself : b.pageIndex ∈ b.pages := mem_Ico.mpr ⟨le_rfl, by omega⟩
  constructor
  · intro heq
    exact ⟨i, hi, heq ▸ firstPart_subset_region h hi hfirst⟩
  · intro hone
    obtain ⟨j, hj, hsub⟩ := hone
    obtain rfl : j = i := h.region_unique hj hi (hsub hself) hfirst
    have hpages := KPageGroup.pages_eq_newPages b
    have hholds := (h.holds_iff hj (Nat.dvd_mul_left _ _) hpos).mpr (hpages ▸ hsub)
    have hupper := hholds.upper
    rw [firstPart, hindex, Nat.min_eq_left, hpages]
    rw [Nat.le_div_iff_mul_le (by decide)]
    exact Nat.le_sub_of_add_le (Nat.add_comm _ _ ▸ hupper)

/-- **The clean-up** frees the first part of every node. -/
theorem freeGroup_spec : ∀ {bs : List KBlockInfo} {mm : KMemoryManager}, mm.Layout → KPageGroup.Ok bs →
    (∀ p ∈ pagesOf bs, ∃ i < mm.numManagers, p ∈ mm.region i ∧ p ∉ mm.freePages i) →
    ∃ mm', freeGroup bs mm = some mm' ∧ mm'.Layout ∧ mm.SameLayout mm' ∧
      ∀ i < mm.numManagers, ∀ p, p ∈ mm'.freePages i ↔
        p ∈ mm.freePages i ∨ p ∈ mm.region i ∧ ∃ b ∈ bs, p ∈ mm.firstPart b
  | [], mm, h, _, _ => ⟨mm, rfl, h, .refl mm, by simp⟩
  | b :: bs, mm, h, hok, hin => by
    have hb := hok.bounded b List.mem_cons_self
    obtain ⟨hok', hdis⟩ := hok.of_cons
    have hpos := hb.numPages_pos
    have hself : b.pageIndex ∈ b.pages := mem_Ico.mpr ⟨le_rfl, by omega⟩
    obtain ⟨i, hi, hfirst, -⟩ := hin b.pageIndex (mem_union_left _ hself)
    have hindex : mm.managerIndex b.getAddress = i := h.index_of_mem hi hfirst
    have hpart := firstPart_subset_region h hi hfirst
    have hoff : Disjoint (mm.firstPart b) (mm.freePages i) := by
      refine disjoint_left.mpr fun p hp hfree => ?_
      obtain ⟨j, hj, hpj, hnot⟩ := hin p (mem_union_left _ (firstPart_subset hp))
      obtain rfl := h.region_unique hj hi hpj (hpart hp)
      exact hnot hfree
    obtain ⟨m, hm, hreg, hv, -, hfree⟩ := h.freeBlock hi (.refl _) (h.inv i hi)
      (show PageSize ∣ b.getAddress from Nat.dvd_mul_left PageSize b.pageIndex)
      (by rw [firstPart, hindex] at hpart; exact hpart)
      (by rw [firstPart, hindex] at hoff; exact hoff)
    obtain ⟨hl, hs⟩ := h.setManager hreg hv
    have hfree' : ∀ j < mm.numManagers, ∀ p, p ∈ (mm.setManager i m).freePages j ↔
        p ∈ mm.freePages j ∨ p ∈ mm.region j ∧ p ∈ mm.firstPart b := by
      intro j hj p
      rw [freePages_setManager]
      split
      · rename_i hji
        rw [hfree, mem_union, hji]
        refine or_congr Iff.rfl ⟨fun hp => ?_, fun hp => ?_⟩
        · have hp : p ∈ mm.firstPart b := by
            rw [firstPart, hindex]
            exact hp
          exact ⟨hpart hp, hp⟩
        · rw [firstPart, hindex] at hp
          exact hp.2
      · rename_i hji
        refine (or_iff_left fun hp => hji ?_).symm
        exact h.region_unique hj hi hp.1 (hpart hp.2)
    -- the pages of the later nodes are still to be freed
    obtain ⟨mm', hmm', hl', hs', hrest⟩ := freeGroup_spec hl hok' fun p hp => by
      obtain ⟨j, hj, hpj, hnot⟩ := hin p (mem_union_right _ hp)
      refine ⟨j, hj, region_eq hs j ▸ hpj, fun hfreed => ?_⟩
      rcases (hfree' j hj p).mp hfreed with hold | ⟨-, hnew⟩
      · exact hnot hold
      · exact disjoint_left.mp hdis (firstPart_subset hnew) hp
    refine ⟨mm', ?_, hl', hs.trans hs', fun j hj p => ?_⟩
    · rw [KMemoryManager.freeGroup, hindex, hm]
      exact hmm'
    · rw [hrest j hj, hfree' j hj, region_eq hs]
      simp only [firstPart_congr hs, List.mem_cons, exists_eq_or_imp]
      rw [or_assoc, ← and_or_left]

/-! ## 5. The whole call -/

theorem card_pagesOf (hok : KPageGroup.Ok bs) : (pagesOf bs).card = (bs.map (·.numPages)).sum := by
  induction bs with
  | nil => rfl
  | cons b bs ih =>
    obtain ⟨hok', hdis⟩ := hok.of_cons
    rw [pagesOf, card_union_of_disjoint hdis, ih hok', KBlockInfo.pages, Nat.card_Ico,
      Nat.add_sub_cancel_left, List.map_cons, List.sum_cons]

/-- **All or nothing.** A call that succeeds gives the group as many distinct pages as were asked for,
all of which were free in the pool and are no longer; a call that fails leaves the group empty and
the free pages of every manager as they were. -/
structure AllOrNothing (mm : KMemoryManager) (numPages : Nat) (pool : Pool) (dir : Direction)
    (res : Result) (out : KPageGroup) (mm' : KMemoryManager) : Prop where
  pages : res = .success → out.getNumPages = numPages ∧ out.pages.card = numPages
  taken : res = .success → ∀ p ∈ out.pages, ∃ i ∈ mm.poolManagers pool dir, p ∈ mm.freePages i
  removed : res = .success → ∀ i < mm.numManagers, mm'.freePages i = mm.freePages i \ out.pages
  empty : res ≠ .success → out.blocks = []
  restored : res ≠ .success → ∀ i < mm.numManagers, mm'.freePages i = mm.freePages i

/-- The clean-up gives back every page exactly when every node lies in one manager. -/
theorem GroupTaken.restored_iff {is : List Nat} {numPages : Nat} {unoptimized : Bool} (hl : mm₀.Layout)
    (h : GroupTaken mm₀ is numPages unoptimized st) (hlt : ∀ j ∈ is, j < mm₀.numManagers) :
    ∃ mm', freeGroup st.out.blocks st.mm = some mm' ∧
      ((∀ i < mm₀.numManagers, mm'.freePages i = mm₀.freePages i) ↔ Apart st) := by
  have hin : ∀ p ∈ pagesOf st.out.blocks, ∃ i < st.mm.numManagers,
      p ∈ mm₀.freePages i ∧ p ∈ st.mm.region i ∧ p ∉ st.mm.freePages i := by
    intro p hp
    obtain ⟨i, hi, hfree⟩ := h.taken p hp
    refine ⟨i, h.same.numManagers_eq ▸ hlt i hi, hfree, ?_, fun hnot => ?_⟩
    · rw [region_eq h.same]
      exact hl.free_subset (hlt i hi) hfree
    · rw [h.free i (hlt i hi)] at hnot
      exact (mem_sdiff.mp hnot).2 hp
  obtain ⟨mm', hmm', -, -, hfreed⟩ := freeGroup_spec h.layout h.ok fun p hp => by
    obtain ⟨i, hi, -, hrest⟩ := hin p hp
    exact ⟨i, hi, hrest⟩
  have hpart : ∀ b ∈ st.out.blocks, (st.mm.firstPart b = b.pages ↔ st.mm.OneManager b) := by
    intro b hb
    have hbounded := h.ok.bounded b hb
    have hpos := hbounded.numPages_pos
    obtain ⟨i, hi, -, hregion, -⟩ := hin b.pageIndex (KPageGroup.mem_pagesOf.mpr
      ⟨b, hb, mem_Ico.mpr ⟨le_rfl, by omega⟩⟩)
    exact firstPart_eq_iff h.layout hbounded hi hregion
  refine ⟨mm', hmm', ?_⟩
  constructor
  · -- a page behind the first part of a node would be missing
    intro hsame b hb
    refine (hpart b hb).mp (Finset.Subset.antisymm firstPart_subset fun p hp => ?_)
    have hpages : p ∈ pagesOf st.out.blocks := KPageGroup.mem_pagesOf.mpr ⟨b, hb, hp⟩
    obtain ⟨i, hi, hfree, -, hnot⟩ := hin p hpages
    rw [← hsame i (h.same.numManagers_eq ▸ hi), hfreed i hi] at hfree
    obtain ⟨-, c, hc, hpc⟩ := hfree.resolve_left hnot
    have hbc : b = c := by
      by_contra hne
      have hsymm : Std.Symm fun b c : KBlockInfo => Disjoint b.pages c.pages :=
        ⟨fun _ _ hd => hd.symm⟩
      have hdis := h.ok.disjoint.forall hb hc hne
      exact disjoint_left.mp hdis hp (firstPart_subset hpc)
    exact hbc ▸ hpc
  · intro hapart i hi
    have hi' : i < st.mm.numManagers := h.same.numManagers_eq.symm ▸ hi
    ext p
    rw [hfreed i hi', h.free i hi, mem_sdiff, region_eq h.same]
    constructor
    · intro hp
      rcases hp with hp | ⟨hregion, b, hb, hpb⟩
      · exact hp.1
      · have hpages : p ∈ pagesOf st.out.blocks :=
          KPageGroup.mem_pagesOf.mpr ⟨b, hb, firstPart_subset hpb⟩
        obtain ⟨j, hj, hfree⟩ := h.taken p hpages
        exact hl.region_unique (hlt j hj) hi (hl.free_subset (hlt j hj) hfree) hregion ▸ hfree
    · intro hp
      by_cases hpages : p ∈ pagesOf st.out.blocks
      · obtain ⟨b, hb, hpb⟩ := KPageGroup.mem_pagesOf.mp hpages
        exact .inr ⟨hl.free_subset hi hp, b, hb, (hpart b hb).mpr (hapart b hb) ▸ hpb⟩
      · exact .inl ⟨hp, hpages⟩

theorem groupTaken_start (hl : mm.Layout) (manager : KBlockInfoManager) (numPages : Nat)
    (pool : Pool) (dir : Direction) (unoptimized : Bool) :
    GroupTaken mm (mm.poolManagers pool dir) numPages unoptimized ⟨mm, ⟨[], manager⟩, numPages⟩ :=
  ⟨hl, .refl mm, KPageGroup.ok_nil, fun _ _ => sdiff_empty.symm,
    fun p hp => absurd hp (notMem_empty p), by simp [KPageGroup.pages, pagesOf], fun _ _ => rfl⟩

/-- `AllocatePageGroupImpl` returns: what a successful call takes, and what a failed one leaves. -/
theorem allocatePageGroupImpl_spec (hl : mm.Layout) (manager : KBlockInfoManager) (numPages : Nat)
    (pool : Pool) (dir : Direction) (unoptimized random : Bool) :
    ∃ res out mm', mm.allocatePageGroupImpl ⟨[], manager⟩ numPages pool dir unoptimized random =
        some (res, out, mm') ∧
      (res = .success → GroupTaken mm (mm.poolManagers pool dir) numPages unoptimized ⟨mm', out, 0⟩) ∧
      (res ≠ .success → out.blocks = [] ∧ ((∀ i < mm.numManagers, mm'.freePages i = mm.freePages i) ↔
          ¬mm.JoinsManagers ⟨[], manager⟩ numPages pool dir unoptimized random)) := by
  rw [KMemoryManager.allocatePageGroupImpl, JoinsManagers]
  cases hidx : getBlockIndex numPages with
  | none =>
    exact ⟨.outOfMemory, ⟨[], manager⟩, mm, rfl, fun hs => absurd hs (by decide),
      fun _ => ⟨rfl, iff_of_true (fun _ _ => rfl) id⟩⟩
  | some index =>
    obtain ⟨res, st, hst, h, hapart⟩ := (groupTaken_start hl manager numPages pool dir
      unoptimized).allocateLevels unoptimized random pool dir (getBlockIndexLoop_lt hidx)
    have hapart : Apart st ↔ ¬joinsLevels pool dir unoptimized random (index + 1)
        ⟨mm, ⟨[], manager⟩, numPages⟩ := by
      rw [hapart]
      exact and_iff_right fun b hb => absurd hb List.not_mem_nil
    dsimp only
    rw [hst]
    simp only [Option.bind_eq_bind, Option.bind_some]
    by_cases hdone : res = .success ∧ st.numPages = 0
    · have hres : (if res = .success ∧ st.numPages ≠ 0 then Result.outOfMemory else res) = .success := by
        rw [if_neg fun hno => hno.2 hdone.2]
        exact hdone.1
      rw [if_pos hres]
      refine ⟨_, _, _, rfl, fun _ => ?_, fun hne => absurd rfl hne⟩
      rw [← hdone.2]
      exact h
    · have hres : (if res = .success ∧ st.numPages ≠ 0 then Result.outOfMemory else res) ≠ .success := by
        split
        · decide
        · rename_i hno
          exact fun hs => hno ⟨hs, fun hz => hdone ⟨hs, hz⟩⟩
      generalize (if res = .success ∧ st.numPages ≠ 0 then Result.outOfMemory else res) = res' at hres ⊢
      obtain ⟨mm', hmm', hiff⟩ := h.restored_iff hl fun j hj => mem_poolManagers hj
      rw [if_neg hres, hmm']
      exact ⟨_, _, _, rfl, fun hs => absurd hs hres, fun _ => ⟨rfl, hiff.trans hapart⟩⟩

/-- **`AllocatePageGroupImpl`** returns, and is all-or-nothing exactly when it does not fail after a
block was appended to a node that begins in another manager. -/
theorem allocatePageGroupImpl_allOrNothing (mm : KMemoryManager) (hl : mm.Layout)
    (manager : KBlockInfoManager) (numPages : Nat) (pool : Pool) (dir : Direction)
    (unoptimized random : Bool) :
    ∃ res out mm', mm.allocatePageGroupImpl ⟨[], manager⟩ numPages pool dir unoptimized random =
        some (res, out, mm') ∧
      (mm.AllOrNothing numPages pool dir res out mm' ↔ (res ≠ .success →
          ¬mm.JoinsManagers ⟨[], manager⟩ numPages pool dir unoptimized random)) := by
  obtain ⟨res, out, mm', hrun, hdone, hfail⟩ :=
    allocatePageGroupImpl_spec hl manager numPages pool dir unoptimized random
  refine ⟨res, out, mm', hrun, ?_⟩
  by_cases hres : res = .success
  · have h := hdone hres
    have hcount : out.pages.card = numPages := h.count
    refine iff_of_true ?_ fun hne => absurd hres hne
    refine ⟨fun _ => ⟨?_, hcount⟩, fun _ => h.taken, fun _ => h.free, fun hne => absurd hres hne,
      fun hne => absurd hres hne⟩
    rw [KPageGroup.getNumPages, ← card_pagesOf h.ok]
    exact hcount
  · obtain ⟨hempty, hiff⟩ := hfail hres
    rw [← hiff]
    constructor
    · exact fun hall hne => hall.restored hne
    · exact fun hrest => ⟨fun hs => absurd hs hres, fun hs => absurd hs hres,
        fun hs => absurd hs hres, fun _ => hempty, hrest⟩

/-! ## 6. Managers that adjoin -/

/-! ## 7. Two managers of one page -/

def onePage (address : Nat) : Option Impl :=
  initializeManager (fun _ => .zeros) .zeros (fun _ => 0) .application 0x40000 0x1000 address [PageSize]

/-- The system of two managers that meet at `0x11000`. -/
def adjoining (m₀ m₁ : Impl) : KMemoryManager :=
  ⟨fun i => if i = 0 then m₀ else m₁, 2, fun a => if a < 0x11000 then 0 else 1, fun _ => false⟩

theorem adjoining_layout {m0 m1 : Impl} (h0 : onePage 0x10000 = some m0)
    (h1 : onePage 0x11000 = some m1) : (adjoining m0 m1).Layout := by
  have ha0 := initializeManager_agrees (by decide) (by decide) (by decide) (by decide) (by decide) h0
  have ha1 := initializeManager_agrees (by decide) (by decide) (by decide) (by decide) (by decide) h1
  have hr0 : ((onePage 0x10000).map fun m => (m.heap.heapAddress, m.heap.endAddress)) =
      some (0x10000, 0x11000) := by decide
  have hr1 : ((onePage 0x11000).map fun m => (m.heap.heapAddress, m.heap.endAddress)) =
      some (0x11000, 0x12000) := by decide
  rw [h0] at hr0
  rw [h1] at hr1
  obtain ⟨hs0, he0⟩ := Prod.mk.inj (Option.some.inj hr0)
  obtain ⟨hs1, he1⟩ := Prod.mk.inj (Option.some.inj hr1)
  have htwo : ∀ i < (adjoining m0 m1).numManagers, i = 0 ∨ i = 1 := by
    intro i hi
    have hi : i < 2 := hi
    omega
  refine ⟨fun i hi => ?_, fun i hi => ?_, fun i hi a hlow hhigh => ?_⟩
  · rcases htwo i hi with rfl | rfl
    · exact ha0.inv
    · exact ha1.inv
  · rcases htwo i hi with rfl | rfl
    · exact ha0.below
    · exact ha1.below
  · rcases htwo i hi with rfl | rfl
    · have hhigh : a < m0.heap.endAddress := hhigh
      exact if_pos (by omega)
    · have hlow : m1.heap.heapAddress ≤ a := hlow
      exact if_neg (by omega)

/-- The request for both pages. -/
theorem allocatePageGroupImpl_allOrNothing_two : ∃ m₀ m₁, onePage 0x10000 = some m₀ ∧
    onePage 0x11000 = some m₁ ∧ ∃ res out mm', (adjoining m₀ m₁).allocatePageGroupImpl
        ⟨[], ⟨fun _ => true, 0⟩⟩ 2 .application .fromFront false false = some (res, out, mm') ∧
      ((adjoining m₀ m₁).AllOrNothing 2 .application .fromFront res out mm' ↔ (res ≠ .success →
        ¬(adjoining m₀ m₁).JoinsManagers ⟨[], ⟨fun _ => true, 0⟩⟩ 2 .application .fromFront false
          false)) := by
  have hsome : (onePage 0x10000).isSome = true ∧ (onePage 0x11000).isSome = true := by decide
  obtain ⟨m₀, h₀⟩ := Option.isSome_iff_exists.mp hsome.1
  obtain ⟨m₁, h₁⟩ := Option.isSome_iff_exists.mp hsome.2
  exact ⟨m₀, m₁, h₀, h₁, allocatePageGroupImpl_allOrNothing (adjoining m₀ m₁)
    (adjoining_layout h₀ h₁) ⟨fun _ => true, 0⟩ 2 .application .fromFront false false⟩

/-- **A page that a failed call loses.** Three pages are asked for where two managers have one page
each: the node of both pages is freed through the first manager only. -/
theorem allocatePageGroupImpl_loses_page : ∃ m₀ m₁ out mm', onePage 0x10000 = some m₀ ∧
    onePage 0x11000 = some m₁ ∧ (adjoining m₀ m₁).Layout ∧
    (adjoining m₀ m₁).allocatePageGroupImpl ⟨[], ⟨fun _ => true, 0⟩⟩ 3 .application .fromFront false
      false = some (.outOfMemory, out, mm') ∧
    (adjoining m₀ m₁).freePages 1 = {0x11} ∧ mm'.freePages 1 = ∅ := by
  have hrun : ((onePage 0x10000).bind fun m₀ => (onePage 0x11000).bind fun m₁ =>
      ((adjoining m₀ m₁).allocatePageGroupImpl ⟨[], ⟨fun _ => true, 0⟩⟩ 3 .application .fromFront
        false false).map fun r => (r.1, (adjoining m₀ m₁).freePages 1, r.2.2.freePages 1)) =
      some (.outOfMemory, {0x11}, ∅) := by decide
  obtain ⟨m₀, h₀, hrun⟩ := Option.bind_eq_some_iff.mp hrun
  obtain ⟨m₁, h₁, hrun⟩ := Option.bind_eq_some_iff.mp hrun
  obtain ⟨⟨res, out, mm'⟩, hcall, hr⟩ := Option.map_eq_some_iff.mp hrun
  obtain ⟨rfl, hr⟩ := Prod.mk.inj hr
  obtain ⟨hbefore, hafter⟩ := Prod.mk.inj hr
  exact ⟨m₀, m₁, out, mm', h₀, h₁, adjoining_layout h₀ h₁, hcall, hbefore, hafter⟩

end Yuzu.Kernel.KMemoryManager
