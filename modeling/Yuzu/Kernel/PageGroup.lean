/-
  File:      Yuzu/Kernel/PageGroup.lean
  Subject:   KPageGroup (k_page_group.h, k_page_group.cpp): a list of runs of physical pages.

  A block info keeps its first page and its length in 32 bits, so it can name the pages below
  address `2 ^ 44`. Which requests for a block info succeed is left open: every pattern of
  successes and failures is a `KBlockInfoManager`.

  * `KPageGroup.Ok` -- the blocks are disjoint and lie below `2 ^ 44`;
  * `KPageGroup.Ok.addBlock` -- a block that is added is appended to the last one or to the list.
-/
import Mathlib.Order.Interval.Finset.Nat
import Yuzu.Kernel.MemoryBlock
import Yuzu.Kernel.Results
import Mathlib.Algebra.Order.Ring.Int

namespace Yuzu.Kernel

open Finset

/-! ## 1. Block infos and groups -/

/-- `KBlockInfoManager`: `succeeds k` says whether the `k`-th request gets a block info. -/
structure KBlockInfoManager where
  succeeds : Nat → Bool
  drawn : Nat

def KBlockInfoManager.allocate (m : KBlockInfoManager) : Bool × KBlockInfoManager :=
  (m.succeeds m.drawn, { m with drawn := m.drawn + 1 })

/-- `KBlockInfo`. -/
structure KBlockInfo where
  pageIndex : Nat
  numPages : Nat
  deriving DecidableEq, Repr

namespace KBlockInfo

/-- `Initialize`. -/
def initializeInfo (addr np : Nat) : Option KBlockInfo := do
  assert (addr % PageSize = 0)
  assert (np % 2 ^ 32 = np)
  return ⟨addr / PageSize % 2 ^ 32, np % 2 ^ 32⟩

def getAddress (b : KBlockInfo) : Nat := b.pageIndex * PageSize

def getEndAddress (b : KBlockInfo) : Nat := (b.pageIndex + b.numPages) % 2 ^ 32 * PageSize

/-- `TryConcatenate`: the block with the pages appended, if they follow it. -/
def tryConcatenate (b : KBlockInfo) (addr np : Nat) : Option KBlockInfo :=
  if addr ≠ 0 ∧ addr = b.getEndAddress then
    some { b with numPages := (b.numPages + np) % 2 ^ 32 }
  else none

/-- The page numbers of the block. -/
def pages (b : KBlockInfo) : Finset Nat := Finset.Ico b.pageIndex (b.pageIndex + b.numPages)

end KBlockInfo

/-- `KPageGroup`: its blocks, and where it takes block infos from. -/
structure KPageGroup where
  blocks : List KBlockInfo
  manager : KBlockInfoManager

namespace KPageGroup

def getNumPages (g : KPageGroup) : Nat := (g.blocks.map (·.numPages)).sum

/-- `Finalize`: the infos go back to their manager. -/
def finalize (g : KPageGroup) : KPageGroup := { g with blocks := [] }

/-- `AddBlock`. -/
def addBlock (g : KPageGroup) (addr numPages : Nat) : Option (Result × KPageGroup) :=
  if numPages = 0 then some (.success, g)
  else do
    assert (addr < (addr + numPages * PageSize) % 2 ^ 64)
    match g.blocks.getLast?.bind (·.tryConcatenate addr numPages) with
    | some b => some (.success, { g with blocks := g.blocks.dropLast ++ [b] })
    | none =>
      let (available, manager) := g.manager.allocate
      if available then do
        let b ← KBlockInfo.initializeInfo addr numPages
        return (.success, ⟨g.blocks ++ [b], manager⟩)
      else some (.outOfResource, { g with manager := manager })

/-! ## 2. The pages of a group -/

/-- The page numbers of a list of blocks. -/
def pagesOf : List KBlockInfo → Finset Nat
  | [] => ∅
  | b :: bs => b.pages ∪ pagesOf bs

def pages (g : KPageGroup) : Finset Nat := pagesOf g.blocks

variable {bs cs : List KBlockInfo} {b : KBlockInfo} {p : Nat}

theorem pagesOf_append : pagesOf (bs ++ cs) = pagesOf bs ∪ pagesOf cs := by
  induction bs with
  | nil => rw [List.nil_append, pagesOf, empty_union]
  | cons b bs ih => rw [List.cons_append, pagesOf, pagesOf, ih, union_assoc]

theorem pagesOf_singleton : pagesOf [b] = b.pages := union_empty _

theorem mem_pagesOf : p ∈ pagesOf bs ↔ ∃ b ∈ bs, p ∈ b.pages := by
  induction bs with
  | nil => simp [pagesOf]
  | cons b bs ih => simp [pagesOf, ih]

/-- A block that has pages, does not start at the null address and whose pages 32 bits can
    name. -/
structure Bounded (b : KBlockInfo) : Prop where
  index_pos : 0 < b.pageIndex
  numPages_pos : 0 < b.numPages
  below : b.pageIndex + b.numPages ≤ 2 ^ 32

/-- The blocks are bounded and disjoint. -/
structure Ok (bs : List KBlockInfo) : Prop where
  bounded : ∀ b ∈ bs, Bounded b
  disjoint : bs.Pairwise fun b c => Disjoint b.pages c.pages

theorem ok_nil : Ok [] := ⟨fun _ hb => absurd hb List.not_mem_nil, List.Pairwise.nil⟩

theorem Ok.append (h : Ok bs) (hb : Bounded b) (hd : Disjoint (pagesOf bs) b.pages) : Ok (bs ++ [b]) := by
  refine ⟨fun c hc => ?_, List.pairwise_append.mpr ⟨h.disjoint, List.pairwise_singleton _ _, ?_⟩⟩
  · rcases List.mem_append.mp hc with hc | hc
    · exact h.bounded c hc
    · rw [List.mem_singleton.mp hc]
      exact hb
  · intro c hc d hd'
    rw [List.mem_singleton.mp hd']
    exact disjoint_left.mpr fun q hq hq' =>
      disjoint_left.mp hd (mem_pagesOf.mpr ⟨c, hc, hq⟩) hq'

theorem Ok.of_append (h : Ok (bs ++ [b])) : Ok bs ∧ Disjoint (pagesOf bs) b.pages := by
  obtain ⟨h1, -, h2⟩ := List.pairwise_append.mp h.disjoint
  refine ⟨⟨fun c hc => h.bounded c (List.mem_append_left _ hc), h1⟩, ?_⟩
  refine disjoint_left.mpr fun q hq hq' => ?_
  obtain ⟨c, hc, hq⟩ := mem_pagesOf.mp hq
  exact disjoint_left.mp (h2 c hc b (List.mem_singleton_self b)) hq hq'

theorem Ok.of_cons (h : Ok (b :: bs)) : Ok bs ∧ Disjoint b.pages (pagesOf bs) := by
  obtain ⟨h1, h2⟩ := List.pairwise_cons.mp h.disjoint
  refine ⟨⟨fun c hc => h.bounded c (List.mem_cons_of_mem _ hc), h2⟩, ?_⟩
  refine disjoint_left.mpr fun q hq hq' => ?_
  obtain ⟨c, hc, hq'⟩ := mem_pagesOf.mp hq'
  exact disjoint_left.mp (h1 c hc) hq hq'

/-- The pages from an address on. -/
def newPages (addr numPages : Nat) : Finset Nat :=
  Finset.Ico (addr / PageSize) (addr / PageSize + numPages)

theorem pages_eq_newPages (b : KBlockInfo) : b.pages = newPages b.getAddress b.numPages := by
  rw [KBlockInfo.pages, newPages, KBlockInfo.getAddress, Nat.mul_div_cancel _ (by decide)]

section AddBlock

variable {addr numPages : Nat} (ha : PageSize ∣ addr) (h0 : 0 < addr)
  (hhi : addr / PageSize + numPages ≤ 2 ^ 32)

include ha h0 hhi

theorem tryConcatenate_spec {b' : KBlockInfo} (hb : Bounded b)
    (h : b.tryConcatenate addr numPages = some b') :
    Bounded b' ∧ b'.pages = b.pages ∪ newPages addr numPages := by
  rw [KBlockInfo.tryConcatenate] at h
  split at h
  · rename_i hc
    cases h
    obtain ⟨hb0, hb1, hb2⟩ := hb
    -- the end of the block did not wrap: the address is not null
    have hend : addr / PageSize = b.pageIndex + b.numPages := by
      have he := hc.2
      rw [KBlockInfo.getEndAddress] at he
      have hpos : 0 < addr / PageSize := Nat.div_pos (Nat.le_of_dvd h0 ha) (by decide)
      rw [he, Nat.mul_div_cancel _ (by decide)] at hpos ⊢
      omega
    have hmod : (b.numPages + numPages) % 2 ^ 32 = b.numPages + numPages :=
      Nat.mod_eq_of_lt (by omega)
    refine ⟨⟨hb0, by dsimp only; rw [hmod]; omega, by dsimp only; rw [hmod]; omega⟩, ?_⟩
    rw [KBlockInfo.pages, KBlockInfo.pages, newPages, hend, hmod,
      Ico_union_Ico_eq_Ico (Nat.le_add_right _ _) (Nat.le_add_right _ _), Nat.add_assoc]
  · cases h

theorem initializeInfo_spec (hn : 0 < numPages) :
    ∃ b, KBlockInfo.initializeInfo addr numPages = some b ∧ Bounded b ∧
      b.pages = newPages addr numPages := by
  have hpos : 0 < addr / PageSize := Nat.div_pos (Nat.le_of_dvd h0 ha) (by decide)
  have hai : addr / PageSize % 2 ^ 32 = addr / PageSize := Nat.mod_eq_of_lt (by omega)
  have hnp : numPages % 2 ^ 32 = numPages := Nat.mod_eq_of_lt (by omega)
  refine ⟨⟨addr / PageSize, numPages⟩, ?_, ⟨hpos, hn, hhi⟩, rfl⟩
  rw [KBlockInfo.initializeInfo, assert_bind_of (Nat.mod_eq_zero_of_dvd ha), assert_bind_of hnp, hai, hnp]
  rfl

/-- **AddBlock**: pages that the group does not have are added to it, or there is no block info
    for them and the group is as before. -/
theorem Ok.addBlock {g : KPageGroup} (h : Ok g.blocks) (hn : 0 < numPages)
    (hd : Disjoint g.pages (newPages addr numPages)) :
    ∃ res g', g.addBlock addr numPages = some (res, g') ∧ Ok g'.blocks ∧
      ((res = .success ∧ g'.pages = g.pages ∪ newPages addr numPages) ∨
        (res = .outOfResource ∧ g'.blocks = g.blocks)) := by
  have hwrap : addr < (addr + numPages * PageSize) % 2 ^ 64 := by
    have he : addr = addr / PageSize * PageSize := (Nat.div_mul_cancel ha).symm
    simp only [PageSize] at he hhi ⊢
    omega
  rw [KPageGroup.addBlock, if_neg (Nat.ne_of_gt hn), assert_bind_of hwrap]
  cases hlast : g.blocks.getLast?.bind (·.tryConcatenate addr numPages) with
  | some b' =>
    obtain ⟨b, hb, hcat⟩ := Option.bind_eq_some_iff.mp hlast
    have hg : g.blocks = g.blocks.dropLast ++ [b] := (List.dropLast_append_getLast? b hb).symm
    have hb' := h.bounded b (by rw [hg]; exact List.mem_append_right _ (List.mem_singleton_self b))
    obtain ⟨hbb, hpages⟩ := tryConcatenate_spec ha h0 hhi hb' hcat
    have hgp : g.pages = pagesOf g.blocks.dropLast ∪ b.pages := by
      rw [pages, hg, pagesOf_append, pagesOf_singleton, ← hg]
    rw [hg] at h
    obtain ⟨hok, hdis⟩ := h.of_append
    refine ⟨.success, ⟨g.blocks.dropLast ++ [b'], g.manager⟩, rfl, hok.append hbb ?_, .inl ⟨rfl, ?_⟩⟩
    · rw [hgp, disjoint_union_left] at hd
      rw [hpages, disjoint_union_right]
      exact ⟨hdis, hd.1⟩
    · rw [pages, pagesOf_append, pagesOf_singleton, hpages, hgp, union_assoc]
  | none =>
    obtain ⟨b, hb, hbb, hpages⟩ := initializeInfo_spec ha h0 hhi hn
    rcases hav : g.manager.allocate with ⟨available, manager⟩
    cases available with
    | true =>
      refine ⟨.success, ⟨g.blocks ++ [b], manager⟩, ?_, h.append hbb ?_, .inl ⟨rfl, ?_⟩⟩
      · simp only [if_true, hb]
        rfl
      · rw [hpages]
        exact hd
      · rw [pages, pagesOf_append, pagesOf_singleton, hpages]
        rfl
    | false => exact ⟨.outOfResource, ⟨g.blocks, manager⟩, rfl, h, .inr ⟨rfl, rfl⟩⟩

end AddBlock

end KPageGroup

end Yuzu.Kernel
