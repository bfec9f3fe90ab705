/-
  File:      Yuzu/Kernel/DynamicPageManager.lean
  Subject:   KDynamicPageManager (k_dynamic_page_manager.h): pages of a host buffer, handed out
             through a page bitmap.

  A page is a host pointer into the backing buffer; the bitmap is indexed from the kernel address
  of the buffer, rounded down by the alignment. Both are 64-bit numbers. What the pages contain is
  left out.

  * `PagesInv` -- the set bits are the pages that are not in use;
  * `PagesInv.allocate`, `PagesInv.allocateRange`, `PagesInv.free` -- the operations keep it;
  * `PageOp.run_conserves_pages` -- it holds along every run in which no count is 64 and in which
    pages are freed only where the host buffer lies at the kernel address (within a page).
-/
import Yuzu.Common.Alignment
import Yuzu.Kernel.MemoryBlock
import Yuzu.Kernel.PageBitmap

namespace Yuzu.Kernel

open Yuzu.Common (alignUp alignDown)

/-! ## 1. The manager -/

/-- `KDynamicPageManager`; `backingMemory` is the host address of its buffer. -/
structure KDynamicPageManager where
  pageBitmap : KPageBitmap
  used : Nat
  peak : Nat
  count : Nat
  address : Nat
  alignedAddress : Nat
  size : Nat
  backingMemory : Nat

namespace KDynamicPageManager

def getPointer (m : KDynamicPageManager) (addr : Nat) : Nat :=
  (m.backingMemory + (addr + (2 ^ 64 - m.address))) % 2 ^ 64

/-- `GetPointer<PageBuffer>(m_aligned_address) + offset`. -/
def pagePointer (m : KDynamicPageManager) (offset : Nat) : Nat :=
  (m.getPointer m.alignedAddress + offset * PageSize) % 2 ^ 64

def setBitmap (m : KDynamicPageManager) (bm : KPageBitmap) : KDynamicPageManager :=
  { m with pageBitmap := bm }

/-- `Allocate()`, with `none` for the null pointer. -/
def allocate (m : KDynamicPageManager) : Option (Option Nat × KDynamicPageManager) := do
  let (soffset, bm) ← m.pageBitmap.findFreeBlock true
  match soffset with
  | none => return (none, m.setBitmap bm)
  | some offset =>
    let bm ← bm.clearBit offset
    let used := m.used + 1
    return (some (m.pagePointer offset), { m with pageBitmap := bm, used := used, peak := max m.peak used })

/-- `Allocate(count)`. -/
def allocateRange (m : KDynamicPageManager) (count : Nat) : Option (Option Nat × KDynamicPageManager) := do
  let (soffset, bm) ← m.pageBitmap.findFreeRange count
  match soffset with
  | none => return (none, m.setBitmap bm)
  | some offset =>
    let (_, bm) ← bm.clearRange offset count
    let used := m.used + count
    return (some (m.pagePointer offset), { m with pageBitmap := bm, used := used, peak := max m.peak used })

/-- The bit `Free` sets for a page. -/
def freeOffset (m : KDynamicPageManager) (pb : Nat) : Nat :=
  (pb + (2 ^ 64 - m.alignedAddress)) % 2 ^ 64 / PageSize

def free (m : KDynamicPageManager) (pb : Nat) : Option KDynamicPageManager := do
  let bm ← m.pageBitmap.setBit (m.freeOffset pb)
  return { m with pageBitmap := bm, used := m.used - 1 }

/-- The bits that are set in the words of the bitmap. -/
def setBits (m : KDynamicPageManager) : Finset Nat :=
  (Finset.range (64 * m.pageBitmap.numWords (m.pageBitmap.usedDepths - 1))).filter fun i =>
    m.pageBitmap.storage.bit (m.pageBitmap.usedDepths - 1) i = true

/-- The pages that can be allocated. -/
def allocatable (m : KDynamicPageManager) : Finset Nat := m.setBits.image m.pagePointer

/-! ## 2. Pages and bits -/

/-- The region does not wrap, the bitmap starts a whole number of pages before the buffer, and the
    buffer lies in the host's address space. -/
structure Geometry (m : KDynamicPageManager) : Prop where
  aligned_le : m.alignedAddress ≤ m.address
  before : PageSize ∣ m.address - m.alignedAddress
  count_eq : m.count * PageSize = m.size
  fits : m.backingMemory + m.size ≤ 2 ^ 64
  top : m.address + m.size < 2 ^ 64

/-- The bit of the first page. -/
def firstBit (m : KDynamicPageManager) : Nat := (m.address - m.alignedAddress) / PageSize

variable {m m' : KDynamicPageManager} {k : Nat}

theorem Geometry.pagePointer_eq (h : m.Geometry) (hk : k < m.count) :
    m.pagePointer (m.firstBit + k) = m.backingMemory + k * PageSize := by
  obtain ⟨h1, ⟨c, hc⟩, h3, h4, h5⟩ := h
  simp only [pagePointer, getPointer, firstBit, PageSize] at *
  omega

/-- The host buffer lies at the kernel address, within a page. -/
def HostAtAddress (m : KDynamicPageManager) : Prop :=
  (m.backingMemory + (2 ^ 64 - m.address)) % 2 ^ 64 < PageSize

theorem Geometry.freeOffset_eq (h : m.Geometry) (hh : m.HostAtAddress) (hk : k < m.count) :
    m.freeOffset (m.backingMemory + k * PageSize) = m.firstBit + k := by
  obtain ⟨h1, ⟨c, hc⟩, h3, h4, h5⟩ := h
  simp only [freeOffset, HostAtAddress, firstBit, PageSize] at *
  omega

/-- The bits that are set are the pages that are not in use, and none is counted twice. -/
structure PagesInv (m : KDynamicPageManager) (live : List Nat) (n : Nat) (S : Finset Nat) : Prop where
  geometry : m.Geometry
  rep : m.pageBitmap.Represents n S
  mem : ∀ o, o ∈ S ↔ ∃ k < m.count, o = m.firstBit + k ∧ m.backingMemory + k * PageSize ∉ live
  page : ∀ p ∈ live, ∃ k < m.count, p = m.backingMemory + k * PageSize
  nodup : live.Nodup
  total : m.used + S.card = m.count
  used_eq : m.used = live.length
  room : m.firstBit + m.count ≤ n

variable {live : List Nat} {n : Nat} {S : Finset Nat}

theorem PagesInv.setBits_eq (h : m.PagesInv live n S) : m.setBits = S := by
  ext i
  rw [setBits, Finset.mem_filter, h.rep.mem, Finset.mem_range]
  refine and_iff_right_of_imp fun hi => ?_
  exact Nat.lt_of_lt_of_le (h.rep.lt i hi) h.rep.words

theorem page_inj {a k l : Nat} (h : a + k * PageSize = a + l * PageSize) : k = l := by
  simp only [PageSize] at h
  omega

theorem PagesInv.page_of_mem (h : m.PagesInv live n S) {o : Nat} (ho : o ∈ S) :
    ∃ k < m.count, o = m.firstBit + k ∧ m.pagePointer o = m.backingMemory + k * PageSize ∧
      m.backingMemory + k * PageSize ∉ live := by
  obtain ⟨k, hk, rfl, hn⟩ := (h.mem o).mp ho
  exact ⟨k, hk, rfl, h.geometry.pagePointer_eq hk, hn⟩

theorem PagesInv.withRng (h : m.PagesInv live n S) (g : RandomBitGenerator) :
    (m.setBitmap { m.pageBitmap with rng := g }).PagesInv live n S :=
  ⟨⟨h.geometry.aligned_le, h.geometry.before, h.geometry.count_eq, h.geometry.fits, h.geometry.top⟩,
    h.rep.withRng g, h.mem, h.page, h.nodup, h.total, h.used_eq, h.room⟩

/-- Taking pages: their bits are cleared, and they are now in use. -/
theorem PagesInv.take (h : m.PagesInv live n S) {bm : KPageBitmap} {X : Finset Nat}
    (pages : List Nat) (peak : Nat) (hX : X ⊆ S) (hbm : bm.Represents n (S \ X))
    (hlen : pages.length = X.card) (hnodup : pages.Nodup)
    (hpages : ∀ p, p ∈ pages ↔ ∃ k < m.count, m.firstBit + k ∈ X ∧ p = m.backingMemory + k * PageSize) :
    ({ m with pageBitmap := bm, used := m.used + pages.length, peak := peak } :
      KDynamicPageManager).PagesInv (pages ++ live) n (S \ X) := by
  have hcard := Finset.card_sdiff_of_subset hX
  have hle := Finset.card_le_card hX
  have htot := h.total
  refine ⟨⟨h.geometry.aligned_le, h.geometry.before, h.geometry.count_eq, h.geometry.fits,
    h.geometry.top⟩, hbm, fun o => ?_, fun p hp => ?_, List.nodup_append.mpr ⟨hnodup, h.nodup, ?_⟩,
    ?_, ?_, h.room⟩
  · rw [Finset.mem_sdiff, h.mem]
    constructor
    · rintro ⟨⟨k, hk, rfl, hn⟩, hx⟩
      refine ⟨k, hk, rfl, fun hmem => ?_⟩
      rcases List.mem_append.mp hmem with hp | hp
      · obtain ⟨l, hl, hx', he⟩ := (hpages _).mp hp
        rw [page_inj he] at hx
        exact hx hx'
      · exact hn hp
    · rintro ⟨k, hk, rfl, hn⟩
      refine ⟨⟨k, hk, rfl, fun hp => hn (List.mem_append_right _ hp)⟩, fun hx => ?_⟩
      exact hn (List.mem_append_left _ ((hpages _).mpr ⟨k, hk, hx, rfl⟩))
  · rcases List.mem_append.mp hp with hp | hp
    · obtain ⟨k, hk, -, he⟩ := (hpages p).mp hp
      exact ⟨k, hk, he⟩
    · exact h.page p hp
  · rintro p hp q hq rfl
    obtain ⟨k, hk, hx, rfl⟩ := (hpages p).mp hp
    obtain ⟨l, hl, he, hn⟩ := (h.mem _).mp (hX hx)
    obtain rfl : k = l := by omega
    exact hn hq
  · dsimp only
    omega
  · dsimp only
    rw [List.length_append, h.used_eq]
    omega

/-! ## 3. The operations -/

/-- **Allocate()**: no page is left, or a page that was not in use is. -/
theorem PagesInv.allocate (h : m.PagesInv live n S) : ∃ r m', m.allocate = some (r, m') ∧
    ∃ S', m'.PagesInv (r.toList ++ live) n S' := by
  obtain ⟨r, g, hfind, hmem, -⟩ := h.rep.findFreeBlock true
  rw [KDynamicPageManager.allocate, hfind]
  simp only [Option.bind_eq_bind, Option.bind_some]
  cases r with
  | none => exact ⟨none, _, rfl, S, h.withRng g⟩
  | some o =>
    have ho := hmem o rfl
    obtain ⟨k, hk, hok, hptr, -⟩ := h.page_of_mem ho
    obtain ⟨bm, hbm, hrep⟩ := (h.rep.withRng g).clearBit ho
    rw [Finset.erase_eq] at hrep
    refine ⟨some (m.pagePointer o), _, by dsimp only; rw [hbm]; rfl, S \ {o}, ?_⟩
    refine h.take [m.pagePointer o] _ (Finset.singleton_subset_iff.mpr ho) hrep rfl
      (List.nodup_singleton _) fun p => ?_
    rw [List.mem_singleton, hptr]
    constructor
    · rintro rfl
      exact ⟨k, hk, by rw [Finset.mem_singleton, hok], rfl⟩
    · rintro ⟨l, hl, hx, rfl⟩
      rw [Finset.mem_singleton] at hx
      obtain rfl : l = k := by omega
      rfl

/-- The pages of a range, from its first one on. -/
def rangePages (count p : Nat) : List Nat := (List.range count).map fun i => p + i * PageSize

/-- **Allocate(count)** for fewer pages than a word has bits. -/
theorem PagesInv.allocateRange (h : m.PagesInv live n S) {count : Nat} (hpos : 0 < count)
    (hc : count < 64) : ∃ r m', m.allocateRange count = some (r, m') ∧
      ∃ S', m'.PagesInv (r.toList.flatMap (rangePages count) ++ live) n S' := by
  obtain ⟨r, g, hfind, hmem⟩ := h.rep.findFreeRange hpos hc
  rw [KDynamicPageManager.allocateRange, hfind]
  simp only [Option.bind_eq_bind, Option.bind_some]
  cases r with
  | none => exact ⟨none, _, rfl, S, h.withRng g⟩
  | some o =>
    obtain ⟨hfit, hall⟩ := hmem o rfl
    obtain ⟨k, hk, hok, hptr, -⟩ := h.page_of_mem (hall o (Finset.mem_Ico.mpr ⟨Nat.le_refl o, by omega⟩))
    obtain ⟨bm, hbm, hrep⟩ := (h.rep.withRng g).clearRange hpos hc hfit
    rw [if_pos hall] at hrep
    have hmem : ∀ p, p ∈ rangePages count (m.pagePointer o) ↔ ∃ l < m.count,
        m.firstBit + l ∈ Finset.Ico o (o + count) ∧ p = m.backingMemory + l * PageSize := by
      intro p
      rw [rangePages, List.mem_map, hptr]
      constructor
      · rintro ⟨i, hi, rfl⟩
        rw [List.mem_range] at hi
        have hin : m.firstBit + (k + i) ∈ Finset.Ico o (o + count) :=
          Finset.mem_Ico.mpr ⟨by omega, by omega⟩
        obtain ⟨l, hl, he, -⟩ := (h.mem _).mp (hall _ hin)
        refine ⟨k + i, by omega, hin, ?_⟩
        rw [Nat.add_mul, Nat.add_assoc]
      · rintro ⟨l, hl, hin, rfl⟩
        rw [Finset.mem_Ico] at hin
        refine ⟨l - k, List.mem_range.mpr (by omega), ?_⟩
        rw [Nat.add_assoc, ← Nat.add_mul]
        congr 2
        omega
    have hlen : (rangePages count (m.pagePointer o)).length = (Finset.Ico o (o + count)).card := by
      rw [rangePages, List.length_map, List.length_range, Nat.card_Ico, Nat.add_sub_cancel_left]
    have hnodup : (rangePages count (m.pagePointer o)).Nodup := by
      refine List.Nodup.map (fun i j he => ?_) List.nodup_range
      exact page_inj he
    have hused : (rangePages count (m.pagePointer o)).length = count := by
      rw [rangePages, List.length_map, List.length_range]
    have htake := h.take (rangePages count (m.pagePointer o)) (max m.peak (m.used + count))
      hall hrep hlen hnodup hmem
    refine ⟨some (m.pagePointer o), _, by dsimp only; rw [hbm]; rfl, S \ Finset.Ico o (o + count), ?_⟩
    rw [hused] at htake
    rw [Option.toList_some, List.flatMap_singleton]
    exact htake

/-- **Free** sets the bit of the page freed, if the host buffer lies at the kernel address. -/
theorem PagesInv.free (h : m.PagesInv live n S) (hh : m.HostAtAddress) {p : Nat} (hp : p ∈ live) :
    ∃ m', m.free p = some m' ∧ p ∉ m.allocatable ∧ m'.allocatable = insert p m.allocatable ∧
      ∃ S', m'.PagesInv (live.erase p) n S' := by
  obtain ⟨k, hk, rfl⟩ := h.page p hp
  have hoff := h.geometry.freeOffset_eq hh hk
  have hnot : m.firstBit + k ∉ S := fun hmem => by
    obtain ⟨l, hl, he, hn⟩ := (h.mem _).mp hmem
    obtain rfl : k = l := by omega
    exact hn hp
  obtain ⟨bm, hbm, hrep⟩ := h.rep.setBit (i := m.firstBit + k) (by have := h.room; omega) hnot
  have htot := h.total
  have hlen := List.length_pos_of_mem hp
  have hused := h.used_eq
  have hinv : ({ m with pageBitmap := bm, used := m.used - 1 } : KDynamicPageManager).PagesInv
      (live.erase (m.backingMemory + k * PageSize)) n (insert (m.firstBit + k) S) := by
    refine ⟨⟨h.geometry.aligned_le, h.geometry.before, h.geometry.count_eq, h.geometry.fits,
      h.geometry.top⟩, hrep, fun o => ?_, fun q hq => h.page q (List.mem_of_mem_erase hq),
      h.nodup.erase _, ?_, ?_, h.room⟩
    · rw [Finset.mem_insert, h.mem]
      constructor
      · rintro (rfl | ⟨l, hl, rfl, hn⟩)
        · exact ⟨k, hk, rfl, h.nodup.not_mem_erase⟩
        · exact ⟨l, hl, rfl, fun hq => hn (List.mem_of_mem_erase hq)⟩
      · rintro ⟨l, hl, rfl, hn⟩
        by_cases hlk : l = k
        · exact .inl (by rw [hlk]; rfl)
        · refine .inr ⟨l, hl, rfl, fun hq => hn ?_⟩
          exact (List.mem_erase_of_ne fun he => hlk (page_inj he)).mpr hq
    · rw [Finset.card_insert_of_notMem hnot]
      dsimp only
      omega
    · rw [List.length_erase_of_mem hp]
      dsimp only
      omega
  refine ⟨_, by rw [KDynamicPageManager.free, hoff, hbm]; rfl, ?_, ?_, _, hinv⟩
  · rw [allocatable, h.setBits_eq, Finset.mem_image]
    rintro ⟨o, ho, he⟩
    obtain ⟨l, hl, rfl, hptr', hn⟩ := h.page_of_mem ho
    rw [hptr'] at he
    rw [page_inj he] at hn
    exact hn hp
  · rw [allocatable, hinv.setBits_eq, allocatable, h.setBits_eq, Finset.image_insert,
      ← h.geometry.pagePointer_eq hk]
    rfl

/-! ## 4. Initialize -/

end KDynamicPageManager

/-! ## 5. Every run -/

/-- A call on the page manager. -/
inductive PageOp where
  | allocate
  | allocateRange (count : Nat)
  | free (p : Nat)
  deriving DecidableEq, Repr

/-- The manager, and the pages its callers hold. -/
structure PageState where
  manager : KDynamicPageManager
  live : List Nat

namespace PageOp

open KDynamicPageManager Option

/-- The call; the pages it returns are held from then on, the page it is given no longer. -/
def run (op : PageOp) (s : PageState) : Option PageState :=
  match op with
  | allocate => do
    let (r, m) ← s.manager.allocate
    return ⟨m, r.toList ++ s.live⟩
  | allocateRange count => do
    let (r, m) ← s.manager.allocateRange count
    return ⟨m, r.toList.flatMap (rangePages count) ++ s.live⟩
  | free p => do
    let m ← s.manager.free p
    return ⟨m, s.live.erase p⟩

/-- At least one and at most 64 pages are asked for, and a page that is freed is held. -/
def Legal (op : PageOp) (s : PageState) : Prop :=
  match op with
  | allocate => True
  | allocateRange count => 1 ≤ count ∧ count ≤ 64
  | free p => p ∈ s.live

/-- The calls that do what they should: fewer pages than a word has bits, and a host buffer at the
    kernel address. -/
def Sound (op : PageOp) (s : PageState) : Prop :=
  match op with
  | allocate => True
  | allocateRange count => count ≤ 63
  | free _ => s.manager.HostAtAddress

/-- Every page is in use or free, and the pages in use do not overlap and lie in the buffer. -/
structure Conserved (s : PageState) : Prop where
  total : s.manager.used + s.manager.setBits.card = s.manager.count
  inside : ∀ p ∈ s.live, s.manager.backingMemory ≤ p ∧
    p + PageSize ≤ s.manager.backingMemory + s.manager.size
  disjoint : s.live.Pairwise fun p q => p + PageSize ≤ q ∨ q + PageSize ≤ p

/-- `Free` makes exactly the page freed allocatable. -/
def Outcome (op : PageOp) (s s' : PageState) : Prop :=
  match op with
  | free p => p ∉ s.manager.allocatable ∧ s'.manager.allocatable = insert p s.manager.allocatable
  | _ => True

variable {s s' : PageState}

theorem run_step {n : Nat} {S : Finset Nat} (h : s.manager.PagesInv s.live n S) {op : PageOp}
    (hop : op.Legal s) (hs : op.Sound s) : ∃ s', op.run s = some s' ∧ op.Outcome s s' ∧
      ∃ S', s'.manager.PagesInv s'.live n S' := by
  cases op with
  | allocate =>
    obtain ⟨r, m', hm', S', h'⟩ := h.allocate
    exact ⟨⟨m', r.toList ++ s.live⟩, by rw [run, hm']; rfl, trivial, S', h'⟩
  | allocateRange count =>
    obtain ⟨r, m', hm', S', h'⟩ := h.allocateRange hop.1 (Nat.lt_succ_of_le hs)
    exact ⟨⟨m', _⟩, by rw [run, hm']; rfl, trivial, S', h'⟩
  | free p =>
    obtain ⟨m', hm', hnot, hins, S', h'⟩ := h.free hs hop
    exact ⟨⟨m', s.live.erase p⟩, by rw [run, hm']; rfl, ⟨hnot, hins⟩, S', h'⟩

/-- The states that calls which do what they should lead to. -/
inductive Reachable (s₀ : PageState) : PageState → Prop
  | refl : Reachable s₀ s₀
  | step {s s' : PageState} {op : PageOp} (hr : Reachable s₀ s) (hop : op.Legal s)
      (hs : op.Sound s) (hrun : op.run s = some s') : Reachable s₀ s'

theorem Reachable.inv {s0 : PageState} {n : Nat} {S : Finset Nat}
    (h : s0.manager.PagesInv s0.live n S) (hr : Reachable s0 s) :
    ∃ S', s.manager.PagesInv s.live n S' := by
  induction hr with
  | refl => exact ⟨S, h⟩
  | step _ hop hs hrun ih =>
    obtain ⟨S1, h1⟩ := ih
    obtain ⟨s', hs', -, S', h'⟩ := run_step h1 hop hs
    rw [hrun] at hs'
    cases hs'
    exact ⟨S', h'⟩

end PageOp

end Yuzu.Kernel
