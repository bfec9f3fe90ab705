/-
  File:      Yuzu/Service/NvHostAsGpuBooks.lean
  Subject:   nvhost_as_gpu: over a run of calls that succeed, the page allocators, the maps, the pins
             and the GPU page tables agree.

  The pages are exact books (`Exact`): their owners are the allocations and the mappings that are
  not fixed. A fixed mapping owns no pages, it lies in an allocation whose list names it. Small and
  big pages are apart, since a range of small pages ends before one of big pages starts.

  * `Tidy` -- the condition of a call;
  * `Pages`, `Contents` -- the invariant;
  * `balanced_after_tidy_calls` -- the books after every run of calls that meet it.
-/
import Yuzu.Lib.Ledger
import Yuzu.Service.NvHostAsGpuSteps

namespace Yuzu.Service

open Yuzu.Common (FlatAllocator alignUp)
open Yuzu.Core (DeviceMemory)
open Yuzu.VideoCore (MemoryManager pageBits pageSize identityMemory)
open Yuzu.VideoCore.MemoryManager (rounds mul_lt_of_lt_rounds)

/-! ## 1. The books -/

/-- The page meets the bytes of the range. -/
def Meets (pageSize off size page : Nat) : Prop :=
  off < (page + 1) * pageSize ∧ page * pageSize < off + size

namespace NvhostAsGpu

/-- **The books agree.** `n₀` is the `nvmap` before the first call.

The allocated pages are those of the allocations and of the mappings that are not fixed, a page that
is begun counted in; a live mapping is one pin of its handle; a page that is mapped belongs to a
live mapping; and a fixed mapping lies in an allocation. -/
structure Balanced (n₀ : NvMap) (s : NvhostAsGpu) : Prop where
  pages : ∀ big page, (s.allocator big).Allocated page ↔
    (∃ off a, s.allocationMap.lookup off = some a ∧ a.bigPages = big ∧
      Meets (s.pageSizeOf big) off a.size page) ∨
    ∃ off m, s.mappingMap.lookup off = some m ∧ m.fixed = false ∧ m.bigPage = big ∧
      Meets (s.pageSizeOf big) off m.size page
  pins : ∀ id, s.nvmap.pinsOf id = (n₀.pinsOf id).map (· + (liveMappings s.mappingMap id : Int))
  entries : ∀ big page, s.gmmu.entryOf big page = .mapped → ∃ off m,
    s.mappingMap.lookup off = some m ∧ m.bigPage = big ∧ s.gmmu.Walks big off m.size page
  homes : ∀ off m, s.mappingMap.lookup off = some m → m.fixed = true → ∃ first a,
    s.allocationMap.lookup first = some a ∧ first ≤ off ∧ off + m.size ≤ first + a.size

/-- A mapping that a call takes away leaves none of its pages mapped. -/
def Released (s s' : NvhostAsGpu) : Prop :=
  ∀ off m, s.mappingMap.lookup off = some m → s'.mappingMap.lookup off ≠ some m →
    ∀ page, s.gmmu.Walks m.bigPage off m.size page → s'.gmmu.entryOf m.bigPage page ≠ .mapped

/-! ## 2. The condition of a call -/

/-- The first page of the range of an allocator; small pages may lie anywhere below its end. -/
def lowPage (s : NvhostAsGpu) : Bool → Nat
  | true => s.bigPageAllocator.virtStart
  | false => 0

/-- A range of pages that has its place in the address space. -/
structure Placed (s : NvhostAsGpu) (big : Bool) (off count : Nat) : Prop where
  aligned : s.pageSizeOf big ∣ off
  pos : 0 < off
  low : s.lowPage big * s.pageSizeOf big ≤ off
  count_pos : 0 < count
  fits : off / s.pageSizeOf big + count ≤ (s.allocator big).space.vaLimit

/-- The pages that a size takes up. -/
def pagesOf (s : NvhostAsGpu) (big : Bool) (size : Nat) : Nat := rounds size (s.pageSizeOf big)

/-- The condition of `AllocateSpace`: a fixed range has its place and is free; otherwise the
allocator can find one. -/
def TidyAllocate (s : NvhostAsGpu) (params : IoctlAllocSpace) : Prop :=
  let big := decide (params.pageSize.toNat ≠ pageSize)
  if params.flags.fixed then
    s.Placed big params.offset.toNat params.pages.toNat ∧
      ∀ page, params.offset.toNat / s.pageSizeOf big ≤ page →
        page < params.offset.toNat / s.pageSizeOf big + params.pages.toNat →
        ¬ (s.allocator big).Allocated page
  else 0 < params.pages.toNat ∧ (s.allocator big).AllocSafe params.pages.toNat

/-- The allocator can take back a range. -/
def FreeSafe (s : NvhostAsGpu) (big : Bool) (off count : Nat) : Prop :=
  (s.allocator big).space.UnmapSafe (off / s.pageSizeOf big) count

/-- The condition of `MapBufferEx`. Mapping a part again stays inside the mapping; a fixed mapping
is not put over another one, and the sum of its offset and size does not wrap; otherwise the number
of pages fits 32 bits, and the allocator can find them. -/
def TidyMap (s : NvhostAsGpu) (params : IoctlMapBufferEx) : Prop :=
  if params.flags.remap then
    ∀ m, s.mappingMap.lookup params.offset.toNat = some m → ∀ page,
      s.gmmu.Walks m.bigPage ((params.offset.toNat + params.bufferOffset.toNat) % 2 ^ 64)
        params.mappingSize.toNat page → s.gmmu.Walks m.bigPage params.offset.toNat m.size page
  else ∀ handle, s.nvmap.handles params.handle = some handle →
    if params.flags.fixed then
      s.mappingMap.lookup params.offset.toNat = none ∧
        ∀ first a, s.allocationBelow params.offset.toNat = some (first, a) →
          params.offset.toNat - first + mappedSize params handle < 2 ^ 64
    else
      let big := decide (handle.align % s.bigPageSize = 0)
      alignUp (mappedSize params handle) (s.pageSizeOf big) < 2 ^ 64 ∧
        s.pagesOf big (mappedSize params handle) < 2 ^ 32 ∧
        (s.allocator big).AllocSafe (s.pagesOf big (mappedSize params handle))

/-- The condition of `UnmapBuffer`: a mapping that is not fixed has whole pages, and the allocator
can take them back. -/
def TidyUnmap (s : NvhostAsGpu) (offset : UInt64) : Prop :=
  ∀ m, s.mappingMap.lookup offset.toNat = some m → m.fixed = false → s.pageSizeOf m.bigPage ∣ m.size ∧
      s.FreeSafe m.bigPage offset.toNat (m.size / s.pageSizeOf m.bigPage)

/-- The condition of `FreeSpace`: the allocator can take back the pages. With a page size of 0,
where no allocation is needed, the range is empty, and must not cut a range that is allocated. -/
def TidyFree (s : NvhostAsGpu) (params : IoctlFreeSpace) : Prop :=
  if params.pageSize = 0 then
    0 < toU32 (params.offset.toNat >>> s.bigPageSizeBits) ∧
      ¬ s.bigPageAllocator.Allocated (toU32 (params.offset.toNat >>> s.bigPageSizeBits) - 1)
  else s.FreeSafe (params.pageSize.toNat ≠ pageSize) params.offset.toNat params.pages.toNat

/-- The condition of a call; `Remap` is not one of the calls here. -/
def Tidy (s : NvhostAsGpu) : Ioctl → Prop
  | .allocAsEx _ => True
  | .allocateSpace params => s.TidyAllocate params
  | .freeSpace params => s.TidyFree params
  | .mapBufferEx params _ => s.TidyMap params
  | .unmapBuffer offset => s.TidyUnmap offset
  | .remap _ => False

end NvhostAsGpu

/-- The range of small pages ends before the range of big pages starts: the split is a multiple of
the big page size, and the numbers of its pages fit 32 bits. -/
def IoctlAllocAsEx.SplitApart (params : IoctlAllocAsEx) : Prop :=
  toU32 (params.chosenSplit >>> pageBits) * pageSize ≤
    toU32 (params.chosenSplit >>> Nat.log2 params.chosenBigPageSize) * 2 ^ Nat.log2 params.chosenBigPageSize

/-- The condition of a call of the device. -/
def Device.Tidy : Device → Ioctl → Prop
  | .uninitialised _, .allocAsEx params => params.SplitApart
  | .uninitialised _, _ => True
  | .initialised s, op => s.Tidy op

/-! ## 3. Pages of a range -/

section Ranges

variable {P a off size page : Nat}

theorem lt_rounds_of_mul_lt {k : Nat} (hP : 0 < P) (h : k * P < size) : k < rounds size P := by
  rw [rounds, Nat.lt_iff_add_one_le, Nat.le_div_iff_mul_le hP, Nat.succ_mul]
  omega

theorem rounds_pos (hP : 0 < P) (h : 0 < size) : 0 < rounds size P :=
  lt_rounds_of_mul_lt hP (by omega)

theorem rounds_mul (hP : 0 < P) : rounds (a * P) P = a := by
  rw [rounds, Nat.add_sub_assoc hP, Nat.mul_comm, Nat.mul_add_div hP,
    Nat.div_eq_of_lt (Nat.sub_lt hP Nat.one_pos), Nat.add_zero]

theorem rounds_of_dvd (hP : 0 < P) (h : P ∣ size) : rounds size P = size / P := by
  obtain ⟨k, rfl⟩ := h
  rw [Nat.mul_comm, rounds_mul hP, Nat.mul_div_cancel _ hP]

theorem alignUp_eq_mul : alignUp size P = rounds size P * P := by
  have hdm := Nat.div_add_mod' size P
  rcases Nat.eq_zero_or_pos P with rfl | hP
  · simp [alignUp]
  · rw [alignUp]
    split
    · rename_i hz
      rw [rounds_of_dvd hP (Nat.dvd_of_mod_eq_zero hz)]
      omega
    · rename_i hz
      have hlt := Nat.mod_lt size hP
      have hround : rounds size P = size / P + 1 := by
        refine le_antisymm ?_ ?_
        · rw [rounds, ← Nat.lt_add_one_iff, Nat.div_lt_iff_lt_mul hP, Nat.succ_mul, Nat.succ_mul]
          omega
        · exact lt_rounds_of_mul_lt hP (by omega)
      rw [hround, Nat.succ_mul]
      omega

theorem meets_iff (hP : 0 < P) (hoff : P ∣ off) :
    Meets P off size page ↔ off / P ≤ page ∧ page < off / P + rounds size P := by
  obtain ⟨k, rfl⟩ := hoff
  rw [Nat.mul_div_cancel_left _ hP, Meets, Nat.mul_comm P k]
  constructor
  · rintro ⟨hlow, hhigh⟩
    have hle : k ≤ page := Nat.lt_succ_iff.mp (Nat.lt_of_mul_lt_mul_right hlow)
    have hmul := Nat.mul_le_mul_right P hle
    have hk : (page - k) * P < size := by
      rw [Nat.sub_mul]
      omega
    have := lt_rounds_of_mul_lt hP hk
    omega
  · rintro ⟨hle, hlt⟩
    have hk := mul_lt_of_lt_rounds (show page - k < rounds size P by omega)
    rw [Nat.sub_mul] at hk
    exact ⟨Nat.mul_lt_mul_of_pos_right (Nat.lt_succ_of_le hle) hP, by omega⟩

end Ranges

/-! ## 4. The pages and their owners -/

/-- Who can own pages. -/
inductive Owner where
  | allocation (offset : Nat)
  | mapping (offset : Nat)

namespace NvhostAsGpu

/-- The pages of an owner, of both page sizes. -/
def owns (s : NvhostAsGpu) : Owner → Bool × Nat → Prop
  | .allocation off, (big, page) => ∃ a, s.allocationMap.lookup off = some a ∧ a.bigPages = big ∧
      Meets (s.pageSizeOf big) off a.size page
  | .mapping off, (big, page) => ∃ m, s.mappingMap.lookup off = some m ∧ m.fixed = false ∧
      m.bigPage = big ∧ Meets (s.pageSizeOf big) off m.size page

/-- The pages that an allocator has marked, of both page sizes. -/
def held (s : NvhostAsGpu) (r : Bool × Nat) : Prop := (s.allocator r.1).Allocated r.2

/-- The pages of a range. -/
def PageRange (big : Bool) (first count : Nat) (r : Bool × Nat) : Prop :=
  r.1 = big ∧ first ≤ r.2 ∧ r.2 < first + count

/-- **The allocators are sound, and their books exact.** -/
structure Pages (s : NvhostAsGpu) : Prop where
  ledger : Exact s.held s.owns
  sound : ∀ big, (s.allocator big).Sound (s.lowPage big)
  vaBits : ∀ big, (s.allocator big).space.vaBits = 32

/-- The ranges of the allocators are the same. -/
structure SameLayout (s s' : NvhostAsGpu) : Prop where
  bits : s'.bigPageSizeBits = s.bigPageSizeBits
  vaLimit : ∀ big, (s'.allocator big).space.vaLimit = (s.allocator big).space.vaLimit
  virtStart : ∀ big, (s'.allocator big).virtStart = (s.allocator big).virtStart

variable {s s' s'' : NvhostAsGpu} {n₀ : NvMap} {d : DeviceMemory} {m : Mapping} {a : Allocation}
  {big b : Bool} {off off' size page first count count' : Nat} {al : FlatAllocator} {o : Owner}

theorem SameLayout.pageSizeOf (h : SameLayout s s') : s'.pageSizeOf big = s.pageSizeOf big := by
  rw [NvhostAsGpu.pageSizeOf, NvhostAsGpu.pageSizeOf, pageSizeBits, pageSizeBits, h.bits]

theorem SameLayout.lowPage (h : SameLayout s s') : s'.lowPage big = s.lowPage big := by
  cases big
  · rfl
  · exact h.virtStart true

theorem SameLayout.placed (h : SameLayout s s') (hp : s.Placed big off count) :
    s'.Placed big off count where
  aligned := h.pageSizeOf ▸ hp.aligned
  pos := hp.pos
  low := by
    rw [h.lowPage, h.pageSizeOf]
    exact hp.low
  count_pos := hp.count_pos
  fits := by
    rw [h.pageSizeOf, h.vaLimit]
    exact hp.fits

theorem SameLayout.setAllocator (hlim : al.space.vaLimit = (s.allocator big).space.vaLimit)
    (hstart : al.virtStart = (s.allocator big).virtStart)
    (hbits : s'.bigPageSizeBits = s.bigPageSizeBits)
    (hal : ∀ b, s'.allocator b = (s.setAllocator big al).allocator b) : SameLayout s s' where
  bits := hbits
  vaLimit b := by
    rw [hal]
    by_cases hb : b = big
    · rw [hb, allocator_setAllocator_self, hlim]
    · rw [allocator_setAllocator_other hb]
  virtStart b := by
    rw [hal]
    by_cases hb : b = big
    · rw [hb, allocator_setAllocator_self, hstart]
    · rw [allocator_setAllocator_other hb]

theorem Placed.meets (h : s.Placed big off count) (hcount : count = rounds size (s.pageSizeOf big)) :
    Meets (s.pageSizeOf big) off size page ↔
      off / s.pageSizeOf big ≤ page ∧ page < off / s.pageSizeOf big + count := by
  rw [hcount]
  exact meets_iff pageSizeOf_pos h.aligned

theorem Placed.page_pos (h : s.Placed big off count) : 0 < off / s.pageSizeOf big :=
  Nat.div_pos (Nat.le_of_dvd h.pos h.aligned) pageSizeOf_pos

theorem Placed.low_le (h : s.Placed big off count) : s.lowPage big ≤ off / s.pageSizeOf big :=
  (Nat.le_div_iff_mul_le pageSizeOf_pos).mpr h.low

theorem Placed.toU32_eq (h : s.Placed big off count) (hbits : (s.allocator big).space.vaBits = 32) :
    toU32 (off >>> s.pageSizeBits big) = off / s.pageSizeOf big := by
  have hfits := h.fits
  have hlimit := (s.allocator big).space.vaLimit_lt
  rw [hbits] at hlimit
  rw [shiftRight_pageSizeBits, toU32, Nat.mod_eq_of_lt (by omega)]

theorem Placed.apart (hapart : s.smallPageAllocator.space.vaLimit * pageSize ≤
      s.bigPageAllocator.virtStart * s.bigPageSize)
    (h : s.Placed false off count) (h' : s.Placed true off' count') :
    off + count * pageSize ≤ off' := by
  have hfits := Nat.mul_le_mul_right pageSize h.fits
  have haligned := h.aligned
  rw [pageSizeOf_false] at haligned hfits
  rw [Nat.add_mul, Nat.div_mul_cancel haligned] at hfits
  exact le_trans hfits (le_trans hapart h'.low)

theorem Placed.kind_eq (hapart : s.smallPageAllocator.space.vaLimit * pageSize ≤
      s.bigPageAllocator.virtStart * s.bigPageSize)
    (h : s.Placed b off count) (h' : s.Placed big off' count')
    (hlt : off' < off + count * s.pageSizeOf b) (hlt' : off < off' + count' * s.pageSizeOf big) :
    b = big := by
  cases b <;> cases big
  · rfl
  · exact absurd (h.apart hapart h') (not_le.mpr hlt)
  · exact absurd (h'.apart hapart h) (not_le.mpr hlt')
  · rfl

theorem Pages.allocators (h : s.Pages) (hsound : al.Sound (s.lowPage big))
    (hvaBits : al.space.vaBits = (s.allocator big).space.vaBits) (hsame : SameLayout s s')
    (hal : ∀ b, s'.allocator b = (s.setAllocator big al).allocator b) :
    (∀ b, (s'.allocator b).Sound (s'.lowPage b)) ∧ ∀ b, (s'.allocator b).space.vaBits = 32 := by
  refine ⟨fun b => ?_, fun b => ?_⟩
  · rw [hsame.lowPage, hal]
    by_cases hb : b = big
    · rw [hb, allocator_setAllocator_self]
      exact hsound
    · rw [allocator_setAllocator_other hb]
      exact h.sound b
  · rw [hal]
    by_cases hb : b = big
    · rw [hb, allocator_setAllocator_self, hvaBits]
      exact h.vaBits big
    · rw [allocator_setAllocator_other hb]
      exact h.vaBits b

theorem Pages.grant (h : s.Pages)
    (hfree : ∀ v, first ≤ v → v < first + count → ¬ (s.allocator big).Allocated v)
    (hg : (s.allocator big).Grants (s.lowPage big) first count al)
    (hbits : s'.bigPageSizeBits = s.bigPageSizeBits)
    (hal : ∀ b, s'.allocator b = (s.setAllocator big al).allocator b)
    (howns : ∀ o' r, s'.owns o' r ↔ (o' = o ∧ PageRange big first count r) ∨ s.owns o' r) :
    s'.Pages := by
  have hsame : SameLayout s s' := .setAllocator hg.vaLimit hg.virtStart hbits hal
  obtain ⟨hsound, hvaBits⟩ := h.allocators hg.sound hg.vaBits hsame hal
  refine ⟨@Exact.grant _ _ _ _ (PageRange big first count) _ _ _ h.ledger ?_ ?_ howns, hsound, hvaBits⟩
  · rintro ⟨b, v⟩ ⟨rfl, hle, hlt⟩
    exact hfree v hle hlt
  · rintro ⟨b, v⟩
    rw [held, held, hal]
    by_cases hb : b = big
    · subst hb
      rw [allocator_setAllocator_self, hg.allocated]
      exact or_congr_left ⟨fun hv => ⟨rfl, hv⟩, fun hv => hv.2⟩
    · rw [allocator_setAllocator_other hb]
      exact ⟨.inr, fun hor => hor.resolve_left fun hr => hb hr.1⟩

theorem Pages.release (h : s.Pages) (hown : ∀ r, s.owns o r ↔ PageRange big first count r)
    (hg : (s.allocator big).Takes (s.lowPage big) first count al)
    (hbits : s'.bigPageSizeBits = s.bigPageSizeBits)
    (hal : ∀ b, s'.allocator b = (s.setAllocator big al).allocator b)
    (howns : ∀ o' r, s'.owns o' r ↔ o' ≠ o ∧ s.owns o' r) : s'.Pages := by
  have hsame : SameLayout s s' := .setAllocator hg.vaLimit hg.virtStart hbits hal
  obtain ⟨hsound, hvaBits⟩ := h.allocators hg.sound hg.vaBits hsame hal
  refine ⟨h.ledger.release ?_ howns, hsound, hvaBits⟩
  · rintro ⟨b, v⟩
    rw [held, held, hal, hown]
    by_cases hb : b = big
    · subst hb
      rw [allocator_setAllocator_self, hg.allocated]
      exact and_congr_right fun _ => not_congr ⟨fun hv => ⟨rfl, hv⟩, fun hv => hv.2⟩
    · rw [allocator_setAllocator_other hb]
      exact ⟨fun hv => ⟨hv, fun hr => hb hr.1⟩, fun hv => hv.1⟩

theorem Pages.congr (h : s.Pages) (hal : ∀ b, s'.allocator b = s.allocator b)
    (hlow : ∀ b, s'.lowPage b = s.lowPage b) (howns : ∀ o r, s'.owns o r ↔ s.owns o r) :
    s'.Pages where
  ledger := h.ledger.congr (fun r => by rw [held, held, hal]) howns
  sound b := by
    rw [hal, hlow]
    exact h.sound b
  vaBits b := by
    rw [hal]
    exact h.vaBits b

/-! ## 5. What the maps hold -/

/-- An allocation of the map: whole pages in their place, and a list of offsets inside. -/
structure HoldsAllocation (s : NvhostAsGpu) (off : Nat) (a : Allocation) : Prop where
  pageSize : a.pageSize = s.pageSizeOf a.bigPages
  kind : a.bigPages = decide (a.pageSize ≠ Yuzu.VideoCore.pageSize)
  whole : s.pageSizeOf a.bigPages ∣ a.size
  placed : s.Placed a.bigPages off (a.size / s.pageSizeOf a.bigPages)
  listed : ∀ x ∈ a.mappings, off ≤ x.offset ∧ x.offset < off + a.size

/-- A mapping of the map: it has pages of its own, or lies in an allocation that lists it. -/
structure HoldsMapping (s : NvhostAsGpu) (off : Nat) (m : Mapping) : Prop where
  offset : m.offset = off
  size_pos : 0 < m.size
  placed : m.fixed = false → s.Placed m.bigPage off (s.pagesOf m.bigPage m.size)
  home : m.fixed = true → ∃ first a, s.allocationMap.lookup first = some a ∧ first ≤ off ∧
    off + m.size ≤ first + a.size ∧ ∃ x ∈ a.mappings, x.offset = off

/-- **What the maps hold**, and how the pins and the page tables agree with them. -/
structure Contents (n₀ : NvMap) (s : NvhostAsGpu) : Prop where
  apart : s.smallPageAllocator.space.vaLimit * pageSize ≤ s.bigPageAllocator.virtStart * s.bigPageSize
  gmmuBits : s.gmmu.bigPageBits = s.bigPageSizeBits
  allocations : ∀ off a, s.allocationMap.lookup off = some a → s.HoldsAllocation off a
  mappings : ∀ off m, s.mappingMap.lookup off = some m → s.HoldsMapping off m
  pins : ∀ id, s.nvmap.pinsOf id = (n₀.pinsOf id).map (· + (liveMappings s.mappingMap id : Int))
  entries : ∀ big page, s.gmmu.entryOf big page = .mapped → ∃ off m,
    s.mappingMap.lookup off = some m ∧ m.bigPage = big ∧ s.gmmu.Walks big off m.size page

theorem SameLayout.holdsAllocation (h : SameLayout s s') (ha : s.HoldsAllocation off a) :
    s'.HoldsAllocation off a where
  pageSize := h.pageSizeOf ▸ ha.pageSize
  kind := ha.kind
  whole := h.pageSizeOf ▸ ha.whole
  placed := by
    rw [h.pageSizeOf]
    exact h.placed ha.placed
  listed := ha.listed

theorem SameLayout.holdsMapping (h : SameLayout s s') (hm : s.HoldsMapping off m)
    (hmap : ∀ first a, s.allocationMap.lookup first = some a → ∃ a',
      s'.allocationMap.lookup first = some a' ∧ a'.size = a.size ∧
        ∀ x ∈ a.mappings, x ∈ a'.mappings) : s'.HoldsMapping off m where
  offset := hm.offset
  size_pos := hm.size_pos
  placed hf := by
    rw [pagesOf, h.pageSizeOf]
    exact h.placed (hm.placed hf)
  home hf := by
    obtain ⟨first, a, ha, hle, hend, x, hx, hxo⟩ := hm.home hf
    obtain ⟨a', ha', hsize, hlist⟩ := hmap first a ha
    exact ⟨first, a', ha', hle, hsize ▸ hend, x, hlist x hx, hxo⟩

theorem SameLayout.apart (h : SameLayout s s') (hapart : s.smallPageAllocator.space.vaLimit * pageSize ≤
      s.bigPageAllocator.virtStart * s.bigPageSize) :
    s'.smallPageAllocator.space.vaLimit * pageSize ≤ s'.bigPageAllocator.virtStart * s'.bigPageSize := by
  have hlim := h.vaLimit false
  have hstart := h.virtStart true
  simp only [allocator] at hlim hstart
  rw [hlim, hstart, bigPageSize, h.bits]
  exact hapart

theorem HoldsAllocation.meets (h : s.HoldsAllocation off a) :
    Meets (s.pageSizeOf a.bigPages) off a.size page ↔ off / s.pageSizeOf a.bigPages ≤ page ∧
      page < off / s.pageSizeOf a.bigPages + a.size / s.pageSizeOf a.bigPages :=
  h.placed.meets (rounds_of_dvd pageSizeOf_pos h.whole).symm

theorem HoldsAllocation.size_pos (h : s.HoldsAllocation off a) : 0 < a.size :=
  Nat.pos_of_ne_zero fun hz => by
    have := h.placed.count_pos
    rw [hz, Nat.zero_div] at this
    exact absurd this (lt_irrefl 0)

theorem Contents.inside_owned (h : Contents n₀ s) (ha : s.allocationMap.lookup first = some a)
    (hp : s.Placed big off count) (hle : first ≤ off) (hlt : off < first + a.size) :
    s.owns (.allocation first) (big, off / s.pageSizeOf big) := by
  have hold := h.allocations first a ha
  have hbig : a.bigPages = big := hold.placed.kind_eq h.apart hp (by rwa [Nat.div_mul_cancel hold.whole])
    (lt_of_le_of_lt hle (Nat.lt_add_of_pos_right (Nat.mul_pos hp.count_pos pageSizeOf_pos)))
  refine ⟨a, ha, hbig, ?_⟩
  have hoff := Nat.div_mul_cancel hp.aligned
  refine ⟨?_, by rw [hoff]; exact hlt⟩
  rw [Nat.succ_mul, hoff]
  exact lt_of_le_of_lt hle (Nat.lt_add_of_pos_right pageSizeOf_pos)

theorem Contents.no_allocation (h : Contents n₀ s) (hpages : s.Pages)
    (hp : s.Placed big off count) (hfree : ¬ (s.allocator big).Allocated (off / s.pageSizeOf big)) :
    s.allocationMap.lookup off = none := by
  by_contra hne
  obtain ⟨a, ha⟩ := Option.ne_none_iff_exists'.mp hne
  have hsize := (h.allocations off a ha).size_pos
  exact hfree ((hpages.ledger.held_iff _).mpr
    ⟨_, h.inside_owned ha hp le_rfl (Nat.lt_add_of_pos_right hsize)⟩)

theorem Contents.no_mapping (h : Contents n₀ s) (hpages : s.Pages)
    (hp : s.Placed big off count) (hfree : ¬ (s.allocator big).Allocated (off / s.pageSizeOf big)) :
    s.mappingMap.lookup off = none := by
  by_contra hne
  obtain ⟨m, hm⟩ := Option.ne_none_iff_exists'.mp hne
  have hold := h.mappings off m hm
  cases hfixed : m.fixed with
  | true =>
    obtain ⟨first, a, ha, hle, hend, -⟩ := hold.home hfixed
    have hsize := hold.size_pos
    exact hfree ((hpages.ledger.held_iff _).mpr ⟨_, h.inside_owned ha hp hle (by omega)⟩)
  | false =>
    have hplaced := hold.placed hfixed
    have hbig : m.bigPage = big := hplaced.kind_eq h.apart hp
      (Nat.lt_add_of_pos_right (Nat.mul_pos hplaced.count_pos pageSizeOf_pos))
      (Nat.lt_add_of_pos_right (Nat.mul_pos hp.count_pos pageSizeOf_pos))
    subst hbig
    refine hfree ((hpages.ledger.held_iff (m.bigPage, _)).mpr ⟨.mapping off, m, hm, hfixed, rfl, ?_⟩)
    rw [hplaced.meets rfl]
    exact ⟨le_rfl, Nat.lt_add_of_pos_right hplaced.count_pos⟩

theorem Contents.listed_fixed (h : Contents n₀ s) (hpages : s.Pages)
    (ha : s.allocationMap.lookup first = some a) {x : Mapping} (hx : x ∈ a.mappings)
    (hm : s.mappingMap.lookup x.offset = some m) : m.fixed = true := by
  by_contra hne
  have hfixed := Bool.eq_false_iff.mpr hne
  obtain ⟨hle, hlt⟩ := (h.allocations first a ha).listed x hx
  have hplaced := (h.mappings _ m hm).placed hfixed
  have hown : s.owns (.mapping x.offset) (m.bigPage, x.offset / s.pageSizeOf m.bigPage) := by
    refine ⟨m, hm, hfixed, rfl, ?_⟩
    rw [hplaced.meets rfl]
    exact ⟨le_rfl, Nat.lt_add_of_pos_right hplaced.count_pos⟩
  exact nomatch hpages.ledger.unique _ _ _ hown (h.inside_owned ha hplaced hle hlt)

/-! ## 6. A mapping goes away -/

theorem sameLayout_drop : SameLayout s (s.dropMapping d m off) :=
  ⟨rfl, fun b => by cases b <;> rfl, fun b => by cases b <;> rfl⟩

/-- The maps, the pins and the page tables let a mapping go together. -/
theorem Contents.drop (h : Contents n₀ s) (hm : s.mappingMap.lookup off = some m) :
    Contents n₀ (s.dropMapping d m off) where
  apart := h.apart
  gmmuBits := entryOf_unmapEntries.1.trans h.gmmuBits
  allocations off' a ha := sameLayout_drop.holdsAllocation (h.allocations off' a ha)
  mappings off' m' hm' := by
    have hne : off' ≠ off := by
      rintro rfl
      rw [show (s.dropMapping d m off').mappingMap = s.mappingMap.erase off' from rfl,
        AList.lookup_erase] at hm'
      exact nomatch hm'
    have hold := h.mappings off' m' (by rwa [← AList.lookup_erase_ne hne])
    exact sameLayout_drop.holdsMapping hold fun first a ha => ⟨a, ha, rfl, fun _ hx => hx⟩
  pins id := by
    rw [show (s.dropMapping d m off).nvmap = s.nvmap.unpinHandle m.handle from rfl,
      NvMap.pinsOf_unpinHandle, h.pins, liveMappings_erase hm, Option.map_map]
    congr 1
    funext k
    rw [Function.comp_apply,
      show (s.dropMapping d m off).mappingMap = s.mappingMap.erase off from rfl]
    by_cases hid : id = m.handle
    · rw [if_pos hid, if_pos hid]
      omega
    · rw [if_neg hid, if_neg hid]
      omega
  entries big page hp := by
    obtain ⟨hbits, hentry⟩ := @NvhostAsGpu.entryOf_unmapEntries d s.gmmu m off
    obtain ⟨hold, hnot⟩ := hentry big page hp
    obtain ⟨off', m', hm', hbig, hwalk⟩ := h.entries big page hold
    have hne : off' ≠ off := by
      rintro rfl
      obtain rfl := Option.some.inj (hm'.symm.trans hm)
      exact hnot ⟨hbig.symm, hbig ▸ hwalk⟩
    exact ⟨off', m', (AList.lookup_erase_ne hne).trans hm', hbig,
      (MemoryManager.walks_congr hbits).mpr hwalk⟩

theorem Contents.congr (h : Contents n₀ s) (hsame : SameLayout s s') (hgmmu : s'.gmmu = s.gmmu)
    (hmap : s'.mappingMap = s.mappingMap) (halloc : s'.allocationMap = s.allocationMap)
    (hnv : s'.nvmap = s.nvmap) : Contents n₀ s' where
  apart := hsame.apart h.apart
  gmmuBits := by rw [hgmmu, hsame.bits, h.gmmuBits]
  allocations off a ha := hsame.holdsAllocation (h.allocations off a (halloc ▸ ha))
  mappings off m hm := hsame.holdsMapping (h.mappings off m (hmap ▸ hm)) fun first a ha =>
    ⟨a, halloc ▸ ha, rfl, fun _ hx => hx⟩
  pins id := by rw [hnv, hmap, h.pins]
  entries big page hp := by
    rw [hgmmu] at hp ⊢
    rw [hmap]
    exact h.entries big page hp

theorem Pages.drop (h : s.Pages) (hm : s.mappingMap.lookup off = some m) (hfixed : m.fixed = true) :
    (s.dropMapping d m off).Pages := by
  refine h.congr (fun b => by cases b <;> rfl) (fun b => by cases b <;> rfl) ?_
  rintro (off' | off') ⟨b, page⟩
  · exact Iff.rfl
  · by_cases hoff : off' = off
    · subst hoff
      constructor
      · rintro ⟨m', hm', -⟩
        rw [show (s.dropMapping d m off').mappingMap = s.mappingMap.erase off' from rfl,
          AList.lookup_erase] at hm'
        exact nomatch hm'
      · rintro ⟨m', hm', hfalse, -⟩
        obtain rfl := Option.some.inj (hm'.symm.trans hm)
        exact absurd (hfixed.symm.trans hfalse) Bool.noConfusion
    · simp only [owns]
      rw [show (s.dropMapping d m off).mappingMap = s.mappingMap.erase off from rfl,
        AList.lookup_erase_ne hoff]
      exact Iff.rfl

theorem Released.of_keeps
    (h : ∀ off m, s.mappingMap.lookup off = some m → s'.mappingMap.lookup off = some m) :
    Released s s' := fun off m hm hne => absurd (h off m hm) hne

/-! ## 7. AllocateSpace -/

/-- What `AllocateSpace` takes, in a tidy call, is a free range in its place. -/
theorem placeSpace_placed {params : IoctlAllocSpace} (hpages : s.Pages) (htidy : s.TidyAllocate params)
    (hbig : big = decide (params.pageSize.toNat ≠ pageSize))
    (hplace : s.placeSpace params big = some (off, al))
    (hzero : params.flags.fixed = false → off ≠ 0) :
    s.Placed big off params.pages.toNat ∧
    (∀ v, off / s.pageSizeOf big ≤ v → v < off / s.pageSizeOf big + params.pages.toNat →
      ¬ (s.allocator big).Allocated v) ∧
    (s.allocator big).Grants (s.lowPage big) (off / s.pageSizeOf big) params.pages.toNat al := by
  rw [TidyAllocate] at htidy
  rw [← hbig] at htidy
  rw [placeSpace] at hplace
  split at hplace
  · rename_i hf
    rw [if_pos hf] at htidy
    obtain ⟨hp, hfree⟩ := htidy
    obtain ⟨al', halloc, heq⟩ := Option.map_eq_some_iff.mp hplace
    obtain ⟨rfl, rfl⟩ := Prod.mk.inj heq
    rw [hp.toU32_eq (hpages.vaBits big)] at halloc
    exact ⟨hp, hfree, (hpages.sound big).allocateFixed hp.page_pos hp.low_le hp.count_pos hp.fits halloc⟩
  · rename_i hf
    rw [if_neg hf] at htidy
    obtain ⟨hpos, hsafe⟩ := htidy
    obtain ⟨⟨start, al'⟩, halloc, heq⟩ := Option.map_eq_some_iff.mp hplace
    obtain ⟨rfl, rfl⟩ := Prod.mk.inj heq
    have hne := hzero (Bool.eq_false_iff.mpr hf)
    rw [shiftLeft_pageSizeBits] at hne ⊢
    have hstart : start ≠ 0 := fun hz => hne (by rw [hz, Nat.zero_mul])
    obtain ⟨hfree, hgrants⟩ := (hpages.sound big).allocate hpos
      (by rw [hpages.vaBits big]; exact params.pages.toNat_lt) hsafe halloc hstart
    rw [Nat.mul_div_cancel _ pageSizeOf_pos]
    refine ⟨⟨Dvd.intro_left _ rfl, Nat.pos_of_ne_zero hne, ?_, hpos, ?_⟩, hfree, hgrants⟩
    · exact Nat.mul_le_mul_right _ hgrants.low_le
    · rw [Nat.mul_div_cancel _ pageSizeOf_pos]
      exact hgrants.fits

variable {o : Outcome NvhostAsGpu}

theorem allocateSpace_keeps {params : IoctlAllocSpace} (hpages : s.Pages)
    (h : Contents n₀ s) (htidy : s.TidyAllocate params) (hcall : s.allocateSpace d params = some o)
    (hs : o.result = .success) : o.state.Pages ∧ Contents n₀ o.state ∧ Released s o.state := by
  obtain ⟨off, al, hsize, hplace, hzero, hstate⟩ := allocateSpace_success hcall hs
  obtain ⟨big, hbig⟩ : ∃ big, big = decide (params.pageSize.toNat ≠ pageSize) := ⟨_, rfl⟩
  rw [← hbig] at hsize hplace hstate
  obtain ⟨hp, hfree, hgrants⟩ := placeSpace_placed hpages htidy hbig hplace hzero
  have habsent := h.no_allocation hpages hp (hfree _ le_rfl (Nat.lt_add_of_pos_right hp.count_pos))
  obtain ⟨s', hs'⟩ : ∃ s', s' = o.state := ⟨_, rfl⟩
  have hal : ∀ b, s'.allocator b = (s.setAllocator big al).allocator b := fun b => by
    rw [hs', hstate]
    cases b <;> rfl
  have hbits : s'.bigPageSizeBits = s.bigPageSizeBits := by
    rw [hs', hstate]
    exact setAllocator_bigPageSizeBits
  have hmap : s'.mappingMap = s.mappingMap := by
    rw [hs', hstate]
    exact setAllocator_mappingMap
  have halloc : s'.allocationMap = s.allocationMap.insert off (newAllocation params) := by
    rw [hs', hstate]
  have hnv : s'.nvmap = s.nvmap := by
    rw [hs', hstate]
    exact setAllocator_nvmap
  have hgmmu : s'.gmmu.bigPageBits = s.gmmu.bigPageBits ∧ ∀ b page,
      s'.gmmu.entryOf b page = .mapped → s.gmmu.entryOf b page = .mapped := by
    rw [hs', hstate]
    split
    · exact ⟨MemoryManager.entryOf_mapSparse.1, fun b page => entryOf_mapSparse_le⟩
    · exact ⟨rfl, fun b page hp => hp⟩
  have hsame : SameLayout s s' := .setAllocator hgrants.vaLimit hgrants.virtStart hbits hal
  have hnewBig : (newAllocation params).bigPages = big := hbig.symm
  have hnewSize : (newAllocation params).size = params.pages.toNat * s.pageSizeOf big := by
    rw [← hsize]
    rfl
  have hcount : params.pages.toNat = rounds (newAllocation params).size (s.pageSizeOf big) := by
    rw [hnewSize, rounds_mul pageSizeOf_pos]
  rw [← hs']
  refine ⟨hpages.grant (o := .allocation off) hfree hgrants hbits hal ?_, ?_,
    .of_keeps fun _ _ hm => by rwa [hmap]⟩
  · -- the new allocation owns the new pages
    rintro (off' | off') ⟨b, page⟩
    · simp only [owns]
      rw [halloc, hsame.pageSizeOf]
      by_cases hoff : off' = off
      · subst hoff
        rw [AList.lookup_insert, habsent]
        constructor
        · rintro ⟨a, ha, hb, hmeets⟩
          obtain rfl := Option.some.inj ha
          rw [hnewBig] at hb
          subst hb
          exact .inl ⟨rfl, rfl, (hp.meets hcount).mp hmeets⟩
        · rintro (⟨-, hb, hrange⟩ | ⟨a, ha, -⟩)
          · obtain rfl : b = big := hb
            exact ⟨_, rfl, hnewBig, (hp.meets hcount).mpr hrange⟩
          · exact nomatch ha
      · rw [AList.lookup_insert_ne hoff]
        exact ⟨.inr, fun hor => hor.resolve_left fun hl => hoff (Owner.allocation.inj hl.1)⟩
    · simp only [owns]
      rw [hmap, hsame.pageSizeOf]
      exact ⟨.inr, fun hor => hor.resolve_left fun hl => nomatch hl.1⟩
  · refine ⟨hsame.apart h.apart, ?_, fun off' a ha => ?_, fun off' m hm => ?_, fun id => ?_,
      fun b page hpage => ?_⟩
    · rw [hgmmu.1, hbits, h.gmmuBits]
    · rw [halloc] at ha
      by_cases hoff : off' = off
      · subst hoff
        rw [AList.lookup_insert] at ha
        obtain rfl := Option.some.inj ha
        refine hsame.holdsAllocation ⟨?_, rfl, ?_, ?_, fun x hx => nomatch hx⟩ <;> rw [hnewBig]
        · exact hsize
        · rw [hnewSize]
          exact Dvd.intro_left _ rfl
        · rw [hnewSize, Nat.mul_div_cancel _ pageSizeOf_pos]
          exact hp
      · rw [AList.lookup_insert_ne hoff] at ha
        exact hsame.holdsAllocation (h.allocations off' a ha)
    · refine hsame.holdsMapping (h.mappings off' m (hmap ▸ hm)) fun first a ha => ?_
      have hne : first ≠ off := by
        rintro rfl
        rw [habsent] at ha
        exact nomatch ha
      exact ⟨a, by rw [halloc, AList.lookup_insert_ne hne, ha], rfl, fun _ hx => hx⟩
    · rw [hnv, hmap, h.pins]
    · obtain ⟨off', m, hm, hb, hwalk⟩ := h.entries b page (hgmmu.2 b page hpage)
      exact ⟨off', m, hmap ▸ hm, hb, (MemoryManager.walks_congr hgmmu.1).mpr hwalk⟩

/-! ## 8. UnmapBuffer and FreeSpace -/

theorem freePages_takes (hpages : s.Pages) (hp : s.Placed big off count)
    (hcount : size / s.pageSizeOf big = count) (hsafe : s.FreeSafe big off count)
    (hfree : s.freePages big off size = some s') : ∃ al, s' = s.setAllocator big al ∧
      (s.allocator big).Takes (s.lowPage big) (off / s.pageSizeOf big) count al := by
  obtain ⟨al, hal, rfl⟩ := Option.map_eq_some_iff.mp hfree
  have hlimit := (s.allocator big).space.vaLimit_lt
  have hfits := hp.fits
  rw [hpages.vaBits big] at hlimit
  rw [hp.toU32_eq (hpages.vaBits big), shiftRight_pageSizeBits, hcount, toU32,
    Nat.mod_eq_of_lt (lt_of_le_of_lt (le_trans (Nat.le_add_left _ _) hfits) hlimit)] at hal
  exact ⟨al, rfl, (hpages.sound big).free hp.page_pos hp.count_pos hp.fits hsafe hal⟩

theorem Released.drop (hm : s.mappingMap.lookup off = some m) : Released s (s.dropMapping d m off) := by
  intro off' m' hm' hgone page hwalk hmapped
  have hoff : off' = off := by
    by_contra hne
    exact hgone ((AList.lookup_erase_ne hne).trans hm')
  subst hoff
  obtain rfl := Option.some.inj (hm'.symm.trans hm)
  exact (entryOf_unmapEntries.2 _ _ hmapped).2 ⟨rfl, hwalk⟩

theorem unmapBuffer_keeps {offset : UInt64} (hpages : s.Pages)
    (h : Contents n₀ s) (htidy : s.TidyUnmap offset) (hcall : s.unmapBuffer d offset = some o) :
    o.state.Pages ∧ Contents n₀ o.state ∧ Released s o.state := by
  rw [unmapBuffer] at hcall
  split at hcall
  · obtain rfl := Option.some.inj hcall
    exact ⟨hpages, h, .of_keeps fun _ _ hm => hm⟩
  · rename_i m hm
    obtain ⟨s1, hs1, rfl⟩ := Option.map_eq_some_iff.mp hcall
    split at hs1
    · rename_i hfixed
      obtain rfl := Option.some.inj hs1
      exact ⟨hpages.drop hm hfixed, h.drop hm, .drop hm⟩
    · rename_i hfixed
      have hfixed := Bool.eq_false_iff.mpr hfixed
      obtain ⟨hdvd, hsafe⟩ := htidy m hm hfixed
      have hold := h.mappings _ m hm
      have hp := hold.placed hfixed
      have hcount : m.size / s.pageSizeOf m.bigPage = s.pagesOf m.bigPage m.size :=
        (rounds_of_dvd pageSizeOf_pos hdvd).symm
      rw [hold.offset] at hs1
      rw [hcount] at hsafe
      obtain ⟨al, rfl, htakes⟩ := freePages_takes hpages hp hcount hsafe hs1
      have hsame : SameLayout s (s.setAllocator m.bigPage al) := .setAllocator htakes.vaLimit
        htakes.virtStart setAllocator_bigPageSizeBits fun _ => rfl
      have hm' : (s.setAllocator m.bigPage al).mappingMap.lookup offset.toNat = some m := by
        rwa [setAllocator_mappingMap]
      have h' := h.congr hsame setAllocator_gmmu setAllocator_mappingMap setAllocator_allocationMap
        setAllocator_nvmap
      refine ⟨hpages.release (o := .mapping offset.toNat) ?_ htakes setAllocator_bigPageSizeBits
        (fun b => by cases b <;> rfl) ?_, h'.drop hm', ?_⟩
      · rintro ⟨b, page⟩
        constructor
        · rintro ⟨m', hm', -, rfl, hmeets⟩
          obtain rfl := Option.some.inj (hm'.symm.trans hm)
          exact ⟨rfl, (hp.meets rfl).mp hmeets⟩
        · rintro ⟨rfl, hrange⟩
          exact ⟨m, hm, hfixed, rfl, (hp.meets rfl).mpr hrange⟩
      · have hmap : ((s.setAllocator m.bigPage al).dropMapping d m offset.toNat).mappingMap =
            s.mappingMap.erase offset.toNat := by
          rw [← setAllocator_mappingMap (s := s)]
          rfl
        have hmap' : ((s.setAllocator m.bigPage al).dropMapping d m offset.toNat).allocationMap =
            s.allocationMap := by
          rw [← setAllocator_allocationMap (s := s)]
          rfl
        rintro (off' | off') ⟨b, page⟩
        · simp only [owns]
          rw [hmap', (sameLayout_drop).pageSizeOf, hsame.pageSizeOf]
          exact ⟨fun hown => ⟨nofun, hown⟩, fun hown => hown.2⟩
        · simp only [owns]
          rw [hmap, (sameLayout_drop).pageSizeOf, hsame.pageSizeOf]
          by_cases hoff : off' = offset.toNat
          · rw [hoff, AList.lookup_erase]
            exact ⟨fun ⟨_, hown, _⟩ => (nomatch hown), fun hown => absurd rfl hown.1⟩
          · rw [AList.lookup_erase_ne hoff]
            exact ⟨fun hown => ⟨fun heq => hoff (Owner.mapping.inj heq), hown⟩, fun hown => hown.2⟩
      · intro off' m' hm'' hgone
        have hrel := Released.drop (d := d) hm' off' m' (by rwa [setAllocator_mappingMap]) hgone
        rwa [setAllocator_gmmu] at hrel

theorem freeMappings_keeps (ha : s.allocationMap.lookup first = some a) {l : List Mapping}
    (hl : ∀ x ∈ l, x ∈ a.mappings) (hpages : s.Pages) (h : Contents n₀ s)
    (hrun : freeMappings d l s = some (true, s')) : s'.Pages ∧ Contents n₀ s' := by
  induction l generalizing s with
  | nil =>
    obtain ⟨-, rfl⟩ := Prod.mk.inj (Option.some.inj hrun)
    exact ⟨hpages, h⟩
  | cons x l ih =>
    obtain ⟨m, hm, hrun⟩ := freeMappings_cons (fun m hm =>
      h.listed_fixed hpages ha (hl x List.mem_cons_self) hm) hrun
    exact ih (s := s.dropMapping d m x.offset) ha (fun y hy => hl y (List.mem_cons_of_mem x hy))
      (hpages.drop hm (h.listed_fixed hpages ha (hl x List.mem_cons_self) hm)) (h.drop hm) hrun

/-- An allocation that lists no live mapping goes away. -/
theorem Contents.erase (h : Contents n₀ s) (hsame : SameLayout s s')
    (ha : s.allocationMap.lookup first = some a)
    (hnone : ∀ x ∈ a.mappings, s.mappingMap.lookup x.offset = none)
    (hmap : s'.mappingMap = s.mappingMap) (halloc : s'.allocationMap = s.allocationMap.erase first)
    (hnv : s'.nvmap = s.nvmap) (hgbits : s'.gmmu.bigPageBits = s.gmmu.bigPageBits)
    (hle : ∀ b page, s'.gmmu.entryOf b page = .mapped → s.gmmu.entryOf b page = .mapped) :
    Contents n₀ s' where
  apart := hsame.apart h.apart
  gmmuBits := by rw [hgbits, hsame.bits, h.gmmuBits]
  allocations off a' ha' := by
    have hne : off ≠ first := by
      rintro rfl
      rw [halloc, AList.lookup_erase] at ha'
      exact nomatch ha'
    rw [halloc, AList.lookup_erase_ne hne] at ha'
    exact hsame.holdsAllocation (h.allocations off a' ha')
  mappings off m hm := by
    rw [hmap] at hm
    have hold := h.mappings off m hm
    refine ⟨hold.offset, hold.size_pos, fun hf => ?_, fun hf => ?_⟩
    · rw [pagesOf, hsame.pageSizeOf]
      exact hsame.placed (hold.placed hf)
    · obtain ⟨first', a', ha', hle, hend, x, hx, hxo⟩ := hold.home hf
      have hne : first' ≠ first := by
        rintro rfl
        obtain rfl := Option.some.inj (ha'.symm.trans ha)
        have := hnone x hx
        rw [hxo, hm] at this
        exact nomatch this
      exact ⟨first', a', by rw [halloc, AList.lookup_erase_ne hne, ha'], hle, hend, x, hx, hxo⟩
  pins id := by rw [hnv, hmap, h.pins]
  entries b page hp := by
    obtain ⟨off, m, hm, hb, hwalk⟩ := h.entries b page (hle b page hp)
    exact ⟨off, m, hmap ▸ hm, hb, (MemoryManager.walks_congr hgbits).mpr hwalk⟩

/-- `FreeSpace` behind its loop: the allocation gives its pages back. -/
theorem finishFreeSpace_keeps {params : IoctlFreeSpace} (hpages : s.Pages) (h : Contents n₀ s)
    (ha : s.allocationMap.lookup params.offset.toNat = some a)
    (hpage : a.pageSize = params.pageSize.toNat)
    (hbytes : a.size = params.pages.toNat * params.pageSize.toNat)
    (hsafe : s.FreeSafe (params.pageSize.toNat ≠ pageSize) params.offset.toNat params.pages.toNat)
    (hnone : ∀ x ∈ a.mappings, s.mappingMap.lookup x.offset = none)
    (hfinish : s.finishFreeSpace d params a = some s') :
    s'.Pages ∧ Contents n₀ s' ∧ s'.mappingMap = s.mappingMap ∧ ∀ b page,
      s'.gmmu.entryOf b page = .mapped → s.gmmu.entryOf b page = .mapped := by
  have hold := h.allocations _ a ha
  have hbig : decide (params.pageSize.toNat ≠ pageSize) = a.bigPages := by
    rw [← hpage]
    exact hold.kind.symm
  rw [finishFreeSpace, hbig] at hfinish
  rw [hbig] at hsafe
  have hcount : a.size / s.pageSizeOf a.bigPages = params.pages.toNat := by
    rw [hbytes, ← hpage, hold.pageSize, Nat.mul_div_cancel _ pageSizeOf_pos]
  have hp := hold.placed
  rw [hcount] at hp
  obtain ⟨s2, hs2⟩ : ∃ s2 : NvhostAsGpu, s2 = { s with
    gmmu := if a.sparse then s.gmmu.unmap d params.offset.toNat a.size else s.gmmu } := ⟨_, rfl⟩
  have hgmmu : s2.gmmu.bigPageBits = s.gmmu.bigPageBits ∧ ∀ b page,
      s2.gmmu.entryOf b page = .mapped → s.gmmu.entryOf b page = .mapped := by
    rw [hs2]
    split
    · exact ⟨MemoryManager.entryOf_unmap.1, fun b page => entryOf_unmap_le⟩
    · exact ⟨rfl, fun b page hp => hp⟩
  have hal : ∀ b, s2.allocator b = s.allocator b := fun b => by
    rw [hs2]
    cases b <;> rfl
  have hlow : ∀ b, s2.lowPage b = s.lowPage b := fun b => by
    rw [hs2]
    cases b <;> rfl
  have howns : ∀ o r, s2.owns o r ↔ s.owns o r := by
    rw [hs2]
    rintro (off | off) ⟨b, page⟩
    · exact Iff.rfl
    · exact Iff.rfl
  have hsame2 : SameLayout s s2 := by
    refine ⟨by rw [hs2], fun b => by rw [hal], fun b => by rw [hal]⟩
  have hpages2 := hpages.congr hal hlow howns
  simp only [← hs2] at hfinish
  obtain ⟨s3, hfree, rfl⟩ := Option.map_eq_some_iff.mp hfinish
  have hcount2 : a.size / s2.pageSizeOf a.bigPages = params.pages.toNat := by
    rw [hsame2.pageSizeOf, hcount]
  have hsafe2 : s2.FreeSafe a.bigPages params.offset.toNat params.pages.toNat := by
    rw [FreeSafe, hal, hsame2.pageSizeOf]
    exact hsafe
  obtain ⟨al, rfl, htakes⟩ := freePages_takes hpages2 (hsame2.placed hp) hcount2 hsafe2 hfree
  have hsame : SameLayout s2 (s2.setAllocator a.bigPages al) := .setAllocator htakes.vaLimit
    htakes.virtStart setAllocator_bigPageSizeBits fun _ => rfl
  have hmap2 : (s2.setAllocator a.bigPages al).mappingMap = s.mappingMap := by
    rw [setAllocator_mappingMap, hs2]
  have halloc2 : (s2.setAllocator a.bigPages al).allocationMap = s.allocationMap := by
    rw [setAllocator_allocationMap, hs2]
  have hsame3 : SameLayout s { s2.setAllocator a.bigPages al with
      allocationMap := (s2.setAllocator a.bigPages al).allocationMap.erase params.offset.toNat } :=
    ⟨hsame.bits.trans hsame2.bits,
      fun b => Eq.trans (by cases b <;> rfl) ((hsame.vaLimit b).trans (hsame2.vaLimit b)),
      fun b => Eq.trans (by cases b <;> rfl) ((hsame.virtStart b).trans (hsame2.virtStart b))⟩
  refine ⟨hpages2.release (o := .allocation params.offset.toNat) ?_ htakes hsame.bits
      (fun b => by cases b <;> rfl) ?_,
    h.erase hsame3 ha hnone hmap2 ?_ ?_ ?_ ?_, hmap2, ?_⟩
  · rintro ⟨b, page⟩
    rw [howns]
    constructor
    · rintro ⟨a', ha', rfl, hmeets⟩
      obtain rfl := Option.some.inj (ha'.symm.trans ha)
      rw [hold.meets, hcount] at hmeets
      rw [hsame2.pageSizeOf]
      exact ⟨rfl, hmeets⟩
    · rintro ⟨rfl, hrange⟩
      rw [hsame2.pageSizeOf] at hrange
      refine ⟨a, ha, rfl, ?_⟩
      rw [hold.meets, hcount]
      exact hrange
  · rintro (off | off) ⟨b, page⟩
    · rw [howns]
      simp only [owns]
      rw [hsame3.pageSizeOf, halloc2]
      by_cases hoff : off = params.offset.toNat
      · rw [hoff, AList.lookup_erase]
        refine ⟨fun hown => ?_, fun hown => absurd rfl hown.1⟩
        obtain ⟨_, hown, -⟩ := hown
        cases hown
      · rw [AList.lookup_erase_ne hoff]
        exact ⟨fun hown => ⟨fun heq => hoff (Owner.allocation.inj heq), hown⟩, fun hown => hown.2⟩
    · rw [howns]
      simp only [owns]
      rw [hsame3.pageSizeOf, hmap2]
      exact ⟨fun hown => ⟨Owner.noConfusion, hown⟩, fun hown => hown.2⟩
  · dsimp only
    rw [halloc2]
  · dsimp only
    rw [setAllocator_nvmap, hs2]
  · dsimp only
    rw [setAllocator_gmmu, hgmmu.1]
  · intro b page hp
    rw [setAllocator_gmmu] at hp
    exact hgmmu.2 b page hp
  · intro b page hp
    rw [setAllocator_gmmu] at hp
    exact hgmmu.2 b page hp

theorem freeSpace_keeps {params : IoctlFreeSpace} (hpages : s.Pages)
    (h : Contents n₀ s) (htidy : s.TidyFree params) (hcall : s.freeSpace d params = some o)
    (hs : o.result = .success) : o.state.Pages ∧ Contents n₀ o.state ∧ Released s o.state := by
  rw [TidyFree] at htidy
  split at htidy
  · -- no allocation has pages of size 0, and the empty range changes nothing
    rename_i hsize
    obtain ⟨hpos, hfree⟩ := htidy
    have habsent : s.allocationMap.lookup params.offset.toNat = none := by
      by_contra hne
      obtain ⟨a, ha⟩ := Option.ne_none_iff_exists'.mp hne
      have hpage : a.pageSize ≠ params.pageSize.toNat := by
        rw [(h.allocations _ a ha).pageSize, hsize]
        exact pageSizeOf_pos.ne'
      rw [freeSpace_eq ha, if_pos (.inl hpage)] at hcall
      cases hcall
      exact nomatch hs
    rw [freeSpace_empty habsent hsize] at hcall
    obtain ⟨al, hal, rfl⟩ := Option.map_eq_some_iff.mp hcall
    obtain rfl := (hpages.sound true).free_empty hpos
      (by rw [hpages.vaBits true]; exact toU32_lt _) hfree hal
    exact ⟨hpages, h, .of_keeps fun _ _ hm => hm⟩
  rename_i hsize
  have hsafe := htidy
  obtain ⟨a, s1, ha, hpage, hbytes, hrun, hfinish⟩ := freeSpace_success hcall hs hsize
  obtain ⟨hpages1, h1⟩ := freeMappings_keeps ha (fun _ hx => hx) hpages h hrun
  have hfrees := freeMappings_frees (fun x hx m hm => h.listed_fixed hpages ha hx hm) hrun
  have hnone : ∀ x ∈ a.mappings, s1.mappingMap.lookup x.offset = none := fun x hx =>
    hfrees.lookup_mem _ (List.mem_map_of_mem hx)
  have hsafe1 : s1.FreeSafe (params.pageSize.toNat ≠ pageSize) params.offset.toNat
      params.pages.toNat := by
    rw [FreeSafe, hfrees.allocator, pageSizeOf, pageSizeBits, hfrees.bits]
    exact hsafe
  obtain ⟨hpages', h', hmap, hle⟩ := finishFreeSpace_keeps hpages1 h1
    (by rw [hfrees.allocationMap, ha]) hpage hbytes hsafe1 hnone hfinish
  refine ⟨hpages', h', fun off m hm hgone page hwalk hmapped => ?_⟩
  rw [hmap] at hgone
  have hin : off ∈ a.mappings.map Mapping.offset := by
    by_contra hout
    exact hgone ((hfrees.lookup_not_mem off hout).trans hm)
  exact hfrees.released off hin m hm page hwalk (hle _ _ hmapped)

/-! ## 9. MapBufferEx -/

theorem usedPageBits_eq (h : s.gmmu.bigPageBits = s.bigPageSizeBits) :
    s.gmmu.usedPageBits big = s.pageSizeBits big := by
  rw [MemoryManager.usedPageBits, pageSizeBits, h]

theorem walks_alignedSize (h : s.gmmu.bigPageBits = s.bigPageSizeBits)
    (hlt : alignUp size (s.pageSizeOf big) < 2 ^ 64) :
    s.gmmu.Walks big off (s.alignedSize big size) page ↔ s.gmmu.Walks big off size page := by
  rw [MemoryManager.Walks, MemoryManager.Walks, usedPageBits_eq h, alignedSize,
    Nat.mod_eq_of_lt hlt, alignUp_eq_mul, ← pageSizeOf, rounds_mul pageSizeOf_pos]

/-- A new mapping at an offset where none is. -/
theorem Contents.insert (h : Contents n₀ s) (hsame : SameLayout s s')
    (hoff : s.mappingMap.lookup off = none) (hmap : s'.mappingMap = s.mappingMap.insert off m)
    (hnew : s'.HoldsMapping off m)
    (halloc : ∀ first a, s'.allocationMap.lookup first = some a → s'.HoldsAllocation first a)
    (hkeep : ∀ first a, s.allocationMap.lookup first = some a → ∃ a',
      s'.allocationMap.lookup first = some a' ∧ a'.size = a.size ∧ ∀ x ∈ a.mappings, x ∈ a'.mappings)
    (hpins : ∀ id, s'.nvmap.pinsOf id = (s.nvmap.pinsOf id).map (· + if id = m.handle then 1 else 0))
    (hgbits : s'.gmmu.bigPageBits = s.gmmu.bigPageBits)
    (hentry : ∀ b page, s'.gmmu.entryOf b page = .mapped → s.gmmu.entryOf b page = .mapped ∨
      (b = m.bigPage ∧ s.gmmu.Walks m.bigPage off m.size page)) : Contents n₀ s' where
  apart := hsame.apart h.apart
  gmmuBits := by rw [hgbits, hsame.bits, h.gmmuBits]
  allocations := halloc
  mappings off' m' hm' := by
    rw [hmap] at hm'
    by_cases hne : off' = off
    · subst hne
      rw [AList.lookup_insert] at hm'
      obtain rfl := Option.some.inj hm'
      exact hnew
    · rw [AList.lookup_insert_ne hne] at hm'
      exact hsame.holdsMapping (h.mappings off' m' hm') hkeep
  pins id := by
    rw [hpins, h.pins, hmap, liveMappings_insert hoff, Option.map_map]
    congr 1
    funext k
    rw [Function.comp_apply]
    split <;> omega
  entries b page hp := by
    rw [hmap]
    rcases hentry b page hp with hold | ⟨rfl, hwalk⟩
    · obtain ⟨off', m', hm', hb, hwalk⟩ := h.entries b page hold
      have hne : off' ≠ off := by
        rintro rfl
        rw [hoff] at hm'
        exact nomatch hm'
      exact ⟨off', m', (AList.lookup_insert_ne hne).trans hm', hb,
        (MemoryManager.walks_congr hgbits).mpr hwalk⟩
    · exact ⟨off, m, AList.lookup_insert _, rfl, (MemoryManager.walks_congr hgbits).mpr hwalk⟩

theorem lookup_insert_keeps {m' : Mapping} (hoff : s.mappingMap.lookup off = none) :
    ∀ off' m, s.mappingMap.lookup off' = some m → (s.mappingMap.insert off m').lookup off' = some m := by
  intro off' m hm
  have hne : off' ≠ off := by
    rintro rfl
    rw [hoff] at hm
    exact nomatch hm
  rwa [AList.lookup_insert_ne hne]

theorem sameLayout_gmmu {g : MemoryManager} : SameLayout s { s with gmmu := g } :=
  ⟨rfl, fun b => by cases b <;> rfl, fun b => by cases b <;> rfl⟩

variable {params : IoctlMapBufferEx}

theorem remapBuffer_keeps (hpages : s.Pages) (h : Contents n₀ s)
    (hwalks : ∀ m, s.mappingMap.lookup params.offset.toNat = some m → ∀ page,
      s.gmmu.Walks m.bigPage ((params.offset.toNat + params.bufferOffset.toNat) % 2 ^ 64)
        params.mappingSize.toNat page → s.gmmu.Walks m.bigPage params.offset.toNat m.size page)
    (hs : (s.remapBuffer d params).result = .success) :
    (s.remapBuffer d params).state.Pages ∧ Contents n₀ (s.remapBuffer d params).state ∧
      Released s (s.remapBuffer d params).state := by
  obtain ⟨m, hm, hstate⟩ := remapBuffer_success hs
  rw [hstate]
  refine ⟨hpages.congr (fun b => by cases b <;> rfl) (fun b => by cases b <;> rfl) ?_,
    ⟨h.apart, MemoryManager.entryOf_map.1.trans h.gmmuBits, fun off a ha => ?_, fun off m' hm' => ?_,
      h.pins, fun b page hp => ?_⟩, .of_keeps fun _ _ hm => hm⟩
  · rintro (off | off) ⟨b, page⟩
    · exact Iff.rfl
    · exact Iff.rfl
  · exact sameLayout_gmmu.holdsAllocation (h.allocations off a ha)
  · exact sameLayout_gmmu.holdsMapping (h.mappings off m' hm') fun first a ha =>
      ⟨a, ha, rfl, fun _ hx => hx⟩
  · rw [MemoryManager.entryOf_map.2] at hp
    split at hp
    · rename_i hin
      obtain ⟨rfl, hwalk⟩ := hin
      exact ⟨_, m, hm, rfl,
        (MemoryManager.walks_congr MemoryManager.entryOf_map.1).mpr (hwalks m hm page hwalk)⟩
    · obtain ⟨off', m', hm', hb, hwalk⟩ := h.entries b page hp
      exact ⟨off', m', hm', hb, (MemoryManager.walks_congr MemoryManager.entryOf_map.1).mpr hwalk⟩

variable {placement : Placement}

/-- A mapping at a given offset, behind the pin. -/
theorem mapFixed_keeps {pin : Nat × NvMap} {dev : Nat} {bigPage : Bool}
    (hpages : s.Pages) (h : Contents n₀ s) (hpos : 0 < size)
    (hpin : s.nvmap.pinHandle placement params.handle = some pin)
    (hoff : s.mappingMap.lookup params.offset.toNat = none)
    (hwrap : ∀ first a, s.allocationBelow params.offset.toNat = some (first, a) →
      params.offset.toNat - first + size < 2 ^ 64)
    (hs : (({ s with nvmap := pin.2 } : NvhostAsGpu).mapFixed d params dev size bigPage).result =
      .success) :
    (({ s with nvmap := pin.2 } : NvhostAsGpu).mapFixed d params dev size bigPage).state.Pages ∧
    Contents n₀ (({ s with nvmap := pin.2 } : NvhostAsGpu).mapFixed d params dev size bigPage).state ∧
    Released s (({ s with nvmap := pin.2 } : NvhostAsGpu).mapFixed d params dev size bigPage).state :=
    by
  obtain ⟨first, a, hbelow, hend, hstate⟩ := mapFixed_success hs
  obtain ⟨ha, hle⟩ := allocationBelow_some hbelow
  rw [endInside, Nat.mod_eq_of_lt (hwrap first a hbelow)] at hend
  have ha' : s.allocationMap.lookup first = some a := ha
  have hold := h.allocations first a ha'
  rw [hstate]
  obtain ⟨m, hm⟩ : ∃ m : Mapping, m = ⟨params.handle, dev, params.offset.toNat, size, true,
    a.bigPages && bigPage, a.sparse⟩ := ⟨_, rfl⟩
  rw [← hm]
  obtain ⟨s', hs'⟩ : ∃ s', s' = ({ s with
      nvmap := pin.2
      gmmu := s.gmmu.map d params.offset.toNat dev size (a.bigPages && bigPage)
      allocationMap := s.allocationMap.insert first { a with mappings := a.mappings ++ [m] }
      mappingMap := s.mappingMap.insert params.offset.toNat m } : NvhostAsGpu) := ⟨_, rfl⟩
  have hal : ∀ b, s'.allocator b = s.allocator b := fun b => by
    rw [hs']
    cases b <;> rfl
  have hlow : ∀ b, s'.lowPage b = s.lowPage b := fun b => by
    rw [hs']
    cases b <;> rfl
  have hmap : s'.mappingMap = s.mappingMap.insert params.offset.toNat m := by rw [hs']
  have halloc : s'.allocationMap =
      s.allocationMap.insert first { a with mappings := a.mappings ++ [m] } := by rw [hs']
  have hsame : SameLayout s s' := ⟨by rw [hs'], fun b => by rw [hal], fun b => by rw [hal]⟩
  have hkeep : ∀ first' b, s.allocationMap.lookup first' = some b → ∃ b',
      s'.allocationMap.lookup first' = some b' ∧ b'.size = b.size ∧
        ∀ x ∈ b.mappings, x ∈ b'.mappings := fun first' b hb => by
    by_cases hne : first' = first
    · subst hne
      obtain rfl := Option.some.inj (ha'.symm.trans hb)
      exact ⟨{ a with mappings := a.mappings ++ [m] }, by rw [halloc, AList.lookup_insert], rfl,
        fun x hx => List.mem_append_left _ hx⟩
    · exact ⟨b, by rw [halloc, AList.lookup_insert_ne hne, hb], rfl, fun _ hx => hx⟩
  suffices hgoal : s'.Pages ∧ Contents n₀ s' ∧ Released s s' by
    rw [hs'] at hgoal
    exact hgoal
  refine ⟨hpages.congr hal hlow ?_, h.insert hsame hoff hmap ?_ ?_ hkeep ?_ ?_ ?_,
    .of_keeps fun off m' hm' => hmap ▸ lookup_insert_keeps hoff off m' hm'⟩
  · -- the allocation owns what it did, the fixed mapping nothing
    rintro (off' | off') ⟨b, page⟩
    · simp only [owns]
      rw [halloc, hsame.pageSizeOf]
      by_cases hne : off' = first
      · rw [hne, AList.lookup_insert, ha']
        exact ⟨fun ⟨x, hx, hb, hmeets⟩ => by obtain rfl := Option.some.inj hx; exact ⟨a, rfl, hb, hmeets⟩,
          fun ⟨x, hx, hb, hmeets⟩ => by obtain rfl := Option.some.inj hx; exact ⟨_, rfl, hb, hmeets⟩⟩
      · rw [AList.lookup_insert_ne hne]
    · simp only [owns]
      rw [hmap, hsame.pageSizeOf]
      by_cases hne : off' = params.offset.toNat
      · rw [hne, AList.lookup_insert, hoff]
        refine ⟨fun ⟨x, hx, hf, _⟩ => ?_, fun ⟨x, hx, _⟩ => (nomatch hx)⟩
        obtain rfl := Option.some.inj hx
        rw [hm] at hf
        exact absurd hf Bool.noConfusion
      · rw [AList.lookup_insert_ne hne]
  · refine ⟨by rw [hm], by rw [hm]; exact hpos, fun hf => ?_, fun _ => ?_⟩
    · rw [hm] at hf
      exact absurd hf Bool.noConfusion
    · refine ⟨first, _, by rw [halloc, AList.lookup_insert], hle, ?_, m, ?_, by rw [hm]⟩
      · rw [hm]
        dsimp only
        omega
      · exact List.mem_append_right _ List.mem_cons_self
  · intro first' b hb
    rw [halloc] at hb
    by_cases hne : first' = first
    · subst hne
      rw [AList.lookup_insert] at hb
      obtain rfl := Option.some.inj hb
      refine hsame.holdsAllocation ⟨hold.pageSize, hold.kind, hold.whole, hold.placed, fun x hx => ?_⟩
      rcases List.mem_append.mp hx with hx | hx
      · exact hold.listed x hx
      · rw [List.mem_singleton.mp hx, hm]
        dsimp only
        omega
    · rw [AList.lookup_insert_ne hne] at hb
      exact hsame.holdsAllocation (h.allocations first' b hb)
  · intro id
    rw [hs', hm]
    exact NvMap.pinsOf_pinHandle hpin
  · rw [hs']
    exact MemoryManager.entryOf_map.1
  · intro b page hp
    rw [hs'] at hp
    rw [MemoryManager.entryOf_map.2] at hp
    split at hp
    · rename_i hin
      rw [hm]
      exact .inr hin
    · exact .inl hp

/-- A mapping where the allocator finds room, behind the pin. -/
theorem mapAnywhere_keeps {pin : Nat × NvMap}
    {dev : Nat} (hpages : s.Pages) (h : Contents n₀ s) (hpos : 0 < size)
    (hpin : s.nvmap.pinHandle placement params.handle = some pin)
    (hlt : alignUp size (s.pageSizeOf big) < 2 ^ 64) (hcount : s.pagesOf big size < 2 ^ 32)
    (hsafe : (s.allocator big).AllocSafe (s.pagesOf big size))
    (hcall : ({ s with nvmap := pin.2 } : NvhostAsGpu).mapAnywhere d params dev size big = some o)
    (hs : o.result = .success) : o.state.Pages ∧ Contents n₀ o.state ∧ Released s o.state := by
  obtain ⟨start, al, halloc, hne, hstate⟩ := mapAnywhere_success hcall hs
  have hsize : toU32 (s.alignedSize big size >>> s.pageSizeBits big) = s.pagesOf big size := by
    rw [alignedSize, Nat.mod_eq_of_lt hlt, alignUp_eq_mul, shiftRight_pageSizeBits,
      Nat.mul_div_cancel _ pageSizeOf_pos, toU32]
    exact Nat.mod_eq_of_lt hcount
  have hsize' : toU32 (({ s with nvmap := pin.2 } : NvhostAsGpu).alignedSize big size >>>
      ({ s with nvmap := pin.2 } : NvhostAsGpu).pageSizeBits big) = s.pagesOf big size := hsize
  have hal0 : ({ s with nvmap := pin.2 } : NvhostAsGpu).allocator big = s.allocator big := by
    cases big <;> rfl
  rw [hsize', hal0] at halloc
  have hoffset : start <<< ({ s with nvmap := pin.2 } : NvhostAsGpu).pageSizeBits big =
      start * s.pageSizeOf big := Nat.shiftLeft_eq _ _
  rw [hoffset] at hne hstate
  have hstart : start ≠ 0 := fun hz => hne (by rw [hz, Nat.zero_mul])
  have hcount_pos : 0 < s.pagesOf big size := rounds_pos pageSizeOf_pos hpos
  obtain ⟨hfree, hgrants⟩ := (hpages.sound big).allocate hcount_pos
    (by rw [hpages.vaBits big]; exact hcount) hsafe halloc hstart
  have hpage : start * s.pageSizeOf big / s.pageSizeOf big = start :=
    Nat.mul_div_cancel _ pageSizeOf_pos
  have hp : s.Placed big (start * s.pageSizeOf big) (s.pagesOf big size) :=
    ⟨Dvd.intro_left _ rfl, Nat.pos_of_ne_zero hne, Nat.mul_le_mul_right _ hgrants.low_le, hcount_pos,
      by rw [hpage]; exact hgrants.fits⟩
  have hoff := h.no_mapping hpages hp
    (by rw [hpage]; exact hfree start le_rfl (Nat.lt_add_of_pos_right hcount_pos))
  obtain ⟨m, hm⟩ : ∃ m : Mapping, m =
    ⟨params.handle, dev, start * s.pageSizeOf big, size, false, big, false⟩ := ⟨_, rfl⟩
  rw [← hm] at hstate
  obtain ⟨s', hs'⟩ : ∃ s', s' = o.state := ⟨_, rfl⟩
  rw [← hs'] at hstate ⊢
  have hal : ∀ b, s'.allocator b = (s.setAllocator big al).allocator b := fun b => by
    rw [hstate]
    cases big <;> cases b <;> rfl
  have hbits : s'.bigPageSizeBits = s.bigPageSizeBits := by
    rw [hstate]
    exact setAllocator_bigPageSizeBits
  have hmap : s'.mappingMap = s.mappingMap.insert (start * s.pageSizeOf big) m := by rw [hstate]
  have halloc' : s'.allocationMap = s.allocationMap := by
    rw [hstate]
    exact setAllocator_allocationMap
  have hnv : s'.nvmap = pin.2 := by
    rw [hstate]
    exact setAllocator_nvmap
  have hgmmu : s'.gmmu = s.gmmu.map d (start * s.pageSizeOf big) dev (s.alignedSize big size) big := by
    rw [hstate]
    rfl
  have hsame : SameLayout s s' := .setAllocator hgrants.vaLimit hgrants.virtStart hbits hal
  refine ⟨hpages.grant (o := .mapping (start * s.pageSizeOf big)) hfree hgrants hbits hal ?_,
    h.insert hsame hoff hmap ?_ (fun first a ha => ?_) (fun first a ha => ?_) (fun id => ?_) ?_ ?_,
    .of_keeps fun off m' hm' => hmap ▸ lookup_insert_keeps hoff off m' hm'⟩
  · -- the new mapping owns the new pages
    rintro (off' | off') ⟨b, page⟩
    · simp only [owns]
      rw [halloc', hsame.pageSizeOf]
      exact ⟨.inr, fun hor => hor.resolve_left fun hl => nomatch hl.1⟩
    · simp only [owns]
      rw [hmap, hsame.pageSizeOf]
      by_cases hne : off' = start * s.pageSizeOf big
      · subst hne
        rw [AList.lookup_insert, hoff]
        constructor
        · rintro ⟨x, hx, -, hb, hmeets⟩
          obtain rfl := Option.some.inj hx
          rw [hm] at hb hmeets
          obtain rfl : big = b := hb
          have hrange := (hp.meets rfl).mp hmeets
          rw [hpage] at hrange
          exact .inl ⟨rfl, rfl, hrange⟩
        · rintro (⟨-, hb, hrange⟩ | ⟨x, hx, -⟩)
          · obtain rfl : b = big := hb
            refine ⟨m, rfl, by rw [hm], by rw [hm], ?_⟩
            rw [hm]
            refine (hp.meets rfl).mpr ?_
            rw [hpage]
            exact hrange
          · exact nomatch hx
      · rw [AList.lookup_insert_ne hne]
        exact ⟨.inr, fun hor => hor.resolve_left fun hl => hne (Owner.mapping.inj hl.1)⟩
  · refine ⟨by rw [hm], by rw [hm]; exact hpos, fun _ => ?_, fun hf => ?_⟩
    · rw [pagesOf, hsame.pageSizeOf, hm]
      exact hsame.placed hp
    · rw [hm] at hf
      exact absurd hf Bool.noConfusion
  · exact hsame.holdsAllocation (h.allocations first a (halloc' ▸ ha))
  · exact ⟨a, halloc' ▸ ha, rfl, fun _ hx => hx⟩
  · rw [hnv, hm]
    exact NvMap.pinsOf_pinHandle hpin
  · rw [hgmmu]
    exact MemoryManager.entryOf_map.1
  · intro b page hmapped
    rw [hgmmu, MemoryManager.entryOf_map.2] at hmapped
    split at hmapped
    · rename_i hin
      rw [hm]
      exact .inr ⟨hin.1, (walks_alignedSize h.gmmuBits hlt).mp hin.2⟩
    · exact .inl hmapped

theorem mapBufferEx_keeps (hpages : s.Pages) (h : Contents n₀ s) (htidy : s.TidyMap params)
    (hcall : s.mapBufferEx d params placement = some o) (hs : o.result = .success) :
    o.state.Pages ∧ Contents n₀ o.state ∧ Released s o.state := by
  rw [TidyMap] at htidy
  rcases mapBufferEx_success hcall hs with ⟨hremap, rfl⟩ | ⟨hremap, handle, pin, hhandle, hpin, ho⟩
  · rw [if_pos hremap] at htidy
    exact remapBuffer_keeps hpages h htidy hs
  · rw [if_neg (by rw [hremap]; exact Bool.false_ne_true)] at htidy
    have htidy := htidy handle hhandle
    split at ho
    · rename_i hfixed
      rw [if_pos hfixed] at htidy
      obtain rfl := Option.some.inj ho
      exact mapFixed_keeps hpages h mappedSize_pos hpin htidy.1 htidy.2 hs
    · rename_i hfixed
      rw [if_neg hfixed] at htidy
      exact mapAnywhere_keeps hpages h mappedSize_pos hpin htidy.1 htidy.2.1 htidy.2.2 ho hs

/-! ## 10. Runs -/

theorem call_keeps {op : Ioctl} (hpages : s.Pages) (h : Contents n₀ s)
    (htidy : s.Tidy op) (hcall : s.call d op = some o) (hs : o.result = .success) :
    o.state.Pages ∧ Contents n₀ o.state ∧ Released s o.state := by
  cases op with
  | allocAsEx params =>
    obtain rfl := Option.some.inj hcall
    exact nomatch hs
  | allocateSpace params => exact allocateSpace_keeps hpages h htidy hcall hs
  | freeSpace params => exact freeSpace_keeps hpages h htidy hcall hs
  | mapBufferEx params placement => exact mapBufferEx_keeps hpages h htidy hcall hs
  | unmapBuffer offset => exact unmapBuffer_keeps hpages h htidy hcall
  | remap entries => exact nomatch htidy

theorem balanced_of (hpages : s.Pages) (h : Contents n₀ s) : s.Balanced n₀ where
  pages big page := by
    rw [show (s.allocator big).Allocated page ↔ s.held (big, page) from Iff.rfl, hpages.ledger.held_iff]
    constructor
    · rintro ⟨off | off, hown⟩
      · exact .inl ⟨off, hown⟩
      · exact .inr ⟨off, hown⟩
    · rintro (⟨off, hown⟩ | ⟨off, hown⟩)
      · exact ⟨.allocation off, hown⟩
      · exact ⟨.mapping off, hown⟩
  pins := h.pins
  entries := h.entries
  homes off m hm hf := by
    obtain ⟨first, a, ha, hle, hend, -⟩ := (h.mappings off m hm).home hf
    exact ⟨first, a, ha, hle, hend⟩

end NvhostAsGpu

/-- The invariant of a device: before `AllocAsEx` its `nvmap` is the one it started with. -/
def Device.Kept (n₀ : NvMap) : Device → Prop
  | .uninitialised n => n = n₀
  | .initialised s => s.Pages ∧ s.Contents n₀

open NvhostAsGpu in
theorem makeSpace_keeps {n₀ : NvMap} {s : NvhostAsGpu} {bits start split stop : Nat}
    (hapart : toU32 (split >>> pageBits) * pageSize ≤ toU32 (split >>> bits) * 2 ^ bits)
    (hs : makeSpace n₀ bits start split stop = some s) : s.Pages ∧ s.Contents n₀ := by
  rw [makeSpace] at hs
  split at hs
  case isFalse => cases hs
  case isTrue hbits =>
    obtain rfl := Option.some.inj hs
    have hnone : ∀ b page, ¬ ((⟨bits, makeAllocator (start >>> pageBits) (split >>> pageBits),
        makeAllocator (split >>> bits) (((stop + 2 ^ 64 - split) % 2 ^ 64) >>> bits),
        .init (Nat.clog 2 stop) bits hbits.1 hbits.2, ∅, ∅, n₀⟩ : NvhostAsGpu).allocator b).Allocated
          page := fun b page => by
      cases b
      · exact FlatAllocator.not_allocated_make
      · exact FlatAllocator.not_allocated_make
    refine ⟨⟨⟨fun unit => ?_, fun o o' r ho => ?_⟩, fun b => ?_, fun b => ?_⟩, hapart, rfl,
      fun off a ha => ?_, fun off m hm => ?_, fun id => ?_, fun b page hp => ?_⟩
    · obtain ⟨b, page⟩ := unit
      refine ⟨fun hheld => absurd hheld (hnone b page), fun hown => ?_⟩
      obtain ⟨off | off, x, hx, -⟩ := hown
      · cases hx
      · cases hx
    · rcases o with off | off
      · obtain ⟨_, hx, -⟩ := ho
        cases hx
      · obtain ⟨_, hx, -⟩ := ho
        cases hx
    · cases b
      · exact FlatAllocator.sound_make (toU32_lt _) (Nat.zero_le _)
      · exact FlatAllocator.sound_make (toU32_lt _) le_rfl
    · cases b <;> rfl
    · cases ha
    · cases hm
    · cases hpin : n₀.pinsOf id with
      | none => rfl
      | some k =>
        exact congrArg some (add_zero k).symm
    · rw [MemoryManager.entryOf_init] at hp
      cases hp

open NvhostAsGpu in
/-- A tidy call of the device that succeeds keeps the books. -/
theorem Device.ioctl_keeps {n₀ : NvMap} {d : DeviceMemory} {v : Device} {op : Ioctl}
    {o : Outcome Device} (h : v.Kept n₀) (htidy : v.Tidy op) (hcall : v.ioctl d op = some o)
    (hs : o.result = .success) : o.state.Kept n₀ := by
  cases v with
  | uninitialised n =>
    obtain rfl : n = n₀ := h
    cases op with
    | allocAsEx params =>
      rw [Device.ioctl, Yuzu.Service.allocAsEx] at hcall
      split at hcall
      · cases hcall
        cases hs
      · obtain ⟨s, hmake, rfl⟩ := Option.map_eq_some_iff.mp hcall
        exact makeSpace_keeps htidy hmake
    | _ =>
      cases hcall
      cases hs
  | initialised s =>
    obtain ⟨r, hr, rfl⟩ := Option.map_eq_some_iff.mp hcall
    obtain ⟨hpages, hcontents, -⟩ := call_keeps h.1 h.2 htidy hr hs
    exact ⟨hpages, hcontents⟩

/-- A step of a run: the call succeeds, and meets its condition. -/
def Device.TidySuccess (v : Device) (op : Ioctl) (o : Outcome Device) : Prop :=
  o.result = .success ∧ v.Tidy op

open NvhostAsGpu in
/-- **The books over runs.** After every run of calls that succeed and meet their conditions the
books agree, and a further such call releases the pages of the mappings it takes away. -/
theorem balanced_after_tidy_calls (d : DeviceMemory) (n₀ : NvMap) (ops : List Ioctl) (s : NvhostAsGpu)
    (hrun : PartialRun (Device.ioctl d) Outcome.state Device.TidySuccess (.uninitialised n₀) ops
      (.initialised s)) :
    s.Balanced n₀ ∧ ∀ op o, s.Tidy op → s.call d op = some o → o.result = .success →
      Released s o.state := by
  obtain ⟨hpages, h⟩ : (Device.initialised s).Kept n₀ :=
    hrun.invariant (Device.Kept n₀) (fun v op o hv hcall hP => Device.ioctl_keeps hv hP.2 hcall hP.1)
      rfl
  exact ⟨balanced_of hpages h, fun op o htidy hcall hs => (call_keeps hpages h htidy hcall hs).2.2⟩

/-! ## 11. Two runs -/

open NvhostAsGpu in
/-- Two pages are mapped and unmapped. -/
theorem balanced_after_two_pages : ∃ s,
    PartialRun (Device.ioctl identityMemory) Outcome.state Device.TidySuccess (.uninitialised oneHandle)
      [.allocAsEx {}, .mapBufferEx { handle := 1, mappingSize := 0x2000 } (.heap 0x10000),
        .unmapBuffer 0x8000000] (.initialised s) ∧ s.Balanced oneHandle := by
  have hsplit : IoctlAllocAsEx.SplitApart {} := by
    rw [IoctlAllocAsEx.SplitApart]
    decide
  have hmap : (defaultSpace oneHandle).TidyMap { handle := 1, mappingSize := 0x2000 } := by
    intro handle hhandle
    obtain rfl := Option.some.inj hhandle
    exact ⟨by decide, by decide, by decide⟩
  have hrun : ∃ s, PartialRun (Device.ioctl identityMemory) Outcome.state Device.TidySuccess
      (.uninitialised oneHandle)
      [.allocAsEx {}, .mapBufferEx { handle := 1, mappingSize := 0x2000 } (.heap 0x10000),
        .unmapBuffer 0x8000000] (.initialised s) := by
    refine ⟨_, .cons (allocAsEx_default oneHandle) ⟨rfl, hsplit⟩ (.cons rfl ⟨rfl, hmap⟩
      (.cons rfl ⟨rfl, fun m hm _ => ?_⟩ (.nil _)))⟩
    obtain rfl := Option.some.inj hm
    exact ⟨by decide, by unfold FreeSafe; decide⟩
  obtain ⟨s, hrun⟩ := hrun
  exact ⟨s, hrun, (balanced_after_tidy_calls _ _ _ _ hrun).1⟩

open NvhostAsGpu in
/-- A page and a half is mapped and unmapped: the second page stays allocated, and belongs to
nobody. -/
theorem page_stays_allocated : ∃ s,
    PartialRun (Device.ioctl identityMemory) Outcome.state (fun _ _ o => o.result = .success)
      (.uninitialised oneHandle)
      [.allocAsEx {}, .mapBufferEx { handle := 1 } (.heap 0x10000), .unmapBuffer 0x8000000]
      (.initialised s) ∧
    (s.allocator false).Allocated 0x8001 ∧ s.allocationMap.entries = [] ∧ s.mappingMap.entries = [] ∧
    ¬ s.Balanced oneHandle := by
  have hrun : ∃ s, PartialRun (Device.ioctl identityMemory) Outcome.state
      (fun _ _ o => o.result = .success) (.uninitialised oneHandle)
      [.allocAsEx {}, .mapBufferEx { handle := 1 } (.heap 0x10000), .unmapBuffer 0x8000000]
      (.initialised s) ∧ (s.allocator false).Allocated 0x8001 ∧ s.allocationMap.entries = [] ∧
      s.mappingMap.entries = [] := by
    refine ⟨_, .cons (allocAsEx_default oneHandle) rfl (.cons rfl rfl (.cons rfl rfl (.nil _))), ?_,
      rfl, rfl⟩
    unfold FlatAllocator.Allocated
    decide
  obtain ⟨s, hrun, hall, halloc, hmap⟩ := hrun
  refine ⟨s, hrun, hall, halloc, hmap, fun hbal => ?_⟩
  rcases (hbal.pages false 0x8001).mp hall with ⟨off, a, ha, -⟩ | ⟨off, m, hm, -⟩
  · rw [AList.lookup, halloc] at ha
    exact nomatch ha
  · rw [AList.lookup, hmap] at hm
    exact nomatch hm

end Yuzu.Service
