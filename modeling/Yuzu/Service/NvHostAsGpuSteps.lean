/-
  File:      Yuzu/Service/NvHostAsGpuSteps.lean
  Subject:   nvhost_as_gpu: what one call changes.

  First the books one at a time (the pins, the maps, the page table entries of a mapping that goes
  away), then one lemma for each call that says what its success leaves behind.
-/
import Yuzu.Lib.Trace
import Yuzu.Service.NvHostAsGpu
import Yuzu.VideoCore.PageEntries

namespace Yuzu.Service

open List Option Function

open Yuzu.Common (FlatAllocator alignUp)
open Yuzu.Core (DeviceMemory)
open Yuzu.VideoCore (MemoryManager EntryType pageBits pageSize)

/-! ## 1. Pins -/

namespace NvMap

/-- The pin count of a handle. -/
def pinsOf (n : NvMap) (id : HandleId) : Option Int := (n.handles id).map NvMapHandle.pins

variable {n n' : NvMap} {id j : HandleId} {h : NvMapHandle} {placement : Placement} {a dAddress : Nat}

theorem pinsOf_setHandle : (n.setHandle id h).pinsOf j = if j = id then some h.pins else n.pinsOf j := by
  rw [pinsOf, setHandle]
  dsimp only
  by_cases hj : j = id
  · rw [hj, update_self, if_pos rfl]
    rfl
  · rw [update_of_ne hj, if_neg hj]
    rfl

theorem pinsOf_some (hh : n.handles id = some h) : n.pinsOf id = some h.pins := by rw [pinsOf, hh]; rfl

theorem pinsOf_unmapHandle : (n.unmapHandle id).pinsOf j = n.pinsOf j := by
  rw [unmapHandle]
  split
  · rfl
  · rename_i h hh
    rw [pinsOf_setHandle]
    split
    · rename_i hj
      rw [hj, pinsOf_some hh]
    · rfl

theorem pinsOf_allocateDevice {answers : List Nat} (hr : allocateDevice dAddress answers n = some (a, n')) :
    n'.pinsOf j = n.pinsOf j := by
  induction answers generalizing n with
  | nil => exact nomatch hr
  | cons address answers ih =>
    rw [allocateDevice] at hr
    split at hr
    · rw [(Prod.mk.inj (some.inj hr)).2]
    · split at hr
      · exact nomatch hr
      · rw [ih hr]
        split
        · exact pinsOf_unmapHandle
        · rfl

theorem pinsOf_place {inHeap : Bool} (hr : place dAddress placement n = some (a, inHeap, n')) :
    n'.pinsOf j = n.pinsOf j := by
  cases placement with
  | heap address =>
    obtain ⟨-, hr⟩ := Prod.mk.inj (some.inj hr)
    rw [(Prod.mk.inj hr).2]
  | smmu answers =>
    obtain ⟨r, hr', heq⟩ := map_eq_some_iff.mp hr
    obtain ⟨-, heq⟩ := Prod.mk.inj heq
    rw [← (Prod.mk.inj heq).2]
    exact pinsOf_allocateDevice (a := r.1) hr'

theorem pinsOf_bump {n : NvMap} {k : Int} (hn : ∀ j, n'.pinsOf j = n.pinsOf j)
    (hh : n.handles id = some h) (h' : NvMapHandle) (hpins : h'.pins = h.pins + k) :
    (n'.setHandle id h').pinsOf j = (n.pinsOf j).map (· + if j = id then k else 0) := by
  rw [pinsOf_setHandle, hn]
  by_cases hj : j = id
  · rw [hj, if_pos rfl, pinsOf_some hh, hpins, if_pos rfl]
    rfl
  · rw [if_neg hj, if_neg hj]
    cases n.pinsOf j with
    | none => rfl
    | some k => rw [map_some, add_zero]

/-- **A pin** counts for its handle, and for no other. -/
theorem pinsOf_pinHandle (hr : pinHandle placement id n = some (a, n')) :
    n'.pinsOf j = (n.pinsOf j).map (· + if j = id then 1 else 0) := by
  rw [pinHandle] at hr
  split at hr
  · rename_i hnone
    obtain ⟨-, rfl⟩ := Prod.mk.inj (some.inj hr)
    by_cases hj : j = id
    · rw [hj, pinsOf, hnone]
      rfl
    · rw [if_neg hj]
      cases n.pinsOf j with
      | none => rfl
      | some k => rw [map_some, add_zero]
  · rename_i h hh
    split at hr
    · obtain ⟨-, rfl⟩ := Prod.mk.inj (some.inj hr)
      exact pinsOf_bump (fun _ => rfl) hh _ rfl
    · split at hr
      · obtain ⟨-, rfl⟩ := Prod.mk.inj (some.inj hr)
        exact pinsOf_bump (fun _ => rfl) hh _ rfl
      · obtain ⟨⟨address, inHeap, n1⟩, hplace, hr⟩ := bind_eq_some_iff.mp hr
        obtain ⟨-, rfl⟩ := Prod.mk.inj (some.inj hr)
        exact pinsOf_bump (fun _ => pinsOf_place hplace) hh _ rfl

theorem pinsOf_unpinHandle :
    (n.unpinHandle id).pinsOf j = (n.pinsOf j).map (· + if j = id then -1 else 0) := by
  rw [unpinHandle]
  split
  · rename_i hnone
    by_cases hj : j = id
    · rw [hj, pinsOf, hnone]
      rfl
    · rw [if_neg hj]
      cases n.pinsOf j with
      | none => rfl
      | some k => rw [map_some, add_zero]
  · rename_i h hh
    dsimp only
    split
    · exact @NvMap.pinsOf_bump n _ _ _ _ _ (fun _ => rfl) hh ⟨h.align, h.origSize, h.origSize_pos, h.pins - 1,
        h.dAddress, h.pinVirtAddress, h.inHeap⟩
          rfl
    · exact @NvMap.pinsOf_bump n _ _ _ _ _ (fun _ => rfl) hh _ rfl

end NvMap

/-! ## 2. The map of mappings -/

section Live

variable {m : AList fun _ : Nat => Mapping} {off : Nat} {x : Mapping} {id : HandleId}

/-- How many live mappings a handle has. -/
def liveMappings (m : AList fun _ : Nat => Mapping) (id : HandleId) : Nat :=
  m.entries.countP fun e => id = e.2.handle

theorem liveMappings_insert (h : m.lookup off = none) :
    liveMappings (m.insert off x) id = liveMappings m id + if id = x.handle then 1 else 0 := by
  rw [liveMappings, AList.entries_insert_of_notMem (AList.lookup_eq_none.mp h), countP_cons, liveMappings]
  simp only [decide_eq_true_eq]

theorem liveMappings_erase (h : m.lookup off = some x) :
    liveMappings m id = liveMappings (m.erase off) id + if id = x.handle then 1 else 0 := by
  have hmem : off ∈ m := AList.lookup_isSome.mp (by rw [h]; rfl)
  obtain ⟨y, l1, l2, hl1, heq, hker⟩ := exists_of_kerase (AList.mem_keys.mp hmem)
  have hxy : x = y := by
    have hlook : m.lookup off = some y := by
      refine (AList.mem_lookup_iff).mpr ?_
      rw [heq]
      simp
    exact some.inj (h.symm.trans hlook)
  subst hxy
  have herase : (m.erase off).entries = l1 ++ l2 := hker
  rw [liveMappings, liveMappings, herase, heq, countP_append, countP_append, countP_cons]
  simp only [decide_eq_true_eq]
  omega

end Live

namespace NvhostAsGpu

variable {s s' : NvhostAsGpu} {d : DeviceMemory} {g : MemoryManager} {m : Mapping} {big : Bool}
  {off size page pages : Nat} {al : FlatAllocator} {o : Outcome NvhostAsGpu} {placement : Placement}

/-! ## 3. Page table entries -/

theorem entryOf_unmapEntries : (unmapEntries d m off g).bigPageBits = g.bigPageBits ∧
    ∀ big page, (unmapEntries d m off g).entryOf big page = .mapped →
      g.entryOf big page = .mapped ∧ ¬ (big = m.bigPage ∧ g.Walks m.bigPage off m.size page) := by
  rw [unmapEntries]
  split
  · obtain ⟨hbits, hentry⟩ := @VideoCore.MemoryManager.entryOf_mapSparse g d m.bigPage off m.size
    refine ⟨hbits, fun big page hp => ?_⟩
    rw [hentry] at hp
    split at hp
    · exact nomatch hp
    · rename_i hnot
      exact ⟨hp, hnot⟩
  · obtain ⟨hbits, hentry⟩ := @VideoCore.MemoryManager.entryOf_unmap g d off m.size
    refine ⟨hbits, fun big page hp => ?_⟩
    rw [hentry] at hp
    split at hp
    · exact nomatch hp
    · rename_i hnot
      exact ⟨hp, fun ⟨hbig, hwalk⟩ => hnot (hbig ▸ hwalk)⟩

theorem entryOf_mapSparse_le {isBig : Bool} {page : Nat}
    (hp : (g.mapSparse d off size isBig).entryOf big page = .mapped) :
    g.entryOf big page = .mapped := by
  rw [MemoryManager.entryOf_mapSparse.2] at hp
  split at hp
  · exact nomatch hp
  · exact hp

theorem entryOf_unmap_le {page : Nat} (hp : (g.unmap d off size).entryOf big page = .mapped) :
    g.entryOf big page = .mapped := by
  rw [MemoryManager.entryOf_unmap.2] at hp
  split at hp
  · exact nomatch hp
  · exact hp

/-! ## 4. Allocators -/

@[simp] theorem allocator_setAllocator_self : (s.setAllocator big al).allocator big = al := by
  cases big <;> rfl

theorem allocator_setAllocator_other {b : Bool} (h : b ≠ big) :
    (s.setAllocator big al).allocator b = s.allocator b := by
  cases big <;> cases b <;> first | rfl | exact absurd rfl h

@[simp] theorem setAllocator_bigPageSizeBits :
    (s.setAllocator big al).bigPageSizeBits = s.bigPageSizeBits := by cases big <;> rfl

@[simp] theorem setAllocator_gmmu : (s.setAllocator big al).gmmu = s.gmmu := by cases big <;> rfl

@[simp] theorem setAllocator_mappingMap : (s.setAllocator big al).mappingMap = s.mappingMap := by
  cases big <;> rfl

@[simp] theorem setAllocator_allocationMap :
    (s.setAllocator big al).allocationMap = s.allocationMap := by cases big <;> rfl

@[simp] theorem setAllocator_nvmap : (s.setAllocator big al).nvmap = s.nvmap := by cases big <;> rfl

theorem pageSizeOf_pos : 0 < s.pageSizeOf big := Nat.two_pow_pos _

theorem pageSizeOf_false : s.pageSizeOf false = pageSize := rfl

theorem pageSizeOf_true : s.pageSizeOf true = s.bigPageSize := rfl

theorem shiftRight_pageSizeBits : off >>> s.pageSizeBits big = off / s.pageSizeOf big :=
  Nat.shiftRight_eq_div_pow _ _

theorem shiftLeft_pageSizeBits : page <<< s.pageSizeBits big = page * s.pageSizeOf big :=
  Nat.shiftLeft_eq _ _

/-! ## 5. What a call that succeeds leaves -/

theorem allocationBelow_some {first : Nat} {a : Allocation} (h : s.allocationBelow off = some (first, a)) :
    s.allocationMap.lookup first = some a ∧ first ≤ off := by
  obtain ⟨k, hmax, h⟩ := bind_eq_some_iff.mp h
  obtain ⟨b, hb, h⟩ := bind_eq_some_iff.mp h
  obtain ⟨rfl, rfl⟩ := Prod.mk.inj (some.inj h)
  have hmem := (mem_filter.mp (List.max?_mem hmax)).2
  exact ⟨hb, of_decide_eq_true hmem⟩

theorem allocateSpace_success {params : IoctlAllocSpace} (h : s.allocateSpace d params = some o)
    (hs : o.result = .success) : ∃ off al,
      params.pageSize.toNat = s.pageSizeOf (params.pageSize.toNat ≠ pageSize) ∧
      s.placeSpace params (params.pageSize.toNat ≠ pageSize) = some (off, al) ∧
      (params.flags.fixed = false → off ≠ 0) ∧
      o.state = { s.setAllocator (params.pageSize.toNat ≠ pageSize) al with
        gmmu := if params.flags.sparse then
          s.gmmu.mapSparse d off (params.pages.toNat * params.pageSize.toNat) true else s.gmmu
        allocationMap := s.allocationMap.insert off (newAllocation params) } := by
  rw [allocateSpace] at h
  split at h
  · cases h
    exact nomatch hs
  · rename_i hsize
    split at h
    · cases h
      exact nomatch hs
    · obtain ⟨⟨off, al⟩, hplace, rfl⟩ := map_eq_some_iff.mp h
      dsimp only at hs ⊢
      split at hs
      · exact nomatch hs
      · rename_i hzero
        refine ⟨off, al, ?_, hplace, fun hf ho => hzero ⟨hf, ho⟩, ?_⟩
        · by_cases hp : params.pageSize.toNat = pageSize
          · simp [hp, pageSizeOf_false]
          · simp only [hp, ne_eq, not_false_eq_true, decide_true, pageSizeOf_true]
            by_contra hne
            exact hsize ⟨hp, hne⟩
        · rw [if_neg hzero]
          simp only [setAllocator_gmmu, setAllocator_allocationMap]

variable {params : IoctlFreeSpace}

theorem freeSpace_eq {a : Allocation}
    (ha : s.allocationMap.lookup params.offset.toNat = some a) : s.freeSpace d params =
      if a.pageSize ≠ params.pageSize.toNat ∨ a.size ≠ params.pages.toNat * params.pageSize.toNat then
        some ⟨.badValue, params.offset.toNat, s⟩
      else (freeMappings d a.mappings s).bind fun r =>
        match r with
        | (false, s) => some ⟨.badValue, params.offset.toNat, s⟩
        | (true, s) => (s.finishFreeSpace d params a).map fun s =>
          ⟨.success, params.offset.toNat, s⟩ := by
  rw [freeSpace, allocationAt, ha]
  all_goals rfl

theorem erase_insert {m : AList fun _ : Nat => Allocation} {x : Allocation}
    (h : m.lookup off = none) : (m.insert off x).erase off = m := by
  apply AList.ext
  show (m.insert off x).entries.kerase off = m.entries
  rw [AList.entries_insert_of_notMem (AList.lookup_eq_none.mp h)]
  exact kerase_cons_eq (β := fun _ => Allocation) (s := ⟨off, x⟩) rfl

/-- `FreeSpace` with a page size of 0 where there is no allocation: the empty allocation that the
look-up makes is freed again. -/
theorem freeSpace_empty
    (ha : s.allocationMap.lookup params.offset.toNat = none) (hsize : params.pageSize = 0) :
    s.freeSpace d params =
      (s.bigPageAllocator.free (toU32 (params.offset.toNat >>> s.bigPageSizeBits)) 0).map fun al =>
        ⟨.success, params.offset.toNat, { s with bigPageAllocator := al }⟩ := by
  have hzero : toU32 (0 >>> s.bigPageSizeBits) = 0 := by rw [Nat.zero_shiftRight]; rfl
  rw [freeSpace, allocationAt, ha, hsize]
  dsimp only
  rw [if_neg (by simp)]
  simp only [freeMappings, Option.bind_some, finishFreeSpace, hsize, freePages, Option.map_map]
  show ((s.bigPageAllocator.free (toU32 (params.offset.toNat >>> s.bigPageSizeBits))
    (toU32 (0 >>> s.bigPageSizeBits))).map _) = _
  rw [hzero]
  congr 1
  funext al
  rw [Function.comp_apply, Function.comp_apply]
  show (⟨.success, params.offset.toNat, { s with
    bigPageAllocator := al
    allocationMap := (s.allocationMap.insert params.offset.toNat {}).erase params.offset.toNat }⟩ :
      Outcome NvhostAsGpu) = _
  rw [erase_insert ha]

theorem freeSpace_absent
    (ha : s.allocationMap.lookup params.offset.toNat = none) (hsize : params.pageSize ≠ 0) :
    s.freeSpace d params = some ⟨.badValue, params.offset.toNat,
      { s with allocationMap := s.allocationMap.insert params.offset.toNat {} }⟩ := by
  have hne : (0 : Nat) ≠ params.pageSize.toNat := fun heq =>
    hsize (UInt32.toNat_inj.mp (by rw [← heq]; rfl))
  rw [freeSpace, allocationAt, ha]
  dsimp only
  rw [if_pos (.inl hne)]

theorem freeSpace_success (h : s.freeSpace d params = some o)
    (hs : o.result = .success) (hsize : params.pageSize ≠ 0) : ∃ a s1,
      s.allocationMap.lookup params.offset.toNat = some a ∧ a.pageSize = params.pageSize.toNat ∧
      a.size = params.pages.toNat * params.pageSize.toNat ∧
      freeMappings d a.mappings s = some (true, s1) ∧
      s1.finishFreeSpace d params a = some o.state := by
  cases ha : s.allocationMap.lookup params.offset.toNat with
  | none =>
    rw [freeSpace_absent ha hsize] at h
    cases h
    exact nomatch hs
  | some a =>
    rw [freeSpace_eq ha] at h
    split at h
    · cases h
      exact nomatch hs
    · rename_i hmatch
      obtain ⟨hpage, hsz⟩ := not_or.mp hmatch
      obtain ⟨⟨done, s1⟩, hfree, h⟩ := bind_eq_some_iff.mp h
      cases done
      · cases h
        exact nomatch hs
      · obtain ⟨s2, hfin, rfl⟩ := map_eq_some_iff.mp h
        exact ⟨a, s1, rfl, not_not.mp hpage, not_not.mp hsz, hfree, hfin⟩

variable {params : IoctlMapBufferEx}

theorem remapBuffer_success (hs : (s.remapBuffer d params).result = .success) : ∃ m,
      s.mappingMap.lookup params.offset.toNat = some m ∧
      (s.remapBuffer d params).state = { s with
        gmmu := s.gmmu.map d ((params.offset.toNat + params.bufferOffset.toNat) % 2 ^ 64)
          ((m.ptr + params.bufferOffset.toNat) % 2 ^ 64) params.mappingSize.toNat m.bigPage } := by
  rw [remapBuffer] at hs ⊢
  split at hs
  · exact nomatch hs
  · rename_i m hm
    split at hs
    · exact nomatch hs
    · rename_i hlt
      rw [if_neg hlt]
      exact ⟨m, hm, rfl⟩

theorem mapFixed_success {dev : Nat} {bigPage : Bool}
    (hs : (s.mapFixed d params dev size bigPage).result = .success) : ∃ first a,
      s.allocationBelow params.offset.toNat = some (first, a) ∧
      endInside first params.offset.toNat size ≤ a.size ∧
      (s.mapFixed d params dev size bigPage).state = { s with
        gmmu := s.gmmu.map d params.offset.toNat dev size (a.bigPages && bigPage)
        allocationMap := s.allocationMap.insert first { a with
          mappings := a.mappings ++ [⟨params.handle, dev, params.offset.toNat, size, true,
            a.bigPages && bigPage, a.sparse⟩] }
        mappingMap := s.mappingMap.insert params.offset.toNat
          ⟨params.handle, dev, params.offset.toNat, size, true, a.bigPages && bigPage, a.sparse⟩ } := by
  rw [mapFixed] at hs ⊢
  split at hs
  · exact nomatch hs
  · rename_i first a ha
    dsimp only at hs ⊢
    split at hs
    · exact nomatch hs
    · rename_i hle
      rw [if_neg hle]
      exact ⟨first, a, ha, not_lt.mp hle, rfl⟩

theorem mapAnywhere_success {dev : Nat} {bigPage : Bool}
    (h : s.mapAnywhere d params dev size bigPage = some o) (hs : o.result = .success) : ∃ start al,
      (s.allocator bigPage).allocate
        (toU32 (s.alignedSize bigPage size >>> s.pageSizeBits bigPage)) = some (start, al) ∧
      start <<< s.pageSizeBits bigPage ≠ 0 ∧
      o.state = { s.setAllocator bigPage al with
        gmmu := s.gmmu.map d (start <<< s.pageSizeBits bigPage) dev (s.alignedSize bigPage size)
          bigPage
        mappingMap := s.mappingMap.insert (start <<< s.pageSizeBits bigPage)
          ⟨params.handle, dev, start <<< s.pageSizeBits bigPage, size, false, bigPage, false⟩ } := by
  rw [mapAnywhere] at h
  obtain ⟨⟨start, al⟩, halloc, rfl⟩ := map_eq_some_iff.mp h
  refine ⟨start, al, halloc, ?_⟩
  dsimp only at hs ⊢
  split at hs
  · exact nomatch hs
  · rename_i hne
    rw [if_neg hne]
    exact ⟨hne, by simp only [setAllocator_gmmu, setAllocator_mappingMap]⟩

/-- `MapBufferEx` maps a part again, or pins the handle and maps at the offset or anywhere. -/
theorem mapBufferEx_success (h : s.mapBufferEx d params placement = some o) (hs : o.result = .success) :
    (params.flags.remap = true ∧ o = s.remapBuffer d params) ∨
    (params.flags.remap = false ∧ ∃ handle pin, s.nvmap.handles params.handle = some handle ∧
      s.nvmap.pinHandle placement params.handle = some pin ∧
      (if params.flags.fixed then some (({ s with nvmap := pin.2 } : NvhostAsGpu).mapFixed d params
          ((pin.1 + params.bufferOffset.toNat) % 2 ^ 64) (mappedSize params handle)
          (decide (handle.align % s.bigPageSize = 0)))
        else ({ s with nvmap := pin.2 } : NvhostAsGpu).mapAnywhere d params
          ((pin.1 + params.bufferOffset.toNat) % 2 ^ 64) (mappedSize params handle)
          (decide (handle.align % s.bigPageSize = 0))) = some o) := by
  rw [mapBufferEx] at h
  split at h
  · rename_i hremap
    exact .inl ⟨hremap, (some.inj h).symm⟩
  · rename_i hremap
    refine .inr ⟨Bool.eq_false_iff.mpr hremap, ?_⟩
    split at h
    · cases h
      exact nomatch hs
    · rename_i handle hhandle
      obtain ⟨pin, hpin, h⟩ := bind_eq_some_iff.mp h
      exact ⟨handle, pin, hhandle, hpin, h⟩

theorem mappedSize_pos {handle : NvMapHandle} : 0 < mappedSize params handle := by
  rw [mappedSize]
  split
  · rename_i hne
    exact Nat.pos_of_ne_zero fun hz => hne (UInt64.toNat_inj.mp hz)
  · exact handle.origSize_pos

/-! ## 6. The loop of FreeSpace -/

/-- The mappings at the offsets are gone, with their pins and their pages; nothing else is. -/
structure Frees (s : NvhostAsGpu) (offsets : List Nat) (s' : NvhostAsGpu) : Prop where
  bits : s'.bigPageSizeBits = s.bigPageSizeBits
  allocator : ∀ big, s'.allocator big = s.allocator big
  allocationMap : s'.allocationMap = s.allocationMap
  gmmuBits : s'.gmmu.bigPageBits = s.gmmu.bigPageBits
  lookup_mem : ∀ off ∈ offsets, s'.mappingMap.lookup off = none
  lookup_not_mem : ∀ off, off ∉ offsets → s'.mappingMap.lookup off = s.mappingMap.lookup off
  pins : ∀ id, s'.nvmap.pinsOf id = (s.nvmap.pinsOf id).map
    (· + ((liveMappings s'.mappingMap id : Int) - liveMappings s.mappingMap id))
  mapped_le : ∀ big page, s'.gmmu.entryOf big page = .mapped → s.gmmu.entryOf big page = .mapped
  released : ∀ off ∈ offsets, ∀ m, s.mappingMap.lookup off = some m → ∀ page,
    s.gmmu.Walks m.bigPage off m.size page → s'.gmmu.entryOf m.bigPage page ≠ .mapped

theorem Frees.refl : Frees s [] s where
  bits := rfl
  allocator _ := rfl
  allocationMap := rfl
  gmmuBits := rfl
  lookup_mem _ h := nomatch h
  lookup_not_mem _ _ := rfl
  pins id := by
    cases s.nvmap.pinsOf id with
    | none => rfl
    | some k => rw [map_some, sub_self, add_zero]
  mapped_le _ _ h := h
  released _ h := nomatch h

/-- One mapping, and then the others. -/
theorem Frees.cons {offsets : List Nat} (hm : s.mappingMap.lookup off = some m)
    (h : Frees (s.dropMapping d m off) offsets s') : Frees s (off :: offsets) s' where
  bits := h.bits
  allocator big := (h.allocator big).trans (by cases big <;> rfl)
  allocationMap := h.allocationMap
  gmmuBits := h.gmmuBits.trans entryOf_unmapEntries.1
  lookup_mem off' hoff' := by
    by_cases hin : off' ∈ offsets
    · exact h.lookup_mem off' hin
    · rw [h.lookup_not_mem off' hin, (List.mem_cons.mp hoff').resolve_right hin]
      exact AList.lookup_erase _ _
  lookup_not_mem off' hoff' := by
    obtain ⟨hne, hin⟩ := not_or.mp (mt List.mem_cons.mpr hoff')
    rw [h.lookup_not_mem off' hin]
    exact AList.lookup_erase_ne hne
  pins id := by
    have hlive := @liveMappings_erase _ _ _ id hm
    rw [h.pins, show (s.dropMapping d m off).nvmap = s.nvmap.unpinHandle m.handle from rfl,
      NvMap.pinsOf_unpinHandle, Option.map_map, hlive]
    congr 1
    funext k
    rw [Function.comp_apply,
      show (s.dropMapping d m off).mappingMap = s.mappingMap.erase off from rfl]
    split <;> omega
  mapped_le big page hp := (entryOf_unmapEntries.2 _ _ (h.mapped_le big page hp)).1
  released off' hoff' m' hm' page hwalk hmapped := by
    by_cases hoff : off' = off
    · subst hoff
      obtain rfl := Option.some.inj (hm'.symm.trans hm)
      exact (entryOf_unmapEntries.2 _ _ (h.mapped_le _ _ hmapped)).2 ⟨rfl, hwalk⟩
    · exact h.released off' ((List.mem_cons.mp hoff').resolve_left hoff) m'
        ((AList.lookup_erase_ne hoff).trans hm') page
        ((MemoryManager.walks_congr entryOf_unmapEntries.1).mpr hwalk) hmapped

variable {l : List Mapping}

theorem freeMappings_cons_eq {x : Mapping}
    (hm : s.mappingMap.lookup x.offset = some m) (hfixed : m.fixed = true) :
    freeMappings d (x :: l) s = freeMappings d l (s.dropMapping d m x.offset) := by
  rw [freeMappings, freeMappingLocked, hm]
  dsimp only
  rw [if_pos hfixed]
  rfl

theorem freeMappings_cons {x : Mapping}
    (hfixed : ∀ m, s.mappingMap.lookup x.offset = some m → m.fixed = true)
    (hrun : freeMappings d (x :: l) s = some (true, s')) : ∃ m, s.mappingMap.lookup x.offset = some m ∧
      freeMappings d l (s.dropMapping d m x.offset) = some (true, s') := by
  cases hm : s.mappingMap.lookup x.offset with
  | none =>
    rw [freeMappings, freeMappingLocked, hm] at hrun
    exact absurd (Prod.mk.inj (some.inj hrun)).1 Bool.noConfusion
  | some m =>
    rw [freeMappings_cons_eq hm (hfixed m hm)] at hrun
    exact ⟨m, rfl, hrun⟩

/-- **The loop, when it runs to its end**, takes away the mappings it lists. -/
theorem freeMappings_frees (hfixed : ∀ x ∈ l, ∀ m, s.mappingMap.lookup x.offset = some m → m.fixed = true)
    (hrun : freeMappings d l s = some (true, s')) : Frees s (l.map Mapping.offset) s' := by
  induction l generalizing s with
  | nil =>
    obtain ⟨-, rfl⟩ := Prod.mk.inj (some.inj hrun)
    exact .refl
  | cons x l ih =>
    obtain ⟨m, hm, hrun⟩ := freeMappings_cons (hfixed x mem_cons_self) hrun
    refine .cons hm (ih (fun y hy m' hm' => ?_) hrun)
    refine hfixed y (mem_cons_of_mem x hy) m' ?_
    have hne : y.offset ≠ x.offset := fun heq => by
      rw [show (s.dropMapping d m x.offset).mappingMap = s.mappingMap.erase x.offset from rfl, heq,
        AList.lookup_erase] at hm'
      exact nomatch hm'
    rwa [← AList.lookup_erase_ne hne]

end NvhostAsGpu

/-! ## 7. A small address space -/

/-- The address space of an `AllocAsEx` that leaves everything to the defaults. -/
def defaultSpace (n : NvMap) : NvhostAsGpu where
  bigPageSizeBits := 17
  smallPageAllocator := .make 32 0x8000 0x400000 (by decide)
  bigPageAllocator := .make 32 0x20000 0xE0000 (by decide)
  gmmu := .init 37 17 (by decide) (by decide)
  mappingMap := ∅
  allocationMap := ∅
  nvmap := n

theorem allocAsEx_default (n : NvMap) : allocAsEx {} (.uninitialised n) =
    some ⟨.success, 0, .initialised (defaultSpace n)⟩ := by
  have hclog : Nat.clog 2 (2 ^ 37) = 37 := Nat.clog_pow 2 37 (by decide)
  have hmake : makeSpace n 17 (0x20000 <<< 10) (2 ^ 34) (2 ^ 37) = some (defaultSpace n) := by
    rw [makeSpace, dif_pos ⟨by decide, by rw [hclog]; decide⟩]
    simp only [hclog]
    rfl
  rw [allocAsEx, if_neg (by decide)]
  show (makeSpace n 17 (0x20000 <<< 10) (2 ^ 34) (2 ^ 37)).map _ = _
  rw [hmake]
  rfl

/-- An `nvmap` with a handle for small pages, of a page and a half. -/
def oneHandle : NvMap :=
  ⟨fun id => if id = 1 then some ⟨0x1000, 0x1800, by decide, 0, 0, 0, false⟩ else none, []⟩

end Yuzu.Service
