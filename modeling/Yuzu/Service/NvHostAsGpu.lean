/-
  File:      Yuzu/Service/NvHostAsGpu.lean
  Subject:   nvhost_as_gpu (core/hle/service/nvdrv/devices/nvhost_as_gpu.cpp), the device through
             which an application lays out its GPU address space, and the pins of
             nvmap (core/hle/service/nvdrv/core/nvmap.cpp).

  One call of the device changes several books at once: the two page allocators, the map of
  allocations and each allocation's list of mappings, the map of mappings, the entries of the GPU
  page tables and the pin counts of the handles.

  A call has no result where an assertion inside an allocator trips or a loop does not end. Where
  the code asserts `false` and then returns an error, the error is the result. Addresses and sizes
  are numbers below 2^64, with the wrap written out where the code can reach it.
-/
import Mathlib.Data.List.AList
import Mathlib.Data.Nat.Log
import Yuzu.Common.Alignment
import Yuzu.Common.FlatAllocator
import Yuzu.VideoCore.MemoryManager

namespace Yuzu.Service

open Yuzu.Common (FlatAllocator alignUp)
open Yuzu.Core (DeviceMemory)
open Yuzu.VideoCore (MemoryManager pageBits pageSize)

/-- `NvResult`, as far as the device returns it. -/
inductive NvResult where
  | success
  | notImplemented
  | badValue
  | invalidState
  | insufficientMemory
deriving DecidableEq, Repr

/-! ## 1. NvMap -/

/-- `NvMap::Handle::Id`. -/
abbrev HandleId := UInt32

/-- `NvMap::Handle`. `CreateHandle` refuses a size of 0. -/
structure NvMapHandle where
  align : Nat
  origSize : Nat
  origSize_pos : 0 < origSize
  pins : Int
  dAddress : Nat
  pinVirtAddress : Nat
  inHeap : Bool

/-- `NvMap`. A handle has an unmap queue entry if it is in the queue. -/
structure NvMap where
  handles : HandleId → Option NvMapHandle
  unmapQueue : List HandleId

/-- What finds a place for a handle that is not mapped: the session's preallocated area, or the
answers of `smmu.Allocate` one after another. -/
inductive Placement where
  | heap (address : Nat)
  | smmu (answers : List Nat)

namespace NvMap

def setHandle (n : NvMap) (id : HandleId) (h : NvMapHandle) : NvMap :=
  { n with handles := Function.update n.handles id (some h) }

/-- `UnmapHandle`. -/
def unmapHandle (n : NvMap) (id : HandleId) : NvMap :=
  match n.handles id with
  | none => n
  | some h =>
    { n with unmapQueue := n.unmapQueue.erase id }.setHandle id
      { h with pinVirtAddress := 0, dAddress := 0, inHeap := false }

/-- The loop of `PinHandle` that frees handles until the allocation succeeds. The check reads the
address of the handle that is to be pinned. -/
def allocateDevice (dAddress : Nat) : List Nat → NvMap → Option (Nat × NvMap)
  | [], _ => none
  | address :: answers, n =>
    if address ≠ 0 then some (address, n)
    else match n.unmapQueue with
      | [] => none
      | front :: _ =>
        allocateDevice dAddress answers (if dAddress ≠ 0 then n.unmapHandle front else n)

/-- Where an unmapped handle is put: the address, and whether it is in the preallocated area. -/
def place (dAddress : Nat) : Placement → NvMap → Option (Nat × Bool × NvMap)
  | .heap address, n => some (address, true, n)
  | .smmu answers, n => (allocateDevice dAddress answers n).map fun r => (r.1, false, r.2)

/-- `PinHandle`, without a pin in the low area. -/
def pinHandle (placement : Placement) (id : HandleId) (n : NvMap) : Option (Nat × NvMap) :=
  match n.handles id with
  | none => some (0, n)
  | some h =>
    if h.pins ≠ 0 then some (h.dAddress, n.setHandle id { h with pins := h.pins + 1 })
    else if id ∈ n.unmapQueue then
      -- still mapped: it only leaves the queue
      some (h.dAddress, { n with unmapQueue := n.unmapQueue.erase id }.setHandle id
        { h with pins := h.pins + 1 })
    else do
      let (address, inHeap, n) ← place h.dAddress placement n
      some (address, n.setHandle id { h with dAddress := address, inHeap := inHeap, pins := h.pins + 1 })

/-- `UnpinHandle`. -/
def unpinHandle (id : HandleId) (n : NvMap) : NvMap :=
  match n.handles id with
  | none => n
  | some h =>
    let n := n.setHandle id { h with pins := h.pins - 1 }
    if h.pins - 1 = 0 then { n with unmapQueue := n.unmapQueue ++ [id] } else n

end NvMap

/-! ## 2. The device -/

/-- `nvhost_as_gpu::Mapping`. -/
structure Mapping where
  handle : HandleId
  ptr : Nat
  offset : Nat
  size : Nat
  fixed : Bool
  bigPage : Bool
  sparseAlloc : Bool
deriving DecidableEq, Repr

/-- `nvhost_as_gpu::Allocation`. -/
structure Allocation where
  size : Nat := 0
  mappings : List Mapping := []
  pageSize : Nat := 0
  sparse : Bool := false
  bigPages : Bool := false
deriving DecidableEq, Repr

/-- `nvhost_as_gpu` after `AllocAsEx`, with the `nvmap` it pins handles in. -/
structure NvhostAsGpu where
  bigPageSizeBits : Nat
  smallPageAllocator : FlatAllocator
  bigPageAllocator : FlatAllocator
  gmmu : MemoryManager
  mappingMap : AList fun _ : Nat => Mapping
  allocationMap : AList fun _ : Nat => Allocation
  nvmap : NvMap

/-- A device whose `vm` is not initialised has its `nvmap` only. -/
inductive Device where
  | uninitialised (nvmap : NvMap)
  | initialised (s : NvhostAsGpu)

/-- What a call leaves: its result, the offset it writes back, the device. -/
structure Outcome (S : Type) where
  result : NvResult
  offset : Nat
  state : S

/-- `MappingFlags`, the ones the device reads. -/
structure MappingFlags where
  fixed : Bool := false
  sparse : Bool := false
  remap : Bool := false
deriving DecidableEq, Repr

structure IoctlAllocAsEx where
  bigPageSize : UInt32 := 0
  vaRangeStart : UInt64 := 0
  vaRangeEnd : UInt64 := 0
  vaRangeSplit : UInt64 := 0
deriving DecidableEq, Repr

structure IoctlAllocSpace where
  pages : UInt32
  pageSize : UInt32
  flags : MappingFlags := {}
  offset : UInt64 := 0
deriving DecidableEq, Repr

structure IoctlFreeSpace where
  offset : UInt64
  pages : UInt32
  pageSize : UInt32
deriving DecidableEq, Repr

structure IoctlRemapEntry where
  handle : HandleId
  handleOffsetBigPages : UInt32
  asOffsetBigPages : UInt32
  bigPages : UInt32
deriving DecidableEq, Repr

/-- The signed fields are read as the 64 bits the code converts them to. -/
structure IoctlMapBufferEx where
  flags : MappingFlags := {}
  handle : HandleId
  bufferOffset : UInt64 := 0
  mappingSize : UInt64 := 0
  offset : UInt64 := 0
deriving DecidableEq, Repr

/-! ## 3. AllocAsEx -/

/-- `SUPPORTED_BIG_PAGE_SIZES`. -/
def supportedBigPageSizes : Nat := 0x30000

/-- `DEFAULT_BIG_PAGE_SIZE`. -/
def defaultBigPageSize : Nat := 0x20000

/-- `VA_START_SHIFT`. -/
def vaStartShift : Nat := 10

/-- `DEFAULT_VA_SPLIT`. -/
def defaultVaSplit : Nat := 2 ^ 34

/-- `DEFAULT_VA_RANGE`. -/
def defaultVaRange : Nat := 2 ^ 37

/-- `static_cast<u32>`. -/
def toU32 (v : Nat) : Nat := v % 2 ^ 32

theorem toU32_lt (v : Nat) : toU32 v < 2 ^ 32 := Nat.mod_lt _ (Nat.two_pow_pos 32)

/-- `FlatAllocator<u32, 0, 32>` over the pages from `start` to `stop`. -/
def makeAllocator (start stop : Nat) : FlatAllocator := .make 32 (toU32 start) (toU32 stop) (toU32_lt _)

/-- The address space that `AllocAsEx` makes of its values. One that is smaller than a big page has
no page tables. -/
def makeSpace (nvmap : NvMap) (bits start split stop : Nat) : Option NvhostAsGpu :=
  if h : pageBits ≤ bits ∧ bits ≤ Nat.clog 2 stop then
    some {
      bigPageSizeBits := bits
      smallPageAllocator := makeAllocator (start >>> pageBits) (split >>> pageBits)
      bigPageAllocator := makeAllocator (split >>> bits) (((stop + 2 ^ 64 - split) % 2 ^ 64) >>> bits)
      gmmu := .init (Nat.clog 2 stop) bits h.1 h.2
      mappingMap := ∅
      allocationMap := ∅
      nvmap := nvmap }
  else none

namespace IoctlAllocAsEx

/-- `vm.big_page_size` after the call. -/
def chosenBigPageSize (params : IoctlAllocAsEx) : Nat :=
  if params.bigPageSize ≠ 0 then params.bigPageSize.toNat else defaultBigPageSize

/-- `vm.va_range_start` after the call. -/
def chosenStart (params : IoctlAllocAsEx) : Nat :=
  if params.vaRangeStart ≠ 0 then params.vaRangeStart.toNat
  else params.chosenBigPageSize <<< vaStartShift

/-- `vm.va_range_split` after the call. -/
def chosenSplit (params : IoctlAllocAsEx) : Nat :=
  if params.vaRangeStart ≠ 0 then params.vaRangeSplit.toNat else defaultVaSplit

/-- `vm.va_range_end` after the call. -/
def chosenEnd (params : IoctlAllocAsEx) : Nat :=
  if params.vaRangeStart ≠ 0 then params.vaRangeEnd.toNat else defaultVaRange

/-- The check of a given big page size. -/
def Supported (params : IoctlAllocAsEx) : Prop :=
  params.bigPageSize.toNat = 2 ^ Nat.log2 params.bigPageSize.toNat ∧
    params.bigPageSize.toNat &&& supportedBigPageSizes ≠ 0

instance (params : IoctlAllocAsEx) : Decidable params.Supported :=
  inferInstanceAs (Decidable (_ ∧ _))

end IoctlAllocAsEx

/-- `AllocAsEx`. -/
def allocAsEx (params : IoctlAllocAsEx) : Device → Option (Outcome Device)
  | .initialised s => some ⟨.invalidState, 0, .initialised s⟩
  | .uninitialised nvmap =>
    if params.bigPageSize ≠ 0 ∧ ¬ params.Supported then
      some ⟨.badValue, 0, .uninitialised nvmap⟩
    else
      (makeSpace nvmap (Nat.log2 params.chosenBigPageSize) params.chosenStart params.chosenSplit
        params.chosenEnd).map fun s => ⟨.success, 0, .initialised s⟩

/-! ## 4. AllocateSpace and FreeSpace -/

namespace NvhostAsGpu

/-- `vm.big_page_size`. -/
def bigPageSize (s : NvhostAsGpu) : Nat := 2 ^ s.bigPageSizeBits

/-- `page_size_bits`. -/
def pageSizeBits (s : NvhostAsGpu) (big : Bool) : Nat := if big then s.bigPageSizeBits else pageBits

/-- `page_size`. -/
def pageSizeOf (s : NvhostAsGpu) (big : Bool) : Nat := 2 ^ s.pageSizeBits big

/-- The allocator of big or of small pages. -/
def allocator (s : NvhostAsGpu) : Bool → FlatAllocator
  | true => s.bigPageAllocator
  | false => s.smallPageAllocator

def setAllocator (s : NvhostAsGpu) (big : Bool) (a : FlatAllocator) : NvhostAsGpu :=
  match big with
  | true => { s with bigPageAllocator := a }
  | false => { s with smallPageAllocator := a }

/-- `allocator.Free` of a range of bytes. -/
def freePages (s : NvhostAsGpu) (big : Bool) (offset size : Nat) : Option NvhostAsGpu :=
  ((s.allocator big).free (toU32 (offset >>> s.pageSizeBits big))
    (toU32 (size >>> s.pageSizeBits big))).map (s.setAllocator big)

/-- Where `AllocateSpace` puts an allocation: at the given offset, or where the allocator finds
room; 0 is no room. -/
def placeSpace (s : NvhostAsGpu) (params : IoctlAllocSpace) (big : Bool) : Option (Nat × FlatAllocator) :=
  if params.flags.fixed then
    ((s.allocator big).allocateFixed (toU32 (params.offset.toNat >>> s.pageSizeBits big))
      params.pages.toNat).map fun a => (params.offset.toNat, a)
  else
    ((s.allocator big).allocate params.pages.toNat).map fun r => (r.1 <<< s.pageSizeBits big, r.2)

/-- The entry of `allocation_map` that `AllocateSpace` makes. -/
def newAllocation (params : IoctlAllocSpace) : Allocation where
  size := params.pages.toNat * params.pageSize.toNat
  mappings := []
  pageSize := params.pageSize.toNat
  sparse := params.flags.sparse
  bigPages := params.pageSize.toNat ≠ pageSize

/-- `AllocateSpace`. -/
def allocateSpace (d : DeviceMemory) (params : IoctlAllocSpace) (s : NvhostAsGpu) :
    Option (Outcome NvhostAsGpu) :=
  if params.pageSize.toNat ≠ pageSize ∧ params.pageSize.toNat ≠ s.bigPageSize then
    some ⟨.badValue, params.offset.toNat, s⟩
  else if params.pageSize.toNat ≠ s.bigPageSize ∧ params.flags.sparse then
    some ⟨.notImplemented, params.offset.toNat, s⟩
  else
    let big := decide (params.pageSize.toNat ≠ pageSize)
    (s.placeSpace params big).map fun r =>
      let s := s.setAllocator big r.2
      if params.flags.fixed = false ∧ r.1 = 0 then ⟨.insufficientMemory, 0, s⟩
      else
        let size := params.pages.toNat * params.pageSize.toNat
        ⟨.success, r.1, { s with
          gmmu := if params.flags.sparse then s.gmmu.mapSparse d r.1 size true else s.gmmu
          allocationMap := s.allocationMap.insert r.1 (newAllocation params) }⟩

/-- The page table entries of a mapping that goes away. A mapping into a sparse allocation returns
to its sparse state. -/
def unmapEntries (d : DeviceMemory) (m : Mapping) (offset : Nat) (gmmu : MemoryManager) :
    MemoryManager :=
  if m.sparseAlloc then gmmu.mapSparse d offset m.size m.bigPage else gmmu.unmap d offset m.size

/-- What `FreeMappingLocked` and `UnmapBuffer` do behind the allocator. -/
def dropMapping (d : DeviceMemory) (m : Mapping) (offset : Nat) (s : NvhostAsGpu) : NvhostAsGpu :=
  { s with
    gmmu := unmapEntries d m offset s.gmmu
    nvmap := s.nvmap.unpinHandle m.handle
    mappingMap := s.mappingMap.erase offset }

/-- `AlignUp`, in 64 bits. -/
def alignedSize (s : NvhostAsGpu) (big : Bool) (size : Nat) : Nat :=
  alignUp size (s.pageSizeOf big) % 2 ^ 64

/-- `FreeMappingLocked`: the inner result is none if `at` throws. -/
def freeMappingLocked (d : DeviceMemory) (offset : Nat) (s : NvhostAsGpu) : Option (Option NvhostAsGpu) :=
  match s.mappingMap.lookup offset with
  | none => some none
  | some m =>
    if m.fixed then some (some (s.dropMapping d m offset))
    else (s.freePages m.bigPage m.offset (s.alignedSize m.bigPage m.size)).map fun s =>
      some (s.dropMapping d m offset)

/-- The loop of `FreeSpace` over the mappings of the allocation. An exception leaves it at once:
the flag says that it ran to its end. -/
def freeMappings (d : DeviceMemory) : List Mapping → NvhostAsGpu → Option (Bool × NvhostAsGpu)
  | [], s => some (true, s)
  | m :: mappings, s => (s.freeMappingLocked d m.offset).bind fun r =>
    match r with
    | none => some (false, s)
    | some s => freeMappings d mappings s

/-- `FreeSpace` behind its loop. -/
def finishFreeSpace (d : DeviceMemory) (params : IoctlFreeSpace) (allocation : Allocation)
    (s : NvhostAsGpu) : Option NvhostAsGpu :=
  let offset := params.offset.toNat
  let s := { s with
    gmmu := if allocation.sparse then s.gmmu.unmap d offset allocation.size else s.gmmu }
  (s.freePages (params.pageSize.toNat ≠ pageSize) offset allocation.size).map fun s =>
    { s with allocationMap := s.allocationMap.erase offset }

/-- `allocation_map[offset]`, which puts an empty allocation where there is none. -/
def allocationAt (s : NvhostAsGpu) (offset : Nat) : Allocation × NvhostAsGpu :=
  match s.allocationMap.lookup offset with
  | some allocation => (allocation, s)
  | none => ({}, { s with allocationMap := s.allocationMap.insert offset {} })

/-- `FreeSpace`. -/
def freeSpace (d : DeviceMemory) (params : IoctlFreeSpace) (s : NvhostAsGpu) :
    Option (Outcome NvhostAsGpu) :=
  let offset := params.offset.toNat
  let (allocation, s) := s.allocationAt offset
  if allocation.pageSize ≠ params.pageSize.toNat ∨
      allocation.size ≠ params.pages.toNat * params.pageSize.toNat then
    some ⟨.badValue, offset, s⟩
  else
    (freeMappings d allocation.mappings s).bind fun r =>
      match r with
      | (false, s) => some ⟨.badValue, offset, s⟩
      | (true, s) => (s.finishFreeSpace d params allocation).map fun s => ⟨.success, offset, s⟩

/-! ## 5. MapBufferEx, UnmapBuffer and Remap -/

/-- The allocation in front of `upper_bound(offset)`, with its key. -/
def allocationBelow (s : NvhostAsGpu) (offset : Nat) : Option (Nat × Allocation) := do
  let first ← (s.allocationMap.keys.filter (· ≤ offset)).max?
  let allocation ← s.allocationMap.lookup first
  pure (first, allocation)

/-- `(offset - first) + size`, in 64 bits. -/
def endInside (first offset size : Nat) : Nat := (offset - first + size) % 2 ^ 64

/-- `MapBufferEx` with the flag `Remap`: a part of a mapping is mapped again. -/
def remapBuffer (d : DeviceMemory) (params : IoctlMapBufferEx) (s : NvhostAsGpu) : Outcome NvhostAsGpu :=
  let offset := params.offset.toNat
  match s.mappingMap.lookup offset with
  | none => ⟨.badValue, offset, s⟩
  | some m =>
    if m.size < params.mappingSize.toNat then ⟨.badValue, offset, s⟩
    else ⟨.success, offset, { s with
      gmmu := s.gmmu.map d ((offset + params.bufferOffset.toNat) % 2 ^ 64)
        ((m.ptr + params.bufferOffset.toNat) % 2 ^ 64) params.mappingSize.toNat m.bigPage }⟩

/-- `MapBufferEx` with the flag `Fixed`, behind the pin. -/
def mapFixed (d : DeviceMemory) (params : IoctlMapBufferEx) (deviceAddress size : Nat)
    (bigPage : Bool) (s : NvhostAsGpu) : Outcome NvhostAsGpu :=
  let offset := params.offset.toNat
  match s.allocationBelow offset with
  | none => ⟨.badValue, offset, s⟩
  | some (first, alloc) =>
    if endInside first offset size > alloc.size then ⟨.badValue, offset, s⟩
    else
      let useBigPages := alloc.bigPages && bigPage
      let mapping : Mapping :=
        ⟨params.handle, deviceAddress, offset, size, true, useBigPages, alloc.sparse⟩
      ⟨.success, offset, { s with
        gmmu := s.gmmu.map d offset deviceAddress size useBigPages
        allocationMap := s.allocationMap.insert first
          { alloc with mappings := alloc.mappings ++ [mapping] }
        mappingMap := s.mappingMap.insert offset mapping }⟩

/-- `MapBufferEx` without a flag, behind the pin. -/
def mapAnywhere (d : DeviceMemory) (params : IoctlMapBufferEx) (deviceAddress size : Nat)
    (bigPage : Bool) (s : NvhostAsGpu) : Option (Outcome NvhostAsGpu) :=
  let bits := s.pageSizeBits bigPage
  let aligned := s.alignedSize bigPage size
  ((s.allocator bigPage).allocate (toU32 (aligned >>> bits))).map fun r =>
    let s := s.setAllocator bigPage r.2
    let offset := r.1 <<< bits
    if offset = 0 then ⟨.insufficientMemory, 0, s⟩
    else
      let mapping : Mapping := ⟨params.handle, deviceAddress, offset, size, false, bigPage, false⟩
      ⟨.success, offset, { s with
        gmmu := s.gmmu.map d offset deviceAddress aligned bigPage
        mappingMap := s.mappingMap.insert offset mapping }⟩

/-- The size that `MapBufferEx` maps. -/
def mappedSize (params : IoctlMapBufferEx) (handle : NvMapHandle) : Nat :=
  if params.mappingSize ≠ 0 then params.mappingSize.toNat else handle.origSize

/-- `MapBufferEx`. A handle that is not aligned to a page trips an assertion and counts as one with
small pages. -/
def mapBufferEx (d : DeviceMemory) (params : IoctlMapBufferEx) (placement : Placement)
    (s : NvhostAsGpu) : Option (Outcome NvhostAsGpu) :=
  if params.flags.remap then some (s.remapBuffer d params)
  else match s.nvmap.handles params.handle with
    | none => some ⟨.badValue, params.offset.toNat, s⟩
    | some handle => (s.nvmap.pinHandle placement params.handle).bind fun pin =>
      let deviceAddress := (pin.1 + params.bufferOffset.toNat) % 2 ^ 64
      let size := mappedSize params handle
      let bigPage := decide (handle.align % s.bigPageSize = 0)
      let s := { s with nvmap := pin.2 }
      if params.flags.fixed then some (s.mapFixed d params deviceAddress size bigPage)
      else s.mapAnywhere d params deviceAddress size bigPage

/-- `UnmapBuffer`. The pages of the size are freed, not those of the aligned size. -/
def unmapBuffer (d : DeviceMemory) (offset : UInt64) (s : NvhostAsGpu) : Option (Outcome NvhostAsGpu) :=
  match s.mappingMap.lookup offset.toNat with
  | none => some ⟨.success, offset.toNat, s⟩
  | some m =>
    (if m.fixed then some s else s.freePages m.bigPage m.offset m.size).map fun s =>
      ⟨.success, offset.toNat, s.dropMapping d m offset.toNat⟩

/-- One entry of `Remap`. -/
def remapEntry (d : DeviceMemory) (entry : IoctlRemapEntry) (placement : Placement)
    (s : NvhostAsGpu) : Option (NvResult × NvhostAsGpu) :=
  let virtualAddress := entry.asOffsetBigPages.toNat <<< s.bigPageSizeBits
  let size := entry.bigPages.toNat <<< s.bigPageSizeBits
  match s.allocationBelow virtualAddress with
  | none => some (.badValue, s)
  | some (first, alloc) =>
    if endInside first virtualAddress size > alloc.size then some (.badValue, s)
    else if alloc.sparse = false then some (.badValue, s)
    else if entry.handle = 0 then
      some (.success, { s with
        gmmu := s.gmmu.mapSparse d virtualAddress size alloc.bigPages })
    else match s.nvmap.handles entry.handle with
      | none => some (.badValue, s)
      | some _ => (s.nvmap.pinHandle placement entry.handle).map fun pin =>
        let deviceAddress :=
          (pin.1 + entry.handleOffsetBigPages.toNat <<< s.bigPageSizeBits) % 2 ^ 64
        (.success, { s with
          gmmu := s.gmmu.map d virtualAddress deviceAddress size alloc.bigPages
          nvmap := pin.2 })

/-- `Remap`. -/
def remap (d : DeviceMemory) :
    List (IoctlRemapEntry × Placement) → NvhostAsGpu → Option (Outcome NvhostAsGpu)
  | [], s => some ⟨.success, 0, s⟩
  | entry :: entries, s => (s.remapEntry d entry.1 entry.2).bind fun r =>
    match r with
    | (.success, s) => remap d entries s
    | (result, s) => some ⟨result, 0, s⟩

end NvhostAsGpu

/-! ## 6. Calls -/

/-- A call of the device. -/
inductive Ioctl where
  | allocAsEx (params : IoctlAllocAsEx)
  | allocateSpace (params : IoctlAllocSpace)
  | freeSpace (params : IoctlFreeSpace)
  | mapBufferEx (params : IoctlMapBufferEx) (placement : Placement)
  | unmapBuffer (offset : UInt64)
  | remap (entries : List (IoctlRemapEntry × Placement))

namespace NvhostAsGpu

/-- A call of an initialised device. -/
def call (d : DeviceMemory) (s : NvhostAsGpu) : Ioctl → Option (Outcome NvhostAsGpu)
  | .allocAsEx _ => some ⟨.invalidState, 0, s⟩
  | .allocateSpace params => s.allocateSpace d params
  | .freeSpace params => s.freeSpace d params
  | .mapBufferEx params placement => s.mapBufferEx d params placement
  | .unmapBuffer offset => s.unmapBuffer d offset
  | .remap entries => s.remap d entries

end NvhostAsGpu

/-- `Ioctl1`, for the calls above. Before `AllocAsEx` the others return `BadValue`. -/
def Device.ioctl (d : DeviceMemory) : Device → Ioctl → Option (Outcome Device)
  | .uninitialised nvmap, .allocAsEx params => allocAsEx params (.uninitialised nvmap)
  | .uninitialised nvmap, _ => some ⟨.badValue, 0, .uninitialised nvmap⟩
  | .initialised s, op => (s.call d op).map fun r => ⟨r.result, r.offset, .initialised r.state⟩

end Yuzu.Service
