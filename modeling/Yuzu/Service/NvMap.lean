/-
  File:      Yuzu/Service/NvMap.lean
  Subject:   The handles of nvmap (core/hle/service/nvdrv/core/nvmap.cpp) and the heap mapper of a
             session (core/heap_mapper.cpp).

  A handle is an object that the table of handles, the unmap queue and the callers share; an id
  names at most one object at a time, and ids come again after 2^30 handles. A call has no result
  where it reads the front of an empty queue, uses the mapper of a session that has none, or does
  not return.

  The SMMU of the host and the low area below 2^32 are spaces with an allocator each. What an
  allocator answers is an input of the pin. The device memory is kept by byte: the ranges the
  devices pass are whole pages. Addresses and sizes are numbers below 2^64, with the wrap written
  out.
-/
import Yuzu.Common.Alignment
import Yuzu.Lib.Leases

namespace Yuzu.Service.NvCore

open Yuzu.Common (alignUp)

/-- `NvResult`, as far as the handles return it. -/
inductive NvResult where
  | success
  | badValue
  | accessDenied
deriving DecidableEq, Repr

def yuzuPageSize : Nat := 4096

def bigPageSize : Nat := yuzuPageSize * 16

/-- `Common::AlignUp` on a `u64`. -/
def alignUp64 (value size : Nat) : Nat := alignUp value size % 2 ^ 64

/-- `NvMap::Handle::Id`. -/
abbrev HandleId := UInt32

/-- `SessionId`. -/
abbrev SessionId := Nat

/-- An entry of the SMMU: the session whose process the address belongs to, and the address. -/
abbrev Smmu := Space (SessionId × Nat)

/-- `host1x.Allocator()` and `host1x.GMMU()`. An entry is a device address. -/
abbrev LowArea := Space Nat

/-! ## 1. HeapMapper -/

/-- `HeapMapper`: the area that `OpenSession` allocated for the heap of a process. -/
structure HeapMapper where
  vaddress : Nat
  daddress : Nat
  size : Nat
  daddress_ne_zero : daddress ≠ 0
  vaddress_lt : vaddress + size < 2 ^ 64
  daddress_lt : daddress + size < 2 ^ 64

/-- An address is in the interval `[start, start + size)`, whose end is a `u64`. -/
abbrev InInterval (start size v : Nat) : Prop := start ≤ v ∧ v < (start + size) % 2 ^ 64

namespace HeapMapper

/-- A device address is in the area. -/
def Has (m : HeapMapper) (d : Nat) : Prop := m.daddress ≤ d ∧ d < m.daddress + m.size

/-- `IsInBounds`. -/
def isInBounds (m : HeapMapper) (start size : Nat) : Bool :=
  m.vaddress ≤ start && (start + size) % 2 ^ 64 ≤ m.vaddress + m.size

/-- `Map`: what no earlier mapping covers is mapped. `ranges` counts the mappings of an address
(`m_mapped_ranges`). -/
def map (m : HeapMapper) (asid : SessionId) (start size : Nat) (ranges : Nat → Nat) (smmu : Smmu) :
    Nat × (Nat → Nat) × Smmu :=
  ((m.daddress + (start - m.vaddress)) % 2 ^ 64,
    fun v => if InInterval start size v then ranges v + 1 else ranges v,
    { smmu with entry := fun d =>
        let v := m.vaddress + (d - m.daddress)
        if m.daddress ≤ d ∧ InInterval start size v ∧ ranges v = 0 then some (asid, v)
        else smmu.entry d })

/-- `Unmap`: what no other mapping covers is unmapped. -/
def unmap (m : HeapMapper) (start size : Nat) (ranges : Nat → Nat) (smmu : Smmu) : (Nat → Nat) × Smmu :=
  (fun v => if InInterval start size v then ranges v - 1 else ranges v,
    { smmu with entry := fun d =>
        let v := m.vaddress + (d - m.daddress)
        if m.daddress ≤ d ∧ InInterval start size v ∧ ranges v = 1 then none else smmu.entry d })

end HeapMapper

/-- The sessions with `has_preallocated_area`. The areas come from one allocator. -/
structure Container where
  mapper : SessionId → Option HeapMapper
  apart : ∀ s s' m m' d, mapper s = some m → mapper s' = some m' → m.Has d → m'.Has d → s = s'

/-! ## 2. Handles -/

/-- `NvMap::Handle`. A queue entry is an iterator, the number of a node of the queue. -/
structure Handle where
  align : Nat
  size : Nat
  alignedSize : Nat
  dupes : Int
  internalDupes : Int
  id : HandleId
  pins : Int
  pinVirtAddress : Nat
  unmapQueueEntry : Option Nat
  flags : UInt32
  address : Nat
  kind : UInt8
  allocated : Bool
  inHeap : Bool
  sessionId : SessionId
  dAddress : Nat

namespace Handle

/-- `Handle::Handle`. -/
def new (size : Nat) (id : HandleId) : Handle where
  align := 0
  size := size
  alignedSize := size
  dupes := 1
  internalDupes := 0
  id := id
  pins := 0
  pinVirtAddress := 0
  unmapQueueEntry := none
  flags := 0
  address := 0
  kind := 0
  allocated := false
  inHeap := false
  sessionId := 0
  dAddress := 0

/-- The bit `keep_uncached_after_free`. -/
def keepUncachedAfterFree : UInt32 := 4

/-- The bit `map_uncached`. -/
def mapUncached : UInt32 := 1

/-- `Handle::Alloc`. -/
def alloc (h : Handle) (pFlags : UInt32) (pAlign : Nat) (pKind : UInt8) (pAddress : Nat)
    (pSessionId : SessionId) : NvResult × Handle :=
  -- handles cannot be allocated twice
  if h.allocated then (.accessDenied, h)
  else
    let align := if pAlign < yuzuPageSize then yuzuPageSize else pAlign
    let size := alignUp64 h.size yuzuPageSize
    (.success, { h with
      flags := if pAddress ≠ 0 then pFlags &&& ~~~keepUncachedAfterFree else pFlags
      kind := pKind
      align := align
      sessionId := pSessionId
      size := size
      alignedSize := alignUp64 size align
      address := pAddress
      allocated := true })

/-- `Handle::Duplicate`. -/
def duplicate (h : Handle) (internalSession : Bool) : NvResult × Handle :=
  if !h.allocated then (.badValue, h)
  else if internalSession then (.success, { h with internalDupes := h.internalDupes + 1 })
  else (.success, { h with dupes := h.dupes + 1 })

/-- The range of the SMMU that a handle takes when it is not in a preallocated area. -/
def deviceSize (h : Handle) : Nat := alignUp64 h.alignedSize bigPageSize

/-- The range of the low area that a handle takes: the size is cast to a `u32`. -/
def lowSize (h : Handle) : Nat := h.alignedSize % 2 ^ 32

end Handle

/-- `FreeInfo`. -/
structure FreeInfo where
  address : Nat
  size : Nat
  wasUncached : Bool
  canUnlock : Bool
deriving DecidableEq, Repr

/-- `NvMap`, with the spaces of the host it changes. -/
structure NvMap where
  objects : List Handle
  handles : HandleId → Option Nat
  unmapQueue : List (Nat × Nat)
  nextNode : Nat
  nextHandleId : HandleId
  smmu : Smmu
  lowArea : LowArea
  heapRanges : SessionId → Nat → Nat

/-- `HandleIdIncrement`. -/
def handleIdIncrement : HandleId := 4

namespace NvMap

/-! ## 3. The table and the queue -/

/-- The object of an id (`GetHandle`). -/
def getHandle (n : NvMap) (id : HandleId) : Option (Nat × Handle) := do
  let o ← n.handles id
  let h ← n.objects[o]?
  return (o, h)

def setHandle (n : NvMap) (o : Nat) (h : Handle) : NvMap := { n with objects := n.objects.set o h }

/-- `AddHandle`: `emplace` leaves an id that is taken as it is. -/
def addHandle (n : NvMap) (id : HandleId) (o : Nat) : NvMap :=
  match n.handles id with
  | none => { n with handles := Function.update n.handles id (some o) }
  | some _ => n

/-- The queue without the entry of a handle. -/
def dequeue (n : NvMap) (h : Handle) : List (Nat × Nat) :=
  match h.unmapQueueEntry with
  | none => n.unmapQueue
  | some entry => n.unmapQueue.filter fun q => q.1 ≠ entry

/-! ## 4. Unmapping -/

/-- The low area without a handle. -/
def releaseLow (h : Handle) (low : LowArea) : LowArea :=
  if h.pinVirtAddress ≠ 0 then
    (low.unmap h.pinVirtAddress h.alignedSize).free h.pinVirtAddress h.lowSize
  else low

/-- The device memory and the ranges of the sessions without a handle. -/
def releaseDevice (c : Container) (h : Handle) (ranges : SessionId → Nat → Nat) (smmu : Smmu) :
    Option ((SessionId → Nat → Nat) × Smmu) :=
  if !h.inHeap then
    some (ranges, (smmu.unmap h.dAddress h.alignedSize).free h.dAddress h.deviceSize)
  else (c.mapper h.sessionId).map fun m =>
    let (ranges', smmu) := m.unmap h.address h.alignedSize (ranges h.sessionId) smmu
    (Function.update ranges h.sessionId ranges', smmu)

/-- `UnmapHandle`. -/
def unmapHandle (c : Container) (o : Nat) (h : Handle) (n : NvMap) : Option NvMap := do
  let (ranges, smmu) ← releaseDevice c h n.heapRanges n.smmu
  return { n with
    objects := n.objects.set o { h with
      unmapQueueEntry := none, pinVirtAddress := 0, dAddress := 0, inHeap := false }
    unmapQueue := n.dequeue h
    lowArea := releaseLow h n.lowArea
    smmu := smmu
    heapRanges := ranges }

/-- `TryRemoveHandle`. -/
def tryRemoveHandle (h : Handle) (n : NvMap) : Bool × NvMap :=
  if h.dupes = 0 ∧ h.internalDupes = 0 then
    (true, { n with handles := Function.update n.handles h.id none })
  else (false, n)

/-! ## 5. The calls -/

/-- `CreateHandle`. -/
def createHandle (size : Nat) (n : NvMap) : (NvResult × Option Nat) × NvMap :=
  if size = 0 then ((.badValue, none), n)
  else
    let id := n.nextHandleId
    let o := n.objects.length
    let n := { n with
      nextHandleId := id + handleIdIncrement, objects := n.objects ++ [Handle.new size id] }
    ((.success, some o), n.addHandle id o)

/-- `Handle::Alloc` on the handle of an id. -/
def alloc (id : HandleId) (pFlags : UInt32) (pAlign : Nat) (pKind : UInt8) (pAddress : Nat)
    (pSessionId : SessionId) (n : NvMap) : NvResult × NvMap :=
  match n.getHandle id with
  | none => (.badValue, n)
  | some (o, h) =>
    let (result, h) := h.alloc pFlags pAlign pKind pAddress pSessionId
    (result, n.setHandle o h)

/-- `map_low_area`. -/
def mapLowArea (answer : Nat) (h : Handle) (low : LowArea) : Handle × LowArea :=
  if h.pinVirtAddress = 0 then
    let low := if answer = 0 then low else low.allocate answer h.lowSize
    ({ h with pinVirtAddress := answer }, low.map answer h.alignedSize fun i => h.dAddress + i)
  else (h, low)

/-- The loop of `PinHandle` that frees handles until `smmu.Allocate` succeeds. The check reads the
address of the handle that is to be pinned. -/
def allocateDevice (c : Container) (dAddress size : Nat) : List Nat → NvMap → Option (Nat × NvMap)
  | [], _ => none
  | answer :: answers, n =>
    if answer ≠ 0 then some (answer, { n with smmu := n.smmu.allocate answer size })
    else match n.unmapQueue with
      | [] => none
      | (_, front) :: _ => do
        let h ← n.objects[front]?
        let n ← if dAddress ≠ 0 then n.unmapHandle c front h else some n
        n.allocateDevice c dAddress size answers

/-- The part of `PinHandle` that maps a handle. -/
def mapDevice (c : Container) (answers : List Nat) (h : Handle) (n : NvMap) : Option (Handle × NvMap) :=
  match (c.mapper h.sessionId).filter (·.isInBounds h.address h.alignedSize) with
  | some m =>
    let (d, ranges, smmu) :=
      m.map h.sessionId h.address h.alignedSize (n.heapRanges h.sessionId) n.smmu
    some ({ h with dAddress := d, inHeap := true },
      { n with heapRanges := Function.update n.heapRanges h.sessionId ranges, smmu := smmu })
  | none => do
    let (d, n) ← n.allocateDevice c h.dAddress h.deviceSize answers
    return ({ h with dAddress := d, inHeap := false },
      { n with smmu := n.smmu.map d h.alignedSize fun i => (h.sessionId, h.address + i) })

/-- The end of `PinHandle`. -/
def completePin (lowAreaPin : Bool) (lowAnswer : Nat) (o : Nat) (h : Handle) (n : NvMap) : Nat × NvMap :=
  if lowAreaPin then
    let (h, low) := mapLowArea lowAnswer h n.lowArea
    (h.pinVirtAddress, { n with lowArea := low }.setHandle o { h with pins := h.pins + 1 })
  else (h.dAddress, n.setHandle o { h with pins := h.pins + 1 })

/-- `PinHandle`. -/
def pinHandle (c : Container) (id : HandleId) (lowAreaPin : Bool) (answers : List Nat)
    (lowAnswer : Nat) (n : NvMap) : Option (Nat × NvMap) :=
  match n.getHandle id with
  | none => some (0, n)
  | some (o, h) =>
    if h.pins = 0 then
      if h.unmapQueueEntry ≠ none then
        -- still mapped: it only leaves the queue
        some ({ n with unmapQueue := n.dequeue h }.completePin lowAreaPin lowAnswer o
          { h with unmapQueueEntry := none })
      else do
        let (h, n) ← n.mapDevice c answers h
        return n.completePin lowAreaPin lowAnswer o h
    else some (n.completePin lowAreaPin lowAnswer o h)

/-- `UnpinHandle`. -/
def unpinHandle (id : HandleId) (n : NvMap) : NvMap :=
  match n.getHandle id with
  | none => n
  | some (o, h) =>
    if h.pins - 1 = 0 then
      { n with unmapQueue := n.unmapQueue ++ [(n.nextNode, o)], nextNode := n.nextNode + 1 }.setHandle
        o { h with pins := h.pins - 1, unmapQueueEntry := some n.nextNode }
    else n.setHandle o { h with pins := h.pins - 1 }

/-- `DuplicateHandle`. -/
def duplicateHandle (id : HandleId) (internalSession : Bool) (n : NvMap) : NvMap :=
  match n.getHandle id with
  | none => n
  | some (o, h) => n.setHandle o (h.duplicate internalSession).2

/-- The part of `FreeHandle` before the handle is removed. -/
def dropReference (c : Container) (o : Nat) (h : Handle) (internalSession : Bool) (n : NvMap) :
    Option NvMap :=
  if internalSession then some (n.setHandle o { h with internalDupes := h.internalDupes - 1 })
  else if h.dupes - 1 = 0 then do
    -- force unmap the handle
    let h := { h with dupes := h.dupes - 1 }
    let n := n.setHandle o h
    let n ← if h.dAddress ≠ 0 then n.unmapHandle c o h else some n
    let h ← n.objects[o]?
    return n.setHandle o { h with pins := 0 }
  else some (n.setHandle o { h with dupes := h.dupes - 1 })

/-- `FreeHandle`. The handle is gone if neither the table nor the queue refers to it. -/
def freeHandle (c : Container) (id : HandleId) (internalSession : Bool) (n : NvMap) :
    Option (Option FreeInfo × NvMap) :=
  match n.getHandle id with
  | none => some (none, n)
  | some (o, h) => do
    let n ← n.dropReference c o h internalSession
    let h ← n.objects[o]?
    let (removed, n) := n.tryRemoveHandle h
    let info := {
      address := h.address
      size := h.size
      wasUncached := h.flags &&& Handle.mapUncached ≠ 0
      canUnlock := removed && !n.unmapQueue.any fun q => q.2 = o }
    return (some info, n)

/-- The calls of the devices, with the answers of the allocators to a pin. -/
inductive Call where
  | createHandle (size : Nat)
  | alloc (id : HandleId) (pFlags : UInt32) (pAlign : Nat) (pKind : UInt8) (pAddress : Nat)
      (pSessionId : SessionId)
  | duplicateHandle (id : HandleId) (internalSession : Bool)
  | pinHandle (id : HandleId) (lowAreaPin : Bool) (answers : List Nat) (lowAnswer : Nat)
  | unpinHandle (id : HandleId)
  | freeHandle (id : HandleId) (internalSession : Bool)

/-- The state after a call. -/
def call (c : Container) (n : NvMap) : Call → Option NvMap
  | .createHandle size => some (n.createHandle size).2
  | .alloc id pFlags pAlign pKind pAddress pSessionId =>
    some (n.alloc id pFlags pAlign pKind pAddress pSessionId).2
  | .duplicateHandle id internalSession => some (n.duplicateHandle id internalSession)
  | .pinHandle id lowAreaPin answers lowAnswer =>
    (n.pinHandle c id lowAreaPin answers lowAnswer).map Prod.snd
  | .unpinHandle id => some (n.unpinHandle id)
  | .freeHandle id internalSession => (n.freeHandle c id internalSession).map Prod.snd

/-- A start: there are no handles, and the areas of the sessions are held. -/
structure IsStart (c : Container) (n : NvMap) : Prop where
  objects : n.objects = []
  handles : ∀ id, n.handles id = none
  unmapQueue : n.unmapQueue = []
  held : ∀ s m d, c.mapper s = some m → m.Has d → n.smmu.held d = true
  heapRanges : ∀ s v, n.heapRanges s v = 0

end NvMap

end Yuzu.Service.NvCore
