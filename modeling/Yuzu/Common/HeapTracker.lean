/-
  File:      Yuzu/Common/HeapTracker.lean
  Subject:   Common::HeapTracker (common/heap_tracker.cpp): mappings of separate heaps that are put
             into the host buffer when they are used, and taken out again in bulk.

  A mapping is a node with a number; both trees are lists of nodes in order. The host buffer is the
  offset and the permission of each mapped address.
-/
import Yuzu.Lib.OrderedTree

namespace Yuzu.Common

/-! ## 1. Data -/

/-- `MemoryPermission`. -/
abbrev MemoryPermission := UInt32

structure SeparateHeapMap where
  vaddr : Nat := 0
  paddr : Nat := 0
  size : Nat := 0
  tick : Nat := 0
  perm : MemoryPermission := 0
  isResident : Bool := false
  deriving DecidableEq, Repr

/-- `SeparateHeapMapAddrComparator`. -/
def addrCompare (lhs rhs : SeparateHeapMap) : Ordering :=
  if lhs.vaddr < rhs.vaddr then .lt
  else if lhs.vaddr ≤ rhs.vaddr + rhs.size - 1 then .eq
  else .gt

/-- `SeparateHeapMapTickComparator`. -/
def tickCompare (lhs rhs : SeparateHeapMap) : Ordering :=
  if lhs.tick < rhs.tick then .lt
  else if lhs.tick > rhs.tick then .gt
  else addrCompare lhs rhs

/-- What an address is mapped to: its offset in the backing memory, and the permission. -/
abbrev PageMap := Nat → Option (Nat × MemoryPermission)

namespace HostMemory

/-- `HostMemory::Map`. -/
def map (buffer : PageMap) (virtualOffset hostOffset length : Nat) (perm : MemoryPermission) :
    PageMap := fun a =>
  if virtualOffset ≤ a ∧ a < virtualOffset + length then some (hostOffset + (a - virtualOffset), perm)
  else buffer a

/-- `HostMemory::Unmap`. -/
def unmap (buffer : PageMap) (virtualOffset length : Nat) : PageMap := fun a =>
  if virtualOffset ≤ a ∧ a < virtualOffset + length then none else buffer a

/-- `HostMemory::Protect`. -/
def protect (buffer : PageMap) (virtualOffset length : Nat) (perm : MemoryPermission) : PageMap :=
  fun a => if virtualOffset ≤ a ∧ a < virtualOffset + length then (buffer a).map fun p => (p.1, perm)
    else buffer a

end HostMemory

structure HeapTracker where
  node : Nat → SeparateHeapMap := fun _ => {}
  nextNode : Nat := 0
  mappings : List Nat := []
  residentMappings : List Nat := []
  mapCount : Int := 0
  residentMapCount : Int := 0
  tick : Nat := 0
  buffer : PageMap := fun _ => none

namespace HeapTracker

/-- A node changes in place. -/
def setNode (s : HeapTracker) (i : Nat) (n : SeparateHeapMap) : HeapTracker :=
  { s with node := Function.update s.node i n }

/-- `new SeparateHeapMap`, and its insertion into the mappings. -/
def insertMapping (s : HeapTracker) (n : SeparateHeapMap) : HeapTracker :=
  { s with
    node := Function.update s.node s.nextNode n
    nextNode := s.nextNode + 1
    mapCount := s.mapCount + 1
    mappings := treeInsert (fun i => addrCompare n (s.node i)) s.nextNode s.mappings }

/-- The insertion of a node into the resident mappings. -/
def insertResident (s : HeapTracker) (i : Nat) : HeapTracker :=
  { s with
    residentMapCount := s.residentMapCount + 1
    residentMappings :=
      treeInsert (fun j => tickCompare (s.node i) (s.node j)) i s.residentMappings }

/-- `GetNearestHeapMapLocked`. -/
def getNearestHeapMapLocked (s : HeapTracker) (offset : Nat) : Option Nat :=
  treeFind (fun i => addrCompare { vaddr := offset } (s.node i)) s.mappings

/-! ## 2. Residence -/

/-- The loop of `RebuildSeparateHeapAddressSpace` over the nodes that it evicts. -/
def evictLoop (s : HeapTracker) : Nat → List Nat → HeapTracker
  | 0, _ => s
  | _ + 1, [] => s
  | evictCount + 1, it :: rest =>
    let s := s.setNode it { s.node it with isResident := false }
    evictLoop { s with
      buffer := HostMemory.unmap s.buffer (s.node it).vaddr (s.node it).size
      residentMapCount := s.residentMapCount - 1
      residentMappings := s.residentMappings.erase it } evictCount rest

/-- `RebuildSeparateHeapAddressSpace`. -/
def rebuildSeparateHeapAddressSpace (s : HeapTracker) (maxResidentMapCount : Int) : HeapTracker :=
  let desiredCount := min s.residentMapCount maxResidentMapCount / 2
  s.evictLoop (s.residentMapCount - desiredCount).toNat s.residentMappings

/-- `DeferredMapSeparateHeap`. -/
def deferredMapSeparateHeap (s : HeapTracker) (maxResidentMapCount : Int) (virtualOffset : Nat) :
    Bool × HeapTracker :=
  match s.getNearestHeapMapLocked virtualOffset with
  | none => (false, s)
  | some it =>
    if (s.node it).isResident then (false, s)
    else
      let rebuildRequired := decide (s.residentMapCount > maxResidentMapCount)
      let s := s.setNode it { s.node it with tick := s.tick }
      let s := { s with
        tick := s.tick + 1
        buffer := HostMemory.map s.buffer (s.node it).vaddr (s.node it).paddr (s.node it).size
          (s.node it).perm }
      let s := (s.setNode it { s.node it with isResident := true }).insertResident it
      (true, if rebuildRequired then s.rebuildSeparateHeapAddressSpace maxResidentMapCount else s)

/-! ## 3. Mapping, unmapping and protection -/

/-- `Map` of a separate heap. -/
def map (s : HeapTracker) (maxResidentMapCount : Int) (virtualOffset hostOffset length : Nat)
    (perm : MemoryPermission) : HeapTracker :=
  let s := { s.insertMapping
    { vaddr := virtualOffset, paddr := hostOffset, size := length, tick := s.tick, perm := perm } with
      tick := s.tick + 1 }
  (s.deferredMapSeparateHeap maxResidentMapCount virtualOffset).2

/-- `SplitHeapMapLocked`. -/
def splitHeapMapLocked (s : HeapTracker) (offset : Nat) : HeapTracker :=
  match s.getNearestHeapMapLocked offset with
  | none => s
  | some left =>
    if (s.node left).vaddr = offset then s
    else
      let origSize := (s.node left).size
      let leftSize := offset - (s.node left).vaddr
      let s := s.setNode left { s.node left with size := leftSize }
      let right := s.nextNode
      let s := s.insertMapping
        { vaddr := (s.node left).vaddr + leftSize
          paddr := (s.node left).paddr + leftSize
          size := origSize - leftSize
          tick := (s.node left).tick
          perm := (s.node left).perm
          isResident := (s.node left).isResident }
      if (s.node right).isResident then s.insertResident right else s

/-- The loop of `Unmap` over the mappings from the first on. -/
def unmapLoop (s : HeapTracker) (stop : Nat) : List Nat → HeapTracker
  | [] => s
  | it :: rest =>
    if (s.node it).vaddr < stop then
      let s := if (s.node it).isResident then
          { s with
            residentMapCount := s.residentMapCount - 1
            residentMappings := s.residentMappings.erase it }
        else s
      unmapLoop { s with mapCount := s.mapCount - 1, mappings := s.mappings.erase it } stop rest
    else s

/-- `Unmap` of a separate heap. -/
def unmap (s : HeapTracker) (virtualOffset size : Nat) : HeapTracker :=
  let s := s.splitHeapMapLocked virtualOffset
  let s := s.splitHeapMapLocked (virtualOffset + size)
  let s := s.unmapLoop (virtualOffset + size) (s.mappings.dropWhile fun i =>
    addrCompare { vaddr := virtualOffset } (s.node i) ≠ .eq)
  { s with buffer := HostMemory.unmap s.buffer virtualOffset size }

/-- `SplitHeapMap`. -/
def splitHeapMap (s : HeapTracker) (offset size : Nat) : HeapTracker :=
  (s.splitHeapMapLocked offset).splitHeapMapLocked (offset + size)

/-- The loop of `Protect`: each round goes on by an address at least. -/
def protectLoop (stop : Nat) (perm : MemoryPermission) : Nat → Nat → HeapTracker → HeapTracker
  | 0, _, s => s
  | fuel + 1, cur, s =>
    if cur < stop then
      let (s, next, shouldProtect) :=
        match treeNFind (fun i => addrCompare { vaddr := cur } (s.node i)) s.mappings with
        | none => (s, stop, true)
        | some it =>
          if (s.node it).vaddr = cur then
            let s := s.setNode it { s.node it with perm := perm }
            (s, cur + (s.node it).size, (s.node it).isResident)
          else (s, (s.node it).vaddr, true)
      let next := min next stop
      let s := if shouldProtect then
          { s with buffer := HostMemory.protect s.buffer cur (next - cur) perm }
        else s
      protectLoop stop perm fuel next s
    else s

/-- `Protect`. -/
def protect (s : HeapTracker) (virtualOffset size : Nat) (perm : MemoryPermission) : HeapTracker :=
  protectLoop (virtualOffset + size) perm size virtualOffset (s.splitHeapMap virtualOffset size)

end HeapTracker

/-! ## 4. Calls -/

/-- A call for a separate heap. -/
inductive HeapCall where
  | map (virtualOffset hostOffset length : Nat) (perm : MemoryPermission)
  | unmap (virtualOffset size : Nat)
  | protect (virtualOffset size : Nat) (perm : MemoryPermission)
  | deferredMap (virtualOffset : Nat)
  deriving DecidableEq, Repr

open HeapTracker in
/-- The state after a call. -/
def HeapCall.run (maxResidentMapCount : Int) (s : HeapTracker) : HeapCall → HeapTracker
  | .map virtualOffset hostOffset length perm =>
    s.map maxResidentMapCount virtualOffset hostOffset length perm
  | .unmap virtualOffset size => s.unmap virtualOffset size
  | .protect virtualOffset size perm => s.protect virtualOffset size perm
  | .deferredMap virtualOffset => (s.deferredMapSeparateHeap maxResidentMapCount virtualOffset).2

/-- **What the calls mean**: the offset that each address was mapped with, and its last
    permission. -/
def HeapCall.meaning (pages : PageMap) : HeapCall → PageMap
  | .map virtualOffset hostOffset length perm =>
    HostMemory.map pages virtualOffset hostOffset length perm
  | .unmap virtualOffset size => HostMemory.unmap pages virtualOffset size
  | .protect virtualOffset size perm => HostMemory.protect pages virtualOffset size perm
  | .deferredMap _ => pages

/-- What may be called: ranges that are mapped are free, those that are unmapped or protected are
    mapped throughout. -/
def HeapCall.Allowed (pages : PageMap) : HeapCall → Prop
  | .map virtualOffset _ length _ => 0 < length ∧
      ∀ a, virtualOffset ≤ a → a < virtualOffset + length → pages a = none
  | .unmap virtualOffset size | .protect virtualOffset size _ =>
    ∀ a, virtualOffset ≤ a → a < virtualOffset + size → pages a ≠ none
  | .deferredMap _ => True

/-- The states that calls lead to, and what the calls mean so far. -/
inductive HeapCall.Reachable (maxResidentMapCount : Int) : HeapTracker → PageMap → Prop
  | initial : Reachable maxResidentMapCount {} fun _ => none
  | step {s : HeapTracker} {pages : PageMap} {call : HeapCall}
      (h : Reachable maxResidentMapCount s pages) (hcall : call.Allowed pages) :
      Reachable maxResidentMapCount (call.run maxResidentMapCount s) (call.meaning pages)

end Yuzu.Common
