/-
  File:      Yuzu/Service/HeapMapper.lean
  Subject:   `HeapMapper` (core/hle/service/nvdrv/core/heap_mapper.cpp) with its temporary set, its
             counted ranges and the pages of the device memory.

  A `RangeSet` is the set of its addresses, an `OverlapRangeSet` the number of ranges that cover an
  address. The segments their `ForEach`, `ForEachInRange` and deletion callbacks pass are part of a
  call: any segments that make up the set in question, in order, with ends on page boundaries (they
  are ends of ranges that were added).
-/
import Yuzu.Lib.Accounts
import Yuzu.Lib.Trace
import Yuzu.Service.NvMap

namespace Yuzu.Service.HeapMapping

open Yuzu.Common (alignUp)
open Yuzu.Service.NvCore (HeapMapper InInterval yuzuPageSize)

/-! ## 1. The device memory, by page -/

/-- The pages of the device memory: the process address that a device page is mapped to. `clean` says
that no page was mapped that already was, and none unmapped that was not. -/
structure DevicePages where
  entry : Nat → Option Nat
  clean : Bool

namespace DevicePages

def mapPage (m : DevicePages) (pageD vaddress : Nat) : DevicePages where
  entry := Function.update m.entry pageD (some vaddress)
  clean := m.clean && (m.entry pageD).isNone

def unmapPage (m : DevicePages) (pageD : Nat) : DevicePages where
  entry := Function.update m.entry pageD none
  clean := m.clean && (m.entry pageD).isSome

/-- The loop of `DeviceMemoryManager::Map` over the first pages. -/
def mapPages (m : DevicePages) (startPageD vaddress : Nat) : Nat → DevicePages
  | 0 => m
  | i + 1 => (m.mapPages startPageD vaddress i).mapPage (startPageD + i) (vaddress + i * yuzuPageSize)

/-- The loop of `DeviceMemoryManager::Unmap` over the first pages. -/
def unmapPages (m : DevicePages) (startPageD : Nat) : Nat → DevicePages
  | 0 => m
  | i + 1 => (m.unmapPages startPageD i).unmapPage (startPageD + i)

/-- `DeviceMemoryManager::Map`. -/
def map (m : DevicePages) (address vaddress size : Nat) : DevicePages :=
  m.mapPages (address / yuzuPageSize) vaddress (alignUp size yuzuPageSize / yuzuPageSize)

/-- `DeviceMemoryManager::Unmap`. -/
def unmap (m : DevicePages) (address size : Nat) : DevicePages :=
  m.unmapPages (address / yuzuPageSize) (alignUp size yuzuPageSize / yuzuPageSize)

/-- The process address behind a device address. -/
def translate (m : DevicePages) (d : Nat) : Option Nat :=
  (m.entry (d / yuzuPageSize)).map (· + d % yuzuPageSize)

end DevicePages

/-! ## 2. The sets -/

/-- A segment that is passed to a callback: from `start` up to `stop`. -/
structure Segment where
  start : Nat
  stop : Nat
  deriving DecidableEq, Repr

/-- An address is in the segment. -/
def Segment.Has (seg : Segment) (a : Nat) : Prop := seg.start ≤ a ∧ a < seg.stop

instance (seg : Segment) (a : Nat) : Decidable (seg.Has a) := by
  unfold Segment.Has
  infer_instance

/-- The segments make up the set: in order, none empty, with ends on page boundaries. -/
structure MakeUp (segs : List Segment) (set : Nat → Prop) : Prop where
  nonempty : ∀ seg ∈ segs, seg.start < seg.stop
  aligned : ∀ seg ∈ segs, yuzuPageSize ∣ seg.start ∧ yuzuPageSize ∣ seg.stop
  ordered : segs.Pairwise (fun x y => x.stop ≤ y.start)
  mem_iff : ∀ a, set a ↔ ∃ seg ∈ segs, seg.Has a

/-- `RangeSet::Add`. -/
def addRange (set : Nat → Bool) (start size : Nat) : Nat → Bool :=
  fun a => set a || decide (InInterval start size a)

/-- `RangeSet::Subtract`. -/
def subtractRange (set : Nat → Bool) (start size : Nat) : Nat → Bool :=
  fun a => set a && !decide (InInterval start size a)

/-- `OverlapRangeSet::Add` and the first line of its `Subtract`. -/
def addCount (ranges : Nat → Int) (start size : Nat) (amount : Int) : Nat → Int :=
  fun a => if InInterval start size a then ranges a + amount else ranges a

/-- The deletions of `OverlapRangeSet::Subtract`: what has no count left in the interval is erased. -/
def eraseSpent (ranges : Nat → Int) (start size : Nat) : Nat → Int :=
  fun a => if InInterval start size a ∧ ranges a ≤ 0 then 0 else ranges a

/-! ## 3. The heap mapper -/

/-- The heap of a process and its area of the device memory, in whole pages. -/
structure Heap extends HeapMapper where
  vaddress_aligned : yuzuPageSize ∣ vaddress
  daddress_aligned : yuzuPageSize ∣ daddress
  size_aligned : yuzuPageSize ∣ size

/-- A mapping that was made and not undone: its range and the address that `Map` returned. -/
structure Mapping where
  start : Nat
  size : Nat
  dAddress : Nat
  deriving DecidableEq, Repr

/-- `HeapMapperInternal`, with the mappings its users hold. -/
structure State where
  temporarySet : Nat → Bool
  mappedRanges : Nat → Int
  device : DevicePages
  outstanding : List Mapping
  alive : Bool

namespace Heap

/-- The device address of an address of the heap. -/
def deviceAddress (h : Heap) (a : Nat) : Nat := (h.daddress + (a - h.vaddress)) % 2 ^ 64

/-- The callback that maps a segment. -/
def mapSegment (h : Heap) (device : DevicePages) (seg : Segment) : DevicePages :=
  let subSize := seg.stop - seg.start
  let offset := seg.start - h.vaddress
  device.map (h.deviceAddress seg.start) (h.vaddress + offset) subSize

/-- The callback that unmaps a segment. -/
def unmapSegment (h : Heap) (device : DevicePages) (seg : Segment) : DevicePages :=
  let subSize := seg.stop - seg.start
  device.unmap (h.deviceAddress seg.start) subSize

/-- The temporary set of `Map` after the first two loops: the range, without what is mapped. -/
def unmappedPart (start size : Nat) (mapped : List Segment) : Nat → Bool :=
  mapped.foldl (fun set seg => subtractRange set seg.start (seg.stop - seg.start))
    (addRange (fun _ => false) start size)

/-- `Map`. -/
def map (h : Heap) (s : State) (start size : Nat) (unmapped : List Segment) : Nat × State :=
  (h.deviceAddress start, { s with
      temporarySet := fun _ => false
      device := unmapped.foldl h.mapSegment s.device
      mappedRanges := addCount s.mappedRanges start size 1
      outstanding := s.outstanding ++ [⟨start, size, h.deviceAddress start⟩] })

/-- `Unmap`; `deleted` are the segments of the deletion callback. -/
def unmap (h : Heap) (s : State) (start size : Nat) (deleted : List Segment) : State :=
  { s with
    device := deleted.foldl h.unmapSegment s.device
    mappedRanges := eraseSpent (addCount s.mappedRanges start size (-1)) start size }

/-- `~HeapMapper`. -/
def destroy (h : Heap) (s : State) (all : List Segment) : State :=
  { s with device := all.foldl h.unmapSegment s.device, outstanding := [], alive := false }

end Heap

/-! ## 4. Its users -/

/-- A call, with the segments that the sets pass during it. -/
inductive Call where
  | map (start size : Nat) (mapped unmapped : List Segment)
  | unmap (i : Nat) (deleted : List Segment)
  | destroy (all : List Segment)

namespace Heap

/-- No range is mapped, and nothing in the area. -/
def start (entry : Nat → Option Nat) : State where
  temporarySet _ := false
  mappedRanges _ := 0
  device := ⟨entry, true⟩
  outstanding := []
  alive := true

/-- One call. -/
def step (h : Heap) (s : State) : Call → Option Nat × State
  | .map start size _ unmapped =>
    let (dAddress, s') := h.map s start size unmapped
    (some dAddress, s')
  | .unmap i deleted =>
    match s.outstanding[i]? with
    | some m => (none, { h.unmap s m.start m.size deleted with outstanding := s.outstanding.eraseIdx i })
    | none => (none, s)
  | .destroy all => (none, h.destroy s all)

/-- **The calls that are made**: of ranges of whole pages inside the heap, and of ranges that are
mapped; the segments make up what the sets are asked for. -/
def Allowed (h : Heap) (s : State) : Call → Prop
  | .map start size mapped unmapped =>
    s.alive = true ∧ h.isInBounds start size = true ∧ start + size < 2 ^ 64 ∧
      yuzuPageSize ∣ start ∧ yuzuPageSize ∣ size ∧
      MakeUp mapped (fun a => InInterval start size a ∧ 0 < s.mappedRanges a) ∧
      MakeUp unmapped (fun a => unmappedPart start size mapped a = true)
  | .unmap i deleted =>
    s.alive = true ∧ ∃ m, s.outstanding[i]? = some m ∧
      MakeUp deleted (fun a => InInterval m.start m.size a ∧
        addCount s.mappedRanges m.start m.size (-1) a = 0)
  | .destroy all => s.alive = true ∧ MakeUp all (fun a => 0 < s.mappedRanges a)

end Heap

end Yuzu.Service.HeapMapping
