/-
  File:      Yuzu/Core/DeviceMemoryManager.lean
  Subject:   Core::DeviceMemoryManager (core/device_memory_manager.inc): mapping and unmapping device
             pages, the way back from physical pages, and block access over the continuity tracker.

  A process range is given by the physical page of each of its pages, none where the process has
  no memory. Pointers are offsets into physical memory.
-/
import Yuzu.Common.Alignment
import Yuzu.Core.DeviceMemory
import Yuzu.Core.MultiAddress

namespace Yuzu.Core

/-- `MULTI_FLAG_BITS`. -/
def multiFlagBits : Nat := 31

/-- `MULTI_FLAG`. -/
def multiFlag : Nat := 2 ^ 31

/-- `MULTI_MASK`. -/
def multiMask : Nat := 2 ^ 31 - 1

/-- The pages of physical memory: `physical_max_bits` without the page bits. -/
def physicalPages : Nat := 2 ^ 21

structure DeviceMemoryManager where
  compressedPhysicalPtr : Nat → Nat := fun _ => 0
  compressedDeviceAddr : Nat → Nat := fun _ => 0
  continuityTracker : Nat → Nat := fun _ => 1
  multiDevAddress : MultiAddressContainer := {}

namespace DeviceMemoryManager

/-- The number of pages of a size. -/
def numPages (size : Nat) : Nat := Common.alignUp size pageSize >>> pageBits

/-! ## 1. Mapping -/

/-- A round of the loop of `Map`. -/
def mapPage (m : DeviceMemoryManager) (pageD : Nat) (ptr : Option Nat) : DeviceMemoryManager :=
  match ptr with
  | none => { m with compressedPhysicalPtr := Function.update m.compressedPhysicalPtr pageD 0 }
  | some phys =>
    let physAddr := u32 (u32 phys + 1)
    let m := { m with
      compressedPhysicalPtr := Function.update m.compressedPhysicalPtr pageD physAddr }
    let baseDev := m.compressedDeviceAddr (physAddr - 1)
    let newDev := u32 pageD
    if baseDev = 0 then
      { m with compressedDeviceAddr := Function.update m.compressedDeviceAddr (physAddr - 1) newDev }
    else if baseDev >>> multiFlagBits = 0 then
      let (startId, container) := m.multiDevAddress.registerImplementation baseDev
      { m with
        compressedDeviceAddr :=
          Function.update m.compressedDeviceAddr (physAddr - 1) (multiFlag ||| startId)
        multiDevAddress := container.register newDev startId }
    else
      { m with multiDevAddress := m.multiDevAddress.register newDev (baseDev &&& multiMask) }

/-- The loop of `Map` over the first pages. -/
def mapPages (m : DeviceMemoryManager) (startPageD : Nat) (pages : Nat → Option Nat) :
    Nat → DeviceMemoryManager
  | 0 => m
  | i + 1 => (m.mapPages startPageD pages i).mapPage (startPageD + i) (pages i)

/-- A page that lies right behind the page after it in the walk. -/
def follows (newPtr lastPtr : Option Nat) : Bool :=
  match newPtr, lastPtr with
  | some new, some last => decide (new + 1 = last)
  | _, _ => false

/-- The loop of `TrackContinuityImpl`, from the last page down. -/
def trackLoop (startPageD : Nat) (pages : Nat → Option Nat) :
    Nat → Option Nat → Nat → (Nat → Nat) → Nat → Nat
  | 0, _, _, tracker => tracker
  | index + 1, lastPtr, pageCount, tracker =>
    let newPtr := pages index
    let pageCount := if follows newPtr lastPtr then pageCount + 1 else 1
    trackLoop startPageD pages index newPtr pageCount
      (Function.update tracker (startPageD + index) (u32 pageCount))

/-- `TrackContinuityImpl`. -/
def trackContinuityImpl (m : DeviceMemoryManager) (startPageD : Nat) (pages : Nat → Option Nat)
    (n : Nat) : DeviceMemoryManager :=
  { m with continuityTracker := trackLoop startPageD pages n none 1 m.continuityTracker }

/-- `Map`. -/
def map (m : DeviceMemoryManager) (address : Nat) (pages : Nat → Option Nat) (size : Nat)
    (track : Bool) : DeviceMemoryManager :=
  let startPageD := address >>> pageBits
  let m := m.mapPages startPageD pages (numPages size)
  if track = true then m.trackContinuityImpl startPageD pages (numPages size) else m

/-! ## 2. Unmapping -/

/-- A round of the loop of `Unmap`. -/
def unmapPage (m : DeviceMemoryManager) (pageD : Nat) : DeviceMemoryManager :=
  let physAddr := m.compressedPhysicalPtr pageD
  let m := { m with compressedPhysicalPtr := Function.update m.compressedPhysicalPtr pageD 0 }
  if physAddr ≠ 0 then
    let baseDev := m.compressedDeviceAddr (physAddr - 1)
    if baseDev >>> multiFlagBits = 0 then
      { m with compressedDeviceAddr := Function.update m.compressedDeviceAddr (physAddr - 1) 0 }
    else
      let ((moreEntries, newStart), container) :=
        m.multiDevAddress.unregister (u32 pageD) (baseDev &&& multiMask)
      if moreEntries = false then
        let (value, container) := container.releaseEntry newStart
        { m with
          compressedDeviceAddr := Function.update m.compressedDeviceAddr (physAddr - 1) value
          multiDevAddress := container }
      else
        { m with
          compressedDeviceAddr :=
            Function.update m.compressedDeviceAddr (physAddr - 1) (newStart ||| multiFlag)
          multiDevAddress := container }
  else m

/-- The loop of `Unmap` over the first pages. -/
def unmapPages (m : DeviceMemoryManager) (startPageD : Nat) : Nat → DeviceMemoryManager
  | 0 => m
  | i + 1 => (m.unmapPages startPageD i).unmapPage (startPageD + i)

/-- `Unmap`. -/
def unmap (m : DeviceMemoryManager) (address size : Nat) : DeviceMemoryManager :=
  m.unmapPages (address >>> pageBits) (numPages size)

/-- `InnerGatherDeviceAddresses`: the device pages of a physical page. -/
def innerGatherDeviceAddresses (m : DeviceMemoryManager) (physPage : Nat) : List Nat :=
  let backing := m.compressedDeviceAddr physPage
  if backing >>> multiFlagBits ≠ 0 then m.multiDevAddress.gatherValues (backing &&& multiMask)
  else [backing]

end DeviceMemoryManager

/-! ## 3. Runs -/

/-- A call that maps or unmaps. -/
inductive DeviceCall where
  | map (address : Nat) (pages : Nat → Option Nat) (size : Nat) (track : Bool)
  | unmap (address size : Nat)

open DeviceMemoryManager in
/-- The state after a call. -/
def DeviceCall.run (m : DeviceMemoryManager) : DeviceCall → DeviceMemoryManager
  | .map address pages size track => m.map address pages size track
  | .unmap address size => m.unmap address size

open DeviceMemoryManager in
/-- A call that may be made: what is mapped has no memory yet, its device pages are in 1 .. 2^31,
    and the process has its pages in physical memory. -/
def DeviceCall.Allowed (m : DeviceMemoryManager) : DeviceCall → Prop
  | .map address pages size _ => ∀ i < numPages size,
      0 < address >>> pageBits + i ∧ address >>> pageBits + i < 2 ^ 31 ∧
      m.compressedPhysicalPtr (address >>> pageBits + i) = 0 ∧
      ∀ phys, pages i = some phys → phys < physicalPages
  | .unmap _ _ => True

/-- The states that calls lead to. -/
inductive DeviceCall.Reachable : DeviceMemoryManager → Prop
  | initial : Reachable {}
  | step {m : DeviceMemoryManager} {call : DeviceCall} (h : Reachable m) (hcall : call.Allowed m) :
      Reachable (call.run m)

end Yuzu.Core
