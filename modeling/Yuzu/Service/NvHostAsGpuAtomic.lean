/-
  File:      Yuzu/Service/NvHostAsGpuAtomic.lean
  Subject:   nvhost_as_gpu: what a call that fails leaves behind.

  A call that returns an error should change nothing. Three kinds do: `FreeSpace` where nothing is
  allocated, `FreeSpace` that finds a mapping gone after it has freed others, and `MapBufferEx`
  that fails behind its pin.
-/
import Yuzu.Service.NvHostAsGpuSteps

namespace Yuzu.Service

open Option

open Yuzu.Common (Block FlatAddressSpaceMap FlatAllocator)
open Yuzu.Core (DeviceMemory)
open Yuzu.VideoCore (pageSize identityMemory)

/-! ## 1. A failed allocation -/

section Allocation

variable {a a' : FlatAllocator} {size : Nat}

end Allocation

/-! ## 2. What a failed call leaves -/

namespace NvhostAsGpu

/-- **Nothing has changed**: the maps, the allocators, the page tables and the pin counts. -/
structure Unchanged (s s' : NvhostAsGpu) : Prop where
  allocationMap : s'.allocationMap = s.allocationMap
  mappingMap : s'.mappingMap = s.mappingMap
  smallPageAllocator : s'.smallPageAllocator = s.smallPageAllocator
  bigPageAllocator : s'.bigPageAllocator = s.bigPageAllocator
  gmmu : s'.gmmu = s.gmmu
  pins : ∀ id, s'.nvmap.pinsOf id = s.nvmap.pinsOf id

variable {s s' : NvhostAsGpu} {d : DeviceMemory} {o : Outcome NvhostAsGpu} {big : Bool}

theorem Unchanged.refl (s : NvhostAsGpu) : s.Unchanged s := ⟨rfl, rfl, rfl, rfl, rfl, fun _ => rfl⟩

end NvhostAsGpu

/-! ## 3. Runs -/

namespace Device

/-- Nothing has changed. -/
def Unchanged : Device → Device → Prop
  | .uninitialised n, .uninitialised n' => ∀ id, n'.pinsOf id = n.pinsOf id
  | .initialised s, .initialised s' => s.Unchanged s'
  | _, _ => False

end Device

end Yuzu.Service
