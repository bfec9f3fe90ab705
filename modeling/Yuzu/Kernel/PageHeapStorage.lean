/-
  File:      Yuzu/Kernel/PageHeapStorage.lean
  Subject:   The words that KPageHeap::Initialize hands out to the bitmaps of its levels, against
             CalculateManagementOverheadSize and the words that the levels touch.

  `MaxDepth` is checked by an assertion of the bitmap; the words are counted for every size.
-/
import Mathlib.Algebra.BigOperators.Ring.List
import Yuzu.Kernel.PageHeap

namespace Yuzu.Kernel

open Yuzu.Common List Option

/-! ## 1. The words of a bitmap -/

namespace KPageBitmap

/-- The words, by depth, that the loops of `SetBit` and `ClearBit` visit from a depth up to the root;
`FindFreeBlock` comes down to the offset it finds through them. -/
def path : Nat → Nat → List (Nat × Nat)
  | 0, _ => []
  | depth + 1, offset => (depth, offset / 64) :: path depth (offset / 64)

variable {s s' : BitStorage} {size size' depth offset n : Nat}

end KPageBitmap

/-! ## 2. The words of the heap -/

namespace KPageHeap

open KPageBitmap

namespace Block

/-- `CalculateManagementOverheadSize` of a level. -/
def calculateManagementOverheadSize (regionSize bs nbs : Nat) : Nat :=
  KPageBitmap.calculateManagementOverheadSize
    ((alignment bs nbs * 2 + alignUp regionSize (alignment bs nbs)) / 2 ^ bs)

/-- `m_end_offset` of a level from `addr` on. -/
def endOffsetOf (addr size bs nbs : Nat) : Nat :=
  (alignUp (addr + size) (alignment bs nbs) - alignDown addr (alignment bs nbs)) / 2 ^ bs

/-- The offsets whose bits `PushBlock` or `PopBlock` reads or writes for an address: its own, and with a
next larger block those of all the blocks that make it up. -/
def Touches (b : Block) (address offset : Nat) : Prop :=
  let own := (address - b.heapAddress) / 2 ^ b.shift
  let diff := 2 ^ (b.nextShift - b.shift)
  offset = own ∨ b.nextShift ≠ 0 ∧ alignDown own diff ≤ offset ∧ offset < alignDown own diff + diff

variable {b : Block} {rng : RandomBitGenerator} {addr size bs nbs words n v : Nat}

/-- The offsets touched for an address of the range lie below the end offset. -/
theorem Touches.lt {a o : Nat} (ht : b.Touches a o) (hheap : b.heapAddress = alignDown addr (alignment bs nbs))
    (hshift : b.shift = bs) (hnext : b.nextShift = nbs) (hle : nbs ≠ 0 → bs ≤ nbs) (hlo : addr ≤ a)
    (hhi : a < addr + size) : o < endOffsetOf addr size bs nbs := by
  have hpos : 0 < alignment bs nbs := by
    unfold alignment
    split <;> exact Nat.two_pow_pos _
  obtain ⟨m, hm⟩ : alignment bs nbs ∣ alignUp (addr + size) (alignment bs nbs) - b.heapAddress :=
    Nat.dvd_sub dvd_alignUp (hheap ▸ dvd_alignDown)
  have hbase : b.heapAddress ≤ addr := hheap ▸ alignDown_le
  have hend := le_alignUp (v := addr + size) hpos
  have hin : a - b.heapAddress < alignment bs nbs * m := by omega
  unfold Touches at ht
  rw [hshift, hnext] at ht
  rw [endOffsetOf, ← hheap, hm]
  by_cases hn : nbs ≠ 0
  · have hsize : alignment bs nbs = 2 ^ bs * 2 ^ (nbs - bs) := by
      rw [alignment, if_pos hn, ← Nat.pow_add, Nat.add_sub_cancel' (hle hn)]
    have hdiff : 0 < 2 ^ (nbs - bs) := Nat.two_pow_pos _
    have hquot : (a - b.heapAddress) / 2 ^ bs / 2 ^ (nbs - bs) < m := by
      rw [Nat.div_div_eq_div_mul, ← hsize]
      exact Nat.div_lt_of_lt_mul hin
    have hend : 2 ^ (nbs - bs) * ((a - b.heapAddress) / 2 ^ bs / 2 ^ (nbs - bs)) + 2 ^ (nbs - bs) ≤
        2 ^ (nbs - bs) * m := by
      rw [← Nat.mul_succ]
      exact Nat.mul_le_mul_left _ hquot
    rw [hsize, Nat.mul_assoc, Nat.mul_div_cancel_left _ (Nat.two_pow_pos bs)]
    rcases ht with rfl | ⟨-, -, ho⟩
    · have h1 := Nat.div_add_mod ((a - b.heapAddress) / 2 ^ bs) (2 ^ (nbs - bs))
      have h2 := Nat.mod_lt ((a - b.heapAddress) / 2 ^ bs) hdiff
      omega
    · rw [alignDown_eq_mul_div] at ho
      omega
  · rcases ht with rfl | ⟨hne, -⟩
    · rw [alignment, if_neg hn] at hin ⊢
      rw [Nat.mul_div_cancel_left _ (Nat.two_pow_pos bs)]
      exact Nat.div_lt_of_lt_mul hin
    · exact absurd hne hn

end Block

/-- `CalculateManagementOverheadSize` of the heap. -/
def calculateManagementOverheadSize (regionSize : Nat) : Nat :=
  alignUp ((List.range numMemoryBlockPageShifts).map fun i =>
    Block.calculateManagementOverheadSize regionSize (blockShift i) (blockShift (i + 1))).sum PageSize

end KPageHeap

end Yuzu.Kernel
