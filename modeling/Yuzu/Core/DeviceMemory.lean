/-
  File:      Yuzu/Core/DeviceMemory.lean
  Subject:   Core::DeviceMemoryManager (core/device_memory_manager.inc): device addresses and the
             memory behind them.

  A device page has a physical page or none. `WalkBlock` goes over runs of pages whose physical
  pages follow each other, as counted by `continuity_tracker`; that the counts are right is part of
  the structure, and Core.DeviceContinuity says which calls keep them so. Pointers are offsets into
  physical memory, which is a function to bytes.
-/
import Mathlib.Data.Nat.Bitwise
import Yuzu.Lib.Copies

namespace Yuzu.Core

/-- `Memory::YUZU_PAGEBITS`. -/
def pageBits : Nat := 12

/-- `Memory::YUZU_PAGESIZE`. -/
def pageSize : Nat := 2 ^ 12

/-- `DeviceMemoryManager`, as far as addresses are read through it. -/
structure DeviceMemory where
  compressedPhysicalPtr : Nat → Nat
  continuityTracker : Nat → Nat
  tracker_pos : ∀ p, 0 < continuityTracker p
  tracker_run : ∀ p j, j < continuityTracker p → compressedPhysicalPtr (p + j) =
    if compressedPhysicalPtr p = 0 then 0 else compressedPhysicalPtr p + j

namespace DeviceMemory

/-- `GetPointer`. -/
def getPointer (d : DeviceMemory) (address : Nat) : Option Nat :=
  let physAddr := d.compressedPhysicalPtr (address >>> pageBits)
  if physAddr = 0 then none
  else some ((physAddr - 1) <<< pageBits + (address &&& (pageSize - 1)))

/-- The loop of `WalkBlock`. -/
def walkBlockLoop {σ : Type} (d : DeviceMemory) (onUnmapped : Nat → σ → σ)
    (onMemory : Nat → Nat → σ → σ) (increment : Nat → σ → σ) : Nat → Nat → Nat → Nat → σ → σ
  | 0, _, _, _, s => s
  | fuel + 1, remainingSize, pageIndex, pageOffset, s =>
    if remainingSize = 0 then s
    else
      let nextPages := d.continuityTracker pageIndex
      let copyAmount := min (nextPages <<< pageBits - pageOffset) remainingSize
      let physAddr := d.compressedPhysicalPtr pageIndex
      let s := if physAddr = 0 then onUnmapped copyAmount s
        else onMemory copyAmount ((physAddr - 1) <<< pageBits + pageOffset) s
      walkBlockLoop d onUnmapped onMemory increment fuel (remainingSize - copyAmount)
        (pageIndex + nextPages) 0 (increment copyAmount s)

/-- `WalkBlock`: each round takes a byte at least. -/
def walkBlock {σ : Type} (d : DeviceMemory) (addr size : Nat) (onUnmapped : Nat → σ → σ)
    (onMemory : Nat → Nat → σ → σ) (increment : Nat → σ → σ) (s : σ) : σ :=
  walkBlockLoop d onUnmapped onMemory increment size size (addr >>> pageBits) (addr &&& (pageSize - 1)) s

/-- `ReadBlockUnsafe`, into the buffer from the offset on. -/
def readBlockUnsafe (d : DeviceMemory) (phys : Nat → UInt8) (address : Nat)
    (destPointer : (Nat → UInt8) × Nat) (size : Nat) : (Nat → UInt8) × Nat :=
  d.walkBlock address size (fun copyAmount s => (copyBytes s.1 (fun _ => 0) s.2 0 copyAmount, s.2))
    (fun copyAmount srcPtr s => (copyBytes s.1 phys s.2 srcPtr copyAmount, s.2))
    (fun copyAmount s => (s.1, s.2 + copyAmount)) destPointer

/-- `WriteBlockUnsafe`, from the buffer from the offset on. -/
def writeBlockUnsafe (d : DeviceMemory) (src : Nat → UInt8) (address : Nat)
    (phys : (Nat → UInt8) × Nat) (size : Nat) : (Nat → UInt8) × Nat :=
  d.walkBlock address size (fun _ s => s)
    (fun copyAmount dstPtr s => (copyBytes s.1 src dstPtr s.2 copyAmount, s.2))
    (fun copyAmount s => (s.1, s.2 + copyAmount)) phys

/-- The byte that device memory holds, 0 where there is no memory. -/
def byteAt (d : DeviceMemory) (phys : Nat → UInt8) (address : Nat) : UInt8 :=
  match d.getPointer address with
  | some p => phys p
  | none => 0

variable {d : DeviceMemory} {a p j size : Nat} {σ : Type}

theorem getPointer_eq : d.getPointer a = if d.compressedPhysicalPtr (a / pageSize) = 0 then none
    else some ((d.compressedPhysicalPtr (a / pageSize) - 1) * pageSize + a % pageSize) := by
  rw [getPointer, Nat.shiftRight_eq_div_pow, Nat.shiftLeft_eq, pageSize, Nat.and_two_pow_sub_one_eq_mod]
  rfl

theorem getPointer_add (h : a % pageSize + j < pageSize) :
    d.getPointer (a + j) = (d.getPointer a).map (· + j) := by
  have hdiv : (a + j) / pageSize = a / pageSize := by
    unfold pageSize at *
    omega
  have hmod : (a + j) % pageSize = a % pageSize + j := by
    unfold pageSize at *
    omega
  rw [getPointer_eq, getPointer_eq, hdiv, hmod]
  split
  · rfl
  · rw [Option.map_some, Nat.add_assoc]

theorem add_sub_one_mul {x k r m : Nat} (hx : x ≠ 0) : (x + k - 1) * m + r = (x - 1) * m + (k * m + r) := by
  obtain ⟨y, rfl⟩ := Nat.exists_eq_succ_of_ne_zero hx
  rw [Nat.succ_add, Nat.succ_sub_one, Nat.succ_sub_one, Nat.add_mul, Nat.add_assoc]

theorem getPointer_run (h : a % pageSize + j < d.continuityTracker (a / pageSize) * pageSize) :
    d.getPointer (a + j) = (d.getPointer a).map (· + j) := by
  have hdiv : (a + j) / pageSize = a / pageSize + (a % pageSize + j) / pageSize := by
    unfold pageSize at *
    omega
  have hmod : (a + j) % pageSize = (a % pageSize + j) % pageSize := by
    unfold pageSize at *
    omega
  have hrun := d.tracker_run (a / pageSize) ((a % pageSize + j) / pageSize)
    ((Nat.div_lt_iff_lt_mul (by decide)).mpr h)
  rw [getPointer_eq, getPointer_eq, hdiv, hmod, hrun]
  by_cases hzero : d.compressedPhysicalPtr (a / pageSize) = 0
  · rw [if_pos hzero, if_pos rfl, if_pos hzero]
    rfl
  · have hne : d.compressedPhysicalPtr (a / pageSize) + (a % pageSize + j) / pageSize ≠ 0 :=
      fun h => hzero (Nat.add_eq_zero_iff.mp h).1
    rw [if_neg hzero, if_neg hzero, if_neg hne, Option.map_some, add_sub_one_mul hzero,
      Nat.mul_comm, Nat.mul_comm _ pageSize, Nat.div_add_mod, Nat.add_assoc, Nat.mul_comm]

/-! ## Walking over a block -/

section Walk

variable {onUnmapped : Nat → σ → σ} {onMemory : Nat → Nat → σ → σ} {increment : Nat → σ → σ}
  {addr : Nat} {st : Nat → σ}

/-- What `WalkBlock` does with the piece of a block that starts at an address. -/
def walkStep (d : DeviceMemory) (onUnmapped : Nat → σ → σ) (onMemory : Nat → Nat → σ → σ)
    (increment : Nat → σ → σ) (a n : Nat) (s : σ) : σ :=
  increment n (match d.getPointer a with
    | some p => onMemory n p s
    | none => onUnmapped n s)

theorem walkBlockLoop_step {fuel rem off : Nat} {s : σ} (hrem : rem ≠ 0) (hoff : off < pageSize) :
    d.walkBlockLoop onUnmapped onMemory increment (fuel + 1) rem p off s =
      d.walkBlockLoop onUnmapped onMemory increment fuel
        (rem - min (d.continuityTracker p * pageSize - off) rem) (p + d.continuityTracker p) 0
        (d.walkStep onUnmapped onMemory increment (p * pageSize + off)
          (min (d.continuityTracker p * pageSize - off) rem) s) := by
  have hdiv : (p * pageSize + off) / pageSize = p := by
    unfold pageSize at *
    omega
  have hmod : (p * pageSize + off) % pageSize = off := by
    unfold pageSize at *
    omega
  rw [walkBlockLoop, if_neg hrem, walkStep, getPointer_eq, hdiv, hmod]
  simp only [Nat.shiftLeft_eq]
  by_cases hzero : d.compressedPhysicalPtr p = 0
  · rw [if_pos hzero, if_pos hzero]
    rfl
  · rw [if_neg hzero, if_neg hzero]
    rfl

/-- **The walk goes from state to state:** if each piece inside a run of pages takes the state after
    `i` bytes to the state after `i + n`, the walk takes the first to the last. -/
theorem walkBlockLoop_eq {i rem off fuel : Nat} (hpiece : ∀ i n, 0 < n → i + n ≤ size →
      (∀ j < n, d.getPointer (addr + i + j) = (d.getPointer (addr + i)).map (· + j)) →
      d.walkStep onUnmapped onMemory increment (addr + i) n (st i) = st (i + n))
    (hi : i + rem = size) (hfuel : rem ≤ fuel) (hoff : off < pageSize)
    (haddr : rem = 0 ∨ addr + i = p * pageSize + off) :
    d.walkBlockLoop onUnmapped onMemory increment fuel rem p off (st i) = st size := by
  induction fuel generalizing i rem p off with
  | zero =>
    have hi : i = size := by omega
    rw [walkBlockLoop, hi]
  | succ fuel ih =>
    rcases haddr with rfl | haddr
    · rw [walkBlockLoop, if_pos rfl, ← hi, Nat.add_zero]
    by_cases hrem : rem = 0
    · rw [walkBlockLoop, if_pos hrem, ← hi, hrem, Nat.add_zero]
    have hpos := d.tracker_pos p
    obtain ⟨n, hn⟩ : ∃ n, n = min (d.continuityTracker p * pageSize - off) rem := ⟨_, rfl⟩
    have hspan : off < d.continuityTracker p * pageSize :=
      lt_of_lt_of_le hoff (Nat.le_mul_of_pos_left _ hpos)
    have hn0 : 0 < n := by omega
    have hstep := hpiece i n hn0 (by omega) fun j hj => getPointer_run (by
      have hdiv : (p * pageSize + off) / pageSize = p := by
        unfold pageSize at *
        omega
      have hmod : (p * pageSize + off) % pageSize = off := by
        unfold pageSize at *
        omega
      rw [haddr, hdiv, hmod]
      omega)
    rw [walkBlockLoop_step hrem hoff, ← hn, ← haddr, hstep]
    refine ih (by omega) (by omega) (by decide) ?_
    by_cases hlast : n = rem
    · exact .inl (by omega)
    · refine .inr ?_
      rw [Nat.add_mul]
      omega

theorem walkBlock_eq (st : Nat → σ) (hpiece : ∀ i n, 0 < n → i + n ≤ size →
      (∀ j < n, d.getPointer (addr + i + j) = (d.getPointer (addr + i)).map (· + j)) →
      d.walkStep onUnmapped onMemory increment (addr + i) n (st i) = st (i + n)) :
    d.walkBlock addr size onUnmapped onMemory increment (st 0) = st size := by
  rw [walkBlock, Nat.shiftRight_eq_div_pow, pageSize, Nat.and_two_pow_sub_one_eq_mod]
  refine walkBlockLoop_eq hpiece (Nat.zero_add _) le_rfl (Nat.mod_lt _ (by decide)) (.inr ?_)
  rw [Nat.add_zero, pageBits, pageSize, Nat.mul_comm, Nat.div_add_mod]

end Walk

/-! ## Reading and writing -/

variable {phys src dest : Nat → UInt8} {f : Nat → UInt8} {target : Nat → Option Nat} {addr b : Nat}

/-- **A read gathers the bytes of device memory.** -/
theorem readBlockUnsafe_gathered (h : ∀ j < size, d.byteAt phys (addr + j) = f (b + j)) :
    d.readBlockUnsafe phys addr (gathered f dest b, b) size = (gathered f dest (b + size), b + size) := by
  refine walkBlock_eq (fun i => (gathered f dest (b + i), b + i)) fun i n _ hin hrun => ?_
  dsimp only [walkStep]
  have hbyte : ∀ j < n, f (b + i + j) = match d.getPointer (addr + i) with
      | some p => phys (p + j)
      | none => 0 := by
    intro j hj
    rw [Nat.add_assoc, ← h (i + j) (by omega), byteAt, ← Nat.add_assoc, hrun j hj]
    cases d.getPointer (addr + i) <;> rfl
  cases hp : d.getPointer (addr + i) with
  | none =>
    rw [hp] at hbyte
    dsimp only
    rw [gathered_copy fun j hj => (hbyte j hj).symm, Nat.add_assoc]
  | some p =>
    rw [hp] at hbyte
    dsimp only
    rw [gathered_copy fun j hj => (hbyte j hj).symm, Nat.add_assoc]

/-- **A write scatters the bytes over device memory.** -/
theorem writeBlockUnsafe_scattered (h : ∀ j < size, d.getPointer (addr + j) = target (b + j)) :
    d.writeBlockUnsafe src addr (scattered target src phys b, b) size =
      (scattered target src phys (b + size), b + size) := by
  refine walkBlock_eq (fun i => (scattered target src phys (b + i), b + i)) fun i n _ hin hrun => ?_
  dsimp only [walkStep]
  have hplace : ∀ j < n, target (b + i + j) = (d.getPointer (addr + i)).map (· + j) := by
    intro j hj
    rw [Nat.add_assoc, ← h (i + j) (by omega), ← Nat.add_assoc, hrun j hj]
  cases hp : d.getPointer (addr + i) with
  | none =>
    rw [hp] at hplace
    dsimp only
    rw [← Nat.add_assoc, scattered_skip hplace]
  | some p =>
    rw [hp] at hplace
    dsimp only
    rw [scattered_copy hplace, Nat.add_assoc]

end DeviceMemory

end Yuzu.Core
