/-
  File:      Yuzu/VideoCore/MemoryManager.lean
  Subject:   Tegra::MemoryManager (video_core/memory_manager.cpp): GPU virtual memory with big and
             small pages.

  Two page tables cover one address space. Each has an entry of two bits a page (free, reserved or
  mapped), packed into words, and a device page a page; a big page also has a bit that says that
  the memory behind it is in one piece. `GpuToCpuAddress` looks at one address, `ReadBlockUnsafe`
  and `WriteBlockUnsafe` walk over a range.

  Arrays are functions of the index. A handler of the walk returns `none` where the code would copy
  from or to a null pointer.
-/
import Yuzu.Core.DeviceMemory
import Yuzu.Lib.Word

namespace Yuzu.VideoCore

open List Option Function

open Yuzu.Core (DeviceMemory)

/-! ## 1. The page tables -/

/-- `EntryType`. -/
inductive EntryType where
  | free
  | reserved
  | mapped
  deriving DecidableEq, Repr

/-- The two bits of an entry. -/
def EntryType.word : EntryType → BitVec 64
  | .free => 0
  | .reserved => 1
  | .mapped => 2

/-- What the comparisons with the enumerators see of the two bits. -/
def EntryType.ofWord (w : BitVec 64) : EntryType :=
  if w = 2 then .mapped else if w = 1 then .reserved else .free

theorem EntryType.ofWord_word (e : EntryType) : ofWord e.word = e := by
  cases e <;> decide

/-- `page_bits`, which is `cpu_page_bits` in every address space. -/
def pageBits : Nat := 12

def pageSize : Nat := 2 ^ 12

/-- `MemoryManager`. -/
structure MemoryManager where
  addressSpaceBits : Nat
  bigPageBits : Nat
  page_le_big : pageBits ≤ bigPageBits
  big_le_space : bigPageBits ≤ addressSpaceBits
  entries : Nat → BitVec 64
  bigEntries : Nat → BitVec 64
  pageTable : Nat → BitVec 32
  bigPageTableDev : Nat → BitVec 32
  bigPageContinuous : Nat → BitVec 64

namespace MemoryManager

/-- The constructor: all entries are free. -/
def init (addressSpaceBits bigPageBits : Nat) (h₁ : pageBits ≤ bigPageBits)
    (h₂ : bigPageBits ≤ addressSpaceBits) : MemoryManager where
  addressSpaceBits := addressSpaceBits
  bigPageBits := bigPageBits
  page_le_big := h₁
  big_le_space := h₂
  entries := fun _ => 0
  bigEntries := fun _ => 0
  pageTable := fun _ => 0
  bigPageTableDev := fun _ => 0
  bigPageContinuous := fun _ => 0

/-- `page_bits` or `big_page_bits`, by the template argument. -/
def usedPageBits (m : MemoryManager) (isBigPage : Bool) : Nat :=
  if isBigPage then m.bigPageBits else pageBits

def bigPageSize (m : MemoryManager) : Nat := 2 ^ m.bigPageBits

def addressSpaceSize (m : MemoryManager) : Nat := 2 ^ m.addressSpaceBits

/-- `GetEntry`. -/
def getEntry (m : MemoryManager) (isBigPage : Bool) (position : Nat) : EntryType :=
  let position := position >>> m.usedPageBits isBigPage
  let entryMask := (if isBigPage then m.bigEntries else m.entries) (position / 32)
  let subIndex := position % 32
  EntryType.ofWord (entryMask >>> (2 * subIndex) &&& 3)

/-- A word of entries with one entry changed. -/
def withEntry (entryMask : BitVec 64) (subIndex : Nat) (entry : EntryType) : BitVec 64 :=
  ~~~(3#64 <<< (subIndex * 2)) &&& entryMask ||| entry.word <<< (subIndex * 2)

/-- `SetEntry`. -/
def setEntry (m : MemoryManager) (isBigPage : Bool) (position : Nat) (entry : EntryType) :
    MemoryManager :=
  let position := position >>> m.usedPageBits isBigPage
  let subIndex := position % 32
  match isBigPage with
  | true =>
    { m with
      bigEntries := Function.update m.bigEntries (position / 32)
        (withEntry (m.bigEntries (position / 32)) subIndex entry) }
  | false =>
    { m with
      entries := Function.update m.entries (position / 32)
        (withEntry (m.entries (position / 32)) subIndex entry) }

/-- `PageEntryIndex`. -/
def pageEntryIndex (m : MemoryManager) (isBigPage : Bool) (gpuAddr : Nat) : Nat :=
  gpuAddr >>> m.usedPageBits isBigPage &&& (2 ^ (m.addressSpaceBits - m.usedPageBits isBigPage) - 1)

/-- `IsBigPageContinuous`. -/
def isBigPageContinuous (m : MemoryManager) (bigPageIndex : Nat) : Bool :=
  m.bigPageContinuous (bigPageIndex / 64) >>> (bigPageIndex % 64) &&& 1 ≠ 0

/-- `SetBigPageContinuous`. -/
def setBigPageContinuous (m : MemoryManager) (bigPageIndex : Nat) (value : Bool) : MemoryManager :=
  let continuousMask := m.bigPageContinuous (bigPageIndex / 64)
  let subIndex := bigPageIndex % 64
  { m with
    bigPageContinuous := Function.update m.bigPageContinuous (bigPageIndex / 64)
      (~~~(1#64 <<< subIndex) &&& continuousMask ||| if value then 1#64 <<< subIndex else 0) }

/-! ## 2. Mapping -/

/-- How often a loop runs that goes from 0 below `size` in steps of `step`. -/
def rounds (size step : Nat) : Nat := (size + step - 1) / step

/-- One round of the loop of `PageTableOp`. -/
def pageTableStep (entryType : EntryType) (currentGpuAddr currentDevAddr : Nat)
    (m : MemoryManager) : MemoryManager :=
  let m := m.setEntry false currentGpuAddr entryType
  if entryType = .mapped then
    { m with
      pageTable := Function.update m.pageTable (m.pageEntryIndex false currentGpuAddr)
        (BitVec.ofNat 32 (currentDevAddr >>> pageBits)) }
  else m

/-- `PageTableOp`. -/
def pageTableOp (entryType : EntryType) (gpuAddr devAddr size : Nat) (m : MemoryManager) :
    MemoryManager :=
  (List.range (rounds size pageSize)).foldl (fun m k =>
    pageTableStep entryType (gpuAddr + k * pageSize) (devAddr + k * pageSize) m) m

/-- The check of `BigPageTableOp` that a big page is in one piece. -/
def isContinuous (d : DeviceMemory) (bigPageSize currentDevAddr : Nat) : Bool :=
  match d.getPointer currentDevAddr with
  | none => false
  | some basePtr => (List.range (rounds bigPageSize pageSize - 1)).all fun k =>
    d.getPointer (currentDevAddr + (k + 1) * pageSize) = some (basePtr + (k + 1) * pageSize)

/-- One round of the loop of `BigPageTableOp`. -/
def bigPageTableStep (d : DeviceMemory) (entryType : EntryType)
    (currentGpuAddr currentDevAddr : Nat) (m : MemoryManager) : MemoryManager :=
  let m := m.setEntry true currentGpuAddr entryType
  if entryType = .mapped then
    let index := m.pageEntryIndex true currentGpuAddr
    let m := { m with
      bigPageTableDev := Function.update m.bigPageTableDev index
        (BitVec.ofNat 32 (currentDevAddr >>> pageBits)) }
    m.setBigPageContinuous index (isContinuous d m.bigPageSize currentDevAddr)
  else m

/-- `BigPageTableOp`. -/
def bigPageTableOp (d : DeviceMemory) (entryType : EntryType) (gpuAddr devAddr size : Nat)
    (m : MemoryManager) : MemoryManager :=
  let bigPageSize := m.bigPageSize
  (List.range (rounds size bigPageSize)).foldl (fun m k =>
    bigPageTableStep d entryType (gpuAddr + k * bigPageSize) (devAddr + k * bigPageSize) m) m

/-- `Map`. -/
def map (d : DeviceMemory) (gpuAddr devAddr size : Nat) (isBigPages : Bool) (m : MemoryManager) :
    MemoryManager :=
  if isBigPages then bigPageTableOp d .mapped gpuAddr devAddr size m
  else pageTableOp .mapped gpuAddr devAddr size m

/-- `MapSparse`. -/
def mapSparse (d : DeviceMemory) (gpuAddr size : Nat) (isBigPages : Bool) (m : MemoryManager) :
    MemoryManager :=
  if isBigPages then bigPageTableOp d .reserved gpuAddr 0 size m
  else pageTableOp .reserved gpuAddr 0 size m

/-- `Unmap`. -/
def unmap (d : DeviceMemory) (gpuAddr size : Nat) (m : MemoryManager) : MemoryManager :=
  if size = 0 then m
  else pageTableOp .free gpuAddr 0 size (bigPageTableOp d .free gpuAddr 0 size m)

/-! ## 3. Translating and walking -/

/-- The device address behind an address of the page: `page_table` and the offset. -/
def devAddr (m : MemoryManager) (isBigPage : Bool) (index offset : Nat) : Nat :=
  ((if isBigPage then m.bigPageTableDev else m.pageTable) index).toNat <<< pageBits + offset

/-- `GpuToCpuAddress`. -/
def gpuToCpuAddress (m : MemoryManager) (gpuAddr : Nat) : Option Nat :=
  if m.addressSpaceSize ≤ gpuAddr then none
  else if m.getEntry true gpuAddr ≠ .mapped then
    if m.getEntry false gpuAddr ≠ .mapped then none
    else some (m.devAddr false (m.pageEntryIndex false gpuAddr) (gpuAddr &&& (pageSize - 1)))
  else some (m.devAddr true (m.pageEntryIndex true gpuAddr) (gpuAddr &&& (m.bigPageSize - 1)))

/-- A handler of the walk: it gets the page, the offset in it and the number of bytes. -/
abbrev Handler (σ : Type) := Nat → Nat → Nat → σ → Option σ

variable {σ : Type}

/-- The loop of `MemoryOperation`. -/
def memoryOperationLoop (m : MemoryManager) (isBigPages : Bool)
    (funcMapped funcReserved funcUnmapped : Handler σ) :
    Nat → Nat → Nat → Nat → Nat → σ → Option σ
  | 0, _, _, _, _, s => some s
  | fuel + 1, remainingSize, pageIndex, pageOffset, currentAddress, s =>
    if remainingSize = 0 then some s
    else
      let copyAmount := min (2 ^ m.usedPageBits isBigPages - pageOffset) remainingSize
      (match m.getEntry isBigPages currentAddress with
        | .mapped => funcMapped pageIndex pageOffset copyAmount s
        | .reserved => funcReserved pageIndex pageOffset copyAmount s
        | .free => funcUnmapped pageIndex pageOffset copyAmount s).bind fun s =>
        memoryOperationLoop m isBigPages funcMapped funcReserved funcUnmapped fuel
          (remainingSize - copyAmount) (pageIndex + 1) 0 (currentAddress + copyAmount) s

/-- `MemoryOperation`: each round takes a byte at least. -/
def memoryOperation (m : MemoryManager) (isBigPages : Bool) (gpuSrcAddr size : Nat)
    (funcMapped funcReserved funcUnmapped : Handler σ) (s : σ) : Option σ :=
  m.memoryOperationLoop isBigPages funcMapped funcReserved funcUnmapped size size
    (gpuSrcAddr >>> m.usedPageBits isBigPages)
    (gpuSrcAddr &&& (2 ^ m.usedPageBits isBigPages - 1)) gpuSrcAddr s

/-- `ReadBlockUnsafe`. The state is the destination buffer and the place in it. -/
def readBlockUnsafe (m : MemoryManager) (d : DeviceMemory) (phys : Nat → UInt8)
    (gpuSrcAddr : Nat) (destBuffer : Nat → UInt8) (size : Nat) : Option (Nat → UInt8) :=
  let setToZero : Handler ((Nat → UInt8) × Nat) := fun _ _ copyAmount s =>
    some (copyBytes s.1 (fun _ => 0) s.2 0 copyAmount, s.2 + copyAmount)
  let mappedNormal : Handler ((Nat → UInt8) × Nat) := fun pageIndex offset copyAmount s =>
    (d.getPointer (m.devAddr false pageIndex offset)).map fun physical =>
      (copyBytes s.1 phys s.2 physical copyAmount, s.2 + copyAmount)
  let mappedBig : Handler ((Nat → UInt8) × Nat) := fun pageIndex offset copyAmount s =>
    let devAddrBase := m.devAddr true pageIndex offset
    if !m.isBigPageContinuous pageIndex then
      some ((d.readBlockUnsafe phys devAddrBase s copyAmount).1, s.2 + copyAmount)
    else (d.getPointer devAddrBase).map fun physical =>
      (copyBytes s.1 phys s.2 physical copyAmount, s.2 + copyAmount)
  let readShortPages : Handler ((Nat → UInt8) × Nat) := fun pageIndex offset copyAmount s =>
    m.memoryOperation false (pageIndex <<< m.bigPageBits + offset) copyAmount
      mappedNormal setToZero setToZero s
  (m.memoryOperation true gpuSrcAddr size mappedBig setToZero readShortPages (destBuffer, 0)).map Prod.fst

/-- `WriteBlockUnsafe`. The state is physical memory and the place in the source buffer. -/
def writeBlockUnsafe (m : MemoryManager) (d : DeviceMemory) (phys : Nat → UInt8)
    (gpuDestAddr : Nat) (srcBuffer : Nat → UInt8) (size : Nat) : Option (Nat → UInt8) :=
  let justAdvance : Handler ((Nat → UInt8) × Nat) := fun _ _ copyAmount s =>
    some (s.1, s.2 + copyAmount)
  let mappedNormal : Handler ((Nat → UInt8) × Nat) := fun pageIndex offset copyAmount s =>
    (d.getPointer (m.devAddr false pageIndex offset)).map fun physical =>
      (copyBytes s.1 srcBuffer physical s.2 copyAmount, s.2 + copyAmount)
  let mappedBig : Handler ((Nat → UInt8) × Nat) := fun pageIndex offset copyAmount s =>
    let devAddrBase := m.devAddr true pageIndex offset
    if !m.isBigPageContinuous pageIndex then
      some ((d.writeBlockUnsafe srcBuffer devAddrBase s copyAmount).1, s.2 + copyAmount)
    else (d.getPointer devAddrBase).map fun physical =>
      (copyBytes s.1 srcBuffer physical s.2 copyAmount, s.2 + copyAmount)
  let writeShortPages : Handler ((Nat → UInt8) × Nat) := fun pageIndex offset copyAmount s =>
    m.memoryOperation false (pageIndex <<< m.bigPageBits + offset) copyAmount
      mappedNormal justAdvance justAdvance s
  (m.memoryOperation true gpuDestAddr size mappedBig justAdvance writeShortPages (phys, 0)).map Prod.fst

/-! ## 4. The walk, byte by byte -/

/-- A step over the bytes `[i, i + n)` does what the bytes say: it ends in the state after them if
    all of them are good, and fails if one is not. -/
def Advances (good : Nat → Prop) (st : Nat → σ) (i n : Nat) (r : Option σ) : Prop :=
  ((∀ j < n, good (i + j)) → r = some (st (i + n))) ∧ ((∃ j < n, ¬ good (i + j)) → r = none)

variable {m : MemoryManager} {d : DeviceMemory} {good : Nat → Prop} {st : Nat → σ}
  {funcMapped funcReserved funcUnmapped : Handler σ} {isBig : Bool} {addr size i n : Nat}

theorem Advances.of_good {s : σ} (h : ∀ j < n, good (i + j)) (hs : s = st (i + n)) :
    Advances good st i n (some s) :=
  ⟨fun _ => congrArg some hs, fun ⟨j, hj, hbad⟩ => absurd (h j hj) hbad⟩

theorem Advances.bind {k : Nat} {r : Option σ} {f : σ → Option σ} (h1 : Advances good st i n r)
    (h2 : Advances good st (i + n) k (f (st (i + n)))) :
    Advances good st i (n + k) (r.bind f) := by
  by_cases hgood : ∀ j < n, good (i + j)
  · rw [h1.1 hgood, bind_some]
    constructor
    · intro hall
      rw [h2.1 fun j hj => Nat.add_assoc i n j ▸ hall (n + j) (by omega), Nat.add_assoc]
    · rintro ⟨j, hj, hbad⟩
      have hnj : ¬ j < n := fun hlt => hbad (hgood j hlt)
      refine h2.2 ⟨j - n, by omega, ?_⟩
      rwa [Nat.add_assoc, Nat.add_sub_cancel' (Nat.le_of_not_lt hnj)]
  · have hbad : ∃ j < n, ¬ good (i + j) := by
      by_contra hnone
      exact hgood fun j hj => by_contra fun hb => hnone ⟨j, hj, hb⟩
    rw [h1.2 hbad, bind_none]
    refine ⟨fun hall => absurd (fun j hj => hall j (by omega)) hgood, fun _ => rfl⟩

/-- What the walk does with a piece of a page. -/
def pageStep (m : MemoryManager) (isBigPages : Bool)
    (funcMapped funcReserved funcUnmapped : Handler σ) (v n : Nat) (s : σ) : Option σ :=
  let handler := match m.getEntry isBigPages v with
    | .mapped => funcMapped
    | .reserved => funcReserved
    | .free => funcUnmapped
  handler (v / 2 ^ m.usedPageBits isBigPages) (v % 2 ^ m.usedPageBits isBigPages) n s

theorem memoryOperationLoop_advances {b rem off page fuel : Nat} (hpiece : ∀ i n, 0 < n → i + n ≤ size →
      (addr + i) % 2 ^ m.usedPageBits isBig + n ≤ 2 ^ m.usedPageBits isBig →
      Advances good st (b + i) n
        (m.pageStep isBig funcMapped funcReserved funcUnmapped (addr + i) n (st (b + i))))
    (hi : i + rem = size) (hfuel : rem ≤ fuel)
    (haddr : rem = 0 ∨ page = (addr + i) / 2 ^ m.usedPageBits isBig ∧
      off = (addr + i) % 2 ^ m.usedPageBits isBig) :
    Advances good st (b + i) rem (m.memoryOperationLoop isBig funcMapped funcReserved funcUnmapped
      fuel rem page off (addr + i) (st (b + i))) := by
  have hP : 0 < 2 ^ m.usedPageBits isBig := Nat.two_pow_pos _
  induction fuel generalizing i rem page off with
  | zero =>
    obtain rfl : rem = 0 := Nat.le_zero.mp hfuel
    exact .of_good (fun j hj => absurd hj (Nat.not_lt_zero j)) rfl
  | succ fuel ih =>
    by_cases hrem : rem = 0
    · rw [memoryOperationLoop, if_pos hrem, hrem]
      exact .of_good (fun j hj => absurd hj (Nat.not_lt_zero j)) rfl
    obtain ⟨rfl, rfl⟩ := haddr.resolve_left hrem
    obtain ⟨n, hn⟩ : ∃ n, n = min (2 ^ m.usedPageBits isBig -
      (addr + i) % 2 ^ m.usedPageBits isBig) rem := ⟨_, rfl⟩
    have hoff := Nat.mod_lt (addr + i) hP
    have hstep := hpiece i n (by omega) (by omega) (by omega)
    have hloop : m.memoryOperationLoop isBig funcMapped funcReserved funcUnmapped (fuel + 1) rem
        ((addr + i) / 2 ^ m.usedPageBits isBig) ((addr + i) % 2 ^ m.usedPageBits isBig) (addr + i)
        (st (b + i)) = (m.pageStep isBig funcMapped funcReserved funcUnmapped (addr + i) n
          (st (b + i))).bind (m.memoryOperationLoop isBig funcMapped funcReserved funcUnmapped
            fuel (rem - n) ((addr + i) / 2 ^ m.usedPageBits isBig + 1) 0 (addr + i + n)) := by
      rw [memoryOperationLoop, if_neg hrem, ← hn, pageStep]
      cases m.getEntry isBig (addr + i) <;> rfl
    have hnext : rem - n = 0 ∨ (addr + i) / 2 ^ m.usedPageBits isBig + 1 =
        (addr + (i + n)) / 2 ^ m.usedPageBits isBig ∧
        0 = (addr + (i + n)) % 2 ^ m.usedPageBits isBig := by
      by_cases hlast : n = rem
      · exact .inl (by omega)
      · have hdm := Nat.div_add_mod (addr + i) (2 ^ m.usedPageBits isBig)
        have hend : addr + (i + n) =
            2 ^ m.usedPageBits isBig * ((addr + i) / 2 ^ m.usedPageBits isBig + 1) := by
          rw [Nat.mul_add, Nat.mul_one]
          omega
        rw [hend, Nat.mul_div_cancel_left _ hP, Nat.mul_mod_right]
        exact .inr ⟨rfl, rfl⟩
    have hrest := ih (by omega) (by omega) hnext
    have hsum : rem = n + (rem - n) := by omega
    rw [hloop, hsum, Nat.add_sub_cancel_left]
    exact hstep.bind (by rwa [Nat.add_assoc, Nat.add_assoc])

/-- **The walk does what the bytes say** if it does so on each piece of a page. -/
theorem memoryOperation_advances {b : Nat} (hpiece : ∀ i n, 0 < n → i + n ≤ size →
      (addr + i) % 2 ^ m.usedPageBits isBig + n ≤ 2 ^ m.usedPageBits isBig →
      Advances good st (b + i) n
        (m.pageStep isBig funcMapped funcReserved funcUnmapped (addr + i) n (st (b + i)))) :
    Advances good st b size
      (m.memoryOperation isBig addr size funcMapped funcReserved funcUnmapped (st b)) := by
  rw [memoryOperation, Nat.shiftRight_eq_div_pow, Nat.and_two_pow_sub_one_eq_mod]
  exact memoryOperationLoop_advances hpiece (Nat.zero_add size) le_rfl (.inr ⟨rfl, rfl⟩)

/-! ## 5. What the walkers reach -/

/-- What a block walk finds at an address: a place in memory, nothing, or (`none`) a null pointer.
    A big page that is reserved hides the small pages. -/
def walked (m : MemoryManager) (d : DeviceMemory) (v : Nat) : Option (Option Nat) :=
  match m.getEntry true v with
  | .mapped => some (d.getPointer (m.devAddr true (v / m.bigPageSize) (v % m.bigPageSize)))
  | .reserved => some none
  | .free => match m.getEntry false v with
      | .mapped => (d.getPointer (m.devAddr false (v / pageSize) (v % pageSize))).map some
      | _ => some none

/-- Where a big page is marked continuous, the memory behind it is in one piece. -/
def Continuous (m : MemoryManager) (d : DeviceMemory) : Prop :=
  ∀ index, m.isBigPageContinuous index = true →
    ∃ p, ∀ j < m.bigPageSize, d.getPointer (m.devAddr true index j) = some (p + j)

/-- `ReadBlockImpl` and `WriteBlockImpl` by what they do with a piece that has no memory, with one
    that is in one piece, and with a block of device memory. -/
def blockImpl (m : MemoryManager) (d : DeviceMemory) (skip : Nat → σ → σ)
    (copy block : Nat → Nat → σ → σ) (addr size : Nat) (s : σ) : Option σ :=
  let advance : Handler σ := fun _ _ n s => some (skip n s)
  let mappedNormal : Handler σ := fun pageIndex offset n s =>
    (d.getPointer (m.devAddr false pageIndex offset)).map fun p => copy n p s
  let mappedBig : Handler σ := fun pageIndex offset n s =>
    if !m.isBigPageContinuous pageIndex then some (block n (m.devAddr true pageIndex offset) s)
    else (d.getPointer (m.devAddr true pageIndex offset)).map fun p => copy n p s
  m.memoryOperation true addr size mappedBig advance (fun pageIndex offset n s =>
    m.memoryOperation false (pageIndex <<< m.bigPageBits + offset) n mappedNormal advance advance s) s

theorem readBlockUnsafe_eq {phys dest : Nat → UInt8} : m.readBlockUnsafe d phys addr dest size =
    (m.blockImpl d (fun n s => (copyBytes s.1 (fun _ => 0) s.2 0 n, s.2 + n))
      (fun n p s => (copyBytes s.1 phys s.2 p n, s.2 + n))
      (fun n a s => ((d.readBlockUnsafe phys a s n).1, s.2 + n)) addr size (dest, 0)).map Prod.fst :=
  rfl

theorem writeBlockUnsafe_eq {phys src : Nat → UInt8} : m.writeBlockUnsafe d phys addr src size =
    (m.blockImpl d (fun n s => (s.1, s.2 + n)) (fun n p s => (copyBytes s.1 src p s.2 n, s.2 + n))
      (fun n a s => ((d.writeBlockUnsafe src a s n).1, s.2 + n)) addr size (phys, 0)).map Prod.fst :=
  rfl

theorem div_mod_of_inside {v P j : Nat} (h : v % P + n ≤ P) (hj : j < n) :
    (v + j) / P = v / P ∧ (v + j) % P = v % P + j := by
  have hP : 0 < P := by omega
  have hlt : v % P + j < P := by omega
  have hdm := Nat.div_add_mod v P
  have heq : v + j = P * (v / P) + (v % P + j) := by omega
  constructor
  · rw [heq, Nat.mul_add_div hP, Nat.div_eq_of_lt hlt, Nat.add_zero]
  · rw [heq, Nat.mul_add_mod, Nat.mod_eq_of_lt hlt]

theorem getEntry_inside {v j : Nat}
    (h : v % 2 ^ m.usedPageBits isBig + n ≤ 2 ^ m.usedPageBits isBig) (hj : j < n) :
    m.getEntry isBig (v + j) = m.getEntry isBig v := by
  rw [getEntry, getEntry, Nat.shiftRight_eq_div_pow, Nat.shiftRight_eq_div_pow, (div_mod_of_inside h hj).1]

theorem devAddr_add {index offset j : Nat} :
    m.devAddr isBig index (offset + j) = m.devAddr isBig index offset + j :=
  (Nat.add_assoc _ _ _).symm

theorem devAddr_mod {index offset : Nat} (h : offset < pageSize) :
    m.devAddr isBig index offset % pageSize = offset := by
  rw [devAddr, Nat.shiftLeft_eq, pageBits, ← pageSize, Nat.mul_add_mod_self_right, Nat.mod_eq_of_lt h]

theorem getPointer_small {v j : Nat} (h : v % pageSize + n ≤ pageSize) (hj : j < n) :
    d.getPointer (m.devAddr false ((v + j) / pageSize) ((v + j) % pageSize)) =
      (d.getPointer (m.devAddr false (v / pageSize) (v % pageSize))).map (· + j) := by
  obtain ⟨hdiv, hmod⟩ := div_mod_of_inside h hj
  rw [hdiv, hmod, devAddr_add]
  refine DeviceMemory.getPointer_add ?_
  have hoff : m.devAddr false (v / pageSize) (v % pageSize) % Core.pageSize = v % pageSize :=
    devAddr_mod (Nat.mod_lt _ (by decide))
  have hsize : Core.pageSize = pageSize := rfl
  rw [hoff, hsize]
  omega

section Block

variable {skip : Nat → σ → σ} {copy block : Nat → Nat → σ → σ} {target : Nat → Option Nat}

/-- What each piece does to the state after `i` bytes, given the places of the bytes. -/
structure Pieces (d : DeviceMemory) (target : Nat → Option Nat) (skip : Nat → σ → σ)
    (copy block : Nat → Nat → σ → σ) (st : Nat → σ) : Prop where
  skip_eq : ∀ i n, (∀ j < n, target (i + j) = none) → skip n (st i) = st (i + n)
  copy_eq : ∀ i n p, (∀ j < n, target (i + j) = some (p + j)) → copy n p (st i) = st (i + n)
  block_eq : ∀ i n a, (∀ j < n, d.getPointer (a + j) = target (i + j)) → block n a (st i) = st (i + n)

theorem Pieces.copy_advances (hp : Pieces d target skip copy block st) (hn : 0 < n)
    {place : Option Nat} {found : Nat → Option (Option Nat)}
    (htarget : ∀ k, target k = (found k).getD none)
    (hfound : ∀ j < n, found (i + j) = (place.map (· + j)).map some) :
    Advances (fun k => (found k).isSome) st i n (place.map fun p => copy n p (st i)) := by
  cases place with
  | none =>
    refine ⟨fun hall => ?_, fun _ => rfl⟩
    have hfirst : (found (i + 0)).isSome = true := hall 0 hn
    rw [hfound 0 hn] at hfirst
    cases hfirst
  | some p =>
    refine .of_good (fun j hj => ?_) (hp.copy_eq i n p fun j hj => ?_)
    · rw [hfound j hj]
      rfl
    · rw [htarget, hfound j hj]
      rfl

theorem Pieces.skip_advances (hp : Pieces d target skip copy block st)
    {found : Nat → Option (Option Nat)} (htarget : ∀ k, target k = (found k).getD none)
    (hfound : ∀ j < n, found (i + j) = some none) :
    Advances (fun k => (found k).isSome) st i n (some (skip n (st i))) := by
  refine .of_good (fun j hj => ?_) (hp.skip_eq i n fun j hj => ?_)
  · rw [hfound j hj]
    rfl
  · rw [htarget, hfound j hj]
    rfl

/-- The walk over small pages, where the big entry is free. -/
theorem Pieces.short_advances (hp : Pieces d target skip copy block st)
    {found : Nat → Option (Option Nat)} {b : Nat} (htarget : ∀ k, target k = (found k).getD none)
    (hfound : ∀ j < n, found (b + j) = m.walked d (addr + j))
    (hfree : ∀ j < n, m.getEntry true (addr + j) = .free) :
    Advances (fun k => (found k).isSome) st b n (m.memoryOperation false addr n (fun pageIndex offset n s =>
        (d.getPointer (m.devAddr false pageIndex offset)).map fun p => copy n p s)
        (fun _ _ n s => some (skip n s)) (fun _ _ n s => some (skip n s)) (st b)) := by
  refine memoryOperation_advances fun i k hk hik hin => ?_
  have hwalked : ∀ j < k, found (b + i + j) = match m.getEntry false (addr + i) with
      | .mapped => ((d.getPointer (m.devAddr false ((addr + i) / pageSize)
          ((addr + i) % pageSize))).map (· + j)).map some
      | _ => some none := by
    intro j hj
    rw [Nat.add_assoc, hfound (i + j) (by omega), walked, hfree (i + j) (by omega), ← Nat.add_assoc,
      getEntry_inside hin hj, getPointer_small hin hj]
  rw [pageStep]
  cases hentry : m.getEntry false (addr + i) with
  | mapped =>
    rw [hentry] at hwalked
    exact hp.copy_advances hk htarget hwalked
  | reserved =>
    rw [hentry] at hwalked
    exact hp.skip_advances htarget hwalked
  | free =>
    rw [hentry] at hwalked
    exact hp.skip_advances htarget hwalked

/-- **The block walkers do at each byte what `walked` says.** -/
theorem Pieces.blockImpl_advances (hp : Pieces d target skip copy block st) (size : Nat)
    (hm : m.Continuous d) (htarget : ∀ k, target k = (m.walked d (addr + k)).getD none) :
    Advances (fun k => (m.walked d (addr + k)).isSome) st 0 size
      (m.blockImpl d skip copy block addr size (st 0)) := by
  refine memoryOperation_advances fun i n hn hin hinside => ?_
  have hbig : ∀ j < n, m.getEntry true (addr + i + j) = m.getEntry true (addr + i) :=
    fun j hj => getEntry_inside hinside hj
  rw [show 2 ^ m.usedPageBits true = m.bigPageSize from rfl] at hinside
  rw [Nat.zero_add, pageStep, show 2 ^ m.usedPageBits true = m.bigPageSize from rfl]
  cases hentry : m.getEntry true (addr + i) with
  | mapped =>
    have hplace : ∀ j < n, m.walked d (addr + (i + j)) = some (d.getPointer
        (m.devAddr true ((addr + i) / m.bigPageSize) ((addr + i) % m.bigPageSize + j))) := by
      intro j hj
      obtain ⟨hdiv, hmod⟩ := div_mod_of_inside hinside hj
      rw [← Nat.add_assoc, walked, hbig j hj, hentry, hdiv, hmod]
    dsimp only
    by_cases hcont : m.isBigPageContinuous ((addr + i) / m.bigPageSize) = true
    · obtain ⟨p, hrun⟩ := hm _ hcont
      have hoff : ∀ j < n, (addr + i) % m.bigPageSize + j < m.bigPageSize := fun j hj => by omega
      rw [hcont, if_neg (by decide)]
      refine hp.copy_advances hn htarget fun j hj => ?_
      rw [hplace j hj, hrun _ (hoff j hj), hrun _ (Nat.mod_lt _ (Nat.two_pow_pos _)),
        map_some, map_some, Nat.add_assoc]
    · rw [Bool.not_eq_true] at hcont
      rw [hcont, Bool.not_false, if_pos rfl]
      refine .of_good (fun j hj => ?_) (hp.block_eq i n _ fun j hj => ?_)
      · rw [hplace j hj]
        rfl
      · rw [htarget, hplace j hj, devAddr_add]
        rfl
  | reserved =>
    refine hp.skip_advances htarget fun j hj => ?_
    rw [← Nat.add_assoc, walked, hbig j hj, hentry]
  | free =>
    have hbase : ((addr + i) / m.bigPageSize) <<< m.bigPageBits + (addr + i) % m.bigPageSize =
        addr + i := by
      rw [Nat.shiftLeft_eq, ← bigPageSize, Nat.div_add_mod']
    dsimp only
    rw [hbase]
    refine hp.short_advances htarget (fun j _ => ?_) fun j hj => ?_
    · rw [Nat.add_assoc]
    · rw [hbig j hj, hentry]

end Block

/-! ## 6. The continuous bits over a run -/

variable {entry : EntryType} {gpu dev : Nat}

theorem isBigPageContinuous_set {index k : Nat} {value : Bool} :
    (m.setBigPageContinuous index value).isBigPageContinuous k =
      if k = index then value else m.isBigPageContinuous k := by
  have hmask : ∀ j, (1#64).getLsbD j = decide (j < 1) := fun j => by
    simp [BitVec.getLsbD_one]
  have hfield : ∀ value : Bool, ∀ j, 1 ≤ j → (if value then 1#64 else 0#64).getLsbD j = false := by
    intro value j hj
    cases value
    · exact BitVec.getLsbD_zero
    · rw [if_pos rfl, hmask]
      exact decide_eq_false (by omega)
  have hword : (m.setBigPageContinuous index value).bigPageContinuous =
      Function.update m.bigPageContinuous (index / 64)
        (setField (m.bigPageContinuous (index / 64)) 1#64 (if value then 1#64 else 0#64) (index % 64)) := by
    cases value
    · simp [setBigPageContinuous, setField]
    · rfl
  rw [isBigPageContinuous, hword, isBigPageContinuous]
  by_cases hdiv : k / 64 = index / 64
  · rw [hdiv, update_self]
    by_cases hk : k = index
    · subst hk
      rw [if_pos rfl, show (1 : BitVec 64) = 1#64 from rfl,
        field_setField_self hmask (hfield value) (by omega)]
      cases value <;> rfl
    · rw [if_neg hk, show (1 : BitVec 64) = 1#64 from rfl,
        field_setField_other hmask (hfield value) (by omega) (by omega), ← hdiv]
  · have hk : k ≠ index := fun h => hdiv (h ▸ rfl)
    rw [update_of_ne hdiv, if_neg hk]

/-- The check sees the whole page. -/
theorem isContinuous_sound {bigSize a : Nat} (h : isContinuous d bigSize a = true) (ha : a % pageSize = 0) :
    ∃ p, ∀ j < bigSize, d.getPointer (a + j) = some (p + j) := by
  rw [isContinuous] at h
  cases hbase : d.getPointer a with
  | none =>
    rw [hbase] at h
    cases h
  | some p =>
    rw [hbase] at h
    refine ⟨p, fun j hj => ?_⟩
    have hpage : d.getPointer (a + j / pageSize * pageSize) = some (p + j / pageSize * pageSize) := by
      rcases Nat.eq_zero_or_pos (j / pageSize) with hzero | hpos
      · rw [hzero, Nat.zero_mul, Nat.add_zero, hbase, Nat.add_zero]
      · have hround : j / pageSize - 1 < rounds bigSize pageSize - 1 := by
          unfold rounds pageSize at *
          omega
        have hk := of_decide_eq_true (all_eq_true.mp h _ (mem_range.mpr hround))
        rwa [Nat.sub_add_cancel hpos] at hk
    have hin : (a + j / pageSize * pageSize) % Core.pageSize + j % pageSize < Core.pageSize := by
      unfold Core.pageSize pageSize at *
      omega
    have hsplit : a + j / pageSize * pageSize + j % pageSize = a + j := by
      rw [Nat.add_assoc, Nat.div_add_mod']
    rw [← hsplit, DeviceMemory.getPointer_add hin, hpage, map_some, Nat.add_assoc, Nat.div_add_mod']

theorem devAddr_ofNat {a j : Nat} (ha : a % pageSize = 0) (hlt : a < 2 ^ 44) :
    (BitVec.ofNat 32 (a >>> pageBits)).toNat <<< pageBits + j = a + j := by
  have hpage : a >>> pageBits < 2 ^ 32 := by
    rw [Nat.shiftRight_eq_div_pow]
    unfold pageBits
    omega
  rw [BitVec.toNat_ofNat, Nat.mod_eq_of_lt hpage, Nat.shiftRight_eq_div_pow, Nat.shiftLeft_eq]
  have := Nat.div_add_mod' a (2 ^ pageBits)
  rw [show a % 2 ^ pageBits = 0 from ha] at this
  omega

theorem Continuous.congr {m' : MemoryManager} (h : m.Continuous d)
    (hbits : m'.bigPageBits = m.bigPageBits) (hdev : m'.bigPageTableDev = m.bigPageTableDev)
    (hcont : m'.bigPageContinuous = m.bigPageContinuous) : m'.Continuous d := by
  intro index hindex
  rw [isBigPageContinuous, hcont] at hindex
  obtain ⟨p, hp⟩ := h index hindex
  refine ⟨p, fun j hj => ?_⟩
  rw [bigPageSize, hbits] at hj
  rw [← hp j hj, devAddr, if_pos rfl, hdev, devAddr, if_pos rfl]

theorem setEntry_continuous (isBigPage : Bool) (h : m.Continuous d) :
    (m.setEntry isBigPage gpu entry).Continuous d := by
  cases isBigPage <;> exact h.congr rfl rfl rfl

theorem pageTableStep_continuous (h : m.Continuous d) : (pageTableStep entry gpu dev m).Continuous d := by
  rw [pageTableStep]
  split
  · exact h.congr rfl rfl rfl
  · exact setEntry_continuous false h

/-- A big page is marked continuous when it is. -/
theorem bigPageTableStep_continuous (h : m.Continuous d)
    (hdev : entry = .mapped → dev % pageSize = 0 ∧ dev < 2 ^ 44) :
    (bigPageTableStep d entry gpu dev m).Continuous d := by
  rw [bigPageTableStep]
  split
  · rename_i hmapped
    obtain ⟨halign, hlt⟩ := hdev hmapped
    intro index hindex
    rw [isBigPageContinuous_set] at hindex
    split at hindex
    · rename_i hsame
      obtain ⟨p, hp⟩ := isContinuous_sound hindex halign
      refine ⟨p, fun j hj => ?_⟩
      rw [← hp j hj, devAddr, if_pos rfl, ← devAddr_ofNat halign hlt, hsame]
      dsimp only [setBigPageContinuous]
      rw [update_self]
    · rename_i hother
      obtain ⟨p, hp⟩ := setEntry_continuous true h index hindex
      refine ⟨p, fun j hj => ?_⟩
      rw [← hp j hj, devAddr, if_pos rfl, devAddr, if_pos rfl]
      dsimp only [setBigPageContinuous]
      rw [update_of_ne hother]
  · exact setEntry_continuous true h

theorem mul_lt_of_lt_rounds {k step : Nat} (h : k < rounds size step) : k * step < size := by
  rcases Nat.eq_zero_or_pos step with rfl | hstep
  · rw [rounds, Nat.div_zero] at h
    exact absurd h (Nat.not_lt_zero k)
  · have h := (Nat.le_div_iff_mul_le hstep).mp (Nat.succ_le_of_lt h)
    rw [Nat.succ_mul] at h
    omega

theorem pageTableStep_addressSpaceBits :
    (pageTableStep entry gpu dev m).addressSpaceBits = m.addressSpaceBits := by
  rw [pageTableStep]
  split <;> rfl

theorem bigPageTableStep_addressSpaceBits :
    (bigPageTableStep d entry gpu dev m).addressSpaceBits = m.addressSpaceBits := by
  rw [bigPageTableStep]
  split <;> rfl

theorem pageTableOp_addressSpaceBits :
    (pageTableOp entry gpu dev size m).addressSpaceBits = m.addressSpaceBits :=
  List.foldlRecOn (motive := fun m' : MemoryManager => m'.addressSpaceBits = m.addressSpaceBits)
    _ _ rfl fun _ h _ _ => pageTableStep_addressSpaceBits.trans h

theorem bigPageTableOp_addressSpaceBits :
    (bigPageTableOp d entry gpu dev size m).addressSpaceBits = m.addressSpaceBits :=
  List.foldlRecOn (motive := fun m' : MemoryManager => m'.addressSpaceBits = m.addressSpaceBits)
    _ _ rfl fun _ h _ _ => bigPageTableStep_addressSpaceBits.trans h

theorem pageTableOp_continuous (h : m.Continuous d) : (pageTableOp entry gpu dev size m).Continuous d :=
  List.foldlRecOn (motive := fun m : MemoryManager => m.Continuous d) _ _ h fun _ h _ _ =>
    pageTableStep_continuous h

theorem bigPageTableOp_continuous (h : m.Continuous d)
    (hdev : entry = .mapped → dev % pageSize = 0 ∧ dev + size ≤ 2 ^ 44) :
    (bigPageTableOp d entry gpu dev size m).Continuous d := by
  refine List.foldlRecOn (motive := fun m : MemoryManager => m.Continuous d) _ _ h fun m' h' k hk =>
    bigPageTableStep_continuous h' fun hmapped => ?_
  obtain ⟨halign, hlt⟩ := hdev hmapped
  have hk := mul_lt_of_lt_rounds (mem_range.mp hk)
  refine ⟨?_, by omega⟩
  have hdvd : pageSize ∣ m.bigPageSize := Nat.pow_dvd_pow 2 m.page_le_big
  rw [Nat.add_mod, halign, Nat.mod_eq_zero_of_dvd (Dvd.dvd.mul_left hdvd k)]
  rfl

end MemoryManager

/-- The calls that change the page tables. -/
inductive MappingOp where
  | map (gpuAddr devAddr size : Nat) (isBigPages : Bool)
  | mapSparse (gpuAddr size : Nat) (isBigPages : Bool)
  | unmap (gpuAddr size : Nat)

namespace MappingOp

def apply (d : DeviceMemory) : MappingOp → MemoryManager → MemoryManager
  | map gpuAddr devAddr size isBigPages, m => m.map d gpuAddr devAddr size isBigPages
  | mapSparse gpuAddr size isBigPages, m => m.mapSparse d gpuAddr size isBigPages
  | unmap gpuAddr size, m => m.unmap d gpuAddr size

/-- Page-aligned calls inside the address space; device addresses have 34 bits
    (`device_virtual_bits`). -/
def Legal (addressSpaceBits : Nat) : MappingOp → Prop
  | map gpuAddr devAddr size _ => pageSize ∣ gpuAddr ∧ pageSize ∣ devAddr ∧ pageSize ∣ size ∧
      gpuAddr + size ≤ 2 ^ addressSpaceBits ∧ devAddr + size ≤ 2 ^ 34
  | mapSparse gpuAddr size _ => pageSize ∣ gpuAddr ∧ pageSize ∣ size ∧
      gpuAddr + size ≤ 2 ^ addressSpaceBits
  | unmap gpuAddr size => pageSize ∣ gpuAddr ∧ pageSize ∣ size ∧
      gpuAddr + size ≤ 2 ^ addressSpaceBits

/-- The page tables after a list of calls. -/
def run (d : DeviceMemory) (ops : List MappingOp) (m : MemoryManager) : MemoryManager :=
  ops.foldl (fun m op => op.apply d m) m

variable {d : DeviceMemory} {m : MemoryManager} {op : MappingOp} {bits : Nat}

theorem apply_continuous (h : m.Continuous d) (hop : op.Legal bits) : (op.apply d m).Continuous d := by
  cases op with
  | map gpuAddr devAddr size isBigPages =>
    obtain ⟨-, halign, -, -, hdev⟩ := hop
    rw [apply, MemoryManager.map]
    split
    · refine MemoryManager.bigPageTableOp_continuous h fun _ => ⟨Nat.mod_eq_zero_of_dvd halign, ?_⟩
      exact hdev.trans (by decide)
    · exact MemoryManager.pageTableOp_continuous h
  | mapSparse gpuAddr size isBigPages =>
    rw [apply, MemoryManager.mapSparse]
    split
    · exact MemoryManager.bigPageTableOp_continuous h fun hmapped => nomatch hmapped
    · exact MemoryManager.pageTableOp_continuous h
  | unmap gpuAddr size =>
    rw [apply, MemoryManager.unmap]
    split
    · exact h
    · refine MemoryManager.pageTableOp_continuous ?_
      exact MemoryManager.bigPageTableOp_continuous h fun hmapped => nomatch hmapped

theorem apply_addressSpaceBits : (op.apply d m).addressSpaceBits = m.addressSpaceBits := by
  cases op with
  | map gpuAddr devAddr size isBigPages =>
    rw [apply, MemoryManager.map]
    split
    · exact MemoryManager.bigPageTableOp_addressSpaceBits
    · exact MemoryManager.pageTableOp_addressSpaceBits
  | mapSparse gpuAddr size isBigPages =>
    rw [apply, MemoryManager.mapSparse]
    split
    · exact MemoryManager.bigPageTableOp_addressSpaceBits
    · exact MemoryManager.pageTableOp_addressSpaceBits
  | unmap gpuAddr size =>
    rw [apply, MemoryManager.unmap]
    split
    · rfl
    · rw [MemoryManager.pageTableOp_addressSpaceBits, MemoryManager.bigPageTableOp_addressSpaceBits]

theorem run_addressSpaceBits {ops : List MappingOp} : (run d ops m).addressSpaceBits = m.addressSpaceBits :=
  List.foldlRecOn (motive := fun m' : MemoryManager => m'.addressSpaceBits = m.addressSpaceBits)
    _ _ rfl fun _ h _ _ => apply_addressSpaceBits.trans h

theorem run_continuous {ops : List MappingOp} (h : m.Continuous d)
    (hops : ∀ op ∈ ops, op.Legal bits) : (run d ops m).Continuous d :=
  List.foldlRecOn (motive := fun m : MemoryManager => m.Continuous d) _ _ h
    fun _ h op hop => apply_continuous h (hops op hop)

end MappingOp

namespace MemoryManager

variable {m : MemoryManager} {d : DeviceMemory} {addr size i n v bits : Nat}

theorem init_continuous {bigBits : Nat} {h1 : pageBits ≤ bigBits} {h2 : bigBits ≤ bits} :
    (init bits bigBits h1 h2).Continuous d := by
  intro index hindex
  rw [isBigPageContinuous, init] at hindex
  simp at hindex

/-! ## 7. Blocks against single addresses -/

/-- The place in memory behind the translation of an address. -/
def translated (m : MemoryManager) (d : DeviceMemory) (v : Nat) : Option Nat :=
  (m.gpuToCpuAddress v).bind d.getPointer

/-- A read yields the byte behind the translation of each address, and 0 where there is none. -/
def ReadCorrect (m : MemoryManager) (d : DeviceMemory) (addr size : Nat) : Prop :=
  ∀ phys dest, m.readBlockUnsafe d phys addr dest size = some fun i =>
    if i < size then
      match m.gpuToCpuAddress (addr + i) with
      | some a => d.byteAt phys a
      | none => 0
    else dest i

/-- A write leaves memory that is behind no translation, and the last byte for a place is there. -/
def WriteCorrect (m : MemoryManager) (d : DeviceMemory) (addr size : Nat) : Prop :=
  ∀ phys src, ∃ phys', m.writeBlockUnsafe d phys addr src size = some phys' ∧
    (∀ p, (∀ i < size, m.translated d (addr + i) ≠ some p) → phys' p = phys p) ∧
    ∀ i < size, ∀ p, m.translated d (addr + i) = some p →
      (∀ j, i < j → j < size → m.translated d (addr + j) ≠ some p) → phys' p = src i

/-- Where only the small page is mapped, the big entry is free if there is memory behind the page,
    and reserved if there is none. -/
def Agrees (m : MemoryManager) (d : DeviceMemory) (v : Nat) : Prop :=
  m.getEntry true v ≠ .mapped → m.getEntry false v = .mapped → (m.getEntry true v = .free ↔
      (d.getPointer (m.devAddr false (v / pageSize) (v % pageSize))).isSome = true)

theorem pageEntryIndex_eq {isBig : Bool} (hv : v < m.addressSpaceSize) :
    m.pageEntryIndex isBig v = v / 2 ^ m.usedPageBits isBig := by
  have hbits : m.usedPageBits isBig ≤ m.addressSpaceBits := by
    cases isBig
    · exact m.page_le_big.trans m.big_le_space
    · exact m.big_le_space
  rw [pageEntryIndex, Nat.shiftRight_eq_div_pow, Nat.and_two_pow_sub_one_eq_mod]
  refine Nat.mod_eq_of_lt ((Nat.div_lt_iff_lt_mul (Nat.two_pow_pos _)).mpr ?_)
  rwa [← Nat.pow_add, Nat.sub_add_cancel hbits]

theorem translated_eq (hv : v < m.addressSpaceSize) : m.translated d v =
    match m.getEntry true v, m.getEntry false v with
    | .mapped, _ => d.getPointer (m.devAddr true (v / m.bigPageSize) (v % m.bigPageSize))
    | _, .mapped => d.getPointer (m.devAddr false (v / pageSize) (v % pageSize))
    | _, _ => none := by
  rw [translated, gpuToCpuAddress, if_neg (Nat.not_le.mpr hv), pageEntryIndex_eq hv,
    pageEntryIndex_eq hv, pageSize, bigPageSize, Nat.and_two_pow_sub_one_eq_mod,
    Nat.and_two_pow_sub_one_eq_mod]
  cases m.getEntry true v <;> cases m.getEntry false v <;> rfl

theorem walked_eq_iff (hv : v < m.addressSpaceSize) :
    m.walked d v = some (m.translated d v) ↔ m.Agrees d v := by
  rw [translated_eq hv, walked, Agrees]
  cases hbig : m.getEntry true v <;> cases hsmall : m.getEntry false v <;>
    cases d.getPointer (m.devAddr false (v / pageSize) (v % pageSize)) <;> simp

/-- The byte at a place, 0 if there is none. -/
def placeByte (phys : Nat → UInt8) : Option Nat → UInt8
  | some p => phys p
  | none => 0

/-- The place that the walkers find at the byte `k` of a block. -/
def placeOf (m : MemoryManager) (d : DeviceMemory) (addr k : Nat) : Option Nat :=
  (m.walked d (addr + k)).getD none

theorem readPieces (m : MemoryManager) (d : DeviceMemory) (addr : Nat)
    (phys dest : Nat → UInt8) : Pieces d (m.placeOf d addr)
    (fun n s => (copyBytes s.1 (fun _ => 0) s.2 0 n, s.2 + n))
    (fun n p s => (copyBytes s.1 phys s.2 p n, s.2 + n))
    (fun n a s => ((d.readBlockUnsafe phys a s n).1, s.2 + n))
    (fun i => (gathered (fun k => placeByte phys (m.placeOf d addr k)) dest i, i)) where
  skip_eq i n h := by
    dsimp only
    rw [gathered_copy fun j hj => by rw [h j hj]; rfl]
  copy_eq i n p h := by
    dsimp only
    rw [gathered_copy fun j hj => by rw [h j hj]; rfl]
  block_eq i n a h := by
    dsimp only
    rw [DeviceMemory.readBlockUnsafe_gathered fun j hj => ?_]
    rw [DeviceMemory.byteAt, h j hj]
    rfl

theorem writePieces (m : MemoryManager) (d : DeviceMemory) (addr : Nat)
    (phys src : Nat → UInt8) : Pieces d (m.placeOf d addr)
    (fun n s => (s.1, s.2 + n)) (fun n p s => (copyBytes s.1 src p s.2 n, s.2 + n))
    (fun n a s => ((d.writeBlockUnsafe src a s n).1, s.2 + n))
    (fun i => (scattered (m.placeOf d addr) src phys i, i)) where
  skip_eq i n h := by
    dsimp only
    rw [scattered_skip h]
  copy_eq i n p h := by
    dsimp only
    rw [scattered_copy h]
  block_eq i n a h := by
    dsimp only
    rw [DeviceMemory.writeBlockUnsafe_scattered h]

theorem readBlockUnsafe_walked (addr size : Nat) (phys dest : Nat → UInt8) (hm : m.Continuous d) :
    ((∀ i < size, (m.walked d (addr + i)).isSome = true) → m.readBlockUnsafe d phys addr dest size =
        some (gathered (fun k => placeByte phys (m.placeOf d addr k)) dest size)) ∧
    ((∃ i < size, m.walked d (addr + i) = none) → m.readBlockUnsafe d phys addr dest size = none) := by
  obtain ⟨hgood, hbad⟩ := (readPieces m d addr phys dest).blockImpl_advances size hm fun _ => rfl
  rw [readBlockUnsafe_eq]
  constructor
  · intro h
    have hgood := hgood fun j hj => by rw [Nat.zero_add]; exact h j hj
    rw [Nat.zero_add] at hgood
    exact congrArg (Option.map Prod.fst) hgood
  · rintro ⟨j, hj, hnone⟩
    refine congrArg (Option.map Prod.fst) (hbad ⟨j, hj, ?_⟩)
    dsimp only
    rw [Nat.zero_add, hnone]
    exact Bool.false_ne_true

theorem writeBlockUnsafe_walked (phys src : Nat → UInt8) (hm : m.Continuous d)
    (h : ∀ i < size, (m.walked d (addr + i)).isSome = true) :
    m.writeBlockUnsafe d phys addr src size = some (scattered (m.placeOf d addr) src phys size) := by
  obtain ⟨hgood, -⟩ := (writePieces m d addr phys src).blockImpl_advances size hm fun _ => rfl
  have hgood := hgood fun j hj => by rw [Nat.zero_add]; exact h j hj
  rw [Nat.zero_add] at hgood
  rw [writeBlockUnsafe_eq]
  exact congrArg (Option.map Prod.fst) hgood

theorem byte_translated {phys : Nat → UInt8} : (match m.gpuToCpuAddress v with
    | some a => d.byteAt phys a
    | none => 0) = placeByte phys (m.translated d v) := by
  rw [translated]
  cases m.gpuToCpuAddress v <;> rfl

theorem readCorrect_of_agrees (hm : m.Continuous d)
    (h : ∀ i < size, m.walked d (addr + i) = some (m.translated d (addr + i))) :
    m.ReadCorrect d addr size := by
  intro phys dest
  rw [(readBlockUnsafe_walked addr size phys dest hm).1 fun i hi => by rw [h i hi]; rfl]
  refine congrArg some (funext fun i => ?_)
  rw [gathered]
  by_cases hi : i < size
  · rw [if_pos hi, if_pos hi, byte_translated, placeOf, h i hi]
    rfl
  · rw [if_neg hi, if_neg hi]

theorem writeCorrect_of_agrees (hm : m.Continuous d)
    (h : ∀ i < size, m.walked d (addr + i) = some (m.translated d (addr + i))) :
    m.WriteCorrect d addr size := by
  intro phys src
  have hplace : ∀ i < size, m.placeOf d addr i = m.translated d (addr + i) := fun i hi => by
    rw [placeOf, h i hi]
    rfl
  refine ⟨_, writeBlockUnsafe_walked phys src hm fun i hi => by rw [h i hi]; rfl, ?_, ?_⟩
  · exact fun p hp => scattered_outside fun i hi => by rw [hplace i hi]; exact hp i hi
  · exact fun i hi p hp hlast => scattered_last hi ((hplace i hi).trans hp)
      fun j hij hj => by rw [hplace j hj]; exact hlast j hij hj

/-- A read of memory full of ones tells what the walkers miss. -/
theorem agrees_of_readCorrect (hm : m.Continuous d) (hspace : addr + size ≤ m.addressSpaceSize)
    (h : m.ReadCorrect d addr size) {i : Nat} (hi : i < size) : m.Agrees d (addr + i) := by
  have hv : addr + i < m.addressSpaceSize := by omega
  obtain ⟨hgood, hbad⟩ := readBlockUnsafe_walked addr size (fun _ => 1) (fun _ => 0) hm
  have hread := h (fun _ => 1) fun _ => 0
  by_cases hall : ∀ i < size, (m.walked d (addr + i)).isSome = true
  · have hbyte := congrFun (some.inj ((hgood hall).symm.trans hread)) i
    rw [gathered, if_pos hi, if_pos hi, byte_translated, placeOf] at hbyte
    obtain ⟨place, hplace⟩ := isSome_iff_exists.mp (hall i hi)
    rw [hplace, getD_some] at hbyte
    intro hbig hsmall
    rw [translated_eq hv, hsmall] at hbyte
    rw [walked, hsmall] at hplace
    cases hentry : m.getEntry true (addr + i) with
    | mapped => exact absurd hentry hbig
    | reserved =>
      rw [hentry] at hbyte hplace
      obtain rfl := some.inj hplace
      cases hp : d.getPointer (m.devAddr false ((addr + i) / pageSize) ((addr + i) % pageSize)) with
      | none => simp
      | some p =>
        dsimp only at hbyte
        rw [hp] at hbyte
        exact absurd (show (0 : UInt8) = 1 from hbyte) (by decide)
    | free =>
      rw [hentry] at hplace
      dsimp only at hplace
      cases hp : d.getPointer (m.devAddr false ((addr + i) / pageSize) ((addr + i) % pageSize)) with
      | none =>
        rw [hp] at hplace
        cases hplace
      | some p => simp
  · obtain ⟨j, hj, hnone⟩ : ∃ j < size, m.walked d (addr + j) = none := by
      by_contra hno
      refine hall fun j hj => isSome_iff_ne_none.mpr fun hnone => hno ⟨j, hj, hnone⟩
    rw [hbad ⟨j, hj, hnone⟩] at hread
    cases hread

end MemoryManager

namespace MappingOp

/-- **Blocks against single addresses.** After every run of page-aligned calls, the reads and writes
    of a block are right, that is they go byte by byte where `GpuToCpuAddress` says, exactly if at
    each address whose small page only is mapped the big entry is free and there is memory behind
    the page, or the big entry is reserved and there is none. -/
theorem run_blocks_iff (d : DeviceMemory) (addressSpaceBits bigPageBits : Nat)
    (h₁ : pageBits ≤ bigPageBits) (h₂ : bigPageBits ≤ addressSpaceBits) (ops : List MappingOp)
    (hops : ∀ op ∈ ops, op.Legal addressSpaceBits) (addr size : Nat)
    (hspace : addr + size ≤ 2 ^ addressSpaceBits) :
    ((run d ops (.init addressSpaceBits bigPageBits h₁ h₂)).ReadCorrect d addr size ∧
      (run d ops (.init addressSpaceBits bigPageBits h₁ h₂)).WriteCorrect d addr size) ↔
    ∀ i < size, (run d ops (.init addressSpaceBits bigPageBits h₁ h₂)).Agrees d (addr + i) := by
  have hm : (run d ops (.init addressSpaceBits bigPageBits h₁ h₂)).Continuous d :=
    run_continuous MemoryManager.init_continuous hops
  have hsize : (run d ops (.init addressSpaceBits bigPageBits h₁ h₂)).addressSpaceSize =
      2 ^ addressSpaceBits := by
    rw [MemoryManager.addressSpaceSize, run_addressSpaceBits]
    rfl
  rw [← hsize] at hspace
  constructor
  · exact fun h i hi => MemoryManager.agrees_of_readCorrect hm hspace h.1 hi
  · intro h
    have hwalked := fun i (hi : i < size) =>
      (MemoryManager.walked_eq_iff (lt_of_lt_of_le (Nat.add_lt_add_left hi addr) hspace)).mpr (h i hi)
    exact ⟨MemoryManager.readCorrect_of_agrees hm hwalked, MemoryManager.writeCorrect_of_agrees hm hwalked⟩

end MappingOp

/-- Device memory where every page has the physical page of its number. -/
def identityMemory : DeviceMemory where
  compressedPhysicalPtr := fun p => p + 1
  continuityTracker := fun _ => 1
  tracker_pos := fun _ => Nat.one_pos
  tracker_run := fun p j hj => by
    obtain rfl := Nat.lt_one_iff.mp hj
    rfl

/-- Big and small pages side by side, read across the border. -/
theorem run_blocks_iff_mixed :
    (∀ op ∈ [MappingOp.map 0 0 65536 true, .map 65536 131072 4096 false], op.Legal 40) ∧
    (((MappingOp.run identityMemory [.map 0 0 65536 true, .map 65536 131072 4096 false]
        (.init 40 16 (by decide) (by decide))).ReadCorrect identityMemory 65535 2 ∧
      (MappingOp.run identityMemory [.map 0 0 65536 true, .map 65536 131072 4096 false]
        (.init 40 16 (by decide) (by decide))).WriteCorrect identityMemory 65535 2) ↔
    ∀ i < 2, (MappingOp.run identityMemory [.map 0 0 65536 true, .map 65536 131072 4096 false]
        (.init 40 16 (by decide) (by decide))).Agrees identityMemory (65535 + i)) := by
  have hops : ∀ op ∈ [MappingOp.map 0 0 65536 true, .map 65536 131072 4096 false], op.Legal 40 := by
    intro op hop
    simp only [mem_cons, not_mem_nil, or_false] at hop
    rcases hop with rfl | rfl <;> refine ⟨?_, ?_, ?_, ?_, ?_⟩ <;> decide
  exact ⟨hops, MappingOp.run_blocks_iff identityMemory 40 16 (by decide) (by decide) _ hops 65535 2
    (by decide)⟩

/-- A small page mapped into a sparse big page has a translation, and reads 0. -/
theorem small_page_hidden : ∃ ops : List MappingOp, (∀ op ∈ ops, op.Legal 40) ∧
      (MappingOp.run identityMemory ops (.init 40 16 (by decide) (by decide))).gpuToCpuAddress 0 = some 0 ∧
      ((MappingOp.run identityMemory ops (.init 40 16 (by decide) (by decide))).readBlockUnsafe
        identityMemory (fun _ => 1) 0 (fun _ => 0) 1).map (fun b => b 0) = some 0 ∧
      ¬ (MappingOp.run identityMemory ops (.init 40 16 (by decide) (by decide))).ReadCorrect
        identityMemory 0 1 := by
  have hread : ((MappingOp.run identityMemory [.mapSparse 0 65536 true, .map 0 0 4096 false]
      (.init 40 16 (by decide) (by decide))).readBlockUnsafe
        identityMemory (fun _ => 1) 0 (fun _ => 0) 1).map (fun b => b 0) = some 0 := by decide
  refine ⟨[.mapSparse 0 65536 true, .map 0 0 4096 false], ?_, by decide, hread, fun h => ?_⟩
  · intro op hop
    simp only [mem_cons, not_mem_nil, or_false] at hop
    rcases hop with rfl | rfl
    · refine ⟨?_, ?_, ?_⟩ <;> decide
    · refine ⟨?_, ?_, ?_, ?_, ?_⟩ <;> decide
  · rw [h (fun _ => 1) fun _ => 0] at hread
    exact absurd hread (by decide)

end Yuzu.VideoCore
