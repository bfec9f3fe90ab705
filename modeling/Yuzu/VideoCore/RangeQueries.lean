/-
  File:      Yuzu/VideoCore/RangeQueries.lean
  Subject:   What the GPU memory manager says about ranges: `IsGranularRange`, `IsContinuousRange`,
             `MaxContinuousRange` and `GetSubmappedRange` (video_core/memory_manager.cpp).
-/
import Yuzu.Lib.Runs
import Yuzu.VideoCore.MemoryManager

namespace Yuzu.VideoCore.MemoryManager

open List Option

open Yuzu.Core (DeviceMemory)

variable {m : MemoryManager} {d : DeviceMemory} {addr size n v i : Nat}

/-! ## 1. `IsGranularRange` -/

/-- `IsGranularRange`. Sums are those of `std::size_t`. -/
def isGranularRange (m : MemoryManager) (gpuAddr size : Nat) : Bool :=
  if m.getEntry true gpuAddr = .mapped then
    let pageIndex := gpuAddr >>> m.bigPageBits
    if m.isBigPageContinuous pageIndex then
      let page := ((pageIndex &&& (m.bigPageSize - 1)) + size) % 2 ^ 64
      page ≤ m.bigPageSize
    else
      let page := ((gpuAddr &&& (pageSize - 1)) + size) % 2 ^ 64
      page ≤ pageSize
  else if m.getEntry false gpuAddr ≠ .mapped then false
  else
    let page := ((gpuAddr &&& (pageSize - 1)) + size) % 2 ^ 64
    page ≤ pageSize

/-- The big page of the address is mapped and continuous. -/
def InContinuousPage (m : MemoryManager) (gpuAddr : Nat) : Prop :=
  m.getEntry true gpuAddr = .mapped ∧ m.isBigPageContinuous (gpuAddr / m.bigPageSize) = true

/-- All bytes of the range lie in one mapped page: the big page if it is mapped and continuous, and
otherwise one device page. -/
def InOneMappedPage (m : MemoryManager) (gpuAddr size : Nat) : Prop :=
  (m.InContinuousPage gpuAddr ∧ ∀ j < size, (gpuAddr + j) / m.bigPageSize = gpuAddr / m.bigPageSize) ∨
    (¬m.InContinuousPage gpuAddr ∧
      (m.getEntry true gpuAddr = .mapped ∨ m.getEntry false gpuAddr = .mapped) ∧
      ∀ j < size, (gpuAddr + j) / pageSize = gpuAddr / pageSize)

/-- The pointer to the first byte, if there is one, covers the range. -/
def PointerCovers (m : MemoryManager) (d : DeviceMemory) (gpuAddr size : Nat) : Prop :=
  ∀ p, m.translated d gpuAddr = some p → ∀ j < size, m.translated d (gpuAddr + j) = some (p + j)

/-- What a true answer is taken for. -/
def GranularSound (m : MemoryManager) (gpuAddr size : Nat) : Prop :=
  m.isGranularRange gpuAddr size = true → m.InOneMappedPage gpuAddr size ∧
    ∀ d, m.Continuous d → m.PointerCovers d gpuAddr size

/-- **Where the answer is right**: in a continuous big page the range ends inside the page, or the
number of the page in place of the offset makes the sum too large; elsewhere the sum of the offset
and the size does not wrap. -/
def OffsetsAgree (m : MemoryManager) (gpuAddr size : Nat) : Prop :=
  (m.InContinuousPage gpuAddr → gpuAddr % m.bigPageSize + size ≤ m.bigPageSize ∨
      m.bigPageSize < (gpuAddr / m.bigPageSize % m.bigPageSize + size) % 2 ^ 64) ∧
  (¬m.InContinuousPage gpuAddr → m.getEntry true gpuAddr = .mapped ∨ m.getEntry false gpuAddr = .mapped →
      gpuAddr % pageSize + size < 2 ^ 64)

instance (m : MemoryManager) (gpuAddr : Nat) : Decidable (m.InContinuousPage gpuAddr) :=
  inferInstanceAs (Decidable (_ ∧ _))

theorem isGranularRange_eq : m.isGranularRange addr size =
    if m.InContinuousPage addr then
      decide ((addr / m.bigPageSize % m.bigPageSize + size) % 2 ^ 64 ≤ m.bigPageSize)
    else if m.getEntry true addr = .mapped ∨ m.getEntry false addr = .mapped then
      decide ((addr % pageSize + size) % 2 ^ 64 ≤ pageSize)
    else false := by
  have hand : addr &&& (pageSize - 1) = addr % pageSize := Nat.and_two_pow_sub_one_eq_mod addr 12
  have hand' : addr / m.bigPageSize &&& (m.bigPageSize - 1) =
      addr / m.bigPageSize % m.bigPageSize := Nat.and_two_pow_sub_one_eq_mod _ m.bigPageBits
  have hshift : addr >>> m.bigPageBits = addr / m.bigPageSize := Nat.shiftRight_eq_div_pow _ _
  rw [isGranularRange]
  simp only [InContinuousPage, hand, hshift, hand']
  by_cases hbig : m.getEntry true addr = .mapped
  · by_cases hc : m.isBigPageContinuous (addr / m.bigPageSize) = true <;> simp [hbig, hc]
  · by_cases hsmall : m.getEntry false addr = .mapped <;> simp [hbig, hsmall]

theorem inside_iff {P : Nat} (hP : 0 < P) :
    (∀ j < size, (addr + j) / P = addr / P) ↔ addr % P + size ≤ P := by
  constructor
  · intro h
    by_contra hlt
    have hmod := Nat.mod_lt addr hP
    have hdm := Nat.div_add_mod addr P
    have heq : addr + (P - addr % P) = P * (addr / P + 1) := by
      rw [Nat.mul_add, Nat.mul_one]
      omega
    have hnext := h (P - addr % P) (by omega)
    rw [heq, Nat.mul_div_cancel_left _ hP] at hnext
    omega
  · exact fun h j hj => (div_mod_of_inside h hj).1

theorem bigPageSize_pos : 0 < m.bigPageSize := Nat.two_pow_pos _

theorem pageSize_dvd_bigPageSize : pageSize ∣ m.bigPageSize :=
  Nat.pow_dvd_pow 2 m.page_le_big

theorem inside_big (h : addr % pageSize + size ≤ pageSize) :
    addr % m.bigPageSize + size ≤ m.bigPageSize := by
  obtain ⟨k, hk⟩ := m.pageSize_dvd_bigPageSize
  have hmod := Nat.mod_lt addr m.bigPageSize_pos
  have hsplit : addr % m.bigPageSize % pageSize = addr % pageSize := by
    rw [hk, Nat.mod_mul_right_mod]
  have hdm := Nat.div_add_mod (addr % m.bigPageSize) pageSize
  have hlt : addr % m.bigPageSize / pageSize < k := by
    rw [Nat.div_lt_iff_lt_mul (by decide), Nat.mul_comm, ← hk]
    exact hmod
  have hle : pageSize * (addr % m.bigPageSize / pageSize) + pageSize ≤ m.bigPageSize := by
    have hmul := Nat.mul_le_mul_left pageSize (Nat.succ_le_of_lt hlt)
    rwa [Nat.mul_succ, ← hk] at hmul
  omega

theorem inside_space {bits : Nat} (hbits : bits ≤ m.addressSpaceBits)
    (h : addr % 2 ^ bits + size ≤ 2 ^ bits) (hv : addr < m.addressSpaceSize) {j : Nat}
    (hj : j < size) : addr + j < m.addressSpaceSize := by
  obtain ⟨k, hk⟩ : 2 ^ bits ∣ m.addressSpaceSize := Nat.pow_dvd_pow 2 hbits
  have hdiv := (div_mod_of_inside h hj).1
  rw [hk, Nat.mul_comm, ← Nat.div_lt_iff_lt_mul (Nat.two_pow_pos bits)] at hv ⊢
  rwa [hdiv]

/-- **The pointer to the first byte covers a range in one mapped page.** -/
theorem pointerCovers_of_inOneMappedPage (hm : m.Continuous d)
    (h : m.InOneMappedPage addr size) : m.PointerCovers d addr size := by
  intro p hp j hj
  have hv : addr < m.addressSpaceSize := by
    by_contra hge
    rw [translated, gpuToCpuAddress, if_pos (Nat.le_of_not_lt hge)] at hp
    simp at hp
  rcases h with ⟨⟨hmapped, hcont⟩, hone⟩ | ⟨-, hmapped, hone⟩
  · have hin := (inside_iff m.bigPageSize_pos).mp hone
    have hv' := inside_space (m := m) m.big_le_space hin hv hj
    have hsame : m.getEntry true (addr + j) = m.getEntry true addr := getEntry_inside hin hj
    have hentry : m.getEntry true (addr + j) = .mapped := hsame.trans hmapped
    obtain ⟨hdiv, hmod⟩ := div_mod_of_inside hin hj
    obtain ⟨q, hq⟩ := hm _ hcont
    rw [translated_eq hv, hmapped] at hp
    rw [translated_eq hv', hentry]
    rw [hq _ (Nat.mod_lt _ m.bigPageSize_pos)] at hp
    rw [hdiv, hmod, hq _ (by omega)]
    obtain rfl := some.inj hp
    rw [Nat.add_assoc]
  · have hin := (inside_iff (P := pageSize) (by decide)).mp hone
    have hbig := inside_big (m := m) hin
    have hv' := inside_space (m := m) m.big_le_space hbig hv hj
    have hentry : m.getEntry true (addr + j) = m.getEntry true addr :=
      getEntry_inside hbig hj
    have hentry' : m.getEntry false (addr + j) = m.getEntry false addr :=
      getEntry_inside hin hj
    obtain ⟨hdiv, hmod⟩ := div_mod_of_inside hbig hj
    have hpointer : d.getPointer (m.devAddr true (addr / m.bigPageSize) (addr % m.bigPageSize + j)) =
        (d.getPointer (m.devAddr true (addr / m.bigPageSize) (addr % m.bigPageSize))).map (· + j) := by
      rw [devAddr_add]
      refine DeviceMemory.getPointer_add ?_
      have hoff : m.devAddr true (addr / m.bigPageSize) (addr % m.bigPageSize) % Core.pageSize =
          addr % pageSize := by
        obtain ⟨k, hk⟩ := m.pageSize_dvd_bigPageSize
        rw [devAddr, Nat.shiftLeft_eq, show Core.pageSize = 2 ^ pageBits from rfl,
          Nat.mul_add_mod_self_right, hk]
        exact Nat.mod_mul_right_mod _ _ _
      rw [hoff, show Core.pageSize = pageSize from rfl]
      omega
    rw [translated_eq hv] at hp
    rw [translated_eq hv', hentry, hentry']
    cases hb : m.getEntry true addr with
    | mapped =>
      rw [hb] at hp
      dsimp only at hp ⊢
      rw [hdiv, hmod, hpointer, hp, map_some]
    | reserved =>
      have hs := hmapped.resolve_left (by simp [hb])
      rw [hb, hs] at hp
      rw [hs]
      dsimp only at hp ⊢
      rw [getPointer_small hin hj, hp, map_some]
    | free =>
      have hs := hmapped.resolve_left (by simp [hb])
      rw [hb, hs] at hp
      rw [hs]
      dsimp only at hp ⊢
      rw [getPointer_small hin hj, hp, map_some]

/-- **`IsGranularRange` is sound exactly where the offsets agree.** In a continuous big page the
code takes the number of the page for the offset in it. -/
theorem granularSound_iff (m : MemoryManager) (gpuAddr size : Nat) (hword : size < 2 ^ 64) :
    m.GranularSound gpuAddr size ↔ m.OffsetsAgree gpuAddr size := by
  have hmod : gpuAddr % pageSize < pageSize := Nat.mod_lt _ (by decide)
  have hP : pageSize = 4096 := rfl
  constructor
  · intro h
    refine ⟨fun hin => ?_, fun hout hmapped => ?_⟩
    · by_contra hneg
      obtain ⟨hend, hsum⟩ := not_or.mp hneg
      have hans : m.isGranularRange gpuAddr size = true := by
        rw [isGranularRange_eq, if_pos hin]
        exact decide_eq_true (Nat.le_of_not_lt hsum)
      rcases (h hans).1 with ⟨-, hone⟩ | ⟨hout, -⟩
      · exact hend ((inside_iff m.bigPageSize_pos).mp hone)
      · exact hout hin
    · by_contra hwrap
      have hans : m.isGranularRange gpuAddr size = true := by
        rw [isGranularRange_eq, if_neg hout, if_pos hmapped]
        exact decide_eq_true (by omega)
      rcases (h hans).1 with ⟨hin, -⟩ | ⟨-, -, hone⟩
      · exact hout hin
      · have := (inside_iff (P := pageSize) (by decide)).mp hone
        omega
  · intro h hans
    suffices hone : m.InOneMappedPage gpuAddr size by
      exact ⟨hone, fun d hm => pointerCovers_of_inOneMappedPage hm hone⟩
    rw [isGranularRange_eq] at hans
    split at hans
    · rename_i hin
      have hend := (h.1 hin).resolve_right (Nat.not_lt.mpr (of_decide_eq_true hans))
      exact .inl ⟨hin, (inside_iff m.bigPageSize_pos).mpr hend⟩
    · rename_i hout
      split at hans
      · rename_i hmapped
        have hwrap := h.2 hout hmapped
        have hle := of_decide_eq_true hans
        rw [Nat.mod_eq_of_lt hwrap] at hle
        exact .inr ⟨hout, hmapped, (inside_iff (by decide)).mpr hle⟩
      · simp at hans

theorem granularSound_iff_inside : 4096 < 2 ^ 64 ∧ ((MappingOp.run identityMemory [.map 0 0 65536 true]
      (.init 40 16 (by decide) (by decide))).GranularSound 4096 4096 ↔
    (MappingOp.run identityMemory [.map 0 0 65536 true]
      (.init 40 16 (by decide) (by decide))).OffsetsAgree 4096 4096) :=
  ⟨by decide, granularSound_iff _ 4096 4096 (by decide)⟩

/-- One big page is mapped, and a range from its middle that is as long as the page is granular. -/
theorem granular_behind_page : (∀ op ∈ [MappingOp.map 0 0 65536 true], op.Legal 40) ∧
    (MappingOp.run identityMemory [.map 0 0 65536 true]
      (.init 40 16 (by decide) (by decide))).isGranularRange 32768 65536 = true ∧
    ¬(MappingOp.run identityMemory [.map 0 0 65536 true]
      (.init 40 16 (by decide) (by decide))).GranularSound 32768 65536 := by
  have hans : (MappingOp.run identityMemory [.map 0 0 65536 true]
      (.init 40 16 (by decide) (by decide))).isGranularRange 32768 65536 = true := by decide
  refine ⟨?_, hans, fun h => ?_⟩
  · intro op hop
    rw [mem_singleton.mp hop]
    refine ⟨?_, ?_, ?_, ?_, ?_⟩ <;> decide
  · rcases (h hans).1 with ⟨-, hone⟩ | ⟨-, -, hone⟩
    · exact absurd (hone 65535 (by decide)) (by decide)
    · exact absurd (hone 65535 (by decide)) (by decide)

/-! ## 2. Walks that can stop -/

/-- A handler of the walk that says whether to stop: it gets the page, the offset in it and the
number of bytes. -/
abbrev BreakHandler (σ : Type) := Nat → Nat → Nat → σ → Bool × σ

section Walks

variable {σ : Type}

/-- The loop of `MemoryOperation`, for handlers that can stop it. -/
def memoryOperationBreakLoop (m : MemoryManager) (isBigPages : Bool)
    (funcMapped funcReserved funcUnmapped : BreakHandler σ) :
    Nat → Nat → Nat → Nat → Nat → σ → σ
  | 0, _, _, _, _, s => s
  | fuel + 1, remainingSize, pageIndex, pageOffset, currentAddress, s =>
    if remainingSize = 0 then s
    else
      let copyAmount := min (2 ^ m.usedPageBits isBigPages - pageOffset) remainingSize
      let r := match m.getEntry isBigPages currentAddress with
        | .mapped => funcMapped pageIndex pageOffset copyAmount s
        | .reserved => funcReserved pageIndex pageOffset copyAmount s
        | .free => funcUnmapped pageIndex pageOffset copyAmount s
      if r.1 then r.2
      else memoryOperationBreakLoop m isBigPages funcMapped funcReserved funcUnmapped fuel
        (remainingSize - copyAmount) (pageIndex + 1) 0 (currentAddress + copyAmount) r.2

/-- `MemoryOperation`, for handlers that can stop it. -/
def memoryOperationBreak (m : MemoryManager) (isBigPages : Bool) (gpuSrcAddr size : Nat)
    (funcMapped funcReserved funcUnmapped : BreakHandler σ) (s : σ) : σ :=
  m.memoryOperationBreakLoop isBigPages funcMapped funcReserved funcUnmapped size size
    (gpuSrcAddr >>> m.usedPageBits isBigPages)
    (gpuSrcAddr &&& (2 ^ m.usedPageBits isBigPages - 1)) gpuSrcAddr s

/-- The device address is not the one that is expected next. -/
def leaves (oldPageAddr : Option Nat) (devAddrBase : Nat) : Bool :=
  match oldPageAddr with
  | none => false
  | some a => a ≠ devAddrBase

/-- `IsContinuousRange`. The state is the device address expected next and the result. -/
def isContinuousRange (m : MemoryManager) (gpuAddr size : Nat) : Bool :=
  let fail : BreakHandler (Option Nat × Bool) := fun _ _ _ s => (true, s.1, false)
  let shortCheck : BreakHandler (Option Nat × Bool) := fun pageIndex offset copyAmount s =>
    let devAddrBase := m.devAddr false pageIndex offset
    if leaves s.1 devAddrBase then (true, s.1, false)
    else (false, some (devAddrBase + copyAmount), s.2)
  let bigCheck : BreakHandler (Option Nat × Bool) := fun pageIndex offset copyAmount s =>
    let devAddrBase := m.devAddr true pageIndex offset
    if leaves s.1 devAddrBase then (true, s.1, false)
    else (false, some (devAddrBase + copyAmount), s.2)
  let checkShortPages : BreakHandler (Option Nat × Bool) := fun pageIndex offset copyAmount s =>
    let s := m.memoryOperationBreak false (pageIndex <<< m.bigPageBits + offset) copyAmount
      shortCheck fail fail s
    (!s.2, s)
  (m.memoryOperationBreak true gpuAddr size bigCheck fail checkShortPages (none, true)).2

/-- The state of `MaxContinuousRange`. -/
structure RangeSoFar where
  oldPageAddr : Option Nat
  rangeSoFar : Nat
  result : Bool
  deriving Repr, DecidableEq

/-- `MaxContinuousRange`. -/
def maxContinuousRange (m : MemoryManager) (gpuAddr size : Nat) : Nat :=
  let fail : BreakHandler RangeSoFar := fun _ _ _ s => (true, { s with result := true })
  let shortCheck : BreakHandler RangeSoFar := fun pageIndex offset copyAmount s =>
    let devAddrBase := m.devAddr false pageIndex offset
    if leaves s.oldPageAddr devAddrBase then (true, { s with result := true })
    else (false, { s with rangeSoFar := s.rangeSoFar + copyAmount
                          oldPageAddr := some (devAddrBase + copyAmount) })
  let bigCheck : BreakHandler RangeSoFar := fun pageIndex offset copyAmount s =>
    let devAddrBase := m.devAddr true pageIndex offset
    if leaves s.oldPageAddr devAddrBase then (true, s)
    else (false, { s with rangeSoFar := s.rangeSoFar + copyAmount
                          oldPageAddr := some (devAddrBase + copyAmount) })
  let checkShortPages : BreakHandler RangeSoFar := fun pageIndex offset copyAmount s =>
    let s := m.memoryOperationBreak false (pageIndex <<< m.bigPageBits + offset) copyAmount
      shortCheck fail fail s
    (s.result, s)
  (m.memoryOperationBreak true gpuAddr size bigCheck fail checkShortPages ⟨none, 0, false⟩).rangeSoFar

/-- The state of `GetSubmappedRange`. -/
structure Segments where
  result : List (Nat × Nat)
  lastSegment : Option (Nat × Nat)
  oldPageAddr : Option Nat
  deriving Repr, DecidableEq

namespace Segments

/-- `split`. -/
def split (s : Segments) : Segments :=
  match s.lastSegment with
  | none => s
  | some segment => { s with result := s.result ++ [segment], lastSegment := none }

/-- `extend_size_big` and `extend_size_short`, which differ in the page table and the page size. -/
def extendSize (s : Segments) (newBaseAddr devAddrBase copyAmount : Nat) : Segments :=
  let s := if leaves s.oldPageAddr devAddrBase then s.split else s
  let s := { s with oldPageAddr := some (devAddrBase + copyAmount) }
  match s.lastSegment with
  | none => { s with lastSegment := some (newBaseAddr, copyAmount) }
  | some (a, l) => { s with lastSegment := some (a, l + copyAmount) }

end Segments

/-- `GetSubmappedRange`: the segments by GPU address. -/
def getSubmappedRange (m : MemoryManager) (gpuAddr size : Nat) : List (Nat × Nat) :=
  let split : BreakHandler Segments := fun _ _ _ s => (false, s.split)
  let extendSizeBig : BreakHandler Segments := fun pageIndex offset copyAmount s =>
    (false, s.extendSize (pageIndex <<< m.bigPageBits + offset) (m.devAddr true pageIndex offset)
      copyAmount)
  let extendSizeShort : BreakHandler Segments := fun pageIndex offset copyAmount s =>
    (false, s.extendSize (pageIndex <<< pageBits + offset) (m.devAddr false pageIndex offset) copyAmount)
  let doShortPages : BreakHandler Segments := fun pageIndex offset copyAmount s =>
    (false, m.memoryOperationBreak false (pageIndex <<< m.bigPageBits + offset) copyAmount
      extendSizeShort split split s)
  (m.memoryOperationBreak true gpuAddr size extendSizeBig split doShortPages ⟨[], none, none⟩).split.result

/-! ## 3. Walks, byte by byte -/

/-- What a step does with bytes one after the other, until it stops. -/
def runBytes (f : Nat → σ → Bool × σ) : Nat → Nat → σ → Bool × σ
  | _, 0, s => (false, s)
  | v, n + 1, s => if (f v s).1 then (true, (f v s).2) else runBytes f (v + 1) n (f v s).2

theorem runBytes_add (f : Nat → σ → Bool × σ) (v n k : Nat) (s : σ) :
    runBytes f v (n + k) s = if (runBytes f v n s).1 then (true, (runBytes f v n s).2)
      else runBytes f (v + n) k (runBytes f v n s).2 := by
  induction n generalizing v s with
  | zero => simp [runBytes]
  | succ n ih =>
    rw [Nat.succ_add, runBytes, runBytes]
    by_cases hstop : (f v s).1 = true
    · simp [hstop]
    · simp only [hstop, if_false, Bool.false_eq_true]
      rw [ih, Nat.add_right_comm, Nat.add_assoc v n 1]

theorem runBytes_congr {f g : Nat → σ → Bool × σ} {v n : Nat}
    (h : ∀ j < n, ∀ s, f (v + j) s = g (v + j) s) (s : σ) : runBytes f v n s = runBytes g v n s := by
  induction n generalizing v s with
  | zero => rfl
  | succ n ih =>
    have hv : f v s = g v s := h 0 (Nat.succ_pos n) s
    have hrest : ∀ s, runBytes f (v + 1) n s = runBytes g (v + 1) n s :=
      ih fun j hj s => by
        have := h (j + 1) (Nat.succ_lt_succ hj) s
        rwa [Nat.add_comm j 1, ← Nat.add_assoc] at this
    rw [runBytes, runBytes, hv, hrest]

variable {s : σ}

theorem runBytes_keep {f : Nat → σ → Bool × σ} {good : σ → Prop}
    (hgood : ∀ v s, good s → (f v s).1 = false → good (f v s).2) {v n : Nat} (hs : good s)
    (hrun : (runBytes f v n s).1 = false) : good (runBytes f v n s).2 := by
  induction n generalizing v s with
  | zero => exact hs
  | succ n ih =>
    rw [runBytes] at hrun ⊢
    split at hrun
    · simp at hrun
    · rename_i hstop
      rw [if_neg hstop]
      exact ih (hgood v s hs (by simpa using hstop)) hrun

/-- What the walk does with a piece of a page. -/
def breakStep (m : MemoryManager) (isBigPages : Bool)
    (funcMapped funcReserved funcUnmapped : BreakHandler σ) (v n : Nat) (s : σ) : Bool × σ :=
  let handler := match m.getEntry isBigPages v with
    | .mapped => funcMapped
    | .reserved => funcReserved
    | .free => funcUnmapped
  handler (v / 2 ^ m.usedPageBits isBigPages) (v % 2 ^ m.usedPageBits isBigPages) n s

/-- **A walk goes over the bytes**: where the handlers do with the pieces of pages what `f` does
with their bytes, the walk does what `f` does with all bytes. The states stay good until it
stops. -/
theorem memoryOperationBreak_eq {funcMapped funcReserved funcUnmapped : BreakHandler σ}
    {isBig : Bool} {f : Nat → σ → Bool × σ} {good : σ → Prop}
    (hgood : ∀ v s, good s → (f v s).1 = false → good (f v s).2)
    (hpiece : ∀ v n s, 0 < n → v % 2 ^ m.usedPageBits isBig + n ≤ 2 ^ m.usedPageBits isBig →
      good s → m.breakStep isBig funcMapped funcReserved funcUnmapped v n s = runBytes f v n s)
    (hs : good s) :
    m.memoryOperationBreak isBig addr size funcMapped funcReserved funcUnmapped s =
      (runBytes f addr size s).2 := by
  have hP : 0 < 2 ^ m.usedPageBits isBig := Nat.two_pow_pos _
  suffices hloop : ∀ fuel rem page off addr s, good s → rem ≤ fuel →
      (rem = 0 ∨ page = addr / 2 ^ m.usedPageBits isBig ∧ off = addr % 2 ^ m.usedPageBits isBig) →
      m.memoryOperationBreakLoop isBig funcMapped funcReserved funcUnmapped fuel rem page off addr s
        = (runBytes f addr rem s).2 by
    refine hloop size size _ _ addr s hs (Nat.le_refl _) (.inr ⟨Nat.shiftRight_eq_div_pow _ _, ?_⟩)
    exact Nat.and_two_pow_sub_one_eq_mod _ _
  intro fuel
  induction fuel with
  | zero =>
    intro rem page off addr s _ hrem _
    obtain rfl : rem = 0 := Nat.le_zero.mp hrem
    rfl
  | succ fuel ih =>
    intro rem page off addr s hs hrem haddr
    rw [memoryOperationBreakLoop]
    split
    · rename_i hzero
      subst hzero
      rfl
    · rename_i hpos
      obtain ⟨rfl, rfl⟩ := haddr.resolve_left hpos
      generalize hn : min (2 ^ m.usedPageBits isBig - addr % 2 ^ m.usedPageBits isBig) rem = n
      have hstep := hpiece addr n s (by omega) (by omega) hs
      have hcall : (match m.getEntry isBig addr with
          | .mapped => funcMapped (addr / 2 ^ m.usedPageBits isBig)
              (addr % 2 ^ m.usedPageBits isBig) n s
          | .reserved => funcReserved (addr / 2 ^ m.usedPageBits isBig)
              (addr % 2 ^ m.usedPageBits isBig) n s
          | .free => funcUnmapped (addr / 2 ^ m.usedPageBits isBig)
              (addr % 2 ^ m.usedPageBits isBig) n s) = runBytes f addr n s := by
        rw [← hstep, breakStep]
        cases m.getEntry isBig addr <;> rfl
      have hsplit := runBytes_add f addr n (rem - n) s
      rw [Nat.add_sub_cancel' (by omega : n ≤ rem)] at hsplit
      rw [hsplit]
      simp only [hcall]
      split
      · rfl
      · rename_i hstop
        refine ih _ _ _ _ _ (runBytes_keep hgood hs (by simpa using hstop)) (by omega) ?_
        by_cases hrest : rem - n = 0
        · exact .inl hrest
        · right
          have hdm := Nat.div_add_mod addr (2 ^ m.usedPageBits isBig)
          have heq : addr + n = 2 ^ m.usedPageBits isBig * (addr / 2 ^ m.usedPageBits isBig + 1) := by
            rw [Nat.mul_add, Nat.mul_one]
            omega
          rw [heq, Nat.mul_div_cancel_left _ hP, Nat.mul_mod_right]
          exact ⟨rfl, rfl⟩

/-- A handler that does the same with two pieces as with both in one, and stops in no good
state. -/
structure Additive (handler : BreakHandler σ) (stopped : σ → Bool) : Prop where
  add : ∀ page off n k s, 0 < n → stopped s = false → handler page off (n + k) s =
    if (handler page off n s).1 then (true, (handler page off n s).2)
    else if k = 0 then (false, (handler page off n s).2)
    else handler page (off + n) k (handler page off n s).2
  go : ∀ page off n s, stopped s = false → (handler page off n s).1 = false →
    stopped (handler page off n s).2 = false

theorem Additive.eq_runBytes {handler : BreakHandler σ} {stopped : σ → Bool} {P : Nat}
    (h : Additive handler stopped) : ∀ {n v : Nat} {s : σ}, 0 < n → v % P + n ≤ P → stopped s = false →
      handler (v / P) (v % P) n s = runBytes (fun v s => handler (v / P) (v % P) 1 s) v n s := by
  intro n
  induction n with
  | zero => exact fun hn => absurd hn (Nat.lt_irrefl 0)
  | succ n ih =>
    intro v s _ hin hs
    have hadd := h.add (v / P) (v % P) 1 n s Nat.one_pos hs
    rw [Nat.add_comm 1 n] at hadd
    rw [hadd, runBytes]
    by_cases hstop : (handler (v / P) (v % P) 1 s).1 = true
    · rw [if_pos hstop, if_pos hstop]
    · rw [if_neg hstop, if_neg hstop]
      by_cases hn : n = 0
      · rw [if_pos hn, hn, runBytes]
      · rw [if_neg hn]
        obtain ⟨hdiv, hmod⟩ := div_mod_of_inside hin (by omega : 1 < n + 1)
        rw [← ih (by omega) (by omega) (h.go _ _ _ _ hs (by simpa using hstop)), hdiv, hmod]

/-- The walk of all range queries: mapped pieces of big and of small pages, and gaps. -/
def rangeWalk (m : MemoryManager) (onMapped : Bool → BreakHandler σ) (onGap : BreakHandler σ)
    (stopped : σ → Bool) (gpuAddr size : Nat) (s : σ) : σ :=
  m.memoryOperationBreak true gpuAddr size (onMapped true) onGap (fun pageIndex offset copyAmount s =>
      let s := m.memoryOperationBreak false (pageIndex <<< m.bigPageBits + offset) copyAmount
        (onMapped false) onGap onGap s
      (stopped s, s)) s

/-- What the handlers need for the walk to go over the bytes. -/
structure Pieceable (onMapped : Bool → BreakHandler σ) (onGap : BreakHandler σ)
    (stopped : σ → Bool) : Prop where
  mapped : ∀ big, Additive (onMapped big) stopped
  gap : Additive onGap stopped
  short_stop : ∀ page off n s, stopped s = false → (onMapped false page off n s).1 = true →
    stopped (onMapped false page off n s).2 = true
  gap_stop : ∀ page off n s, stopped s = false → (onGap page off n s).1 = true →
    stopped (onGap page off n s).2 = true

/-- What a walk does with a byte of a small page. -/
def shortByte (m : MemoryManager) (onMapped : Bool → BreakHandler σ) (onGap : BreakHandler σ)
    (v : Nat) (s : σ) : Bool × σ :=
  match m.getEntry false v with
  | .mapped => onMapped false (v / pageSize) (v % pageSize) 1 s
  | _ => onGap (v / pageSize) (v % pageSize) 1 s

/-- What a walk does with a byte. -/
def byteOf (m : MemoryManager) (onMapped : Bool → BreakHandler σ) (onGap : BreakHandler σ)
    (v : Nat) (s : σ) : Bool × σ :=
  match m.getEntry true v with
  | .mapped => onMapped true (v / m.bigPageSize) (v % m.bigPageSize) 1 s
  | .reserved => onGap (v / m.bigPageSize) (v % m.bigPageSize) 1 s
  | .free => m.shortByte onMapped onGap v s

variable {onMapped : Bool → BreakHandler σ} {onGap : BreakHandler σ} {stopped : σ → Bool}

theorem Pieceable.shortByte_go (h : Pieceable onMapped onGap stopped)
    (hs : stopped s = false) (hgo : (m.shortByte onMapped onGap v s).1 = false) :
    stopped (m.shortByte onMapped onGap v s).2 = false := by
  rw [shortByte] at hgo ⊢
  split at hgo
  · exact (h.mapped false).go _ _ _ _ hs hgo
  · exact h.gap.go _ _ _ _ hs hgo

theorem Pieceable.shortByte_stop (h : Pieceable onMapped onGap stopped)
    (hs : stopped s = false) (hstop : (m.shortByte onMapped onGap v s).1 = true) :
    stopped (m.shortByte onMapped onGap v s).2 = true := by
  rw [shortByte] at hstop ⊢
  split at hstop
  · exact h.short_stop _ _ _ _ hs hstop
  · exact h.gap_stop _ _ _ _ hs hstop

theorem Pieceable.short_stopped (h : Pieceable onMapped onGap stopped)
    (hs : stopped s = false) : (runBytes (m.shortByte onMapped onGap) v n s).1 =
      stopped (runBytes (m.shortByte onMapped onGap) v n s).2 := by
  induction n generalizing v s with
  | zero => exact hs.symm
  | succ n ih =>
    rw [runBytes]
    by_cases hstop : (m.shortByte onMapped onGap v s).1 = true
    · rw [if_pos hstop, h.shortByte_stop hs hstop]
    · rw [if_neg hstop]
      exact ih (h.shortByte_go hs (by simpa using hstop))

theorem Pieceable.short_piece (h : Pieceable onMapped onGap stopped) (hn : 0 < n)
    (hin : v % pageSize + n ≤ pageSize) (hs : stopped s = false) :
    m.breakStep false (onMapped false) onGap onGap v n s = runBytes (m.shortByte onMapped onGap) v n s := by
  have hentry : ∀ j < n, m.getEntry false (v + j) = m.getEntry false v :=
    fun j hj => getEntry_inside hin hj
  have hpiece : ∀ handler : BreakHandler σ, Additive handler stopped →
      (∀ j < n, ∀ s, m.shortByte onMapped onGap (v + j) s =
        handler ((v + j) / pageSize) ((v + j) % pageSize) 1 s) →
      handler (v / pageSize) (v % pageSize) n s = runBytes (m.shortByte onMapped onGap) v n s := by
    intro handler hadd hbyte
    exact (hadd.eq_runBytes hn hin hs).trans (runBytes_congr (fun j hj s => (hbyte j hj s).symm) s)
  rw [breakStep]
  cases hv : m.getEntry false v with
  | mapped =>
    exact hpiece _ (h.mapped false) fun j hj s => by rw [shortByte, hentry j hj, hv]
  | reserved => exact hpiece _ h.gap fun j hj s => by rw [shortByte, hentry j hj, hv]
  | free => exact hpiece _ h.gap fun j hj s => by rw [shortByte, hentry j hj, hv]

/-- **A range query goes over the bytes of the range.** -/
theorem Pieceable.rangeWalk_eq (h : Pieceable onMapped onGap stopped)
    (hs : stopped s = false) : m.rangeWalk onMapped onGap stopped addr size s =
      (runBytes (m.byteOf onMapped onGap) addr size s).2 := by
  have hgood : ∀ v s, stopped s = false → (m.byteOf onMapped onGap v s).1 = false →
      stopped (m.byteOf onMapped onGap v s).2 = false := by
    intro v s hs hgo
    rw [byteOf] at hgo ⊢
    split at hgo
    · exact (h.mapped true).go _ _ _ _ hs hgo
    · exact h.gap.go _ _ _ _ hs hgo
    · exact h.shortByte_go hs hgo
  refine memoryOperationBreak_eq hgood (fun v n s hn hin hs => ?_) hs
  have hentry : ∀ j < n, m.getEntry true (v + j) = m.getEntry true v :=
    fun j hj => getEntry_inside hin hj
  rw [breakStep]
  cases hv : m.getEntry true v with
  | mapped =>
    refine ((h.mapped true).eq_runBytes hn hin hs).trans (runBytes_congr (fun j hj s => ?_) s)
    rw [byteOf, hentry j hj, hv]
    rfl
  | reserved =>
    refine (h.gap.eq_runBytes hn hin hs).trans (runBytes_congr (fun j hj s => ?_) s)
    rw [byteOf, hentry j hj, hv]
    rfl
  | free =>
    have hbase : (v / 2 ^ m.usedPageBits true) <<< m.bigPageBits + v % 2 ^ m.usedPageBits true =
        v := by
      rw [Nat.shiftLeft_eq]
      exact Nat.div_add_mod' v (2 ^ m.bigPageBits)
    have hinner : m.memoryOperationBreak false v n (onMapped false) onGap onGap s =
        (runBytes (m.shortByte onMapped onGap) v n s).2 :=
      memoryOperationBreak_eq (fun _ _ hs hgo => h.shortByte_go hs hgo)
        (fun _ _ _ hn hin hs => h.short_piece hn hin hs) hs
    have hbytes : runBytes (m.byteOf onMapped onGap) v n s =
        runBytes (m.shortByte onMapped onGap) v n s := by
      refine runBytes_congr (fun j hj s => ?_) s
      rw [byteOf, hentry j hj, hv]
    simp only [hbase, hinner, hbytes]
    rw [← h.short_stopped hs]

/-- The device address behind an address, where the walkers find the address mapped. -/
def deviceOf (m : MemoryManager) (v : Nat) : Option Nat :=
  match m.getEntry true v with
  | .mapped => some (m.devAddr true (v / m.bigPageSize) (v % m.bigPageSize))
  | .reserved => none
  | .free => match m.getEntry false v with
      | .mapped => some (m.devAddr false (v / pageSize) (v % pageSize))
      | _ => none

theorem byteOf_eq {f : Option Nat → Nat → σ → Bool × σ} (hmapped : ∀ big, m.getEntry big v = .mapped →
      onMapped big (v / 2 ^ m.usedPageBits big) (v % 2 ^ m.usedPageBits big) 1 s =
        f (some (m.devAddr big (v / 2 ^ m.usedPageBits big) (v % 2 ^ m.usedPageBits big))) v s)
    (hgap : ∀ page off, onGap page off 1 s = f none v s) :
    m.byteOf onMapped onGap v s = f (m.deviceOf v) v s := by
  rw [byteOf, deviceOf]
  cases hbig : m.getEntry true v with
  | mapped => exact hmapped true hbig
  | reserved => exact hgap _ _
  | free =>
    rw [shortByte]
    cases hsmall : m.getEntry false v with
    | mapped => exact hmapped false hsmall
    | reserved => exact hgap _ _
    | free => exact hgap _ _

end Walks

/-! ## 4. `GetSubmappedRange` -/

/-- The handlers of `GetSubmappedRange`. -/
def extendHandler (m : MemoryManager) (big : Bool) : BreakHandler Segments :=
  fun pageIndex offset copyAmount s =>
    (false, s.extendSize (pageIndex <<< m.usedPageBits big + offset) (m.devAddr big pageIndex offset)
      copyAmount)

def splitHandler : BreakHandler Segments := fun _ _ _ s => (false, s.split)

theorem getSubmappedRange_eq : m.getSubmappedRange addr size = (m.rangeWalk m.extendHandler
    splitHandler (fun _ => false) addr size ⟨[], none, none⟩).split.result := rfl

variable {s : Segments}

theorem Segments.split_of_none (h : s.lastSegment = none) : s.split = s := by
  rw [split, h]

theorem Segments.split_result (s : Segments) :
    s.split.result = s.result ++ s.lastSegment.toList ∧ s.split.lastSegment = none := by
  rw [split]
  cases hlast : s.lastSegment with
  | none => simp [hlast]
  | some segment => simp

theorem Segments.extendSize_add (s : Segments) (g g' a n k : Nat) :
    (s.extendSize g a n).extendSize g' (a + n) k = s.extendSize g a (n + k) := by
  have hleave : leaves (some (a + n)) (a + n) = false := by simp [leaves]
  obtain ⟨s1, hs1⟩ : ∃ s1 : Segments, (if leaves s.oldPageAddr a then s.split else s) = s1 := ⟨_, rfl⟩
  simp only [extendSize, hs1]
  cases s1.lastSegment with
  | none => simp [hleave, Nat.add_assoc]
  | some segment => simp [hleave, Nat.add_assoc]

theorem submapped_pieceable : Pieceable m.extendHandler splitHandler (fun _ => false) where
  mapped big := by
    refine ⟨fun page off n k s _ _ => ?_, fun _ _ _ _ hs _ => hs⟩
    simp only [extendHandler, Bool.false_eq_true, if_false]
    split
    · rename_i hk
      rw [hk, Nat.add_zero]
    · rw [devAddr_add, Segments.extendSize_add]
  gap := by
    refine ⟨fun page off n k s _ _ => ?_, fun _ _ _ _ hs _ => hs⟩
    simp [splitHandler, Segments.split_of_none (Segments.split_result s).2]
  short_stop _ _ _ _ _ hstop := hstop
  gap_stop _ _ _ _ _ hstop := hstop

/-- The segments after some bytes, and where the last one goes on. -/
structure SegmentsOf (D : Nat → Option Nat) (addr i : Nat) (s : Segments) : Prop where
  runs : CountingRuns D addr (addr + i) (s.result ++ s.lastSegment.toList)
  last : ∀ a l, s.lastSegment = some (a, l) →
    a + l = addr + i ∧ ∃ b, D a = some b ∧ s.oldPageAddr = some (b + l)
  ended : s.lastSegment = none → ∀ r ∈ s.result, r.1 + r.2 ≠ addr + i

variable {D : Nat → Option Nat}

theorem SegmentsOf.gap (h : SegmentsOf D addr i s)
    (hD : D (addr + i) = none) : SegmentsOf D addr (i + 1) s.split := by
  obtain ⟨hres, hlast⟩ := s.split_result
  refine ⟨?_, by simp [hlast], fun _ r hr hend => ?_⟩
  · rw [hres, hlast, toList_none, append_nil]
    exact h.runs.skip hD
  · rw [hres] at hr
    have := (h.runs.inside r hr).2.2
    omega

theorem SegmentsOf.begin {a : Nat}
    (h : CountingRuns D addr (addr + i) s.result) (hD : D (addr + i) = some a)
    (hnew : ∀ r ∈ s.result, r.1 + r.2 = addr + i → ∀ b, D r.1 = some b → a ≠ b + r.2) :
    SegmentsOf D addr (i + 1)
      { s with oldPageAddr := some (a + 1), lastSegment := some (addr + i, 1) } := by
  refine ⟨h.start (Nat.le_add_right _ _) hD hnew, fun x l hx => ?_, fun hx => by simp at hx⟩
  obtain ⟨rfl, rfl⟩ := Prod.mk.inj (some.inj hx)
  exact ⟨rfl, a, hD, rfl⟩

/-- A byte with memory extends the segment, or begins one. -/
theorem SegmentsOf.byte {a : Nat} (h : SegmentsOf D addr i s)
    (hD : D (addr + i) = some a) : SegmentsOf D addr (i + 1) (s.extendSize (addr + i) a 1) := by
  cases hlast : s.lastSegment with
  | none =>
    have hsplit : s.split = s := Segments.split_of_none hlast
    have hruns : CountingRuns D addr (addr + i) s.result := by
      simpa [hlast] using h.runs
    have hext : s.extendSize (addr + i) a 1 =
        { s with oldPageAddr := some (a + 1), lastSegment := some (addr + i, 1) } := by
      simp [Segments.extendSize, hsplit, hlast]
    rw [hext]
    exact .begin hruns hD fun r hr hend => absurd hend (h.ended hlast r hr)
  | some segment =>
    obtain ⟨x, l⟩ := segment
    obtain ⟨hend, b, hb, hold⟩ := h.last x l hlast
    have hruns := h.runs
    rw [hlast, toList_some] at hruns
    by_cases hab : b + l = a
    · have hext : s.extendSize (addr + i) a 1 =
          { s with oldPageAddr := some (a + 1), lastSegment := some (x, l + 1) } := by
        simp [Segments.extendSize, hlast, hold, leaves, hab]
      rw [hext]
      refine ⟨hruns.extend hend hb (hab ▸ hD), fun y k hy => ?_, fun hy => by simp at hy⟩
      obtain ⟨rfl, rfl⟩ := Prod.mk.inj (some.inj hy)
      exact ⟨by omega, b, hb, by rw [← hab, Nat.add_assoc]⟩
    · have hext : s.extendSize (addr + i) a 1 =
          { s.split with oldPageAddr := some (a + 1), lastSegment := some (addr + i, 1) } := by
        simp [Segments.extendSize, hold, leaves, hab, Segments.split_result]
      have hres : s.split.result = s.result ++ [(x, l)] := by
        rw [s.split_result.1, hlast, toList_some]
      rw [hext]
      refine .begin (hres ▸ hruns) hD fun r hr hrend b' hb' => ?_
      rw [hres] at hr
      rcases mem_append.mp hr with hr | hr
      · have hord := (pairwise_append.mp hruns.ordered).2.2 r hr (x, l) (mem_singleton_self _)
        have hpos := hruns.inside (x, l) (mem_append_right _ (mem_singleton_self _))
        omega
      · rw [mem_singleton.mp hr] at hb' ⊢
        obtain rfl : b = b' := some.inj (hb.symm.trans hb')
        exact fun heq => hab heq.symm

/-- **`GetSubmappedRange` yields the longest runs of mapped addresses along which the device
address counts up.** -/
theorem getSubmappedRange_runs (m : MemoryManager) (addr size : Nat) :
    CountingRuns m.deviceOf addr (addr + size) (m.getSubmappedRange addr size) := by
  have hbyte : ∀ v s, m.byteOf m.extendHandler splitHandler v s = (fun D v s => (false,
      match D with
      | none => Segments.split s
      | some a => Segments.extendSize s v a 1)) (m.deviceOf v) v s := by
    intro v s
    refine byteOf_eq (f := fun D v s => (false, match D with
      | none => Segments.split s
      | some a => Segments.extendSize s v a 1)) (fun big _ => ?_) fun _ _ => ?_
    · simp only [extendHandler, Nat.shiftLeft_eq, Nat.div_add_mod']
    · rfl
  suffices hrun : ∀ n, (runBytes (m.byteOf m.extendHandler splitHandler) addr n
      ⟨[], none, none⟩).1 = false ∧ SegmentsOf m.deviceOf addr n
        (runBytes (m.byteOf m.extendHandler splitHandler) addr n ⟨[], none, none⟩).2 by
    rw [getSubmappedRange_eq, submapped_pieceable.rangeWalk_eq rfl, (Segments.split_result _).1]
    exact (hrun size).2.runs
  intro n
  induction n with
  | zero => exact ⟨rfl, .nil, by simp [runBytes], by simp [runBytes]⟩
  | succ n ih =>
    obtain ⟨hgo, hseg⟩ := ih
    rw [runBytes_add, hgo, if_neg (by simp), runBytes, hbyte, runBytes]
    cases hD : m.deviceOf (addr + n) with
    | none => exact ⟨rfl, hseg.gap hD⟩
    | some a => exact ⟨rfl, hseg.byte hD⟩

/-! ## 5. `IsContinuousRange` and `MaxContinuousRange` -/

section Follow

variable {σ : Type} {D : Nat → Option Nat} {f : Nat → σ → Bool × σ} {old : σ → Option Nat} {s : σ}

/-- **A step that follows the device addresses**: it goes on where the address is mapped and the
expected one, and expects the next one then. -/
structure Follows (D : Nat → Option Nat) (f : Nat → σ → Bool × σ) (old : σ → Option Nat) :
    Prop where
  go : ∀ v s, (f v s).1 = false → ∃ a, D v = some a ∧ leaves (old s) a = false ∧
    old (f v s).2 = some (a + 1)
  stop : ∀ v s, (f v s).1 = true → ∀ a, D v = some a → leaves (old s) a = true

/-- What is expected after some bytes that followed. -/
def Expects (D : Nat → Option Nat) (v n : Nat) (o : Option Nat) : Prop :=
  (n = 0 ∧ o = none) ∨ ∃ a, (∀ j < n, D (v + j) = some (a + j)) ∧ o = some (a + n)

theorem leaves_some {a b : Nat} : leaves (some a) b = decide (a ≠ b) := by simp [leaves]

theorem Follows.expects (h : Follows D f old) (hs : old s = none) :
    (runBytes f v n s).1 = false → Expects D v n (old (runBytes f v n s).2) := by
  induction n with
  | zero => exact fun _ => .inl ⟨rfl, hs⟩
  | succ n ih =>
    intro hgo
    rw [runBytes_add] at hgo ⊢
    by_cases hstop : (runBytes f v n s).1 = true
    · simp [hstop] at hgo
    · rw [if_neg hstop, runBytes] at hgo ⊢
      have hstep : (f (v + n) (runBytes f v n s).2).1 = false := by
        by_contra hneg
        rw [if_pos (by simpa using hneg)] at hgo
        simp at hgo
      rw [if_neg (by simp [hstep]), runBytes]
      obtain ⟨a, hD, hleave, hold⟩ := h.go _ _ hstep
      right
      rcases ih (by simpa using hstop) with ⟨rfl, -⟩ | ⟨b, hb, hprev⟩
      · refine ⟨a, fun j hj => ?_, hold⟩
        obtain rfl : j = 0 := Nat.lt_one_iff.mp hj
        exact hD
      · rw [hprev, leaves_some] at hleave
        obtain rfl : b + n = a := by simpa using hleave
        refine ⟨b, fun j hj => ?_, by rw [hold, Nat.add_assoc]⟩
        rcases Nat.lt_succ_iff_lt_or_eq.mp hj with hj | rfl
        · exact hb j hj
        · exact hD

/-- A run that stops does so at a byte that the bytes before it do not lead to. -/
theorem Follows.stops (h : Follows D f old) (hs : old s = none)
    (hstop : (runBytes f v n s).1 = true) : ∃ c < n, (runBytes f v c s).1 = false ∧
      (runBytes f v n s).2 = (f (v + c) (runBytes f v c s).2).2 ∧
      (f (v + c) (runBytes f v c s).2).1 = true ∧
      ∀ a, (∀ j < c, D (v + j) = some (a + j)) → D (v + c) ≠ some (a + c) := by
  induction n with
  | zero => simp [runBytes] at hstop
  | succ n ih =>
    rw [runBytes_add] at hstop ⊢
    by_cases hprev : (runBytes f v n s).1 = true
    · obtain ⟨c, hc, hgo, heq, hrest⟩ := ih hprev
      rw [if_pos hprev]
      exact ⟨c, Nat.lt_succ_of_lt hc, hgo, heq, hrest⟩
    · rw [if_neg hprev, runBytes] at hstop ⊢
      have hstep : (f (v + n) (runBytes f v n s).2).1 = true := by
        by_contra hneg
        rw [if_neg hneg, runBytes] at hstop
        simp at hstop
      rw [if_pos hstep]
      refine ⟨n, Nat.lt_succ_self n, by simpa using hprev, rfl, hstep, fun a ha hD => ?_⟩
      have hleave := h.stop _ _ hstep _ hD
      rcases h.expects hs (by simpa using hprev) with ⟨-, hnone⟩ | ⟨b, hb, hsome⟩
      · rw [hnone] at hleave
        simp [leaves] at hleave
      · rw [hsome, leaves_some] at hleave
        rcases Nat.eq_zero_or_pos n with rfl | hn
        · have hexp := h.expects (v := v) (n := 0) hs rfl
          rw [runBytes, hs] at hsome
          simp at hsome
        · have hab : b = a := by
            have := (hb 0 hn).symm.trans (ha 0 hn)
            simpa using this
          simp [hab] at hleave

end Follow

/-- The handlers of `IsContinuousRange`. -/
def continuousHandler (m : MemoryManager) (big : Bool) : BreakHandler (Option Nat × Bool) :=
  fun pageIndex offset copyAmount s =>
    let devAddrBase := m.devAddr big pageIndex offset
    if leaves s.1 devAddrBase then (true, s.1, false)
    else (false, some (devAddrBase + copyAmount), s.2)

def continuousFail : BreakHandler (Option Nat × Bool) := fun _ _ _ s => (true, s.1, false)

theorem isContinuousRange_eq : m.isContinuousRange addr size =
    (m.rangeWalk m.continuousHandler continuousFail (fun s => !s.2) addr size (none, true)).2 := rfl

theorem continuous_pieceable : Pieceable m.continuousHandler continuousFail (fun s => !s.2) where
  mapped big := by
    refine ⟨fun page off n k s _ _ => ?_, fun page off n s hs hgo => ?_⟩
    · simp only [continuousHandler]
      by_cases hleave : leaves s.1 (m.devAddr big page off) = true
      · simp [hleave]
      · by_cases hk : k = 0
        · simp [hleave, hk]
        · have hnext : leaves (some (m.devAddr big page off + n)) (m.devAddr big page off + n) =
              false := by simp [leaves]
          simp [hleave, hk, devAddr_add, hnext, Nat.add_assoc]
    · simp only [continuousHandler] at hgo ⊢
      split at hgo
      · simp at hgo
      · rename_i hleave
        rw [if_neg hleave]
        exact hs
  gap := ⟨fun _ _ _ _ _ _ _ => rfl, fun _ _ _ _ _ hgo => by simp [continuousFail] at hgo⟩
  short_stop page off n s hs hstop := by
    simp only [continuousHandler] at hstop ⊢
    split at hstop
    · rename_i hleave
      rw [if_pos hleave]
      rfl
    · simp at hstop
  gap_stop _ _ _ _ _ _ := rfl

theorem continuous_byte (v : Nat) (s : Option Nat × Bool) :
    m.byteOf m.continuousHandler continuousFail v s =
      match m.deviceOf v with
      | none => (true, s.1, false)
      | some a => if leaves s.1 a then (true, s.1, false) else (false, some (a + 1), s.2) := by
  refine byteOf_eq (f := fun D _ s => match D with
    | none => (true, s.1, false)
    | some a => if leaves s.1 a then (true, s.1, false) else (false, some (a + 1), s.2))
    (fun big _ => ?_) fun _ _ => ?_
  · rfl
  · rfl

theorem continuous_follows : Follows m.deviceOf (m.byteOf m.continuousHandler continuousFail) Prod.fst where
  go v s hgo := by
    rw [continuous_byte] at hgo ⊢
    cases hD : m.deviceOf v with
    | none => simp [hD] at hgo
    | some a =>
      simp only [hD] at hgo ⊢
      by_cases hleave : leaves s.1 a = true
      · simp [hleave] at hgo
      · exact ⟨a, rfl, by simpa using hleave, by rw [if_neg hleave]⟩
  stop v s hstop a hD := by
    rw [continuous_byte, hD] at hstop
    by_contra hleave
    simp [hleave] at hstop

/-- **`IsContinuousRange` says whether the device address counts up along the range.** -/
theorem isContinuousRange_iff (m : MemoryManager) (addr size : Nat) : m.isContinuousRange addr size = true ↔
      ∃ a, ∀ j < size, m.deviceOf (addr + j) = some (a + j) := by
  rw [isContinuousRange_eq, continuous_pieceable.rangeWalk_eq rfl]
  have hgood : ∀ v s, s.2 = true → (m.byteOf m.continuousHandler continuousFail v s).1 = false →
      (m.byteOf m.continuousHandler continuousFail v s).2.2 = true := by
    intro v s hs hgo
    rw [continuous_byte] at hgo ⊢
    cases hD : m.deviceOf v with
    | none => simp [hD] at hgo
    | some a =>
      simp only [hD] at hgo ⊢
      split at hgo
      · simp at hgo
      · rename_i hleave
        simpa [hleave] using hs
  by_cases hstop : (runBytes (m.byteOf m.continuousHandler continuousFail) addr size (none, true)).1 = true
  · obtain ⟨c, hc, -, heq, hfail, hne⟩ := continuous_follows.stops rfl hstop
    refine iff_of_false ?_ ?_
    · rw [heq]
      rw [continuous_byte] at hfail ⊢
      cases hD : m.deviceOf (addr + c) with
      | none => simp
      | some a =>
        simp only [hD] at hfail ⊢
        split at hfail
        · rename_i hleave
          simp [hleave]
        · simp at hfail
    · rintro ⟨a, ha⟩
      exact hne a (fun j hj => ha j (by omega)) (ha c hc)
  · have hgo := Bool.eq_false_iff.mpr hstop
    have hkept : (runBytes (m.byteOf m.continuousHandler continuousFail) addr size
        (none, true)).2.2 = true := runBytes_keep hgood rfl hgo
    refine iff_of_true hkept ?_
    rcases continuous_follows.expects rfl hgo with ⟨rfl, -⟩ | ⟨a, ha, -⟩
    · exact ⟨0, fun j hj => absurd hj (Nat.not_lt_zero j)⟩
    · exact ⟨a, ha⟩

/-- The handlers of `MaxContinuousRange`. -/
def maxHandler (m : MemoryManager) (big : Bool) : BreakHandler RangeSoFar :=
  fun pageIndex offset copyAmount s =>
    let devAddrBase := m.devAddr big pageIndex offset
    if leaves s.oldPageAddr devAddrBase then (true, { s with result := s.result || !big })
    else (false, { s with rangeSoFar := s.rangeSoFar + copyAmount
                          oldPageAddr := some (devAddrBase + copyAmount) })

def maxFail : BreakHandler RangeSoFar := fun _ _ _ s => (true, { s with result := true })

theorem maxContinuousRange_eq : m.maxContinuousRange addr size =
    (m.rangeWalk m.maxHandler maxFail RangeSoFar.result addr size ⟨none, 0, false⟩).rangeSoFar := by
  have hshort : m.maxHandler false = fun pageIndex offset copyAmount s =>
      if leaves s.oldPageAddr (m.devAddr false pageIndex offset) then (true, { s with result := true })
      else (false, { s with
        rangeSoFar := s.rangeSoFar + copyAmount
        oldPageAddr := some (m.devAddr false pageIndex offset + copyAmount) }) := by
    funext pageIndex offset copyAmount s
    simp [maxHandler]
  have hbig : m.maxHandler true = fun pageIndex offset copyAmount s =>
      if leaves s.oldPageAddr (m.devAddr true pageIndex offset) then (true, s)
      else (false, { s with
        rangeSoFar := s.rangeSoFar + copyAmount
        oldPageAddr := some (m.devAddr true pageIndex offset + copyAmount) }) := by
    funext pageIndex offset copyAmount s
    simp [maxHandler]
  rw [rangeWalk, hshort, hbig]
  rfl

theorem max_pieceable : Pieceable m.maxHandler maxFail RangeSoFar.result where
  mapped big := by
    refine ⟨fun page off n k s _ _ => ?_, fun page off n s hs hgo => ?_⟩
    · simp only [maxHandler]
      by_cases hleave : leaves s.oldPageAddr (m.devAddr big page off) = true
      · simp [hleave]
      · by_cases hk : k = 0
        · simp [hleave, hk]
        · have hnext : leaves (some (m.devAddr big page off + n)) (m.devAddr big page off + n) =
              false := by simp [leaves]
          simp [hleave, hk, devAddr_add, hnext, Nat.add_assoc]
    · simp only [maxHandler] at hgo ⊢
      split at hgo
      · simp at hgo
      · rename_i hleave
        rw [if_neg hleave]
        exact hs
  gap := ⟨fun _ _ _ _ _ _ _ => rfl, fun _ _ _ _ _ hgo => by simp [maxFail] at hgo⟩
  short_stop page off n s hs hstop := by
    simp only [maxHandler] at hstop ⊢
    split at hstop
    · rename_i hleave
      simp [hleave]
    · simp at hstop
  gap_stop _ _ _ _ _ _ := rfl

/-- A byte of `MaxContinuousRange` that goes on adds one to the range, and one that stops leaves
it. -/
theorem max_follows : Follows m.deviceOf (m.byteOf m.maxHandler maxFail) RangeSoFar.oldPageAddr ∧
    ∀ v s, (m.byteOf m.maxHandler maxFail v s).2.rangeSoFar = s.rangeSoFar +
      if (m.byteOf m.maxHandler maxFail v s).1 then 0 else 1 := by
  have hbyte : ∀ v s, ∃ result, m.byteOf m.maxHandler maxFail v s = match m.deviceOf v with
      | none => (true, { s with result := result })
      | some a => if leaves s.oldPageAddr a then (true, { s with result := result })
          else (false, { s with rangeSoFar := s.rangeSoFar + 1, oldPageAddr := some (a + 1) }) := by
    intro v s
    rw [byteOf, deviceOf]
    cases hbig : m.getEntry true v with
    | mapped => exact ⟨s.result || !true, rfl⟩
    | reserved => exact ⟨true, rfl⟩
    | free =>
      rw [shortByte]
      cases hsmall : m.getEntry false v with
      | mapped => exact ⟨s.result || !false, rfl⟩
      | reserved => exact ⟨true, rfl⟩
      | free => exact ⟨true, rfl⟩
  refine ⟨⟨fun v s hgo => ?_, fun v s hstop a hD => ?_⟩, fun v s => ?_⟩
  · obtain ⟨result, heq⟩ := hbyte v s
    rw [heq] at hgo ⊢
    cases hD : m.deviceOf v with
    | none => simp [hD] at hgo
    | some a =>
      simp only [hD] at hgo ⊢
      by_cases hleave : leaves s.oldPageAddr a = true
      · simp [hleave] at hgo
      · exact ⟨a, rfl, by simpa using hleave, by rw [if_neg hleave]⟩
  · obtain ⟨result, heq⟩ := hbyte v s
    rw [heq, hD] at hstop
    by_contra hleave
    simp [hleave] at hstop
  · obtain ⟨result, heq⟩ := hbyte v s
    rw [heq]
    cases m.deviceOf v with
    | none => rfl
    | some a =>
      dsimp only
      split <;> simp

/-- **`MaxContinuousRange` is the length of the longest start of the range along which the device
address counts up.** -/
theorem maxContinuousRange_spec (m : MemoryManager) (addr size : Nat) :
    m.maxContinuousRange addr size ≤ size ∧
      (∃ a, ∀ j < m.maxContinuousRange addr size, m.deviceOf (addr + j) = some (a + j)) ∧
      (m.maxContinuousRange addr size < size → ∀ a,
        (∀ j < m.maxContinuousRange addr size, m.deviceOf (addr + j) = some (a + j)) →
        m.deviceOf (addr + m.maxContinuousRange addr size) ≠
          some (a + m.maxContinuousRange addr size)) := by
  obtain ⟨hfollows, hcount⟩ := max_follows (m := m)
  have hlength : ∀ n, (runBytes (m.byteOf m.maxHandler maxFail) addr n ⟨none, 0, false⟩).1 = false →
      (runBytes (m.byteOf m.maxHandler maxFail) addr n ⟨none, 0, false⟩).2.rangeSoFar = n := by
    intro n
    induction n with
    | zero => exact fun _ => rfl
    | succ n ih =>
      intro hgo
      rw [runBytes_add] at hgo ⊢
      by_cases hprev : (runBytes (m.byteOf m.maxHandler maxFail) addr n ⟨none, 0, false⟩).1 = true
      · simp [hprev] at hgo
      · rw [if_neg hprev, runBytes] at hgo ⊢
        split at hgo
        · simp at hgo
        · rename_i hstep
          rw [if_neg hstep, runBytes]
          rw [hcount, if_neg hstep, ih (by simpa using hprev)]
  have hcounts : ∀ n, (runBytes (m.byteOf m.maxHandler maxFail) addr n
      ⟨none, 0, false⟩).1 = false → ∃ a, ∀ j < n, m.deviceOf (addr + j) = some (a + j) := by
    intro n hgo
    rcases hfollows.expects rfl hgo with ⟨rfl, -⟩ | ⟨a, ha, -⟩
    · exact ⟨0, fun j hj => absurd hj (Nat.not_lt_zero j)⟩
    · exact ⟨a, ha⟩
  rw [maxContinuousRange_eq, max_pieceable.rangeWalk_eq rfl]
  by_cases hstop : (runBytes (m.byteOf m.maxHandler maxFail) addr size ⟨none, 0, false⟩).1 = true
  · obtain ⟨c, hc, hgo, heq, hfail, hne⟩ := hfollows.stops rfl hstop
    have hrange : (runBytes (m.byteOf m.maxHandler maxFail) addr size
        ⟨none, 0, false⟩).2.rangeSoFar = c := by
      rw [heq, hcount, if_pos hfail, hlength c hgo]
      rfl
    rw [hrange]
    exact ⟨hc.le, hcounts c hgo, fun _ => hne⟩
  · have hgo := Bool.eq_false_iff.mpr hstop
    rw [hlength size hgo]
    exact ⟨le_rfl, hcounts size hgo, fun hlt => absurd hlt (Nat.lt_irrefl _)⟩

/-- **The range queries agree.** The segments are the longest runs of mapped addresses along which
the device address counts up; `IsContinuousRange` says that there is one and it is the range, or
that the range is empty; `MaxContinuousRange` is the length of the first if it starts with the
range, and 0 otherwise. -/
theorem range_queries_agree (m : MemoryManager) (addr size : Nat) :
    CountingRuns m.deviceOf addr (addr + size) (m.getSubmappedRange addr size) ∧
    (m.isContinuousRange addr size = true ↔ size = 0 ∨ m.getSubmappedRange addr size = [(addr, size)]) ∧
    m.maxContinuousRange addr size = match m.getSubmappedRange addr size with
      | [] => 0
      | (a, l) :: _ => if a = addr then l else 0 := by
  have hruns := m.getSubmappedRange_runs addr size
  refine ⟨hruns, ?_, ?_⟩
  · rw [isContinuousRange_iff]
    rcases Nat.eq_zero_or_pos size with rfl | hsize
    · exact iff_of_true ⟨0, fun j hj => absurd hj (Nat.not_lt_zero j)⟩ (.inl rfl)
    · have hone := hruns.eq_singleton_iff (Nat.lt_add_of_pos_right hsize)
      rw [Nat.add_sub_cancel_left] at hone
      rw [← hone]
      exact (or_iff_right (Nat.ne_of_gt hsize)).symm
  · obtain ⟨hle, ⟨a, ha⟩, hmax⟩ := m.maxContinuousRange_spec addr size
    -- a byte that is mapped is in a segment, and the first segment starts no later
    have hpos : 0 < m.maxContinuousRange addr size → InRuns (m.getSubmappedRange addr size) addr := by
      intro hlt
      refine (hruns.covers addr le_rfl (by omega)).mp ?_
      have := ha 0 hlt
      rw [Nat.add_zero] at this
      simp [this]
    cases hlist : m.getSubmappedRange addr size with
    | nil =>
      by_contra hne
      have hin := hpos (Nat.pos_of_ne_zero hne)
      rw [hlist] at hin
      exact inRuns_nil hin
    | cons r rest =>
      obtain ⟨b, l⟩ := r
      rw [hlist] at hruns hpos
      have hin := hruns.inside (b, l) mem_cons_self
      dsimp only at hin ⊢
      by_cases hb : b = addr
      · subst hb
        rw [if_pos rfl]
        obtain ⟨c, hc⟩ := hruns.counts (b, l) mem_cons_self
        rcases Nat.lt_trichotomy (m.maxContinuousRange b size) l with hlt | heq | hgt
        · exfalso
          refine hmax (by omega) c (fun j hj => hc j (by omega)) (hc _ hlt)
        · exact heq
        · exfalso
          have hca : c = a := by
            have := (hc 0 hin.2.1).symm.trans (ha 0 (by omega))
            simpa using this
          exact hruns.stops (hc 0 hin.2.1) (by omega) (hca ▸ ha l hgt)
      · rw [if_neg hb]
        by_contra hne
        have hfirst := hruns.first_le (hpos (Nat.pos_of_ne_zero hne))
        omega

/-- An empty range is continuous, and there is no segment in it. -/
theorem empty_range_continuous :
    ¬∀ (m : MemoryManager) (addr size : Nat), (m.isContinuousRange addr size = true ↔
      m.getSubmappedRange addr size = [(addr, size)]) := by
  intro h
  have hiff := h (.init 40 16 (by decide) (by decide)) 0 0
  exact absurd (hiff.mp (by decide)) (by decide)

end Yuzu.VideoCore.MemoryManager
