/-
  File:      Yuzu/FileSys/AlignmentMatchingStorage.lean
  Subject:   AlignmentMatchingStorageImpl
             (core/file_sys/fssystem/fssystem_alignment_matching_storage_impl.cpp): reads and writes of
             any range over a storage that only takes aligned ones.

  A call covers its range in three parts: a core of whole blocks, a head in front of it and the blocks
  behind it one by one. A read may take the core from the block that its range begins in, into a place
  of the buffer that is aligned, and then move it to where it belongs.

  Places in the buffers are counted from their starts. An access outside a buffer, like an assertion
  that fails, leaves no result. Offsets and sizes are natural numbers.
-/
import Mathlib.Data.Nat.Bitwise
import Yuzu.Common.Alignment
import Yuzu.Lib.Assert
import Yuzu.FileSys.VirtualFile

namespace Yuzu.FileSys

open Option

open Yuzu.Common (alignDown alignUp alignDown_le dvd_alignDown dvd_alignUp le_alignUp)

/-! ## 1. The code -/

namespace AlignmentMatchingStorageImpl

/-- `GetRoundDownDifference`. -/
def getRoundDownDifference (x align : Nat) : Nat := x - alignDown x align

/-- `GetRoundUpDifference`. -/
def getRoundUpDifference (x align : Nat) : Nat := alignUp x align - x

/-- `Common::IsAligned`. -/
def isAligned (value alignment : Nat) : Bool := value &&& (alignment - 1) == 0

/-- The extents of a call, with the place of `aligned_core_buffer` in the buffer. -/
structure Extents where
  coreBuffer : Nat
  coreOffset : Nat
  coreSize : Nat
  bufferGap : Nat
  offsetGap : Nat
  coveredOffset : Nat

/-- The extents of a read into a buffer at `address`. -/
def readExtents (dataAlignment bufferAlignment address offset size : Nat) : Extents :=
  let offsetRoundUpDifference := getRoundUpDifference offset dataAlignment
  if isAligned (address + offsetRoundUpDifference) bufferAlignment then
    let coreOffset := alignUp offset dataAlignment
    let coreSize :=
      if size < offsetRoundUpDifference then 0
      else alignDown (size - offsetRoundUpDifference) dataAlignment
    ⟨offsetRoundUpDifference, coreOffset, coreSize, 0, 0, if 0 < coreSize then coreOffset else offset⟩
  else
    let bufferRoundUpDifference := getRoundUpDifference address bufferAlignment
    let coreSize :=
      if size < bufferRoundUpDifference then 0
      else alignDown (size - bufferRoundUpDifference) dataAlignment
    ⟨bufferRoundUpDifference, alignDown offset dataAlignment, coreSize, bufferRoundUpDifference,
      getRoundDownDifference offset dataAlignment, offset⟩

/-- The extents of a write: without alignment of the buffer there is no core. -/
def writeExtents (dataAlignment bufferAlignment address offset size : Nat) : Extents :=
  let offsetRoundUpDifference := getRoundUpDifference offset dataAlignment
  if isAligned (address + offsetRoundUpDifference) bufferAlignment then
    let coreOffset := alignUp offset dataAlignment
    let coreSize :=
      if size < offsetRoundUpDifference then 0
      else alignDown (size - offsetRoundUpDifference) dataAlignment
    ⟨offsetRoundUpDifference, coreOffset, coreSize, 0, 0, if 0 < coreSize then coreOffset else offset⟩
  else ⟨0, alignDown offset dataAlignment, 0, 0, 0, offset⟩

/-- What a read has: the buffers, and its accesses of the base, each with offset and size. -/
structure Reading where
  buffer : Memory
  workBuf : Memory
  accesses : List (Nat × Nat)

/-- `base_storage->Read` into the buffer, of `size` bytes, at a place. -/
def Reading.readBuffer (s : Reading) (base : VirtualFile) (bufferSize pos size offset : Nat) :
    Option Reading := do
  assert (pos + size ≤ bufferSize)
  some { s with
    buffer := behind s.buffer pos (base.read offset size fun k => s.buffer (pos + k))
    accesses := s.accesses ++ [(offset, size)] }

/-- `base_storage->Read` into the work buffer. -/
def Reading.readWork (s : Reading) (base : VirtualFile) (workBufSize size offset : Nat) :
    Option Reading := do
  assert (size ≤ workBufSize)
  some { s with
    workBuf := base.read offset size s.workBuf
    accesses := s.accesses ++ [(offset, size)] }

/-- `std::memcpy` from the work buffer into the buffer. -/
def Reading.copyOut (s : Reading) (bufferSize workBufSize pos workPos size : Nat) : Option Reading := do
  assert (pos + size ≤ bufferSize)
  assert (workPos + size ≤ workBufSize)
  some { s with buffer := memcpyAt s.buffer pos (fun k => s.workBuf (workPos + k)) size }

/-- The core portion of a read, and what is left of its size. -/
def readCore (base : VirtualFile) (x : Extents) (size : Nat) (s : Reading) : Option (Reading × Nat) :=
  if 0 < x.coreSize then do
    let s ← s.readBuffer base size x.coreBuffer x.coreSize x.coreOffset
    if x.offsetGap ≠ 0 ∨ x.bufferGap ≠ 0 then do
      assert (x.offsetGap ≤ x.coreSize)
      assert (x.bufferGap ≤ x.coreBuffer)
      assert (x.coreBuffer + x.coreSize ≤ size)
      let moved : Memory := fun k => s.buffer (x.coreBuffer + x.offsetGap + k)
      let buffer :=
        memcpyAt s.buffer (x.coreBuffer - x.bufferGap) moved (x.coreSize - x.offsetGap)
      some ({ s with buffer }, x.coreSize - x.offsetGap)
    else some (s, x.coreSize)
  else some (s, x.coreSize)

/-- The head portion of a read. -/
def readHead (base : VirtualFile) (dataAlignment workBufSize offset size coveredOffset : Nat)
    (s : Reading) : Option Reading :=
  if offset < coveredOffset then do
    let headOffset := alignDown offset dataAlignment
    let headSize := coveredOffset - offset
    assert (getRoundDownDifference offset dataAlignment + headSize ≤ workBufSize)
    let s ← s.readWork base workBufSize dataAlignment headOffset
    s.copyOut size workBufSize 0 (getRoundDownDifference offset dataAlignment) headSize
  else some s

/-- The tail portion of a read, of `remaining` bytes from `tailOffset` on. -/
def readTail (base : VirtualFile) (dataAlignment workBufSize offset size : Nat) :
    Nat → Nat → Nat → Reading → Option Reading
  | 0, _, remaining, s => if 0 < remaining then none else some s
  | fuel + 1, tailOffset, remaining, s =>
    if 0 < remaining then do
      let alignedTailOffset := alignDown tailOffset dataAlignment
      let curSize := min (alignedTailOffset + dataAlignment - tailOffset) remaining
      let s ← s.readWork base workBufSize dataAlignment alignedTailOffset
      assert ((tailOffset - offset) + curSize ≤ size)
      assert ((tailOffset - alignedTailOffset) + curSize ≤ dataAlignment)
      let s ← s.copyOut size workBufSize (tailOffset - offset) (tailOffset - alignedTailOffset) curSize
      readTail base dataAlignment workBufSize offset size fuel (tailOffset + curSize)
        (remaining - curSize) s
    else some s

/-- `Read`. -/
def read (base : VirtualFile) (workBufSize dataAlignment bufferAlignment address offset size : Nat)
    (s : Reading) : Option Reading := do
  assert (dataAlignment ≤ workBufSize)
  if size = 0 then some s
  else do
    let x := readExtents dataAlignment bufferAlignment address offset size
    let (s, coreSize) ← readCore base x size s
    let s ← readHead base dataAlignment workBufSize offset size x.coveredOffset s
    let tailOffset := x.coveredOffset + coreSize
    let remaining := offset + size - tailOffset
    readTail base dataAlignment workBufSize offset size remaining tailOffset remaining s

/-- What a write has: the base, the work buffer and the accesses of the base. -/
structure Writing where
  base : VirtualFile
  workBuf : Memory
  accesses : List (Nat × Nat)

/-- A block of the base is read into the work buffer, `size` bytes of it are taken from the buffer, and
it is written back. -/
def Writing.rewrite (s : Writing) (buffer : Memory)
    (workBufSize dataAlignment bufferSize blockOffset workPos pos size : Nat) : Option Writing := do
  assert (dataAlignment ≤ workBufSize)
  let workBuf := s.base.read blockOffset dataAlignment s.workBuf
  assert (workPos + size ≤ workBufSize)
  assert (pos + size ≤ bufferSize)
  let workBuf := memcpyAt workBuf workPos (fun k => buffer (pos + k)) size
  some ⟨s.base.write blockOffset dataAlignment workBuf, workBuf,
    s.accesses ++ [(blockOffset, dataAlignment), (blockOffset, dataAlignment)]⟩

/-- The core portion of a write. -/
def writeCore (buffer : Memory) (x : Extents) (size : Nat) (s : Writing) : Option Writing :=
  if 0 < x.coreSize then do
    assert (x.coreBuffer + x.coreSize ≤ size)
    some { s with
      base := s.base.write x.coreOffset x.coreSize fun k => buffer (x.coreBuffer + k)
      accesses := s.accesses ++ [(x.coreOffset, x.coreSize)] }
  else some s

/-- The head portion of a write. -/
def writeHead (buffer : Memory) (dataAlignment workBufSize offset size coveredOffset : Nat)
    (s : Writing) : Option Writing :=
  if offset < coveredOffset then do
    let headOffset := alignDown offset dataAlignment
    let headSize := coveredOffset - offset
    assert ((offset - headOffset) + headSize ≤ dataAlignment)
    s.rewrite buffer workBufSize dataAlignment size headOffset (offset - headOffset) 0 headSize
  else some s

/-- The tail portion of a write. -/
def writeTail (buffer : Memory) (dataAlignment workBufSize offset size : Nat) :
    Nat → Nat → Nat → Writing → Option Writing
  | 0, _, remaining, s => if 0 < remaining then none else some s
  | fuel + 1, tailOffset, remaining, s =>
    if 0 < remaining then do
      assert (tailOffset - offset < size)
      let alignedTailOffset := alignDown tailOffset dataAlignment
      let curSize := min (alignedTailOffset + dataAlignment - tailOffset) remaining
      let s ← s.rewrite buffer workBufSize dataAlignment size alignedTailOffset
        (getRoundDownDifference tailOffset dataAlignment) (tailOffset - offset) curSize
      writeTail buffer dataAlignment workBufSize offset size fuel (tailOffset + curSize)
        (remaining - curSize) s
    else some s

/-- `Write`. -/
def write (buffer : Memory) (workBufSize dataAlignment bufferAlignment address offset size : Nat)
    (s : Writing) : Option Writing := do
  assert (dataAlignment ≤ workBufSize)
  if size = 0 then some s
  else do
    let x := writeExtents dataAlignment bufferAlignment address offset size
    let s ← writeCore buffer x size s
    let s ← writeHead buffer dataAlignment workBufSize offset size x.coveredOffset s
    let tailOffset := x.coveredOffset + x.coreSize
    let remaining := offset + size - tailOffset
    writeTail buffer dataAlignment workBufSize offset size remaining tailOffset remaining s

/-! ## 2. The extents -/

section

variable {dataAlignment bufferAlignment address offset size o n : Nat}

theorem lt_alignDown_add (hpos : 0 < dataAlignment) : o < alignDown o dataAlignment + dataAlignment := by
  have hlt := Nat.mod_lt o hpos
  have hle := Nat.mod_le o dataAlignment
  rw [alignDown]
  omega

theorem alignUp_le_alignDown_add (hpos : 0 < dataAlignment) :
    alignUp o dataAlignment ≤ alignDown o dataAlignment + dataAlignment := by
  rw [alignUp, alignDown]
  split <;> omega

theorem block_le (hdvd : dataAlignment ∣ n) (ho : o < n) :
    alignDown o dataAlignment + dataAlignment ≤ n := by
  obtain ⟨m, rfl⟩ := hdvd
  have hdiv : o / dataAlignment < m := Nat.div_lt_of_lt_mul ho
  rw [Yuzu.Common.alignDown_eq_mul_div, ← Nat.mul_succ]
  exact Nat.mul_le_mul_left dataAlignment hdiv

/-- **What the extents of a call satisfy**: the core is made of whole blocks, it lies in the range of
the call and its bytes go where the covered part begins. -/
structure Extents.Plan (x : Extents) (dataAlignment offset size : Nat) : Prop where
  offset_le : offset ≤ x.coveredOffset
  covered_le : x.coveredOffset ≤ offset + size
  head : x.coveredOffset ≤ alignDown offset dataAlignment + dataAlignment
  core_dvd : dataAlignment ∣ x.coreOffset ∧ dataAlignment ∣ x.coreSize
  core : 0 < x.coreSize → x.coreBuffer + x.coreSize ≤ size ∧
    x.coreOffset + x.coreSize ≤ offset + size ∧ x.offsetGap ≤ x.coreSize ∧
    x.coreOffset + x.offsetGap = x.coveredOffset ∧ x.coreBuffer + offset = x.coveredOffset + x.bufferGap

theorem Extents.Plan.aligned (hpos : 0 < dataAlignment) :
    let up := getRoundUpDifference offset dataAlignment
    let coreSize := if size < up then 0 else alignDown (size - up) dataAlignment
    Extents.Plan ⟨up, alignUp offset dataAlignment, coreSize, 0, 0,
      if 0 < coreSize then alignUp offset dataAlignment else offset⟩ dataAlignment offset size := by
  intro up coreSize
  have hle : offset ≤ alignUp offset dataAlignment := le_alignUp hpos
  have hup : offset + up = alignUp offset dataAlignment := by
    show offset + (alignUp offset dataAlignment - offset) = _
    omega
  have hsize : 0 < coreSize → up + coreSize ≤ size := by
    intro h
    have hdown : alignDown (size - up) dataAlignment ≤ size - up := alignDown_le
    by_cases hlt : size < up
    · rw [show coreSize = 0 from if_pos hlt] at h
      omega
    · rw [show coreSize = _ from if_neg hlt]
      omega
  have hdvd : dataAlignment ∣ coreSize := by
    show dataAlignment ∣ if size < up then 0 else alignDown (size - up) dataAlignment
    split
    · exact Nat.dvd_zero _
    · exact dvd_alignDown
  have hhead := alignUp_le_alignDown_add (o := offset) hpos
  by_cases hcore : 0 < coreSize
  · have hin := hsize hcore
    rw [if_pos hcore]
    exact ⟨hle, by dsimp only; omega, hhead, ⟨dvd_alignUp, hdvd⟩, fun _ => by dsimp only; omega⟩
  · rw [if_neg hcore]
    exact ⟨Nat.le_refl _, Nat.le_add_right _ _, Nat.le_of_lt (lt_alignDown_add hpos),
      ⟨dvd_alignUp, hdvd⟩, fun h => absurd h hcore⟩

theorem readExtents_plan (hpos : 0 < dataAlignment) :
    (readExtents dataAlignment bufferAlignment address offset size).Plan dataAlignment offset size := by
  rw [readExtents]
  dsimp only
  split
  · exact Extents.Plan.aligned hpos
  · generalize getRoundUpDifference address bufferAlignment = gap
    have hdown : alignDown offset dataAlignment ≤ offset := alignDown_le
    have hlt : offset < alignDown offset dataAlignment + dataAlignment := lt_alignDown_add hpos
    refine ⟨Nat.le_refl _, Nat.le_add_right _ _, Nat.le_of_lt hlt, ⟨dvd_alignDown, ?_⟩, fun h => ?_⟩
    · dsimp only
      split
      · exact Nat.dvd_zero _
      · exact dvd_alignDown
    · dsimp only at h ⊢
      by_cases hgap : size < gap
      · rw [if_pos hgap] at h
        omega
      · rw [if_neg hgap] at h ⊢
        have hsize : alignDown (size - gap) dataAlignment ≤ size - gap := alignDown_le
        have hblock := Nat.le_of_dvd h (dvd_alignDown (v := size - gap) (n := dataAlignment))
        rw [getRoundDownDifference]
        omega

theorem writeExtents_plan (hpos : 0 < dataAlignment) :
    (writeExtents dataAlignment bufferAlignment address offset size).Plan dataAlignment offset size := by
  rw [writeExtents]
  dsimp only
  split
  · exact Extents.Plan.aligned hpos
  · exact ⟨Nat.le_refl _, Nat.le_add_right _ _, Nat.le_of_lt (lt_alignDown_add hpos),
      ⟨dvd_alignDown, Nat.dvd_zero _⟩, fun h => absurd h (Nat.lt_irrefl 0)⟩

theorem writeExtents_gaps : (writeExtents dataAlignment bufferAlignment address offset size).bufferGap = 0 ∧
      (writeExtents dataAlignment bufferAlignment address offset size).offsetGap = 0 := by
  rw [writeExtents]
  dsimp only
  split <;> exact ⟨rfl, rfl⟩

end

/-! ## 3. Reading -/

section

variable {base : VirtualFile} {dataAlignment bufferAlignment workBufSize address offset size lo hi : Nat}
  {before : Memory} {s : Reading} {x : Extents}

/-- **A part of the range has been read**: the buffer holds it, nothing behind the range changed, and
the accesses were aligned. -/
structure Filled (base : VirtualFile) (dataAlignment offset size : Nat) (before : Memory) (lo hi : Nat)
    (s : Reading) : Prop where
  byte : ∀ k, lo ≤ k → k < hi → s.buffer k = base.byte (offset + k)
  frame : ∀ k, size ≤ k → s.buffer k = before k
  aligned : ∀ a ∈ s.accesses, dataAlignment ∣ a.1 ∧ dataAlignment ∣ a.2

theorem aligned_append {accesses : List (Nat × Nat)} {a : Nat × Nat}
    (h : ∀ a ∈ accesses, dataAlignment ∣ a.1 ∧ dataAlignment ∣ a.2)
    (ha : dataAlignment ∣ a.1 ∧ dataAlignment ∣ a.2) :
    ∀ b ∈ accesses ++ [a], dataAlignment ∣ b.1 ∧ dataAlignment ∣ b.2 := by
  intro b hb
  rcases List.mem_append.mp hb with hb | hb
  · exact h b hb
  · exact List.mem_singleton.mp hb ▸ ha

/-- **One block**: it is read into the work buffer, and a part of it goes to its place. -/
theorem Filled.block (h : Filled base dataAlignment offset size before lo hi s) (o pos workPos n : Nat)
    (hwork : dataAlignment ≤ workBufSize) (ho : dataAlignment ∣ o) (hbase : o + dataAlignment ≤ base.size)
    (hplace : o + workPos = offset + pos) (hfit : workPos + n ≤ dataAlignment) (hpos : pos + n ≤ size) :
    ∃ s' s'', s.readWork base workBufSize dataAlignment o = some s' ∧
      s'.copyOut size workBufSize pos workPos n = some s'' ∧
      ∀ lo' hi', (∀ k, lo' ≤ k → k < hi' → (lo ≤ k ∧ k < hi) ∨ (pos ≤ k ∧ k < pos + n)) →
        Filled base dataAlignment offset size before lo' hi' s'' := by
  refine ⟨_, _, assert_bind_of hwork,
    (assert_bind_of hpos).trans (assert_bind_of (by omega)), fun lo' hi' hcover => ?_⟩
  refine ⟨fun k hlo hhi => ?_, fun k hk => ?_, aligned_append h.aligned ⟨ho, Nat.dvd_refl _⟩⟩
  · dsimp only
    by_cases hnew : pos ≤ k ∧ k < pos + n
    · obtain ⟨j, rfl⟩ := Nat.exists_eq_add_of_le hnew.1
      rw [memcpyAt_of_mem (by omega), VirtualFile.read_of_lt (by omega) hbase]
      exact congrArg base.byte (by omega)
    · rw [memcpyAt_of_not_mem (by omega)]
      have hold := (hcover k hlo hhi).resolve_right hnew
      exact h.byte k hold.1 hold.2
  · dsimp only
    rw [memcpyAt_of_not_mem (by omega)]
    exact h.frame k hk

/-- **The tail** fills the rest of the range, block by block. -/
theorem Filled.tail (hpos : 0 < dataAlignment) (hdvd : dataAlignment ∣ base.size)
    (hin : offset + size ≤ base.size) (hwork : dataAlignment ≤ workBufSize) {fuel tailOffset remaining : Nat}
    (hfuel : remaining ≤ fuel) (hoffset : offset ≤ tailOffset)
    (hend : tailOffset + remaining = offset + size)
    (h : Filled base dataAlignment offset size before 0 (tailOffset - offset) s) :
    ∃ s', readTail base dataAlignment workBufSize offset size fuel tailOffset remaining s = some s' ∧
      Filled base dataAlignment offset size before 0 size s' := by
  induction fuel generalizing tailOffset remaining s with
  | zero =>
    obtain rfl : remaining = 0 := by omega
    refine ⟨s, by rw [readTail, if_neg (Nat.lt_irrefl 0)], ?_⟩
    rwa [show tailOffset - offset = size by omega] at h
  | succ fuel ih =>
    rw [readTail]
    rcases Nat.eq_zero_or_pos remaining with rfl | hrem
    · refine ⟨s, if_neg (Nat.lt_irrefl 0), ?_⟩
      rwa [show tailOffset - offset = size by omega] at h
    rw [if_pos hrem]
    dsimp only
    have hdown : alignDown tailOffset dataAlignment ≤ tailOffset := alignDown_le
    have hlt : tailOffset < alignDown tailOffset dataAlignment + dataAlignment := lt_alignDown_add hpos
    have hblock : alignDown tailOffset dataAlignment + dataAlignment ≤ base.size :=
      block_le hdvd (by omega)
    generalize hn : min (alignDown tailOffset dataAlignment + dataAlignment - tailOffset) remaining = n
    obtain ⟨s', s'', hread, hcopy, hfilled⟩ := h.block (alignDown tailOffset dataAlignment)
      (tailOffset - offset) (tailOffset - alignDown tailOffset dataAlignment) n hwork dvd_alignDown hblock (by omega) (by omega) (by omega)
    rw [hread, bind_eq_bind, bind_some, assert_bind_of (by omega),
      assert_bind_of (by omega), hcopy]
    exact ih (by omega) (by omega) (by omega) (hfilled _ _ fun k _ hk => by omega)

/-- **The core** fills its part of the range. -/
theorem Filled.core (hplan : x.Plan dataAlignment offset size) (hin : offset + size ≤ base.size)
    (h : Filled base dataAlignment offset size before lo lo s) :
    ∃ s' n, readCore base x size s = some (s', n) ∧ x.coveredOffset + n ≤ offset + size ∧
      Filled base dataAlignment offset size before (x.coveredOffset - offset)
        (x.coveredOffset - offset + n) s' := by
  have hoffset := hplan.offset_le
  have hcovered := hplan.covered_le
  rw [readCore]
  by_cases hcore : 0 < x.coreSize
  · obtain ⟨hbuffer, hbase, hgap, hcov, hplace⟩ := hplan.core hcore
    have hread : s.readBuffer base size x.coreBuffer x.coreSize x.coreOffset = some
        ⟨memcpyAt s.buffer x.coreBuffer (fun k => base.byte (x.coreOffset + k)) x.coreSize, s.workBuf,
          s.accesses ++ [(x.coreOffset, x.coreSize)]⟩ := by
      rw [Reading.readBuffer, assert_bind_of hbuffer, behind_read (by omega)]
    rw [if_pos hcore, hread, bind_eq_bind, bind_some]
    have haligned := @aligned_append _ _ (x.coreOffset, x.coreSize) h.aligned hplan.core_dvd
    by_cases hmove : x.offsetGap ≠ 0 ∨ x.bufferGap ≠ 0
    · rw [if_pos hmove, assert_bind_of hgap, assert_bind_of (by omega), assert_bind_of hbuffer]
      refine ⟨_, _, rfl, by omega, fun k hlo hhi => ?_, fun k hk => ?_, haligned⟩
      · dsimp only
        obtain ⟨j, rfl⟩ := Nat.exists_eq_add_of_le (show x.coreBuffer - x.bufferGap ≤ k by omega)
        rw [memcpyAt_of_mem (by omega), Nat.add_assoc, memcpyAt_of_mem (by omega)]
        exact congrArg base.byte (by omega)
      · dsimp only
        rw [memcpyAt_of_not_mem (by omega), memcpyAt_of_not_mem (by omega)]
        exact h.frame k hk
    · rw [if_neg hmove]
      refine ⟨_, _, rfl, by omega, fun k hlo hhi => ?_, fun k hk => ?_, haligned⟩
      · dsimp only
        obtain ⟨j, rfl⟩ := Nat.exists_eq_add_of_le (show x.coreBuffer ≤ k by omega)
        rw [memcpyAt_of_mem (by omega)]
        exact congrArg base.byte (by omega)
      · dsimp only
        rw [memcpyAt_of_not_mem (by omega)]
        exact h.frame k hk
  · rw [if_neg hcore]
    exact ⟨s, x.coreSize, rfl, by omega, fun k hlo hhi => by omega, h.frame, h.aligned⟩

/-- **The head** fills what lies in front of the core. -/
theorem Filled.head (hdvd : dataAlignment ∣ base.size)
    (hwork : dataAlignment ≤ workBufSize) {coveredOffset : Nat} (hoffset : offset ≤ coveredOffset)
    (hcovered : coveredOffset ≤ offset + size) (hin : offset + size ≤ base.size)
    (hhead : coveredOffset ≤ alignDown offset dataAlignment + dataAlignment)
    (h : Filled base dataAlignment offset size before (coveredOffset - offset) hi s) :
    ∃ s', readHead base dataAlignment workBufSize offset size coveredOffset s = some s' ∧
      Filled base dataAlignment offset size before 0 hi s' := by
  rw [readHead]
  by_cases hne : offset < coveredOffset
  · have hdown : alignDown offset dataAlignment ≤ offset := alignDown_le
    have hblock : alignDown offset dataAlignment + dataAlignment ≤ base.size :=
      block_le hdvd (by omega)
    have hdiff : getRoundDownDifference offset dataAlignment = offset - alignDown offset dataAlignment := rfl
    obtain ⟨s', s'', hread, hcopy, hfilled⟩ := h.block (alignDown offset dataAlignment) 0
      (getRoundDownDifference offset dataAlignment) (coveredOffset - offset) hwork dvd_alignDown hblock (by omega) (by omega) (by omega)
    rw [if_pos hne]
    dsimp only
    rw [assert_bind_of (by omega), hread, bind_eq_bind, bind_some]
    exact ⟨s'', hcopy, hfilled _ _ fun k _ hk => by omega⟩
  · rw [if_neg hne]
    refine ⟨s, rfl, ?_⟩
    rwa [show coveredOffset - offset = 0 by omega] at h

/-- **A read** gives the range of the base, whatever the alignments and the address. -/
theorem read_spec (hpos : 0 < dataAlignment) (hdvd : dataAlignment ∣ base.size)
    (hin : offset + size ≤ base.size) (hwork : dataAlignment ≤ workBufSize)
    (h : Filled base dataAlignment offset size before 0 0 s) :
    ∃ s', read base workBufSize dataAlignment bufferAlignment address offset size s = some s' ∧
      Filled base dataAlignment offset size before 0 size s' := by
  rw [read, assert_bind_of hwork]
  rcases Nat.eq_zero_or_pos size with rfl | hsize
  · exact ⟨s, if_pos rfl, h⟩
  rw [if_neg (Nat.ne_of_gt hsize)]
  have hplan : (readExtents dataAlignment bufferAlignment address offset size).Plan dataAlignment
      offset size := readExtents_plan hpos
  generalize readExtents dataAlignment bufferAlignment address offset size = x at hplan ⊢
  have hoffset := hplan.offset_le
  obtain ⟨s1, n, hcore, hend, hfilled1⟩ := h.core hplan hin
  obtain ⟨s2, hhead, hfilled2⟩ :=
    hfilled1.head hdvd hwork hoffset hplan.covered_le hin hplan.head
  dsimp only
  rw [hcore, bind_eq_bind, bind_some, bind_eq_bind]
  dsimp only
  rw [hhead, bind_some]
  refine Filled.tail hpos hdvd hin hwork (Nat.le_refl _) (by omega) (by omega) ?_
  rwa [show x.coveredOffset + n - offset = x.coveredOffset - offset + n by omega]

end

/-! ## 4. Writing -/

section

variable {base : VirtualFile} {dataAlignment bufferAlignment workBufSize address offset size lo hi : Nat}
  {buffer : Memory} {s : Writing} {x : Extents}

/-- **A part of the range has been written** to the base, nothing else of it changed, and the accesses
were aligned. -/
structure Written (base : VirtualFile) (dataAlignment offset : Nat) (buffer : Memory) (lo hi : Nat)
    (s : Writing) : Prop where
  writes : Writes (fun k => buffer (k - offset)) lo hi base s.base
  size : s.base.size = base.size
  aligned : ∀ a ∈ s.accesses, dataAlignment ∣ a.1 ∧ dataAlignment ∣ a.2

/-- **One block** is rewritten: a part of it is taken from the buffer. -/
theorem Written.block (h : Written base dataAlignment offset buffer lo hi s) (size o workPos pos n : Nat)
    (hwork : dataAlignment ≤ workBufSize) (ho : dataAlignment ∣ o) (hbase : o + dataAlignment ≤ base.size)
    (hplace : o + workPos = offset + pos) (hfit : workPos + n ≤ dataAlignment) (hpos : pos + n ≤ size) :
    ∃ s', s.rewrite buffer workBufSize dataAlignment size o workPos pos n = some s' ∧
      ∀ lo' hi', (∀ k, (lo' ≤ k ∧ k < hi') ↔
          (lo ≤ k ∧ k < hi) ∨ (o + workPos ≤ k ∧ k < o + workPos + n)) → hi' ≤ base.size →
        Written base dataAlignment offset buffer lo' hi' s' := by
  have hsize := h.size
  refine ⟨_, (assert_bind_of hwork).trans ((assert_bind_of (by omega)).trans (assert_bind_of hpos)),
    fun lo' hi' hcover hhi => ?_⟩
  have hblock : ∀ k, k < dataAlignment →
      memcpyAt (s.base.read o dataAlignment s.workBuf) workPos (fun k => buffer (pos + k)) n k =
        if workPos ≤ k ∧ k < workPos + n then buffer (o + k - offset) else s.base.byte (o + k) := by
    intro k hk
    rw [memcpyAt]
    by_cases hin : workPos ≤ k ∧ k < workPos + n
    · rw [if_pos hin, if_pos hin]
      exact congrArg buffer (by omega)
    · rw [if_neg hin, if_neg hin, VirtualFile.read_of_lt hk (by omega)]
  have hnew : (s.base.write o dataAlignment
      (memcpyAt (s.base.read o dataAlignment s.workBuf) workPos (fun k => buffer (pos + k)) n)).size =
        base.size := by
    rw [VirtualFile.write]
    dsimp only
    omega
  have hbyte : ∀ k, k < base.size → (s.base.write o dataAlignment
      (memcpyAt (s.base.read o dataAlignment s.workBuf) workPos (fun k => buffer (pos + k)) n)).byte k =
        if o + workPos ≤ k ∧ k < o + workPos + n then buffer (k - offset) else s.base.byte k := by
    intro k hk
    by_cases hin : o ≤ k ∧ k < o + dataAlignment
    · obtain ⟨j, rfl⟩ := Nat.exists_eq_add_of_le hin.1
      rw [VirtualFile.write_of_lt (by omega), hblock j (by omega)]
      by_cases hj : workPos ≤ j ∧ j < workPos + n
      · rw [if_pos hj, if_pos (by omega)]
      · rw [if_neg hj, if_neg (by omega)]
    · rw [VirtualFile.write_of_not_mem (by omega) (by omega), if_neg (by omega)]
  refine ⟨⟨?_, fun k hlo hk => ?_, fun k hk hout => ?_⟩, hnew, fun a ha => ?_⟩
  · exact hnew.trans (Nat.max_eq_left hhi).symm
  · rw [hbyte k (by omega)]
    by_cases hin : o + workPos ≤ k ∧ k < o + workPos + n
    · exact if_pos hin
    · rw [if_neg hin]
      have hold := ((hcover k).mp ⟨hlo, hk⟩).resolve_right hin
      exact h.writes.byte k hold.1 hold.2
  · rw [hbyte k hk]
    have hnot : ¬((lo ≤ k ∧ k < hi) ∨ (o + workPos ≤ k ∧ k < o + workPos + n)) := fun hn => by
      have := (hcover k).mpr hn
      omega
    rw [if_neg fun hn => hnot (Or.inr hn)]
    exact h.writes.frame k hk (by omega)
  · rcases List.mem_append.mp ha with ha | ha
    · exact h.aligned a ha
    · obtain rfl : a = (o, dataAlignment) := by simpa using ha
      exact ⟨ho, Nat.dvd_refl _⟩

/-- **The tail** writes the rest of the range, block by block. -/
theorem Written.tail (hpos : 0 < dataAlignment) (hdvd : dataAlignment ∣ base.size)
    (hin : offset + size ≤ base.size) (hwork : dataAlignment ≤ workBufSize) {fuel tailOffset remaining : Nat}
    (hfuel : remaining ≤ fuel) (hoffset : offset ≤ tailOffset)
    (hend : tailOffset + remaining = offset + size)
    (h : Written base dataAlignment offset buffer offset tailOffset s) :
    ∃ s', writeTail buffer dataAlignment workBufSize offset size fuel tailOffset remaining s = some s' ∧
      Written base dataAlignment offset buffer offset (offset + size) s' := by
  induction fuel generalizing tailOffset remaining s with
  | zero =>
    obtain rfl : remaining = 0 := by omega
    refine ⟨s, by rw [writeTail, if_neg (Nat.lt_irrefl 0)], ?_⟩
    rwa [show tailOffset = offset + size by omega] at h
  | succ fuel ih =>
    rw [writeTail]
    rcases Nat.eq_zero_or_pos remaining with rfl | hrem
    · refine ⟨s, if_neg (Nat.lt_irrefl 0), ?_⟩
      rwa [show tailOffset = offset + size by omega] at h
    rw [if_pos hrem, assert_bind_of (by omega)]
    dsimp only
    have hdown : alignDown tailOffset dataAlignment ≤ tailOffset := alignDown_le
    have hlt : tailOffset < alignDown tailOffset dataAlignment + dataAlignment := lt_alignDown_add hpos
    have hblock : alignDown tailOffset dataAlignment + dataAlignment ≤ base.size :=
      block_le hdvd (by omega)
    have hdiff : getRoundDownDifference tailOffset dataAlignment =
      tailOffset - alignDown tailOffset dataAlignment := rfl
    generalize hn : min (alignDown tailOffset dataAlignment + dataAlignment - tailOffset) remaining = n
    obtain ⟨s', hwrite, hwritten⟩ := h.block size (alignDown tailOffset dataAlignment)
      (getRoundDownDifference tailOffset dataAlignment) (tailOffset - offset) n hwork dvd_alignDown
      hblock (by omega) (by omega) (by omega)
    rw [hwrite, bind_eq_bind, bind_some]
    exact ih (by omega) (by omega) (by omega) (hwritten _ _ (fun k => by omega) (by omega))

/-- **The core** writes its part of the range. -/
theorem Written.core (hplan : x.Plan dataAlignment offset size) (hgaps : x.bufferGap = 0 ∧ x.offsetGap = 0)
    (hin : offset + size ≤ base.size) {workBuf : Memory} :
    ∃ s', writeCore buffer x size ⟨base, workBuf, []⟩ = some s' ∧
      x.coveredOffset + x.coreSize ≤ offset + size ∧
      Written base dataAlignment offset buffer x.coveredOffset (x.coveredOffset + x.coreSize) s' := by
  obtain ⟨hbufferGap, hoffsetGap⟩ := hgaps
  have hcovered := hplan.covered_le
  have hoffset := hplan.offset_le
  rw [writeCore]
  by_cases hcore : 0 < x.coreSize
  · obtain ⟨hbuffer, hbase, -, hcov, hplace⟩ := hplan.core hcore
    rw [hoffsetGap, Nat.add_zero] at hcov
    have htext : ∀ k < x.coreSize, buffer (x.coreBuffer + k) = buffer (x.coreOffset + k - offset) :=
      fun k _ => congrArg buffer (by omega)
    have hwrites : Writes (fun k => buffer (k - offset)) x.coreOffset (x.coreOffset + x.coreSize) base
        (base.write x.coreOffset x.coreSize fun k => buffer (x.coreBuffer + k)) :=
      VirtualFile.write_writes htext
    rw [if_pos hcore, assert_bind_of hbuffer]
    refine ⟨_, rfl, by omega, ?_, ?_, aligned_append (fun a ha => by cases ha) hplan.core_dvd⟩
    · rw [← hcov]
      exact hwrites
    · dsimp only [VirtualFile.write]
      omega
  · rw [if_neg hcore]
    refine ⟨_, rfl, by omega, ⟨?_, fun k hlo hhi => by omega, fun k _ _ => rfl⟩, rfl, fun a ha => by cases ha⟩
    dsimp only
    omega

/-- **The head** writes what lies in front of the core. -/
theorem Written.head (hdvd : dataAlignment ∣ base.size) (hwork : dataAlignment ≤ workBufSize)
    {coveredOffset : Nat} (hoffset : offset ≤ coveredOffset) (hcovered : coveredOffset ≤ hi)
    (hhi : hi ≤ offset + size) (hin : offset + size ≤ base.size)
    (hhead : coveredOffset ≤ alignDown offset dataAlignment + dataAlignment)
    (h : Written base dataAlignment offset buffer coveredOffset hi s) :
    ∃ s', writeHead buffer dataAlignment workBufSize offset size coveredOffset s = some s' ∧
      Written base dataAlignment offset buffer offset hi s' := by
  rw [writeHead]
  by_cases hne : offset < coveredOffset
  · have hdown : alignDown offset dataAlignment ≤ offset := alignDown_le
    have hblock : alignDown offset dataAlignment + dataAlignment ≤ base.size :=
      block_le hdvd (by omega)
    obtain ⟨s', hwrite, hwritten⟩ := h.block size (alignDown offset dataAlignment)
      (offset - alignDown offset dataAlignment) 0 (coveredOffset - offset) hwork dvd_alignDown hblock
      (by omega) (by omega) (by omega)
    rw [if_pos hne, assert_bind_of (by omega)]
    exact ⟨s', hwrite, hwritten _ _ (fun k => by omega) (by omega)⟩
  · rw [if_neg hne]
    refine ⟨s, rfl, ?_⟩
    rwa [show coveredOffset = offset by omega] at h

/-- **A write** puts the buffer into the range of the base, whatever the alignments and the address. -/
theorem write_spec (hpos : 0 < dataAlignment) (hdvd : dataAlignment ∣ base.size)
    (hin : offset + size ≤ base.size) (hwork : dataAlignment ≤ workBufSize) (workBuf : Memory) :
    ∃ s', write buffer workBufSize dataAlignment bufferAlignment address offset size
        ⟨base, workBuf, []⟩ = some s' ∧
      Written base dataAlignment offset buffer offset (offset + size) s' := by
  rw [write, assert_bind_of hwork]
  rcases Nat.eq_zero_or_pos size with rfl | hsize
  · refine ⟨_, if_pos rfl, ⟨?_, fun k hlo hhi => by omega, fun k _ _ => rfl⟩, rfl, fun a ha => by cases ha⟩
    dsimp only
    omega
  rw [if_neg (Nat.ne_of_gt hsize)]
  have hplan : (writeExtents dataAlignment bufferAlignment address offset size).Plan dataAlignment
      offset size := writeExtents_plan hpos
  have hgaps : (writeExtents dataAlignment bufferAlignment address offset size).bufferGap = 0 ∧
      (writeExtents dataAlignment bufferAlignment address offset size).offsetGap = 0 := writeExtents_gaps
  generalize writeExtents dataAlignment bufferAlignment address offset size = x at hplan hgaps ⊢
  have hoffset := hplan.offset_le
  obtain ⟨s1, hcore, hend, hwritten1⟩ := Written.core hplan hgaps hin
  obtain ⟨s2, hhead, hwritten2⟩ :=
    hwritten1.head hdvd hwork hoffset (Nat.le_add_right _ _) hend hin hplan.head
  dsimp only
  rw [hcore, bind_eq_bind, bind_some, hhead, bind_some]
  exact Written.tail hpos hdvd hin hwork (Nat.le_refl _) (by omega) (by omega) hwritten2

end

/-! ## 5. Transparency -/

/-- **Alignment matching is transparent**: a read gives the range of the base and a write changes it to
what the buffer holds, for every alignment of the data and of the buffer and every address. No access
lies outside a buffer, and the base is only accessed in whole blocks. -/
theorem alignment_matching_transparent (dataOrder bufferOrder address offset size workBufSize : Nat)
    (base : VirtualFile) (buffer workBuf : Memory) (hbase : 2 ^ dataOrder ∣ base.size)
    (hin : offset + size ≤ base.size) (hwork : 2 ^ dataOrder ≤ workBufSize) :
    (∃ s, read base workBufSize (2 ^ dataOrder) (2 ^ bufferOrder) address offset size
        ⟨buffer, workBuf, []⟩ = some s ∧ (∀ k < size, s.buffer k = base.byte (offset + k)) ∧
      (∀ k, size ≤ k → s.buffer k = buffer k) ∧
      ∀ a ∈ s.accesses, 2 ^ dataOrder ∣ a.1 ∧ 2 ^ dataOrder ∣ a.2) ∧
    ∃ s, write buffer workBufSize (2 ^ dataOrder) (2 ^ bufferOrder) address offset size
        ⟨base, workBuf, []⟩ = some s ∧ s.base.size = base.size ∧
      (∀ k < size, s.base.byte (offset + k) = buffer k) ∧
      (∀ k < base.size, k < offset ∨ offset + size ≤ k → s.base.byte k = base.byte k) ∧
      ∀ a ∈ s.accesses, 2 ^ dataOrder ∣ a.1 ∧ 2 ^ dataOrder ∣ a.2 := by
  have hpos : 0 < 2 ^ dataOrder := Nat.two_pow_pos dataOrder
  constructor
  · have hstart : Filled base (2 ^ dataOrder) offset size buffer 0 0 ⟨buffer, workBuf, []⟩ :=
      ⟨fun k _ hk => absurd hk (Nat.not_lt_zero k), fun k _ => rfl, fun a ha => by cases ha⟩
    obtain ⟨s, hread, hfilled⟩ := read_spec hpos hbase hin hwork hstart
    exact ⟨s, hread, fun k hk => hfilled.byte k (Nat.zero_le k) hk, hfilled.frame, hfilled.aligned⟩
  · obtain ⟨s, hwrite, hwritten⟩ := write_spec hpos hbase hin hwork workBuf
    refine ⟨s, hwrite, hwritten.size, fun k hk => ?_, hwritten.writes.frame, hwritten.aligned⟩
    rw [hwritten.writes.byte _ (Nat.le_add_right _ _) (by omega), Nat.add_sub_cancel_left]

/-- A storage of two blocks of 16 bytes, and a range of 20 bytes that begins in the first one. -/
theorem alignment_matching_transparent_blocks :
    (∃ s, read ⟨32, UInt8.ofNat⟩ 16 (2 ^ 4) (2 ^ 3) 5 7 20 ⟨fun _ => 0, fun _ => 0, []⟩ = some s ∧
        (∀ k < 20, s.buffer k = UInt8.ofNat (7 + k)) ∧ (∀ k, 20 ≤ k → s.buffer k = 0) ∧
        ∀ a ∈ s.accesses, 2 ^ 4 ∣ a.1 ∧ 2 ^ 4 ∣ a.2) ∧
      ∃ s, write (fun _ => 0) 16 (2 ^ 4) (2 ^ 3) 5 7 20 ⟨⟨32, UInt8.ofNat⟩, fun _ => 0, []⟩ = some s ∧
        s.base.size = 32 ∧ (∀ k < 20, s.base.byte (7 + k) = 0) ∧
        (∀ k < 32, k < 7 ∨ 7 + 20 ≤ k → s.base.byte k = UInt8.ofNat k) ∧
        ∀ a ∈ s.accesses, 2 ^ 4 ∣ a.1 ∧ 2 ^ 4 ∣ a.2 :=
  alignment_matching_transparent 4 3 5 7 20 16 ⟨32, UInt8.ofNat⟩ (fun _ => 0) (fun _ => 0) ⟨2, rfl⟩
    (by decide) (by decide)

end AlignmentMatchingStorageImpl

end Yuzu.FileSys
