/-
  File:      Yuzu/FileSys/IntegrityVerificationStorage.lean
  Subject:   `IntegrityVerificationStorage::Read`
             (core/file_sys/fssystem/fssystem_integrity_verification_storage.cpp).

  A request may reach past the end of the data, up to the end of its last block. What lies behind the
  end is cleared, and the clearing goes to the end of a block counted from the request's offset. So it
  stays inside the buffer only for a request that itself reaches that far.
-/
import Mathlib.Data.Nat.Bitwise
import Yuzu.Common.Alignment
import Yuzu.Lib.Assert
import Yuzu.FileSys.VirtualFile

namespace Yuzu.FileSys

open List

open Yuzu.Common (alignUp)

/-- `IStorage::CheckAccessRange`. -/
def checkAccessRange (offset size totalSize : Nat) : Bool := offset + size ≤ totalSize

/-- `std::memset(buffer + pos, 0, size)`. -/
def clearAt (buffer : Memory) (pos size : Nat) : Memory := fun k =>
  if pos ≤ k ∧ k < pos + size then 0 else buffer k

/-- **`IntegrityVerificationStorage`**, as far as it is read. `Initialize` asserts that the block size is
the power of two with its order, and no less than the size of a hash. -/
structure IntegrityVerificationStorage where
  dataStorage : VirtualFile
  verificationBlockOrder : Nat

namespace IntegrityVerificationStorage

def verificationBlockSize (s : IntegrityVerificationStorage) : Nat := 2 ^ s.verificationBlockOrder

/-- What a read leaves: the buffer, and the ranges of it that were written, each with its length. -/
structure Outcome where
  buffer : Memory
  writes : List (Nat × Nat)

/-- `Read`. -/
def read (s : IntegrityVerificationStorage) (buffer : Memory) (size offset : Nat) : Option Outcome :=
  if size = 0 then some ⟨buffer, []⟩
  else do
    let dataSize := s.dataStorage.size
    assert (offset ≤ dataSize)
    assert (checkAccessRange offset size (alignUp dataSize s.verificationBlockSize) = true)
    if dataSize < offset + size then do
      let paddingOffset := dataSize - offset
      let paddingSize :=
        s.verificationBlockSize - (paddingOffset &&& (s.verificationBlockSize - 1))
      assert (paddingSize < s.verificationBlockSize)
      let buffer := clearAt buffer paddingOffset paddingSize
      let readSize := dataSize - offset
      some ⟨s.dataStorage.read offset readSize buffer, [(paddingOffset, paddingSize), (0, readSize)]⟩
    else some ⟨s.dataStorage.read offset size buffer, [(0, size)]⟩

/-- **A read stays inside the caller's buffer**: every assertion holds, and what is written lies below
the size of the request. -/
def StaysInside (s : IntegrityVerificationStorage) (buffer : Memory) (size offset : Nat) : Prop :=
  ∃ o, s.read buffer size offset = some o ∧ ∀ w ∈ o.writes, w.1 + w.2 ≤ size

variable {s : IntegrityVerificationStorage} {buffer : Memory} {size offset k : Nat} {o : Outcome}

theorem verificationBlockSize_pos : 0 < s.verificationBlockSize := Nat.two_pow_pos _

theorem padding_end {blockSize n : Nat} (hpos : 0 < blockSize) (hn : ¬blockSize ∣ n) :
    n + (blockSize - n % blockSize) = alignUp n blockSize := by
  have hmod : n % blockSize ≠ 0 := fun h => hn (Nat.dvd_of_mod_eq_zero h)
  have hlt := Nat.mod_lt n hpos
  have hle := Nat.mod_le n blockSize
  rw [alignUp, if_neg hmod]
  omega

/-- **When a read stays inside the buffer**: of the requests that pass the range check, those that end
with the data, and those that end no earlier than the blocks counted from their offset, unless the data
ends with such a block. -/
theorem staysInside_iff (s : IntegrityVerificationStorage) (buffer : Memory) (size offset : Nat)
    (hoffset : offset ≤ s.dataStorage.size)
    (haccess : checkAccessRange offset size (alignUp s.dataStorage.size s.verificationBlockSize) = true) :
    s.StaysInside buffer size offset ↔ offset + size ≤ s.dataStorage.size ∨
        (¬s.verificationBlockSize ∣ s.dataStorage.size - offset ∧
          alignUp (s.dataStorage.size - offset) s.verificationBlockSize ≤ size) := by
  have hpos : 0 < s.verificationBlockSize := verificationBlockSize_pos
  have hmask : ∀ n, n &&& (s.verificationBlockSize - 1) = n % s.verificationBlockSize := fun n =>
    Nat.and_two_pow_sub_one_eq_mod n _
  rcases Nat.eq_zero_or_pos size with rfl | hsize
  · refine iff_of_true ⟨⟨buffer, []⟩, if_pos rfl, ?_⟩ (Or.inl hoffset)
    intro w hw
    cases hw
  rw [StaysInside, read, if_neg (Nat.ne_of_gt hsize), assert_bind_of hoffset, assert_bind_of haccess]
  simp only [hmask]
  rcases Nat.lt_or_ge s.dataStorage.size (offset + size) with hpast | hin
  · rw [if_pos hpast]
    by_cases hdvd : s.verificationBlockSize ∣ s.dataStorage.size - offset
    · -- the padding would be a whole block, which the assertion refuses
      refine iff_of_false ?_ (fun h => ?_)
      · rintro ⟨o, ho, -⟩
        obtain ⟨hlt, -⟩ := assert_bind_eq_some.mp ho
        rw [Nat.mod_eq_zero_of_dvd hdvd] at hlt
        omega
      · rcases h with h | h
        · omega
        · exact h.1 hdvd
    · have hmod : (s.dataStorage.size - offset) % s.verificationBlockSize ≠ 0 := fun h =>
        hdvd (Nat.dvd_of_mod_eq_zero h)
      rw [assert_bind_of (by omega), ← padding_end hpos hdvd]
      constructor
      · rintro ⟨o, ho, hwrites⟩
        obtain rfl := Option.some.inj ho
        exact Or.inr ⟨hdvd, hwrites _ mem_cons_self⟩
      · intro h
        refine ⟨_, rfl, fun w hw => ?_⟩
        rcases h with h | ⟨-, h⟩
        · omega
        · rcases mem_cons.mp hw with rfl | hw
          · exact h
          · obtain rfl := mem_singleton.mp hw
            dsimp only
            omega
  · rw [if_neg (by omega)]
    refine iff_of_true ⟨_, rfl, fun w hw => ?_⟩ (Or.inl hin)
    obtain rfl := mem_singleton.mp hw
    exact Nat.le_of_eq (Nat.zero_add size)

/-- Forty bytes in blocks of 32. -/
def fortyBytes : IntegrityVerificationStorage := ⟨⟨40, fun _ => 1⟩, 5⟩

theorem staysInside_iff_forty :
    fortyBytes.StaysInside (fun _ => 9) 64 0 ↔ 0 + 64 ≤ 40 ∨ (¬32 ∣ 40 - 0 ∧ alignUp (40 - 0) 32 ≤ 64) :=
  staysInside_iff fortyBytes _ 64 0 (by decide) (by decide)

/-- A request that ends inside the last block is cleared past its end: 24 bytes from the 40th on go
behind a buffer of 48. -/
theorem padding_behind_buffer :
    checkAccessRange 0 48 (alignUp 40 32) = true ∧ ¬fortyBytes.StaysInside (fun _ => 9) 48 0 := by
  refine ⟨by decide, ?_⟩
  rintro ⟨o, ho, hwrites⟩
  have heq : (fortyBytes.read (fun _ => 9) 48 0).map Outcome.writes = some [(40, 24), (0, 40)] := by decide
  rw [ho] at heq
  have hmem : (40, 24) ∈ o.writes := by
    rw [Option.some.inj heq]
    exact mem_cons_self
  exact absurd (hwrites _ hmem) (by decide)

end IntegrityVerificationStorage

end Yuzu.FileSys
