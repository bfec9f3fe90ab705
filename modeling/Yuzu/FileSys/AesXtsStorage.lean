/-
  File:      Yuzu/FileSys/AesXtsStorage.lean
  Subject:   `AesXtsStorage::Read` (core/file_sys/fssystem/fssystem_aes_xts_storage.cpp).

  The cipher is a parameter: block `j` of a sector is decrypted by a function of the IV of the
  sector and of `j`. A read that starts inside a sector decrypts that sector in a buffer of its own,
  with zeros for what lies before the read, and goes on sector by sector. Every byte it leaves is a
  function of its place in the file (`read_byte`).
-/
import Yuzu.FileSys.AesCtrStorage

namespace Yuzu.FileSys

/-! ## 1. The code -/

/-- The decryption of a block of 16 bytes, from the IV of its sector and its number in it. -/
abbrev DecryptBlock := Nat → Nat → (Fin aesBlockSize → UInt8) → Nat → UInt8

/-- **`AesXtsStorage`**, less its base storage. The sizes are those that the constructor and
`PooledBuffer` assert. -/
structure AesXtsStorage where
  decryptBlock : DecryptBlock
  iv : List UInt8
  blockSize : Nat
  iv_length : iv.length = aesBlockSize
  blockSize_dvd : aesBlockSize ∣ blockSize
  blockSize_pos : 0 < blockSize
  blockSize_le : blockSize ≤ heapAllocatableSizeMax

/-- The block of 16 bytes with this number. -/
def blockAt (src : Memory) (j : Nat) : Fin aesBlockSize → UInt8 := fun m => src (aesBlockSize * j + m)

/-- `AESCipher::Transcode` behind `SetIV(ctr)`, in XTS mode. -/
def transcodeXts (decryptBlock : DecryptBlock) (ctr : List UInt8) (src : Memory) (size : Nat)
    (dest : Memory) : Memory := fun k =>
  if k < size then
    decryptBlock (counterValue ctr) (k / aesBlockSize) (blockAt src (k / aesBlockSize)) (k % aesBlockSize)
  else dest k

/-- `Common::AlignDown`. -/
def alignDown (value size : Nat) : Nat := value - value % size

namespace AesXtsStorage

/-- The loop over the sectors, from `cur` on. -/
def sectorLoop (s : AesXtsStorage) (ctr : List UInt8) (buffer : Memory) (cur remaining : Nat) : Memory :=
  if 0 < remaining then
    let curSize := min s.blockSize remaining
    let src : Memory := fun k => buffer (cur + k)
    let buffer := memcpyAt buffer cur (transcodeXts s.decryptBlock ctr src curSize src) curSize
    sectorLoop s (addCounter ctr 1) buffer (cur + curSize) (remaining - curSize)
  else buffer
termination_by remaining
decreasing_by
  have hpos := s.blockSize_pos
  omega

/-- The part of `Read` that decrypts up to the end of the first sector: the counter, the buffer and
the number of bytes done. `pooled` is what the pooled buffer holds at first. -/
def readHead (s : AesXtsStorage) (ctr : List UInt8) (pooled buffer : Memory) (size offset : Nat) :
    List UInt8 × Memory × Nat :=
  if offset % s.blockSize ≠ 0 then
    let skipSize := offset - alignDown offset s.blockSize
    let dataSize := min size (s.blockSize - skipSize)
    let tmpBuf := memcpyAt pooled 0 (fun _ => 0) skipSize
    let tmpBuf := memcpyAt tmpBuf skipSize buffer dataSize
    let tmpBuf := transcodeXts s.decryptBlock ctr tmpBuf s.blockSize tmpBuf
    let buffer := memcpyAt buffer 0 (fun k => tmpBuf (skipSize + k)) dataSize
    (addCounter ctr 1, buffer, dataSize)
  else (ctr, buffer, 0)

/-- `Read`. -/
def read (s : AesXtsStorage) (base : VirtualFile) (pooled : Memory) (size offset : Nat)
    (buffer : Memory) : Memory :=
  if size = 0 then buffer
  else
    let buffer := base.read offset size buffer
    let ctr := addCounter s.iv (offset / s.blockSize)
    let (ctr, buffer, processedSize) := s.readHead ctr pooled buffer size offset
    s.sectorLoop ctr buffer processedSize (size - processedSize)

/-! ## 2. The decrypted file -/

/-- **The decrypted file**: the sector of a place gives the IV, the place in it the block. -/
def decrypted (s : AesXtsStorage) (base : VirtualFile) : Memory := fun p =>
  s.decryptBlock ((counterValue s.iv + p / s.blockSize) % 256 ^ aesBlockSize)
    (p % s.blockSize / aesBlockSize) (blockAt base.byte (p / aesBlockSize)) (p % aesBlockSize)

variable {s : AesXtsStorage} {base : VirtualFile} {pooled buffer src dest into : Memory}
  {ctr : List UInt8} {start size offset cur remaining k : Nat}

/-- The counter is that of the sector at `start`. -/
def AtSector (s : AesXtsStorage) (ctr : List UInt8) (start : Nat) : Prop :=
  counterValue ctr = (counterValue s.iv + start / s.blockSize) % 256 ^ aesBlockSize ∧
    ctr.length = aesBlockSize

theorem atSector_start : AtSector s (addCounter s.iv (offset / s.blockSize)) offset :=
  ⟨by rw [counterValue_addCounter, s.iv_length], by rw [length_addCounter, s.iv_length]⟩

theorem AtSector.next (h : AtSector s ctr start) : AtSector s (addCounter ctr 1) (start + s.blockSize) := by
  refine ⟨?_, by rw [length_addCounter, h.2]⟩
  rw [counterValue_addCounter, h.1, h.2, Nat.mod_add_mod, Nat.add_div_right _ s.blockSize_pos]
  rfl

theorem AtSector.of_div (h : AtSector s ctr start) (hdiv : start / s.blockSize = offset / s.blockSize) :
    AtSector s ctr offset := ⟨by rw [h.1, hdiv], h.2⟩

/-- **A sector that is decrypted from its start** gives the decrypted file, where the block was in
the source. -/
theorem transcodeXts_sector (hctr : AtSector s ctr start) (hstart : s.blockSize ∣ start)
    (hk : k < size) (hsector : k < s.blockSize)
    (hsrc : ∀ m < aesBlockSize, src (aesBlockSize * (k / aesBlockSize) + m) =
      base.byte (start + (aesBlockSize * (k / aesBlockSize) + m))) :
    transcodeXts s.decryptBlock ctr src size dest k = decrypted s base (start + k) := by
  obtain ⟨n, rfl⟩ := hstart
  obtain ⟨q, hq⟩ := s.blockSize_dvd
  have hdiv : (s.blockSize * n + k) / s.blockSize = n := by
    rw [Nat.mul_add_div s.blockSize_pos, Nat.div_eq_of_lt hsector, Nat.add_zero]
  have hmod : (s.blockSize * n + k) % s.blockSize = k := by
    rw [Nat.mul_add_mod, Nat.mod_eq_of_lt hsector]
  have hassoc : s.blockSize * n = aesBlockSize * (q * n) := by rw [hq, Nat.mul_assoc]
  have hblock : (s.blockSize * n + k) / aesBlockSize = q * n + k / aesBlockSize := by
    rw [hassoc, Nat.mul_add_div (by decide)]
  have hbyte : (s.blockSize * n + k) % aesBlockSize = k % aesBlockSize := by
    rw [hassoc, Nat.mul_add_mod]
  have hsame : blockAt src (k / aesBlockSize) = blockAt base.byte (q * n + k / aesBlockSize) := by
    funext m
    rw [blockAt, hsrc m m.isLt, blockAt, hassoc, Nat.mul_add, Nat.add_assoc]
  rw [transcodeXts, if_pos hk, hctr.1, hsame, decrypted, hdiv, hmod, hblock, hbyte,
    Nat.mul_div_cancel_left _ s.blockSize_pos]

/-! ## 3. What a read leaves -/

theorem block_mem {lo hi m : Nat} (hlo : aesBlockSize ∣ lo) (hhi : aesBlockSize ∣ hi) (hk : lo ≤ k)
    (hk' : k < hi) (hm : m < aesBlockSize) :
    lo ≤ aesBlockSize * (k / aesBlockSize) + m ∧ aesBlockSize * (k / aesBlockSize) + m < hi := by
  rw [aesBlockSize] at *
  omega

/-- **The sectors from `cur` on**, by induction on what remains: they are decrypted, and what lies
before them stays. -/
theorem sectorLoop_byte (hrem : aesBlockSize ∣ remaining)
    (hsector : 0 < remaining → s.blockSize ∣ offset + cur)
    (hctr : 0 < remaining → AtSector s ctr (offset + cur))
    (hbuffer : ∀ k < remaining, buffer (cur + k) = base.byte (offset + cur + k)) :
    (∀ k < remaining, s.sectorLoop ctr buffer cur remaining (cur + k) =
        decrypted s base (offset + cur + k)) ∧
      ∀ k < cur, s.sectorLoop ctr buffer cur remaining k = buffer k := by
  induction hn : remaining using Nat.strong_induction_on generalizing ctr buffer cur remaining with
  | _ n ih =>
    subst hn
    rw [sectorLoop]
    split
    · rename_i hpos
      have hbs := s.blockSize_pos
      have hsize : aesBlockSize ∣ min s.blockSize remaining := by
        rcases Nat.le_total s.blockSize remaining with hle | hle
        · rw [Nat.min_eq_left hle]; exact s.blockSize_dvd
        · rw [Nat.min_eq_right hle]; exact hrem
      have hrest : remaining - min s.blockSize remaining < remaining := by omega
      have hfull : 0 < remaining - min s.blockSize remaining →
          offset + (cur + min s.blockSize remaining) = offset + cur + s.blockSize := by omega
      have hdone : ∀ k < min s.blockSize remaining,
          transcodeXts s.decryptBlock ctr (fun k => buffer (cur + k)) (min s.blockSize remaining)
            (fun k => buffer (cur + k)) k = decrypted s base (offset + cur + k) := by
        intro k hk
        refine transcodeXts_sector (hctr hpos) (hsector hpos) hk (by omega) fun m hm => ?_
        exact hbuffer _ (by have hin := block_mem (Nat.dvd_zero _) hsize (Nat.zero_le k) hk hm; omega)
      have hbehind : ∀ k < remaining - min s.blockSize remaining,
          memcpyAt buffer cur (transcodeXts s.decryptBlock ctr (fun k => buffer (cur + k))
            (min s.blockSize remaining) fun k => buffer (cur + k)) (min s.blockSize remaining)
            (cur + min s.blockSize remaining + k) =
            base.byte (offset + (cur + min s.blockSize remaining) + k) := by
        intro k hk
        rw [memcpyAt_of_not_mem (by omega), Nat.add_assoc, hbuffer _ (by omega)]
        simp only [Nat.add_assoc]
      obtain ⟨hlater, hkeep⟩ := @ih _ hrest _ (addCounter ctr 1) _ _ (Nat.dvd_sub hrem hsize)
        (fun h => by rw [hfull h]; exact Nat.dvd_add (hsector hpos) (Nat.dvd_refl _))
        (fun h => by rw [hfull h]; exact (hctr hpos).next) hbehind rfl
      refine ⟨fun k hk => ?_, fun k hk => ?_⟩
      · rcases Nat.lt_or_ge k (min s.blockSize remaining) with hin | hout
        · rw [hkeep (cur + k) (by omega), memcpyAt_of_mem hin, hdone k hin]
        · obtain ⟨j, rfl⟩ := Nat.exists_eq_add_of_le hout
          have hj := hlater j (by omega)
          simp only [Nat.add_assoc] at hj ⊢
          exact hj
      · rw [hkeep k (by omega), memcpyAt_of_not_mem (by omega)]
    · rename_i hzero
      exact ⟨fun k hk => by omega, fun k _ => rfl⟩

/-- **The first sector** of a read that starts inside it. -/
theorem readHead_byte (hoffset : aesBlockSize ∣ offset) (hsize : aesBlockSize ∣ size)
    (hctr : AtSector s ctr offset) (hbuffer : ∀ k < size, buffer k = base.byte (offset + k))
    {ctr' : List UInt8} {buffer' : Memory} {processed : Nat}
    (hhead : s.readHead ctr pooled buffer size offset = (ctr', buffer', processed)) :
    processed ≤ size ∧ aesBlockSize ∣ processed ∧
      (0 < size - processed → s.blockSize ∣ offset + processed ∧ AtSector s ctr' (offset + processed)) ∧
      (∀ k < processed, buffer' k = decrypted s base (offset + k)) ∧
      ∀ k, processed ≤ k → buffer' k = buffer k := by
  have hpos := s.blockSize_pos
  have hlt := Nat.mod_lt offset hpos
  have hle := Nat.mod_le offset s.blockSize
  have hdvd : s.blockSize ∣ offset - offset % s.blockSize := Nat.dvd_sub_mod offset
  have hskip : aesBlockSize ∣ offset % s.blockSize := (Nat.dvd_mod_iff s.blockSize_dvd).mpr hoffset
  rw [readHead] at hhead
  split at hhead
  · rename_i hinside
    have hstart : offset - alignDown offset s.blockSize = offset % s.blockSize := by
      rw [alignDown]; omega
    rw [hstart] at hhead
    obtain ⟨rfl, rfl, rfl⟩ := hhead
    have hroom : aesBlockSize ∣ s.blockSize - offset % s.blockSize := Nat.dvd_sub s.blockSize_dvd hskip
    have hdata : aesBlockSize ∣ min size (s.blockSize - offset % s.blockSize) := by
      rcases Nat.le_total size (s.blockSize - offset % s.blockSize) with h | h
      · rw [Nat.min_eq_left h]; exact hsize
      · rw [Nat.min_eq_right h]; exact hroom
    have hsame : offset / s.blockSize = (offset - offset % s.blockSize) / s.blockSize := by
      have hwhole := Nat.div_add_mod offset s.blockSize
      rw [show offset - offset % s.blockSize = s.blockSize * (offset / s.blockSize) by omega,
        Nat.mul_div_cancel_left _ hpos]
    refine ⟨Nat.min_le_left _ _, hdata, fun h => ?_, fun k hk => ?_, fun k hk => ?_⟩
    · have hnext : offset + min size (s.blockSize - offset % s.blockSize) =
          offset - offset % s.blockSize + s.blockSize := by omega
      rw [hnext]
      exact ⟨Nat.dvd_add hdvd (Nat.dvd_refl _), (hctr.of_div hsame).next⟩
    · -- the place of the byte, from the start of its sector
      have hplace : offset + k = offset - offset % s.blockSize + (offset % s.blockSize + k) := by omega
      rw [memcpyAt_zero hk, hplace]
      refine transcodeXts_sector (hctr.of_div hsame) hdvd (by omega) (by omega) fun m hm => ?_
      obtain ⟨hlo, hhi⟩ := block_mem hskip (Nat.dvd_add hskip hdata) (Nat.le_add_right _ k)
        (Nat.add_lt_add_left hk _) hm
      obtain ⟨j, hj⟩ := Nat.exists_eq_add_of_le hlo
      rw [hj, memcpyAt_of_mem (by omega), hbuffer j (by omega)]
      exact congrArg base.byte (by omega)
    · rw [memcpyAt_of_not_mem (by omega)]
  · rename_i hstart
    obtain ⟨rfl, rfl, rfl⟩ := hhead
    refine ⟨Nat.zero_le _, Nat.dvd_zero _, fun h => ?_, fun k hk => by omega, fun k _ => rfl⟩
    exact ⟨Nat.dvd_of_mod_eq_zero (Decidable.not_not.mp hstart), hctr⟩

/-- **What `Read` leaves in the buffer**: its range of the decrypted file. -/
theorem read_byte (hoffset : aesBlockSize ∣ offset) (hsize : aesBlockSize ∣ size)
    (hfile : offset + size ≤ base.size) (hk : k < size) :
    s.read base pooled size offset into k = decrypted s base (offset + k) := by
  rw [read, if_neg (by omega)]
  dsimp only
  rcases hhead : s.readHead (addCounter s.iv (offset / s.blockSize)) pooled
    (base.read offset size into) size offset with ⟨ctr', buffer', processed⟩
  obtain ⟨hle, hdvd, hnext, hdone, hkeep⟩ := readHead_byte hoffset hsize atSector_start
    (fun k hk => VirtualFile.read_of_lt hk hfile) hhead
  have hbuffer : ∀ k < size - processed, buffer' (processed + k) = base.byte (offset + processed + k) := by
    intro k hk
    rw [hkeep _ (by omega), VirtualFile.read_of_lt (by omega) hfile, Nat.add_assoc]
  obtain ⟨hsectors, hfirst⟩ := sectorLoop_byte (Nat.dvd_sub hsize hdvd) (fun h => (hnext h).1)
    (fun h => (hnext h).2) hbuffer
  rcases Nat.lt_or_ge k processed with hin | hout
  · exact (hfirst k hin).trans (hdone k hin)
  · obtain ⟨j, rfl⟩ := Nat.exists_eq_add_of_le hout
    rw [← Nat.add_assoc]
    exact hsectors j (by omega)

end AesXtsStorage

end Yuzu.FileSys
