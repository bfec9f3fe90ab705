/-
  File:      Yuzu/FileSys/AesCtrStorage.lean
  Subject:   `AesCtrStorage` (core/file_sys/fssystem/fssystem_aes_ctr_storage.cpp) and the sizes of
             `PooledBuffer`.

  The cipher is a parameter: a keystream block for every counter. `Write` encrypts piece by piece
  through a pooled buffer. It moves the counter and the place in the file on from piece to piece,
  but encrypts every piece from the start of the caller's buffer (`write_byte`), so what is read
  back repeats the first 512 KiB of what was written (`roundTrip_iff`).
-/
import Yuzu.Lib.CounterMode
import Yuzu.FileSys.AddCounter
import Yuzu.FileSys.VirtualFile

namespace Yuzu.FileSys

/-! ## 1. The pooled buffer -/

/-- `HeapAllocatableSizeMax`. -/
def heapAllocatableSizeMax : Nat := 4096 * 2 ^ 7

/-- `HeapAllocatableSizeMaxForLarge`. -/
def heapAllocatableSizeMaxForLarge : Nat := 4096 * 2 ^ 10

/-- `PooledBuffer::GetAllocatableSizeMaxCore`. -/
def getAllocatableSizeMaxCore (large : Bool) : Nat :=
  if large then heapAllocatableSizeMaxForLarge else heapAllocatableSizeMax

/-- `PooledBuffer::AllocateCore`: the size of the buffer. -/
def allocateCore (idealSize requiredSize : Nat) (large : Bool) : Nat :=
  min (max idealSize requiredSize) (getAllocatableSizeMaxCore large)

/-! ## 2. The storage -/

/-- `AesCtrStorage::BlockSize`. -/
def aesBlockSize : Nat := 16

/-- The cipher that XORs block `i` with the keystream block of the counter moved on by `i`. -/
def aesCtr (keystream : Nat → Nat → UInt8) : CounterCipher where
  blockSize := aesBlockSize
  modulus := 256 ^ aesBlockSize
  keystream := keystream
  blockSize_pos := by decide

/-- **`AesCtrStorage`**, less its base storage: the cipher with its key, and the IV. -/
structure AesCtrStorage where
  keystream : Nat → Nat → UInt8
  iv : List UInt8
  iv_length : iv.length = aesBlockSize

/-- `AESCipher::Transcode` behind `SetIV(ctr)`, in counter mode. -/
def transcodeCtr (keystream : Nat → Nat → UInt8) (ctr : List UInt8) (src : Memory) (size : Nat)
    (dest : Memory) : Memory := fun k =>
  if k < size then (aesCtr keystream).apply (counterValue ctr) src k else dest k

namespace AesCtrStorage

/-- `Read`. -/
def read (s : AesCtrStorage) (base : VirtualFile) (size offset : Nat) (buffer : Memory) : Memory :=
  if size = 0 then buffer
  else
    let buffer := base.read offset size buffer
    let ctr := addCounter s.iv (offset / aesBlockSize)
    transcodeCtr s.keystream ctr buffer size buffer

/-- The variables of the loop of `Write`. -/
structure WriteState where
  base : VirtualFile
  ctr : List UInt8
  pooledBuffer : Memory
  remaining : Nat
  curOffset : Nat

/-- One piece of `Write`, through a pooled buffer of `poolSize` bytes. -/
def writePiece (s : AesCtrStorage) (buffer : Memory) (offset poolSize : Nat) (w : WriteState) :
    WriteState :=
  let writeSize := min poolSize w.remaining
  -- the source is the start of the buffer, whatever has been written before
  let writeBuf := transcodeCtr s.keystream w.ctr buffer writeSize w.pooledBuffer
  let remaining := w.remaining - writeSize
  { base := w.base.write (offset + w.curOffset) writeSize writeBuf
    ctr := if 0 < remaining then addCounter w.ctr (writeSize / aesBlockSize) else w.ctr
    pooledBuffer := writeBuf
    remaining := remaining
    curOffset := w.curOffset + writeSize }

/-- The loop of `Write`. The pooled buffer is not empty, so it ends. -/
def writeLoop (s : AesCtrStorage) (buffer : Memory) (offset poolSize : Nat) (hpool : 0 < poolSize)
    (w : WriteState) : WriteState :=
  if 0 < w.remaining then
    writeLoop s buffer offset poolSize hpool (writePiece s buffer offset poolSize w)
  else w
termination_by w.remaining
decreasing_by
  dsimp only [writePiece]
  omega

theorem allocateCore_pos {idealSize requiredSize : Nat} {large : Bool} (h : 0 < requiredSize) :
    0 < allocateCore idealSize requiredSize large := by
  have hmax : 0 < getAllocatableSizeMaxCore large := by cases large <;> decide
  exact Nat.lt_min.mpr ⟨Nat.lt_of_lt_of_le h (Nat.le_max_right _ _), hmax⟩

/-- `Write`: the base storage afterwards. `pooled` is what the pooled buffer holds at first. -/
def write (s : AesCtrStorage) (base : VirtualFile) (pooled buffer : Memory) (size offset : Nat) :
    VirtualFile :=
  if size = 0 then base
  else
    (writeLoop s buffer offset (allocateCore size aesBlockSize false) (allocateCore_pos (by decide))
      { base := base
        ctr := addCounter s.iv (offset / aesBlockSize)
        pooledBuffer := pooled
        remaining := size
        curOffset := 0 }).base

end AesCtrStorage

/-! ## 3. Transcoding at a place of the file -/

section

variable {keystream : Nat → Nat → UInt8} {ctr : List UInt8} {src dest text : Memory}
  {size offset value k : Nat} {base after : VirtualFile}

theorem transcodeCtr_of_lt (hk : k < size) :
    transcodeCtr keystream ctr src size dest k = (aesCtr keystream).apply (counterValue ctr) src k :=
  if_pos hk

/-- **The counter of a place**: a text that lies in the file from a block boundary on is transcoded
as the part of the file that it is. -/
theorem apply_place (hoffset : aesBlockSize ∣ offset) (htext : text (offset + k) = src k) :
    (aesCtr keystream).apply (value + offset / aesBlockSize) src k =
      (aesCtr keystream).apply value text (offset + k) := by
  obtain ⟨n, rfl⟩ := hoffset
  have hblocks := @CounterCipher.apply_add_blocks (aesCtr keystream) value n k text
  rw [Nat.mul_comm aesBlockSize n] at *
  rw [Nat.mul_div_cancel _ (by decide)]
  exact (CounterCipher.apply_congr htext.symm).trans hblocks.symm

theorem apply_addCounter (hlen : ctr.length = aesBlockSize) (hoffset : aesBlockSize ∣ offset)
    (htext : text (offset + k) = src k) :
    (aesCtr keystream).apply (counterValue (addCounter ctr (offset / aesBlockSize))) src k =
      (aesCtr keystream).apply (counterValue ctr) text (offset + k) := by
  refine Eq.trans (CounterCipher.apply_modEq ?_) (apply_place hoffset htext)
  rw [counterValue_addCounter, hlen]
  exact Nat.mod_mod _ _

end

/-! ## 4. What a write leaves in the file -/

namespace AesCtrStorage

variable {s : AesCtrStorage} {buffer pooled into : Memory} {size offset poolSize : Nat}
  {base : VirtualFile} {w : WriteState}

/-- What the code encrypts for a place of the file: the caller's buffer, from its start again for
every piece. -/
def pieceText (buffer : Memory) (offset poolSize : Nat) : Memory := fun p =>
  buffer ((p - offset) % poolSize)

/-- **The encrypted file** that `Write` leaves in its range. -/
def encrypted (s : AesCtrStorage) (text : Memory) : Memory :=
  (aesCtr s.keystream).apply (counterValue s.iv) text

/-- The counter between two pieces is that of the place reached. -/
structure AtPlace (s : AesCtrStorage) (offset poolSize : Nat) (w : WriteState) : Prop where
  piece : poolSize ∣ w.curOffset
  ctr_length : w.ctr.length = aesBlockSize
  ctr_value : counterValue w.ctr = counterValue (addCounter s.iv ((offset + w.curOffset) / aesBlockSize))

theorem writePiece_writes (hoffset : aesBlockSize ∣ offset) (hpool : aesBlockSize ∣ poolSize)
    (hw : AtPlace s offset poolSize w) :
    Writes (encrypted s (pieceText buffer offset poolSize)) (offset + w.curOffset)
      (offset + w.curOffset + min poolSize w.remaining) w.base
      (writePiece s buffer offset poolSize w).base := by
  refine VirtualFile.write_writes fun k hk => ?_
  have hplace : aesBlockSize ∣ offset + w.curOffset :=
    Nat.dvd_add hoffset (Nat.dvd_trans hpool hw.piece)
  rw [transcodeCtr_of_lt hk, hw.ctr_value]
  refine apply_addCounter s.iv_length hplace ?_
  -- the pieces before this one are whole, so the buffer is read from its start again
  obtain ⟨n, hn⟩ := hw.piece
  have hback : offset + w.curOffset + k - offset = k + poolSize * n := by omega
  rw [pieceText, hback, Nat.add_mul_mod_self_left, Nat.mod_eq_of_lt (by omega)]

theorem writePiece_atPlace (hpool : aesBlockSize ∣ poolSize)
    (hw : AtPlace s offset poolSize w) (hmore : 0 < (writePiece s buffer offset poolSize w).remaining) :
    AtPlace s offset poolSize (writePiece s buffer offset poolSize w) := by
  have hfull : min poolSize w.remaining = poolSize := by
    dsimp only [writePiece] at hmore
    omega
  have hctr : (writePiece s buffer offset poolSize w).ctr = addCounter w.ctr (poolSize / aesBlockSize) := by
    dsimp only [writePiece] at hmore ⊢
    rw [if_pos hmore, hfull]
  have hcur : (writePiece s buffer offset poolSize w).curOffset = w.curOffset + poolSize := by
    dsimp only [writePiece]
    rw [hfull]
  refine ⟨?_, ?_, ?_⟩
  · rw [hcur]
    exact Nat.dvd_add hw.piece (Nat.dvd_refl _)
  · rw [hctr, length_addCounter, hw.ctr_length]
  · have hblocks : (offset + (w.curOffset + poolSize)) / aesBlockSize =
        (offset + w.curOffset) / aesBlockSize + poolSize / aesBlockSize := by
      obtain ⟨m, hm⟩ := hpool
      rw [hm, ← Nat.add_assoc, Nat.add_mul_div_left _ _ (by decide), Nat.mul_div_cancel_left _ (by decide)]
    rw [hctr, hcur, counterValue_addCounter, hw.ctr_value, hw.ctr_length, hblocks,
      counterValue_addCounter, counterValue_addCounter, s.iv_length, Nat.mod_add_mod, Nat.add_assoc]

/-- **The loop writes the whole range**, by induction on what remains. -/
theorem writeLoop_writes (hpos : 0 < poolSize) (hoffset : aesBlockSize ∣ offset)
    (hpool : aesBlockSize ∣ poolSize) (hw : AtPlace s offset poolSize w) (hrem : 0 < w.remaining) :
    Writes (encrypted s (pieceText buffer offset poolSize)) (offset + w.curOffset)
      (offset + w.curOffset + w.remaining) w.base (writeLoop s buffer offset poolSize hpos w).base := by
  induction hn : w.remaining using Nat.strong_induction_on generalizing w with
  | _ n ih =>
    have hpiece := @writePiece_writes s buffer offset poolSize w hoffset hpool hw
    have hrest : (writePiece s buffer offset poolSize w).remaining =
        w.remaining - min poolSize w.remaining := rfl
    have hcur : (writePiece s buffer offset poolSize w).curOffset =
        w.curOffset + min poolSize w.remaining := rfl
    rw [writeLoop, if_pos hrem]
    rcases Nat.eq_zero_or_pos (writePiece s buffer offset poolSize w).remaining with hdone | hmore
    · rw [writeLoop, if_neg (by omega)]
      have hall : min poolSize w.remaining = n := by omega
      rwa [hall] at hpiece
    · have hnext := ih _ (by omega) (writePiece_atPlace hpool hw hmore) hmore rfl
      rw [hcur, ← Nat.add_assoc] at hnext
      have hend : offset + w.curOffset + min poolSize w.remaining +
          (writePiece s buffer offset poolSize w).remaining = offset + w.curOffset + n := by omega
      rw [hend] at hnext
      exact hpiece.trans hnext (by omega) (by omega)

theorem allocateCore_dvd (hsize : aesBlockSize ∣ size) :
    aesBlockSize ∣ allocateCore size aesBlockSize false := by
  rw [allocateCore, min_def, max_def]
  split <;> split
  all_goals first | exact hsize | exact Nat.dvd_refl _ | exact ⟨32768, rfl⟩

/-- **What `Write` leaves**: its range holds the encrypted pieces, and nothing else changed. -/
theorem write_writes (hoffset : aesBlockSize ∣ offset) (hsize : aesBlockSize ∣ size) (hne : size ≠ 0) :
    Writes (encrypted s (pieceText buffer offset (allocateCore size aesBlockSize false))) offset
      (offset + size) base (s.write base pooled buffer size offset) := by
  rw [write, if_neg hne]
  have hstart : AtPlace s offset (allocateCore size aesBlockSize false)
      ⟨base, addCounter s.iv (offset / aesBlockSize), pooled, size, 0⟩ := by
    refine ⟨Nat.dvd_zero _, ?_, rfl⟩
    rw [length_addCounter, s.iv_length]
  exact writeLoop_writes _ hoffset (allocateCore_dvd hsize) hstart (Nat.pos_of_ne_zero hne)

/-! ## 5. Reading -/

/-- The decrypted file. -/
def decrypted (s : AesCtrStorage) (base : VirtualFile) : Memory :=
  (aesCtr s.keystream).apply (counterValue s.iv) base.byte

/-- **What `Read` leaves in the buffer**: its range of the decrypted file. -/
theorem read_byte {k : Nat} (hoffset : aesBlockSize ∣ offset) (hfile : offset + size ≤ base.size)
    (hk : k < size) : s.read base size offset into k = decrypted s base (offset + k) := by
  rw [read, if_neg (by omega), transcodeCtr_of_lt hk]
  exact apply_addCounter s.iv_length hoffset (VirtualFile.read_of_lt hk hfile).symm

/-! ## 6. The round trip -/

/-- **Write and then read**: byte `k` of what is read is byte `k` of the piece it was written in. -/
theorem read_write {k : Nat} (hoffset : aesBlockSize ∣ offset) (hsize : aesBlockSize ∣ size)
    (hk : k < size) :
    s.read (s.write base pooled buffer size offset) size offset into k =
      buffer (k % heapAllocatableSizeMax) := by
  have hw := @write_writes s buffer pooled size offset base hoffset hsize (by omega)
  have hend := hw.size
  rw [read_byte hoffset (by omega) hk, decrypted,
    CounterCipher.apply_congr (hw.byte (offset + k) (by omega) (by omega)), encrypted,
    CounterCipher.apply_apply, pieceText, Nat.add_sub_cancel_left]
  -- a buffer that is smaller than the pool is written in one piece
  have hpos := Nat.le_of_dvd (by omega) hsize
  rw [allocateCore, Nat.max_eq_left hpos]
  change buffer (k % min size heapAllocatableSizeMax) = _
  rcases Nat.le_total size heapAllocatableSizeMax with hle | hle
  · rw [Nat.min_eq_left hle, Nat.mod_eq_of_lt hk, Nat.mod_eq_of_lt (by omega)]
  · rw [Nat.min_eq_right hle]

theorem write_frame {k : Nat} (hoffset : aesBlockSize ∣ offset) (hsize : aesBlockSize ∣ size)
    (hk : k < base.size) (hout : k < offset ∨ offset + size ≤ k) :
    (s.write base pooled buffer size offset).byte k = base.byte k := by
  rcases Nat.eq_zero_or_pos size with rfl | hpos
  · rw [write, if_pos rfl]
  · exact (write_writes hoffset hsize (by omega)).frame k hk hout

/-- **Where a write can be read back**: the round trip holds, and nothing outside the range is
changed, exactly for the buffers that repeat their first 512 KiB. -/
theorem roundTrip_iff (s : AesCtrStorage) (base : VirtualFile) (pooled buffer into : Memory)
    {size offset : Nat} (hoffset : aesBlockSize ∣ offset) (hsize : aesBlockSize ∣ size) :
    ((∀ k < size, s.read (s.write base pooled buffer size offset) size offset into k = buffer k) ∧
        ∀ k < base.size, k < offset ∨ offset + size ≤ k →
          (s.write base pooled buffer size offset).byte k = base.byte k) ↔
      ∀ k < size, buffer (k % heapAllocatableSizeMax) = buffer k := by
  constructor
  · intro hboth k hk
    rw [← hboth.1 k hk, read_write hoffset hsize hk]
  · intro hrepeat
    refine ⟨fun k hk => ?_, fun k hk hout => write_frame hoffset hsize hk hout⟩
    rw [read_write hoffset hsize hk, hrepeat k hk]

end AesCtrStorage

/-- A storage with some keystream and the IV 0. -/
def sampleStorage : AesCtrStorage where
  keystream ctr k := UInt8.ofNat (ctr + k)
  iv := List.replicate 16 0
  iv_length := rfl

theorem roundTrip_words : (∀ k < 32, sampleStorage.read (sampleStorage.write ⟨0, fun _ => 0⟩ (fun _ => 0)
        (fun k => UInt8.ofNat k) 32 16) 32 16 (fun _ => 0) k = UInt8.ofNat k) ∧
      ∀ k < 0, k < 16 ∨ 16 + 32 ≤ k →
        (sampleStorage.write ⟨0, fun _ => 0⟩ (fun _ => 0) (fun k => UInt8.ofNat k) 32 16).byte k = 0 :=
  (AesCtrStorage.roundTrip_iff sampleStorage ⟨0, fun _ => 0⟩ (fun _ => 0) (fun k => UInt8.ofNat k)
    (fun _ => 0) (by decide) (by decide)).mpr fun k hk => by
      rw [Nat.mod_eq_of_lt (Nat.lt_trans hk (by decide))]

/-- **A write of 512 KiB and one block is not read back**: its last block comes out as the first. -/
theorem long_write_repeats : ¬ ∀ (s : AesCtrStorage) (base : VirtualFile) (pooled buffer into : Memory)
    (size offset : Nat), aesBlockSize ∣ offset → aesBlockSize ∣ size →
    (∀ k < size, s.read (s.write base pooled buffer size offset) size offset into k = buffer k) ∧
      ∀ k < base.size, k < offset ∨ offset + size ≤ k →
        (s.write base pooled buffer size offset).byte k = base.byte k := by
  intro h
  have hread := (h sampleStorage ⟨0, fun _ => 0⟩ (fun _ => 0) (fun k => if k < 0x80000 then 0 else 1)
    (fun _ => 0) 0x80010 0 (by decide) (by decide)).1 0x80000 (by decide)
  rw [AesCtrStorage.read_write (by decide) (by decide) (by decide)] at hread
  exact absurd hread (by decide)

end Yuzu.FileSys
