/-
  File:      Yuzu/FileSys/AesSplitReads.lean
  Subject:   Reads of the three decrypting storages compose.

  Each of the three leaves in the buffer its range of one decrypted file (`read_byte`), whatever the
  buffers held before. So a read that is split gives the same bytes, and a read is a slice of every
  larger one (`reads_compose`).
-/
import Yuzu.FileSys.AesXtsStorage
import Yuzu.FileSys.AesCtrCounterExtendedStorage

namespace Yuzu.FileSys

/-! ## 1. Reads of one file -/

/-- **The aligned reads from `lo` to `hi` compose.** A read takes what the buffers hold before, a size
and an offset; it has a result where no assertion is tripped. -/
structure ReadsCompose {ρ : Type} (read : ρ → Nat → Nat → Option Memory) (lo hi : Nat) : Prop where
  /-- A read in two parts. -/
  split : ∀ r r' r'' {o a b : Nat}, aesBlockSize ∣ o → aesBlockSize ∣ a → aesBlockSize ∣ b → lo ≤ o →
    o + (a + b) ≤ hi → ∃ whole first second, read r (a + b) o = some whole ∧ read r' a o = some first ∧
      read r'' b (o + a) = some second ∧ (∀ k < a, whole k = first k) ∧ ∀ k < b, whole (a + k) = second k
  /-- A read of a part of a larger range. -/
  slice : ∀ r r' {o a o' a' : Nat}, aesBlockSize ∣ o → aesBlockSize ∣ a → aesBlockSize ∣ o' →
    aesBlockSize ∣ a' → lo ≤ o → o ≤ o' → o' + a' ≤ o + a → o + a ≤ hi →
    ∃ image part, read r a o = some image ∧ read r' a' o' = some part ∧
      ∀ k < a', part k = image (o' - o + k)

/-- **Reads that leave their range of one file compose.** -/
theorem ReadsCompose.of_image {ρ : Type} {read : ρ → Nat → Nat → Option Memory} {lo hi : Nat}
    {image : Memory} (h : ∀ r {size offset : Nat}, aesBlockSize ∣ offset → aesBlockSize ∣ size →
      lo ≤ offset → offset + size ≤ hi →
      ∃ out, read r size offset = some out ∧ ∀ k < size, out k = image (offset + k)) :
    ReadsCompose read lo hi where
  split r r' r'' o a b ho ha hb hlo hhi := by
    obtain ⟨whole, hwhole, hbyte⟩ := h r ho (Nat.dvd_add ha hb) hlo hhi
    obtain ⟨first, hfirst, hbyte'⟩ := h r' ho ha hlo (by omega)
    obtain ⟨second, hsecond, hbyte''⟩ := h r'' (Nat.dvd_add ho ha) hb (by omega) (by omega)
    refine ⟨whole, first, second, hwhole, hfirst, hsecond, fun k hk => ?_, fun k hk => ?_⟩
    · rw [hbyte k (by omega), hbyte' k hk]
    · rw [hbyte _ (by omega), hbyte'' k hk, Nat.add_assoc]
  slice r r' o a o' a' ho ha ho' ha' hlo hle hin hhi := by
    obtain ⟨all, hall, hbyte⟩ := h r ho ha hlo hhi
    obtain ⟨part, hpart, hbyte'⟩ := h r' ho' ha' (by omega) (by omega)
    refine ⟨all, part, hall, hpart, fun k hk => ?_⟩
    rw [hbyte _ (by omega), hbyte' k hk]
    exact congrArg image (by omega)

/-! ## 2. The three storages -/

/-- **Decrypting reads compose** in all three storages, whatever the buffers hold before. -/
theorem reads_compose (ctr : AesCtrStorage) (xts : AesXtsStorage) (ext : AesCtrCounterExtendedStorage)
    (ctrBase xtsBase dataStorage : VirtualFile) (hdata : ext.table.endOffset ≤ dataStorage.size) :
    ReadsCompose (fun into size offset => some (ctr.read ctrBase size offset into)) 0 ctrBase.size ∧
      ReadsCompose (fun (into : Memory × Memory) size offset =>
        some (xts.read xtsBase into.1 size offset into.2)) 0 xtsBase.size ∧
      ReadsCompose (fun into size offset => ext.read dataStorage size offset into)
        ext.table.startOffset ext.table.endOffset := by
  refine ⟨?_, ?_, ?_⟩
  · exact .of_image fun into {size offset} ho _ _ hhi =>
      ⟨_, rfl, fun k hk => AesCtrStorage.read_byte ho hhi hk⟩
  · exact .of_image fun into {size offset} ho ha _ hhi =>
      ⟨_, rfl, fun k hk => AesXtsStorage.read_byte ho ha hhi hk⟩
  · exact .of_image fun into {size offset} ho ha hlo hhi =>
      AesCtrCounterExtendedStorage.read_byte ho ha hlo hhi hdata

/-- Two sectors of two blocks. -/
def sampleXts : AesXtsStorage where
  decryptBlock iv j block k := if hk : k < aesBlockSize then block ⟨k, hk⟩ + UInt8.ofNat (iv + j) else 0
  iv := List.replicate aesBlockSize 0
  blockSize := 32
  iv_length := rfl
  blockSize_dvd := ⟨2, rfl⟩
  blockSize_pos := by decide
  blockSize_le := by decide

/-- Two entries of two blocks each, of which the second is not encrypted. -/
def sampleExtended : AesCtrCounterExtendedStorage where
  keystream ctr k := UInt8.ofNat (ctr + k)
  secureValue := 1
  counterOffset := 48
  table := {
    entries := [⟨0, 0, 7⟩, ⟨32, 1, 8⟩]
    startOffset := 0
    endOffset := 64
    sorted := by decide
    head_offset := rfl
    aligned := by decide
    end_aligned := by decide
    lt_end := by decide }
  counterOffset_le := by decide

/-- Sixty-four bytes. -/
def sampleFile : VirtualFile := ⟨64, fun k => UInt8.ofNat (3 * k)⟩

theorem reads_compose_sample :
    ReadsCompose (fun into size offset => some (sampleStorage.read sampleFile size offset into)) 0 64 ∧
      ReadsCompose (fun (into : Memory × Memory) size offset =>
        some (sampleXts.read sampleFile into.1 size offset into.2)) 0 64 ∧
      ReadsCompose (fun into size offset => sampleExtended.read sampleFile size offset into) 0 64 :=
  reads_compose sampleStorage sampleXts sampleExtended sampleFile sampleFile sampleFile (by decide)

end Yuzu.FileSys
