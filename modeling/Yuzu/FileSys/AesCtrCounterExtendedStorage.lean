/-
  File:      Yuzu/FileSys/AesCtrCounterExtendedStorage.lean
  Subject:   `AesCtrCounterExtendedStorage::Read`
             (core/file_sys/fssystem/fssystem_aes_ctr_counter_extended_storage.cpp).

  The bucket tree of the storage is the list of its entries in order, and a visitor is an index into
  it: `Find` gives the last entry that starts at or before an offset, `MoveNext` the next one. Each
  entry has a generation, which goes into the upper half of the IV; the lower half is the number of
  the block in the file. A read whose assertions all hold has a result.
-/
import Mathlib.Data.List.GetD
import Yuzu.Lib.Assert
import Yuzu.FileSys.AesCtrStorage

namespace Yuzu.FileSys

open List

/-! ## 1. The table -/

/-- `BucketTree::Offsets`. -/
structure Offsets where
  startOffset : Int
  endOffset : Int
deriving DecidableEq, Repr

/-- `Offsets::IsInclude`. -/
def Offsets.isInclude (o : Offsets) (offset : Int) : Bool :=
  o.startOffset ≤ offset && offset < o.endOffset

/-- `Offsets::IsInclude` of a range. -/
def Offsets.isIncludeRange (o : Offsets) (offset size : Int) : Bool :=
  0 < size && o.startOffset ≤ offset && size ≤ o.endOffset - offset

/-- `AesCtrCounterExtendedStorage::Entry`. -/
structure CounterEntry where
  offset : Nat
  encryptionValue : UInt8
  generation : Int32
deriving DecidableEq

/-- `Entry::Encryption::Encrypted`. -/
def Encryption.encrypted : UInt8 := 0

/-- **The encryption table**: the entries of the bucket tree in order, and its offsets. The places
of the entries are those that `Read` asserts. -/
structure CounterTable where
  entries : List CounterEntry
  startOffset : Nat
  endOffset : Nat
  sorted : entries.Pairwise fun e e' => e.offset < e'.offset
  head_offset : entries.head?.map CounterEntry.offset = some startOffset
  aligned : ∀ e ∈ entries, aesBlockSize ∣ e.offset
  end_aligned : aesBlockSize ∣ endOffset
  lt_end : ∀ e ∈ entries, e.offset < endOffset

namespace CounterTable

/-- `BucketTree::GetOffsets`. -/
def getOffsets (t : CounterTable) : Offsets := ⟨t.startOffset, t.endOffset⟩

/-- `BucketTree::Find`: the index of the last entry that starts at or before an offset. -/
def find (t : CounterTable) (offset : Nat) : Option Nat :=
  let pos := t.entries.findIdx fun e => offset < e.offset
  if 0 < pos then some (pos - 1) else none

/-- `Visitor::Get`. -/
def get (t : CounterTable) (index : Nat) : CounterEntry :=
  t.entries.getD index ⟨t.endOffset, Encryption.encrypted, 0⟩

/-- `Visitor::CanMoveNext`. -/
def canMoveNext (t : CounterTable) (index : Nat) : Bool := index + 1 < t.entries.length

/-- Where the entry ends: at the next one, or at the end of the table. -/
def nextOffset (t : CounterTable) (index : Nat) : Nat :=
  if t.canMoveNext index then (t.get (index + 1)).offset else t.endOffset

end CounterTable

/-! ## 2. The storage -/

/-- **`AesCtrCounterExtendedStorage`**, less its data storage. -/
structure AesCtrCounterExtendedStorage where
  keystream : Nat → Nat → UInt8
  table : CounterTable
  secureValue : UInt32
  counterOffset : Nat
  /-- `MakeIv` takes the sum of the two as an `s64` that it asserts to be positive. -/
  counterOffset_le : counterOffset + table.endOffset ≤ 2 ^ 63

/-- `NcaAesCtrUpperIv::value`: the generation in the lower half. -/
def upperIvValue (generation secureValue : UInt32) : Nat := generation.toNat + secureValue.toNat * 2 ^ 32

/-- The bytes of a number, the highest first. -/
def bigEndianBytes (n value : Nat) : List UInt8 :=
  (List.range n).reverse.map fun i => UInt8.ofNat (value / 256 ^ i)

/-- `AesCtrStorage::MakeIv`. -/
def makeIv (upper offset : Nat) : List UInt8 :=
  bigEndianBytes 8 upper ++ bigEndianBytes 8 (offset / aesBlockSize)

namespace AesCtrCounterExtendedStorage

/-- The IV of an entry at a place of the file. -/
def entryIv (s : AesCtrCounterExtendedStorage) (entry : CounterEntry) (counterOffset : Nat) : List UInt8 :=
  makeIv (upperIvValue entry.generation.toUInt32 s.secureValue) counterOffset

theorem readLoop_decreases {entryOffset nextOffset curOffset endOffset : Nat}
    (hentry : entryOffset ≤ curOffset) (hnext : curOffset < nextOffset) (hend : curOffset < endOffset) :
    endOffset - (curOffset + min (endOffset - curOffset)
      (nextOffset - entryOffset - (curOffset - entryOffset))) < endOffset - curOffset := by
  omega

/-- The loop of `Read`, from `curOffset` on with the visitor at `index`. The buffer is that of a
read from `offset` to `endOffset`. -/
def readLoop (s : AesCtrCounterExtendedStorage) (offset endOffset index curOffset : Nat)
    (buffer : Memory) : Option Memory :=
  if curOffset < endOffset then
    let curEntry := s.table.get index
    let moves := s.table.canMoveNext index
    let nextEntryOffset := s.table.nextOffset index
    let index := if moves then index + 1 else index
    if curEntry.offset ≤ curOffset ∧ curOffset < nextEntryOffset ∧ aesBlockSize ∣ nextEntryOffset ∧
        (moves → s.table.getOffsets.isInclude nextEntryOffset) then
      let dataOffset := curOffset - curEntry.offset
      let dataSize := (nextEntryOffset - curEntry.offset) - dataOffset
      let remainingSize := endOffset - curOffset
      let curSize := min remainingSize dataSize
      let curData : Memory := fun k => buffer (curOffset - offset + k)
      let buffer :=
        if curEntry.encryptionValue = Encryption.encrypted then
          let counterOffset := s.counterOffset + curEntry.offset + dataOffset
          let iv := s.entryIv curEntry counterOffset
          memcpyAt buffer (curOffset - offset) (transcodeCtr s.keystream iv curData curSize curData) curSize
        else buffer
      readLoop s offset endOffset index (curOffset + curSize) buffer
    else none
  else some buffer
termination_by endOffset - curOffset
decreasing_by
  rename_i hend hchecks
  exact readLoop_decreases hchecks.1 hchecks.2.1 hend

/-- `Read`. -/
def read (s : AesCtrCounterExtendedStorage) (base : VirtualFile) (size offset : Nat)
    (buffer : Memory) : Option Memory :=
  if size = 0 then some buffer
  else do
    assert (aesBlockSize ∣ offset)
    assert (aesBlockSize ∣ size)
    assert (s.table.getOffsets.isIncludeRange offset size)
    let buffer := base.read offset size buffer
    let index ← s.table.find offset
    let entryOffset := (s.table.get index).offset
    assert (aesBlockSize ∣ entryOffset)
    assert (s.table.getOffsets.isInclude entryOffset)
    s.readLoop offset (offset + size) index offset buffer

end AesCtrCounterExtendedStorage

/-! ## 3. The entry of a place -/

namespace CounterTable

variable {t : CounterTable} {i j p : Nat}

/-- The entry covers the place. -/
def Covers (t : CounterTable) (i p : Nat) : Prop :=
  i < t.entries.length ∧ (t.get i).offset ≤ p ∧ p < t.nextOffset i

theorem get_of_lt (hi : i < t.entries.length) : t.get i = t.entries[i] := getD_eq_getElem _ _ hi

theorem get_mem (hi : i < t.entries.length) : t.get i ∈ t.entries := by
  rw [get_of_lt hi]
  exact getElem_mem hi

theorem get_lt_get (hij : i < j) (hj : j < t.entries.length) : (t.get i).offset < (t.get j).offset := by
  rw [get_of_lt hj, get_of_lt (by omega)]
  exact pairwise_iff_getElem.mp t.sorted i j _ hj hij

theorem nextOffset_of_lt (hi : i + 1 < t.entries.length) : t.nextOffset i = (t.get (i + 1)).offset := by
  rw [nextOffset, canMoveNext, if_pos (decide_eq_true hi)]

theorem nextOffset_of_ge (hi : t.entries.length ≤ i + 1) : t.nextOffset i = t.endOffset := by
  rw [nextOffset, canMoveNext, if_neg fun h => by have := of_decide_eq_true h; omega]

theorem nextOffset_le_end : t.nextOffset i ≤ t.endOffset := by
  rcases Nat.lt_or_ge (i + 1) t.entries.length with hi | hi
  · rw [nextOffset_of_lt hi]
    exact Nat.le_of_lt (t.lt_end _ (get_mem hi))
  · rw [nextOffset_of_ge hi]

theorem nextOffset_dvd : aesBlockSize ∣ t.nextOffset i := by
  rcases Nat.lt_or_ge (i + 1) t.entries.length with hi | hi
  · rw [nextOffset_of_lt hi]
    exact t.aligned _ (get_mem hi)
  · rw [nextOffset_of_ge hi]
    exact t.end_aligned

theorem start_le (hi : i < t.entries.length) : t.startOffset ≤ (t.get i).offset := by
  have hhead := t.head_offset
  rw [List.head?_eq_getElem?, List.getElem?_eq_getElem (by omega), Option.map_some,
    Option.some.injEq] at hhead
  rw [← hhead, ← get_of_lt (by omega : 0 < t.entries.length)]
  rcases Nat.eq_zero_or_pos i with rfl | hpos
  · exact Nat.le_refl _
  · exact Nat.le_of_lt (get_lt_get hpos hi)

theorem isInclude_get (hi : i < t.entries.length) : t.getOffsets.isInclude (t.get i).offset = true := by
  have hstart := start_le hi
  have hend := t.lt_end _ (get_mem hi)
  exact Bool.and_eq_true_iff.mpr
    ⟨decide_eq_true (Int.ofNat_le.mpr hstart), decide_eq_true (Int.ofNat_lt.mpr hend)⟩

/-- **A place has one entry.** -/
theorem Covers.unique (h : t.Covers i p) (h' : t.Covers j p) : i = j := by
  have hright : ∀ {i j : Nat}, t.Covers i p → t.Covers j p → ¬ i < j := by
    intro i j hi hj hlt
    obtain ⟨-, -, hi⟩ := hi
    obtain ⟨hlen, hj, -⟩ := hj
    rw [nextOffset_of_lt (by omega)] at hi
    rcases Nat.lt_or_eq_of_le (show i + 1 ≤ j from hlt) with hgap | rfl
    · have := get_lt_get hgap hlen
      omega
    · omega
  have := hright h h'
  have := hright h' h
  omega

/-- **`Find` gives the entry of a place** in the table. -/
theorem find_covers (hstart : t.startOffset ≤ p) (hend : p < t.endOffset) :
    ∃ i, t.find p = some i ∧ t.Covers i p := by
  have hfirst : ∀ h : 0 < t.entries.length, t.entries[0].offset = t.startOffset := by
    intro h
    have hhead := t.head_offset
    rwa [List.head?_eq_getElem?, List.getElem?_eq_getElem h, Option.map_some, Option.some.injEq] at hhead
  have hlen : 0 < t.entries.length := by
    refine length_pos_iff.mpr fun hnil => ?_
    have hhead := t.head_offset
    rw [hnil] at hhead
    simp at hhead
  generalize hpos : (t.entries.findIdx fun e => p < e.offset) = pos
  have hle : pos ≤ t.entries.length := hpos ▸ findIdx_le_length
  have hbehind : ∀ h : pos < t.entries.length, p < t.entries[pos].offset := by
    intro h
    subst hpos
    exact of_decide_eq_true (findIdx_getElem (w := h))
  have hbefore : ∀ k (h : k < pos), t.entries[k].offset ≤ p := by
    intro k h
    subst hpos
    have := not_of_lt_findIdx h
    simpa using this
  have hne : 0 < pos := by
    rcases Nat.eq_zero_or_pos pos with rfl | h
    · have := hbehind hlen
      have := hfirst hlen
      omega
    · exact h
  refine ⟨pos - 1, by rw [find, hpos]; exact if_pos hne, by omega, ?_, ?_⟩
  · rw [get_of_lt (by omega)]
    exact hbefore (pos - 1) (by omega)
  · rcases Nat.lt_or_ge pos t.entries.length with h | h
    · rw [nextOffset_of_lt (by omega), get_of_lt (by omega)]
      have := hbehind h
      simpa [Nat.sub_add_cancel hne] using this
    · rwa [nextOffset_of_ge (by omega)]

theorem find_eq (h : t.Covers i p) : t.find p = some i := by
  obtain ⟨hi, hle, hlt⟩ := h
  obtain ⟨j, hj, hcovers⟩ := find_covers (Nat.le_trans (start_le hi) hle)
    (Nat.lt_of_lt_of_le hlt nextOffset_le_end)
  rw [hj, hcovers.unique ⟨hi, hle, hlt⟩]

end CounterTable

/-! ## 4. The IV of a place -/

theorem length_bigEndianBytes {n value : Nat} : (bigEndianBytes n value).length = n := by
  rw [bigEndianBytes, length_map, length_reverse, length_range]

theorem counterValue_append {l l' : List UInt8} :
    counterValue (l ++ l') = counterValue l * 256 ^ l'.length + counterValue l' := by
  rw [counterValue, map_append, bigEndian_append, length_map]
  rfl

theorem counterValue_bigEndianBytes {n value : Nat} :
    counterValue (bigEndianBytes n value) = value % 256 ^ n := by
  induction n with
  | zero => rw [Nat.pow_zero, Nat.mod_one]; rfl
  | succ n ih =>
    have hsplit : bigEndianBytes (n + 1) value =
        [UInt8.ofNat (value / 256 ^ n)] ++ bigEndianBytes n value := by
      rw [bigEndianBytes, range_succ, reverse_append]
      rfl
    have hdigit : counterValue [UInt8.ofNat (value / 256 ^ n)] = value / 256 ^ n % 256 :=
      Nat.zero_add _
    rw [hsplit, counterValue_append, ih, hdigit, length_bigEndianBytes, Nat.pow_succ, Nat.mod_mul,
      Nat.add_comm, Nat.mul_comm]

theorem counterValue_makeIv {upper offset : Nat} (hupper : upper < 2 ^ 64) (hoffset : offset < 2 ^ 64) :
    counterValue (makeIv upper offset) = upper * 2 ^ 64 + offset / aesBlockSize := by
  have hlow : offset / aesBlockSize < 2 ^ 64 := Nat.lt_of_le_of_lt (Nat.div_le_self _ _) hoffset
  have hpow : 256 ^ 8 = 2 ^ 64 := by decide
  rw [makeIv, counterValue_append, length_bigEndianBytes, counterValue_bigEndianBytes,
    counterValue_bigEndianBytes, hpow, Nat.mod_eq_of_lt hupper, Nat.mod_eq_of_lt hlow]

theorem upperIvValue_lt {generation secureValue : UInt32} :
    upperIvValue generation secureValue < 2 ^ 64 := by
  have hlow := generation.toNat_lt
  have hhigh := secureValue.toNat_lt
  rw [upperIvValue]
  omega

namespace AesCtrCounterExtendedStorage

variable {s : AesCtrCounterExtendedStorage} {base : VirtualFile} {buffer into : Memory}
  {size offset endOffset index curOffset k : Nat}

/-- **The decrypted file**: the generation of the entry of a place gives the upper half of its
counter. -/
def decrypted (s : AesCtrCounterExtendedStorage) (base : VirtualFile) : Memory := fun p =>
  let entry := s.table.get ((s.table.find p).getD 0)
  if entry.encryptionValue = Encryption.encrypted then
    (aesCtr s.keystream).apply (upperIvValue entry.generation.toUInt32 s.secureValue * 2 ^ 64 +
      s.counterOffset / aesBlockSize) base.byte p
  else base.byte p

theorem transcodeCtr_entryIv {entry : CounterEntry} {curSize place : Nat} {src dest : Memory}
    (hplace : aesBlockSize ∣ place) (hend : place < s.table.endOffset) (hk : k < curSize)
    (hsrc : src k = base.byte (place + k)) :
    transcodeCtr s.keystream (s.entryIv entry (s.counterOffset + place)) src curSize dest k =
      (aesCtr s.keystream).apply (upperIvValue entry.generation.toUInt32 s.secureValue * 2 ^ 64 +
        s.counterOffset / aesBlockSize) base.byte (place + k) := by
  have hle := s.counterOffset_le
  have hblocks : (s.counterOffset + place) / aesBlockSize =
      s.counterOffset / aesBlockSize + place / aesBlockSize := by
    obtain ⟨n, rfl⟩ := hplace
    rw [Nat.add_mul_div_left _ _ (by decide), Nat.mul_div_cancel_left _ (by decide)]
  rw [transcodeCtr_of_lt hk, entryIv, counterValue_makeIv upperIvValue_lt (by omega), hblocks,
    ← Nat.add_assoc]
  exact apply_place hplace hsrc.symm

theorem decrypted_of_covers {p : Nat} (hcovers : s.table.Covers index p) : decrypted s base p =
      if (s.table.get index).encryptionValue = Encryption.encrypted then
        (aesCtr s.keystream).apply (upperIvValue (s.table.get index).generation.toUInt32 s.secureValue *
          2 ^ 64 + s.counterOffset / aesBlockSize) base.byte p
      else base.byte p := by
  rw [decrypted, CounterTable.find_eq hcovers]
  rfl

/-! ## 5. What a read leaves -/

/-- The number of bytes that one turn of the loop does. -/
def pieceSize (s : AesCtrCounterExtendedStorage) (endOffset index curOffset : Nat) : Nat :=
  min (endOffset - curOffset) ((s.table.nextOffset index - (s.table.get index).offset) -
    (curOffset - (s.table.get index).offset))

/-- One turn of the loop: what it leaves in the buffer. -/
def readPiece (s : AesCtrCounterExtendedStorage) (offset endOffset index curOffset : Nat)
    (buffer : Memory) : Memory :=
  let curEntry := s.table.get index
  let curSize := pieceSize s endOffset index curOffset
  let curData : Memory := fun k => buffer (curOffset - offset + k)
  if curEntry.encryptionValue = Encryption.encrypted then
    memcpyAt buffer (curOffset - offset) (transcodeCtr s.keystream (s.entryIv curEntry
      (s.counterOffset + curEntry.offset + (curOffset - curEntry.offset))) curData curSize curData) curSize
  else buffer

theorem readLoop_turn (hcovers : s.table.Covers index curOffset) (hend : curOffset < endOffset) :
    s.readLoop offset endOffset index curOffset buffer =
      s.readLoop offset endOffset (if s.table.canMoveNext index then index + 1 else index)
        (curOffset + pieceSize s endOffset index curOffset)
        (readPiece s offset endOffset index curOffset buffer) := by
  rw [readLoop, if_pos hend]
  refine if_pos ⟨hcovers.2.1, hcovers.2.2, CounterTable.nextOffset_dvd, fun hmoves => ?_⟩
  have hnext : index + 1 < s.table.entries.length := of_decide_eq_true hmoves
  rw [CounterTable.nextOffset_of_lt hnext]
  exact CounterTable.isInclude_get hnext

theorem pieceSize_eq (hcovers : s.table.Covers index curOffset) : pieceSize s endOffset index curOffset =
      min (endOffset - curOffset) (s.table.nextOffset index - curOffset) := by
  obtain ⟨-, hle, hlt⟩ := hcovers
  rw [pieceSize]
  omega

theorem readPiece_byte (hcovers : s.table.Covers index curOffset) (hoffset : offset ≤ curOffset)
    (hdvd : aesBlockSize ∣ curOffset)
    (hbuffer : ∀ k, curOffset ≤ offset + k → offset + k < endOffset → buffer k = base.byte (offset + k))
    (hlo : curOffset ≤ offset + k) (hhi : offset + k < endOffset)
    (hentry : offset + k < s.table.nextOffset index) :
    readPiece s offset endOffset index curOffset buffer k = decrypted s base (offset + k) := by
  have hsize := @pieceSize_eq s endOffset index curOffset hcovers
  obtain ⟨hindex, hle, hlt⟩ := hcovers
  have hend := @CounterTable.nextOffset_le_end s.table index
  rw [decrypted_of_covers ⟨hindex, Nat.le_trans hle hlo, hentry⟩, readPiece]
  split
  · obtain ⟨j, rfl⟩ : ∃ j, k = curOffset - offset + j := ⟨k - (curOffset - offset), by omega⟩
    have hplace : offset + (curOffset - offset + j) = curOffset + j := by omega
    have hcounter : s.counterOffset + (s.table.get index).offset +
        (curOffset - (s.table.get index).offset) = s.counterOffset + curOffset := by omega
    rw [memcpyAt_of_mem (by omega), hcounter, hplace]
    refine transcodeCtr_entryIv hdvd (by omega) (by omega) ?_
    rw [hbuffer _ hlo hhi, hplace]
  · exact hbuffer k hlo hhi

theorem readPiece_frame (hout : k < curOffset - offset ∨
    curOffset - offset + pieceSize s endOffset index curOffset ≤ k) :
    readPiece s offset endOffset index curOffset buffer k = buffer k := by
  rw [readPiece]
  split
  · exact memcpyAt_of_not_mem hout
  · rfl

/-- **The loop decrypts its range and trips no assertion**, by induction on what is left. -/
theorem readLoop_byte (hend : endOffset ≤ s.table.endOffset) (haligned : aesBlockSize ∣ endOffset)
    (hcovers : curOffset < endOffset → s.table.Covers index curOffset) (hoffset : offset ≤ curOffset)
    (hdvd : aesBlockSize ∣ curOffset)
    (hbuffer : ∀ k, curOffset ≤ offset + k → offset + k < endOffset → buffer k = base.byte (offset + k)) :
    ∃ out, s.readLoop offset endOffset index curOffset buffer = some out ∧
      (∀ k, curOffset ≤ offset + k → offset + k < endOffset → out k = decrypted s base (offset + k)) ∧
      ∀ k, offset + k < curOffset → out k = buffer k := by
  induction hn : endOffset - curOffset using Nat.strong_induction_on
    generalizing index curOffset buffer with
  | _ n ih =>
    subst hn
    rcases Nat.lt_or_ge curOffset endOffset with hlt | hge
    · have hcov := hcovers hlt
      have hsize := @pieceSize_eq s endOffset index curOffset hcov
      obtain ⟨hindex, hle, hnext⟩ := hcov
      have hnext_dvd := @CounterTable.nextOffset_dvd s.table index
      have hpiece_dvd : aesBlockSize ∣ curOffset + pieceSize s endOffset index curOffset := by
        rcases Nat.le_total (endOffset - curOffset) (s.table.nextOffset index - curOffset) with h | h
        · rwa [hsize, Nat.min_eq_left h, Nat.add_sub_cancel' (Nat.le_of_lt hlt)]
        · rwa [hsize, Nat.min_eq_right h, Nat.add_sub_cancel' (Nat.le_of_lt hnext)]
      -- a turn that does not end the read ends at the next entry
      have hnext_covers : curOffset + pieceSize s endOffset index curOffset < endOffset →
          s.table.Covers (if s.table.canMoveNext index then index + 1 else index)
            (curOffset + pieceSize s endOffset index curOffset) := by
        intro hmore
        have hat : curOffset + pieceSize s endOffset index curOffset = s.table.nextOffset index := by
          omega
        have hmoves : index + 1 < s.table.entries.length := by
          refine Nat.lt_of_not_le fun hlast => ?_
          rw [CounterTable.nextOffset_of_ge hlast] at hat
          omega
        rw [hat, CounterTable.nextOffset_of_lt hmoves]
        rw [show s.table.canMoveNext index = true from decide_eq_true hmoves, if_pos rfl]
        refine ⟨hmoves, Nat.le_refl _, ?_⟩
        rcases Nat.lt_or_ge (index + 1 + 1) s.table.entries.length with h | h
        · rw [CounterTable.nextOffset_of_lt h]
          exact CounterTable.get_lt_get (Nat.lt_succ_self _) h
        · rw [CounterTable.nextOffset_of_ge h]
          exact s.table.lt_end _ (CounterTable.get_mem hmoves)
      have hbehind : ∀ k, curOffset + pieceSize s endOffset index curOffset ≤ offset + k →
          offset + k < endOffset →
          readPiece s offset endOffset index curOffset buffer k = base.byte (offset + k) := by
        intro k hk hk'
        rw [readPiece_frame (by omega), hbuffer k (by omega) hk']
      obtain ⟨out, hout, hlater, hkeep⟩ := @ih _ (by omega) _ _ _ hnext_covers (by omega) hpiece_dvd
        hbehind rfl
      refine ⟨out, ?_, fun k hk hk' => ?_, fun k hk => ?_⟩
      · rw [readLoop_turn ⟨hindex, hle, hnext⟩ hlt, hout]
      · rcases Nat.lt_or_ge (offset + k) (curOffset + pieceSize s endOffset index curOffset) with h | h
        · rw [hkeep k h]
          exact readPiece_byte ⟨hindex, hle, hnext⟩ hoffset hdvd hbuffer hk hk' (by omega)
        · exact hlater k h hk'
      · rw [hkeep k (by omega), readPiece_frame (by omega)]
    · refine ⟨buffer, ?_, fun k hk hk' => by omega, fun k _ => rfl⟩
      rw [readLoop, if_neg (by omega)]

/-- **`Read` of an aligned range of the table** trips no assertion and leaves its range of the
decrypted file in the buffer. -/
theorem read_byte (hoffset : aesBlockSize ∣ offset) (hsize : aesBlockSize ∣ size)
    (hstart : s.table.startOffset ≤ offset) (hend : offset + size ≤ s.table.endOffset)
    (hfile : s.table.endOffset ≤ base.size) :
    ∃ out, s.read base size offset into = some out ∧ ∀ k < size, out k = decrypted s base (offset + k) := by
  rcases Nat.eq_zero_or_pos size with rfl | hpos
  · exact ⟨into, by rw [read, if_pos rfl], fun k hk => by omega⟩
  · obtain ⟨index, hfind, hcovers⟩ := CounterTable.find_covers hstart (by omega)
    have hrange : s.table.getOffsets.isIncludeRange offset size = true := by
      rw [Offsets.isIncludeRange, CounterTable.getOffsets]
      simp only [Bool.and_eq_true, decide_eq_true_eq]
      omega
    obtain ⟨out, hout, hbyte, -⟩ := @readLoop_byte s base (base.read offset size into) offset
      (offset + size) index offset hend (Nat.dvd_add hoffset hsize) (fun _ => hcovers) (Nat.le_refl _)
      hoffset fun k hk hk' => VirtualFile.read_of_lt (by omega) (by omega)
    refine ⟨out, ?_, fun k hk => hbyte k (by omega) (by omega)⟩
    rw [read, if_neg (by omega), assert_bind_of hoffset, assert_bind_of hsize, assert_bind_of hrange]
    dsimp only
    rw [hfind]
    exact (assert_bind_of (s.table.aligned _ (CounterTable.get_mem hcovers.1))).trans
      ((assert_bind_of (CounterTable.isInclude_get hcovers.1)).trans hout)

end AesCtrCounterExtendedStorage

end Yuzu.FileSys
