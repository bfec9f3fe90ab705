/-
  File:      Yuzu/FileSys/ConcatenatedVfsFile.lean
  Subject:   ConcatenatedVfsFile (core/file_sys/vfs/vfs_concat.cpp): files that read as one.

  The map holds each member with its place, so a member that is empty shares its place with the next
  one. A read starts at the last member whose place is not behind the offset and goes on from member
  to member. A member is a file that reads fully inside its size; what it does past its end is open.
-/
import Mathlib.Data.List.Basic
import Yuzu.FileSys.VirtualFile

namespace Yuzu.FileSys

open List

/-! ## 1. The files -/

/-- **A member file**: its `Read` takes an offset, a length and the buffer, and gives the count that was
read and what the buffer holds afterwards. -/
structure MemberFile where
  size : Nat
  byte : Nat → UInt8
  read : Nat → Nat → Memory → Nat × Memory
  reads_fully : ∀ offset length data, offset + length ≤ size →
    read offset length data = (length, (VirtualFile.mk size byte).read offset length data)

/-- `ConcatenationEntry`. -/
structure ConcatenationEntry where
  offset : Nat
  file : MemberFile

/-- `ConcatenatedVfsFile`, less its name. -/
structure ConcatenatedVfsFile where
  concatenationMap : List ConcatenationEntry

/-- What `MakeConcatenatedFile` returns: the only file of a list as it is, or a concatenation. -/
inductive MadeFile where
  | member (file : MemberFile)
  | concatenated (file : ConcatenatedVfsFile)

/-- The map of `MakeConcatenatedFile(name, files)`, from `last_offset` on. -/
def makeConcatenationMap (lastOffset : Nat) : List MemberFile → List ConcatenationEntry
  | [] => []
  | file :: files => ⟨lastOffset, file⟩ :: makeConcatenationMap (lastOffset + file.size) files

/-- `MakeConcatenatedFile(name, files)`. -/
def makeConcatenatedFile : List MemberFile → Option MadeFile
  | [] => none
  | [file] => some (.member file)
  | files => some (.concatenated ⟨makeConcatenationMap 0 files⟩)

namespace ConcatenatedVfsFile

/-- `std::prev(std::upper_bound(..))`, with the entries that follow. -/
def lastNotBehind (entries : List ConcatenationEntry) (key : Nat) : List ConcatenationEntry :=
  entries.drop ((entries.findIdx fun it => decide (key < it.offset)) - 1)

/-- The loop of `Read` from an entry on: where it ends, and the buffer. -/
def readLoop (offset : Nat) : List ConcatenationEntry → Nat → Nat → Memory → Nat × Memory
  | [], curOffset, _, data => (curOffset, data)
  | it :: rest, curOffset, curLength, data =>
    if 0 < curLength then
      if it.offset + it.file.size < curOffset then (curOffset, data)
      else
        let fileSeek := curOffset - it.offset
        let intendedReadSize := min curLength (it.file.size - fileSeek)
        let pos := curOffset - offset
        let result := it.file.read fileSeek intendedReadSize fun k => data (pos + k)
        let actualReadSize := result.1
        let data := behind data pos result.2
        if actualReadSize < intendedReadSize then (curOffset + actualReadSize, data)
        else readLoop offset rest (curOffset + actualReadSize) (curLength - actualReadSize) data
    else (curOffset, data)

/-- `Read`: the count, and the buffer. -/
def read (c : ConcatenatedVfsFile) (data : Memory) (length offset : Nat) : Nat × Memory :=
  if c.concatenationMap.isEmpty then (0, data)
  else
    let result := readLoop offset (lastNotBehind c.concatenationMap offset) offset length data
    (result.1 - offset, result.2)

end ConcatenatedVfsFile

/-! ## 2. The concatenation -/

/-- The bytes of the files, one after the other. -/
def joinedByte : List MemberFile → Memory
  | [] => fun _ => 0
  | file :: files => fun k => if k < file.size then file.byte k else joinedByte files (k - file.size)

/-- The size of the files together. -/
def totalSize : List MemberFile → Nat
  | [] => 0
  | file :: files => file.size + totalSize files

/-- **The concatenation** of files, as one file. -/
def joined (files : List MemberFile) : VirtualFile := ⟨totalSize files, joinedByte files⟩

variable {files : List MemberFile} {file : MemberFile} {data : Memory}
  {offset place cur length lastOffset k n : Nat}

theorem joinedByte_of_lt (hk : k < file.size) : joinedByte (file :: files) k = file.byte k := if_pos hk

theorem joinedByte_of_ge (hk : file.size ≤ k) :
    joinedByte (file :: files) k = joinedByte files (k - file.size) := if_neg (by omega)

/-- What a read leaves in the buffer when it goes on from `cur`: the bytes of the files, of which the
first stands at `place`. -/
def filled (files : List MemberFile) (offset place cur length : Nat) (data : Memory) : Memory :=
  memcpyAt data (cur - offset) (fun k => joinedByte files (cur - place + k))
    (min length (place + totalSize files - cur))

/-! ## 3. The loop -/

namespace ConcatenatedVfsFile

theorem readLoop_zero (entries : List ConcatenationEntry) :
    readLoop offset entries cur 0 data = (cur, data) := by
  cases entries with
  | nil => rfl
  | cons it rest => rw [readLoop, if_neg (Nat.lt_irrefl 0)]

/-- **The read of one member**: the loop takes what the member has from its seek position on. -/
theorem readLoop_member (hlen : 0 < length) (hlo : place ≤ cur) (hhi : cur ≤ place + file.size) :
    readLoop offset (makeConcatenationMap place (file :: files)) cur length data =
      readLoop offset (makeConcatenationMap (place + file.size) files)
        (cur + min length (place + file.size - cur)) (length - min length (place + file.size - cur))
        (memcpyAt data (cur - offset) (fun k => file.byte (cur - place + k))
          (min length (place + file.size - cur))) := by
  have hsize : file.size - (cur - place) = place + file.size - cur := by omega
  have hread := file.reads_fully (cur - place) (min length (place + file.size - cur))
    (fun k => data (cur - offset + k)) (by omega)
  rw [makeConcatenationMap, readLoop, if_pos hlen, if_neg (Nat.not_lt.mpr hhi)]
  dsimp only
  rw [hsize, hread, if_neg (Nat.lt_irrefl _)]
  exact congrArg _ (behind_read (f := ⟨file.size, file.byte⟩) (by dsimp only; omega))

/-- **The loop reads the concatenation** from `cur` on, where the first member has not ended before
`cur` or is the last one. -/
theorem readLoop_eq (hoff : offset ≤ cur) (hlo : place ≤ cur)
    (hfirst : ∀ file rest, files = file :: rest → cur ≤ place + file.size ∨ rest = []) :
    readLoop offset (makeConcatenationMap place files) cur length data =
      (cur + min length (place + totalSize files - cur), filled files offset place cur length data) := by
  induction files generalizing place cur length data with
  | nil =>
    have hnone : min length (place + totalSize [] - cur) = 0 := by
      rw [totalSize]
      omega
    rw [makeConcatenationMap, readLoop, filled, hnone, memcpyAt_nothing]
    rfl
  | cons file rest ih =>
    rcases Nat.eq_zero_or_pos length with rfl | hlen
    · rw [readLoop_zero, filled, Nat.zero_min, memcpyAt_nothing]
      rfl
    rcases Nat.lt_or_ge (place + file.size) cur with hpast | hin
    · -- past the end of the last member
      obtain rfl : rest = [] := (hfirst file rest rfl).resolve_left (by omega)
      have hnone : min length (place + totalSize [file] - cur) = 0 := by
        rw [totalSize, totalSize]
        omega
      rw [makeConcatenationMap, readLoop, if_pos hlen, if_pos hpast, filled, hnone, memcpyAt_nothing]
      rfl
    rw [readLoop_member hlen hlo hin]
    rcases Nat.lt_or_ge length (place + file.size - cur) with hshort | hlong
    · -- the member has all that is left to read
      rw [Nat.min_eq_left (by omega), Nat.sub_self, readLoop_zero, filled, totalSize,
        Nat.min_eq_left (by omega)]
      refine congrArg (Prod.mk _) (funext fun k => ?_)
      unfold memcpyAt
      by_cases hk : cur - offset ≤ k ∧ k < cur - offset + length
      · have hin : cur - place + (k - (cur - offset)) < file.size := by omega
        rw [if_pos hk, if_pos hk]
        exact (joinedByte_of_lt hin).symm
      · rw [if_neg hk, if_neg hk]
    · have hend : cur + (place + file.size - cur) = place + file.size := by omega
      rw [Nat.min_eq_right hlong, hend, ih (by omega) (Nat.le_refl _) fun _ _ _ => by omega, totalSize]
      refine Prod.ext (by dsimp only; omega) (funext fun k => ?_)
      dsimp only
      unfold filled memcpyAt
      rw [totalSize]
      by_cases hk : place + file.size - offset ≤ k ∧
          k < place + file.size - offset + min (length - (place + file.size - cur))
            (place + file.size + totalSize rest - (place + file.size))
      · have hout : file.size ≤ cur - place + (k - (cur - offset)) := by omega
        rw [if_pos hk, if_pos (by omega)]
        dsimp only
        rw [joinedByte_of_ge hout]
        exact congrArg (joinedByte rest) (by omega)
      · rw [if_neg hk]
        by_cases hk' : cur - offset ≤ k ∧ k < cur - offset + (place + file.size - cur)
        · have hin' : cur - place + (k - (cur - offset)) < file.size := by omega
          rw [if_pos hk', if_pos (by omega)]
          exact (joinedByte_of_lt hin').symm
        · rw [if_neg hk', if_neg (by omega)]

/-! ## 4. The start of a read -/

/-- **The search finds the start**: from the member that it gives on, the files are a part of the
concatenation, and the next member stands behind the key. -/
theorem lastNotBehind_spec (files : List MemberFile) (hne : files ≠ []) (hplace : place ≤ cur) :
    ∃ place' rest, lastNotBehind (makeConcatenationMap place files) cur =
        makeConcatenationMap place' rest ∧ place ≤ place' ∧ place' ≤ cur ∧
      (∀ file more, rest = file :: more → cur ≤ place' + file.size ∨ more = []) ∧
      place' + totalSize rest = place + totalSize files ∧
      ∀ k, joinedByte rest k = joinedByte files (place' - place + k) := by
  induction files generalizing place with
  | nil => exact absurd rfl hne
  | cons file files ih =>
    have hhead : (decide (cur < place)) = false := decide_eq_false (by omega)
    cases files with
    | nil =>
      refine ⟨place, [file], ?_, Nat.le_refl _, hplace, ?_, rfl, fun k => ?_⟩
      · simp [lastNotBehind, makeConcatenationMap, findIdx_cons, hhead]
      · intro f more hf
        injection hf with _ hmore
        exact Or.inr hmore.symm
      · rw [Nat.sub_self, Nat.zero_add]
    | cons next more =>
      by_cases hnext : cur < place + file.size
      · -- the next member stands behind the key
        refine ⟨place, file :: next :: more, ?_, Nat.le_refl _, hplace, ?_, rfl, fun k => ?_⟩
        · simp [lastNotBehind, makeConcatenationMap, findIdx_cons, hhead, hnext]
        · intro f rest hf
          injection hf with hf _
          exact Or.inl (hf ▸ Nat.le_of_lt hnext)
        · rw [Nat.sub_self, Nat.zero_add]
      · obtain ⟨place', rest, hdrop, hle, hcur, hfirst, htotal, hbyte⟩ :=
          ih (cons_ne_nil next more) (by omega : place + file.size ≤ cur)
        refine ⟨place', rest, ?_, by omega, hcur, hfirst, ?_, fun k => ?_⟩
        · rw [← hdrop]
          have hsecond : decide (cur < place + file.size) = false := decide_eq_false hnext
          simp [lastNotBehind, makeConcatenationMap, findIdx_cons, hhead, hsecond]
        · exact htotal.trans (Nat.add_assoc _ _ _)
        · have hbehind : file.size ≤ place' - place + k := by omega
          rw [hbyte, joinedByte_of_ge hbehind]
          exact congrArg (joinedByte (next :: more)) (by omega)

end ConcatenatedVfsFile

/-- **Concatenated files read as one**: a read of a concatenation of two or more files gives what the
one file gives that holds their bytes. -/
theorem concatenated_reads_as_one (first second : MemberFile) (others : List MemberFile) :
    ∃ c, makeConcatenatedFile (first :: second :: others) = some (.concatenated c) ∧
      ∀ data length offset, c.read data length offset =
        (min length (totalSize (first :: second :: others) - offset),
          (joined (first :: second :: others)).read offset length data) := by
  refine ⟨_, rfl, fun data length offset => ?_⟩
  obtain ⟨place, rest, hdrop, -, hcur, hfirst, htotal, hbyte⟩ :=
    ConcatenatedVfsFile.lastNotBehind_spec (first :: second :: others) (cons_ne_nil _ _)
      (Nat.zero_le offset)
  rw [Nat.zero_add] at htotal
  rw [ConcatenatedVfsFile.read, makeConcatenationMap, isEmpty_cons, if_neg Bool.false_ne_true,
    ← makeConcatenationMap, hdrop,
    ConcatenatedVfsFile.readLoop_eq (Nat.le_refl offset) hcur hfirst, htotal]
  refine Prod.ext (by dsimp only; omega) (funext fun k => ?_)
  dsimp only
  unfold filled memcpyAt VirtualFile.read
  rw [joined, htotal, Nat.sub_self, Nat.zero_add]
  by_cases hk : k < length ∧ offset + k < totalSize (first :: second :: others)
  · rw [if_pos hk, if_pos (by omega)]
    exact (hbyte _).trans (congrArg (joinedByte _) (by omega))
  · rw [if_neg hk, if_neg (by omega)]

/-- Two empty files around one of four bytes, and a read that ends past the end. -/
example :
    let empty : MemberFile := ⟨0, fun _ => 0, fun o n m => (n, (VirtualFile.mk 0 fun _ => 0).read o n m),
      fun _ _ _ _ => rfl⟩
    let four : MemberFile := ⟨4, UInt8.ofNat, fun o n m => (n, (VirtualFile.mk 4 UInt8.ofNat).read o n m),
      fun _ _ _ _ => rfl⟩
    let c : ConcatenatedVfsFile := ⟨makeConcatenationMap 0 [empty, four, empty]⟩
    (c.read (fun _ => 9) 5 2).1 = 2 ∧ (List.range 3).map (c.read (fun _ => 9) 5 2).2 = [2, 3, 9] := by
  decide

end Yuzu.FileSys
