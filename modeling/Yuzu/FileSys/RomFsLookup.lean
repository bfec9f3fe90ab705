/-
  File:      Yuzu/FileSys/RomFsLookup.lean
  Subject:   The lookup in a RomFS that `build` made.

  The contexts are counted while the tree is walked, so that every entry has its place in its table. The
  builder hashes a name as `char`: where that is signed, the hash is moved by a number that comes from
  the name alone (`signDrift`), and the entry is written into the bucket of that hash.
-/
import Yuzu.FileSys.RomFsTables

namespace Yuzu.FileSys

open Common List BitVec

/-! ## 1. Hashes -/

variable {path : List UInt8}

theorem romfsCalcPathHash_eq {charSigned : Bool} {parent start n : Nat}
    (h : start + n = path.length) : romfsCalcPathHash charSigned parent path start n =
      (path.drop start).foldl (hashStep charSigned) (BitVec.ofNat 32 parent ^^^ 123456789) := by
  have hname : path.drop start = (List.range n).map fun i => path.getD (start + i) 0 := by
    refine ext_getElem ?_ fun i h1 h2 => ?_
    · rw [length_drop, length_map, length_range]
      omega
    rw [length_drop] at h1
    rw [getElem_drop, getElem_map, getElem_range, getD_eq_getElem _ _ (by omega)]
  rw [romfsCalcPathHash, hname, foldl_map]

theorem rotate_xor (a b : BitVec 32) :
    ((a ^^^ b) >>> 5 ||| (a ^^^ b) <<< 27) = (a >>> 5 ||| a <<< 27) ^^^ (b >>> 5 ||| b <<< 27) := by
  refine eq_of_getLsbD_eq fun i hi => ?_
  simp only [getLsbD_or, getLsbD_xor, getLsbD_ushiftRight, getLsbD_shiftLeft]
  by_cases h : i < 27
  · simp [h]
  · have ha : a.getLsbD (5 + i) = false := getLsbD_of_ge a _ (by omega)
    have hb : b.getLsbD (5 + i) = false := getLsbD_of_ge b _ (by omega)
    simp [h, hi, ha, hb]

theorem charBits_signed (c : UInt8) :
    charBits true c = charBits false c ^^^ if 0x80 ≤ c then 0xFFFFFF00 else 0 := by
  have hall : ∀ n < 256, charBits true (UInt8.ofNat n) =
      charBits false (UInt8.ofNat n) ^^^ if 0x80 ≤ UInt8.ofNat n then 0xFFFFFF00 else 0 := by decide +kernel
  have h := hall c.toNat c.toNat_lt
  rwa [UInt8.ofNat_toNat] at h

theorem xor_xor_xor_comm (a b c d : BitVec 32) : a ^^^ b ^^^ (c ^^^ d) = a ^^^ c ^^^ (b ^^^ d) := by
  rw [BitVec.xor_assoc, BitVec.xor_assoc, ← BitVec.xor_assoc b c d, BitVec.xor_comm b c, BitVec.xor_assoc]

/-- **What signed characters do to a hash**: they move it by the drift of the name. -/
theorem foldl_hashStep_signed (name : List UInt8) (hash drift : BitVec 32) :
    name.foldl (hashStep true) (hash ^^^ drift) =
      name.foldl (hashStep false) hash ^^^ name.foldl driftStep drift := by
  induction name generalizing hash drift with
  | nil => rfl
  | cons c name ih =>
    rw [foldl_cons, foldl_cons, foldl_cons, ← ih]
    congr 1
    rw [hashStep, hashStep, driftStep, rotate_xor, charBits_signed, xor_xor_xor_comm]

theorem hash_written {charSigned : Bool} {start n : Nat} {e : RomFSEntry}
    (h : start + n = path.length) (hname : e.name = path.drop start) :
    romfsCalcPathHash charSigned e.parent path start n =
      if charSigned then e.hash ^^^ signDrift e.name else e.hash := by
  rw [romfsCalcPathHash_eq h, RomFSEntry.hash, romfsCalcPathHash_eq (Nat.zero_add _), drop_zero, ← hname]
  cases charSigned with
  | false => rfl
  | true =>
    rw [if_pos rfl, signDrift, ← xor_zero (x := BitVec.ofNat 32 e.parent ^^^ 123456789)]
    rw [foldl_hashStep_signed, xor_zero]
    rfl

/-! ## 2. The contexts -/

namespace RomFSBuildContext

variable {F : Type} {vfs : VfsFiles F} {c : RomFSBuildContext F}

/-- The bytes of a directory's entry. -/
def dirSize (d : RomFSBuildDirectoryContext) : Nat := dirEntrySize + alignUp (d.pathLen - d.curPathOfs) 4

/-- The bytes of a file's entry. -/
def fileSize (f : RomFSBuildFileContext F) : Nat := fileEntrySize + alignUp (f.pathLen - f.curPathOfs) 4

/-- **The contexts are counted**: the sizes of the tables are those of the entries, and the lengths those of
the paths. -/
structure Counted (c : RomFSBuildContext F) : Prop where
  dirTableSize : c.dirTableSize = (c.directories.map dirSize).sum
  fileTableSize : c.fileTableSize = (c.files.map fileSize).sum
  dirPath : ∀ d ∈ c.directories, d.path.length = d.pathLen ∧ d.curPathOfs ≤ d.pathLen
  filePath : ∀ f ∈ c.files, f.path.length = f.pathLen ∧ f.curPathOfs ≤ f.pathLen

theorem Counted.addDirectory (h : Counted c) {d : RomFSBuildDirectoryContext}
    (hd : d.path.length = d.pathLen ∧ d.curPathOfs ≤ d.pathLen) (parent : Nat) :
    Counted (c.addDirectory parent d) where
  dirTableSize := by
    rw [RomFSBuildContext.addDirectory, map_append, sum_append, h.dirTableSize]
    rfl
  fileTableSize := h.fileTableSize
  dirPath d' hd' := by
    rcases mem_append.mp hd' with hd' | hd'
    · exact h.dirPath d' hd'
    · obtain rfl := mem_singleton.mp hd'
      exact hd
  filePath := h.filePath

theorem Counted.addFile (h : Counted c) {f : RomFSBuildFileContext F}
    (hf : f.path.length = f.pathLen ∧ f.curPathOfs ≤ f.pathLen) : Counted (c.addFile f) where
  dirTableSize := h.dirTableSize
  fileTableSize := by
    rw [RomFSBuildContext.addFile, map_append, sum_append, h.fileTableSize]
    rfl
  dirPath := h.dirPath
  filePath f' hf' := by
    rcases mem_append.mp hf' with hf' | hf'
    · exact h.filePath f' hf'
    · obtain rfl := mem_singleton.mp hf'
      exact hf

theorem child_path {pathLen : Nat} (h : path.length = pathLen) (name : List UInt8) :
    (path ++ separator :: name).length = pathLen + 1 + name.length ∧
      pathLen + 1 ≤ pathLen + 1 + name.length := by
  rw [length_append, length_cons, h]
  omega

theorem Counted.visitFile (h : Counted c) {parent : RomFSBuildDirectoryContext}
    (hparent : parent.path.length = parent.pathLen) (ext : Option (VfsDirectory F)) (file : F) :
    Counted (visitFile vfs ext parent c file) := by
  rw [RomFSBuildContext.visitFile]
  dsimp only
  split
  · exact h
  · exact h.addFile (child_path hparent _)

theorem Counted.visitFiles {parent : RomFSBuildDirectoryContext}
    (hparent : parent.path.length = parent.pathLen) (ext : Option (VfsDirectory F)) (files : List F) (h : Counted c) :
    Counted (files.foldl (RomFSBuildContext.visitFile vfs ext parent) c) := by
  induction files generalizing c with
  | nil => exact h
  | cons file files ih => exact ih (h.visitFile hparent ext file)

mutual

/-- **The walk counts what it adds**, by induction over the tree. -/
theorem Counted.visitDirectory : ∀ (dir : VfsDirectory F) (ext : Option (VfsDirectory F))
    (parent : RomFSBuildDirectoryContext) {c : RomFSBuildContext F}, Counted c →
    parent.path.length = parent.pathLen → Counted (visitDirectory vfs dir ext parent c)
  | .mk _ files subdirectories, ext, parent, _, h, hparent => by
    rw [RomFSBuildContext.visitDirectory]
    exact Counted.visitSubdirectories subdirectories ext parent (h.visitFiles hparent ext files) hparent

theorem Counted.visitSubdirectories : ∀ (dirs : List (VfsDirectory F)) (ext : Option (VfsDirectory F))
    (parent : RomFSBuildDirectoryContext) {c : RomFSBuildContext F}, Counted c →
    parent.path.length = parent.pathLen → Counted (visitSubdirectories vfs dirs ext parent c)
  | [], _, _, _, h, _ => by
    rw [RomFSBuildContext.visitSubdirectories]
    exact h
  | dir :: rest, ext, parent, _, h, hparent => by
    rw [RomFSBuildContext.visitSubdirectories]
    split
    · exact Counted.visitSubdirectories rest ext parent h hparent
    · have hchild := child_path hparent dir.getName
      exact Counted.visitSubdirectories rest ext parent
        (Counted.visitDirectory dir _ _ (h.addDirectory hchild parent.id) hchild.1) hparent

end

theorem counted_make (vfs : VfsFiles F) (base : VfsDirectory F) (ext : Option (VfsDirectory F)) :
    Counted (make vfs base ext) := by
  refine Counted.visitDirectory base ext _ ⟨rfl, rfl, fun d hd => ?_, fun f hf => absurd hf not_mem_nil⟩ rfl
  obtain rfl := mem_singleton.mp hd
  exact ⟨rfl, Nat.le_refl 0⟩

/-! ## 3. The offsets -/

/-- Entries with their offsets and sizes lie one behind the other. -/
def Laid : Nat → List (Nat × Nat) → Prop
  | _, [] => True
  | start, e :: rest => e.1 = start ∧ Laid (start + e.2) rest

theorem Laid.bounds : ∀ {l : List (Nat × Nat)} {start : Nat}, Laid start l →
    ∀ e ∈ l, start ≤ e.1 ∧ e.1 + e.2 ≤ start + (l.map Prod.snd).sum
  | [], _, _, e, he => absurd he not_mem_nil
  | e :: l, start, h, e', he' => by
    rw [map_cons, sum_cons]
    rcases mem_cons.mp he' with rfl | he'
    · have := h.1
      omega
    · have := h.2.bounds e' he'
      omega

theorem Laid.pairwise : ∀ {l : List (Nat × Nat)} {start : Nat}, Laid start l →
    l.Pairwise fun e e' => e.1 + e.2 ≤ e'.1
  | [], _, _ => List.Pairwise.nil
  | e :: l, start, h => by
    refine pairwise_cons.mpr ⟨fun e' he' => ?_, h.2.pairwise⟩
    rw [h.1]
    exact (h.2.bounds e' he').1

/-- The offset and the size of a directory's entry. -/
def dirPlace (d : RomFSBuildDirectoryContext) : Nat × Nat := (d.entryOffset, dirSize d)

/-- The offset and the size of a file's entry. -/
def filePlace (f : RomFSBuildFileContext F) : Nat × Nat := (f.entryOffset, fileSize f)

theorem laid_assignFileOffsets : ∀ (l : List (RomFSBuildFileContext F)) (partition start : Nat),
    start + (l.map fileSize).sum < 2 ^ 32 →
      Laid start ((assignFileOffsets partition start l).1.map filePlace)
  | [], _, _, _ => trivial
  | f :: l, partition, start, h => by
    rw [map_cons, sum_cons] at h
    refine ⟨rfl, ?_⟩
    have hsize : filePlace { f with offset := alignUp partition 16, entryOffset := start } =
        (start, fileSize f) := rfl
    rw [hsize]
    have hrest := laid_assignFileOffsets l (alignUp partition 16 + f.size) (start + fileSize f) (by omega)
    rwa [← Nat.mod_eq_of_lt (show start + fileSize f < 2 ^ 32 by omega)] at hrest ⊢

theorem laid_assignDirOffsets : ∀ (l : List RomFSBuildDirectoryContext) (start : Nat),
    start + (l.map dirSize).sum < 2 ^ 32 → Laid start ((assignDirOffsets start l).map dirPlace)
  | [], _, _ => trivial
  | d :: l, start, h => by
    rw [map_cons, sum_cons] at h
    refine ⟨rfl, ?_⟩
    have hsize : dirPlace { d with entryOffset := start } = (start, dirSize d) := rfl
    rw [hsize]
    have hrest := laid_assignDirOffsets l (start + dirSize d) (by omega)
    rwa [← Nat.mod_eq_of_lt (show start + dirSize d < 2 ^ 32 by omega)] at hrest ⊢

section Projections

variable {β : Type}

theorem map_assignFileOffsets {g : RomFSBuildFileContext F → β}
    (hg : ∀ f o e, g { f with offset := o, entryOffset := e } = g f) :
    ∀ (l : List (RomFSBuildFileContext F)) (partition start : Nat),
      (assignFileOffsets partition start l).1.map g = l.map g
  | [], _, _ => rfl
  | f :: l, partition, start => by
    rw [assignFileOffsets, map_cons, map_cons, hg, map_assignFileOffsets hg l]

variable {g : RomFSBuildDirectoryContext → β}

theorem map_assignDirOffsets (hg : ∀ d e, g { d with entryOffset := e } = g d) :
    ∀ (l : List RomFSBuildDirectoryContext) (start : Nat), (assignDirOffsets start l).map g = l.map g
  | [], _ => rfl
  | d :: l, start => by rw [assignDirOffsets, map_cons, map_cons, hg, map_assignDirOffsets hg l]

theorem map_linkFiles {g : RomFSBuildFileContext F → β} (hg : ∀ f s, g { f with sibling := s } = g f) :
    ∀ l : List (RomFSBuildFileContext F), (linkFiles l).1.map g = l.map g
  | [] => rfl
  | f :: l => by rw [linkFiles, map_cons, map_cons, hg, map_linkFiles hg l]

theorem map_linkDirectories (hg : ∀ d s, g { d with sibling := s } = g d) :
    ∀ l : List RomFSBuildDirectoryContext, (linkDirectories l).1.map g = l.map g
  | [] => rfl
  | d :: l => by
    have ih := map_linkDirectories hg l
    rw [linkDirectories]
    split
    · rw [map_cons, map_cons, hg, ih]
    · rw [map_cons, map_cons, ih]

theorem map_builtDirectories (hg : ∀ d s, g { d with sibling := s } = g d)
    (hheads : ∀ d i j, g { d with child := i, file := j } = g d) (c : RomFSBuildContext F) :
    c.builtDirectories.map g = (assignDirOffsets 0 (sortDirectories c.directories)).map g := by
  rw [builtDirectories, map_map, ← map_linkDirectories hg]
  exact map_congr_left fun d _ => hheads d _ _

end Projections

/-- **The files of the image** have the places and the paths of their contexts. -/
theorem builtFiles_spec (h : Counted c) (hsize : c.fileTableSize < 2 ^ 32) :
    Laid 0 (c.builtFiles.1.map filePlace) ∧ (c.builtFiles.1.map fileSize).sum = c.fileTableSize ∧
      ∀ f ∈ c.builtFiles.1, f.path.length = f.pathLen ∧ f.curPathOfs ≤ f.pathLen := by
  have hperm : (sortFiles c.files).Perm c.files := perm_insertionSort _ _
  have hsum : ((sortFiles c.files).map fileSize).sum = c.fileTableSize := by
    rw [h.fileTableSize]
    exact (hperm.map fileSize).sum_nat
  refine ⟨?_, ?_, fun f hf => ?_⟩
  · rw [builtFiles, map_linkFiles fun _ _ => rfl]
    exact laid_assignFileOffsets _ 0 0 (by omega)
  · rw [builtFiles, map_linkFiles fun _ _ => rfl, map_assignFileOffsets fun _ _ _ => rfl, hsum]
  · have hmem : (f.path, f.curPathOfs, f.pathLen) ∈
        (sortFiles c.files).map fun f => (f.path, f.curPathOfs, f.pathLen) := by
      rw [← map_assignFileOffsets (fun _ _ _ => rfl) _ 0 0, ← map_linkFiles fun _ _ => rfl]
      exact mem_map.mpr ⟨f, hf, rfl⟩
    obtain ⟨f', hf', heq⟩ := mem_map.mp hmem
    obtain ⟨hpath, hrest⟩ := Prod.mk.inj heq
    obtain ⟨hcur, hlen⟩ := Prod.mk.inj hrest
    rw [← hpath, ← hcur, ← hlen]
    exact h.filePath f' (hperm.mem_iff.mp hf')

/-- **The directories of the image**, likewise. -/
theorem builtDirectories_spec (h : Counted c) (hsize : c.dirTableSize < 2 ^ 32) :
    Laid 0 (c.builtDirectories.map dirPlace) ∧ (c.builtDirectories.map dirSize).sum = c.dirTableSize ∧
      ∀ d ∈ c.builtDirectories, d.path.length = d.pathLen ∧ d.curPathOfs ≤ d.pathLen := by
  have hperm : (sortDirectories c.directories).Perm c.directories := perm_insertionSort _ _
  have hsum : ((sortDirectories c.directories).map dirSize).sum = c.dirTableSize := by
    rw [h.dirTableSize]
    exact (hperm.map dirSize).sum_nat
  refine ⟨?_, ?_, fun d hd => ?_⟩
  · rw [map_builtDirectories (fun _ _ => rfl) fun _ _ _ => rfl]
    exact laid_assignDirOffsets _ 0 (by omega)
  · rw [map_builtDirectories (fun _ _ => rfl) fun _ _ _ => rfl, map_assignDirOffsets fun _ _ => rfl, hsum]
  · have hmem : (d.path, d.curPathOfs, d.pathLen) ∈
        (sortDirectories c.directories).map fun d => (d.path, d.curPathOfs, d.pathLen) := by
      rw [← map_assignDirOffsets (fun _ _ => rfl) _ 0,
        ← map_builtDirectories (fun _ _ => rfl) fun _ _ _ => rfl]
      exact mem_map.mpr ⟨d, hd, rfl⟩
    obtain ⟨d', hd', heq⟩ := mem_map.mp hmem
    obtain ⟨hpath, hrest⟩ := Prod.mk.inj heq
    obtain ⟨hcur, hlen⟩ := Prod.mk.inj hrest
    rw [← hpath, ← hcur, ← hlen]
    exact h.dirPath d' (hperm.mem_iff.mp hd')

/-! ## 4. The lookup -/

/-- The entry of a file, with the entry offset of its directory. -/
def fileEntry (c : RomFSBuildContext F) (f : RomFSBuildFileContext F) : RomFSEntry :=
  ⟨f.entryOffset, dirOffset c.builtDirectories f.parent, f.path.drop f.curPathOfs⟩

/-- The entry of a directory, with that of its parent. -/
def dirEntry (c : RomFSBuildContext F) (d : RomFSBuildDirectoryContext) : RomFSEntry :=
  ⟨d.entryOffset, parentOffset c.builtDirectories d, d.path.drop d.curPathOfs⟩

/-- The entries of all files. -/
def fileEntries (c : RomFSBuildContext F) : List RomFSEntry := c.builtFiles.1.map c.fileEntry

/-- The entries of all directories. -/
def dirEntries (c : RomFSBuildContext F) : List RomFSEntry := c.builtDirectories.map c.dirEntry

/-- The directory tables of an image, by its header. -/
def imageDirTable (image : RomFSImage F) : EntryTable where
  hashTable := image.header.dirHashTableOfs - image.header.dirHashTableOfs
  count := image.header.dirHashTableSize / 4
  table := image.header.dirTableOfs - image.header.dirHashTableOfs
  entrySize := dirEntrySize
  link := 0x10

/-- The file tables of an image, by its header. -/
def imageFileTable (image : RomFSImage F) : EntryTable where
  hashTable := image.header.fileHashTableOfs - image.header.dirHashTableOfs
  count := image.header.fileHashTableSize / 4
  table := image.header.fileTableOfs - image.header.dirHashTableOfs
  entrySize := fileEntrySize
  link := 0x18

/-- **The lookup in the image finds every entry** of the tree. -/
def LookupFinds (c : RomFSBuildContext F) (image : RomFSImage F) : Prop :=
  (imageFileTable image).FindsEvery image.metadata c.fileEntries ∧
    (imageDirTable image).FindsEvery image.metadata c.dirEntries

variable {charSigned : Bool}

theorem imageDirTable_build (c : RomFSBuildContext F) : imageDirTable (c.build charSigned) = c.dirTable := by
  have hcount : 4 * romfsGetHashTableCount c.numDirs / 4 = romfsGetHashTableCount c.numDirs :=
    Nat.mul_div_cancel_left _ (by decide)
  rw [imageDirTable, build, header, dirTable]
  dsimp only
  rw [hcount, Nat.sub_self, Nat.add_sub_cancel_left]

theorem imageFileTable_build (c : RomFSBuildContext F) : imageFileTable (c.build charSigned) = c.fileTable := by
  have hcount : 4 * romfsGetHashTableCount c.numFiles / 4 = romfsGetHashTableCount c.numFiles :=
    Nat.mul_div_cancel_left _ (by decide)
  rw [imageFileTable, build, header, fileTable]
  dsimp only
  rw [hcount, Nat.add_assoc, Nat.add_sub_cancel_left, Nat.add_assoc, Nat.add_sub_cancel_left]

theorem le_countLoop (count : Nat) : count ≤ countLoop count := by
  induction count using countLoop.induct with
  | case1 count h ih =>
    rw [countLoop, dif_pos h]
    omega
  | case2 count h => rw [countLoop, dif_neg h]

theorem hashTableCount_pos (n : Nat) : 0 < romfsGetHashTableCount n := by
  rw [romfsGetHashTableCount]
  split
  · decide
  · split
    · have : n ≤ n ||| 1 := Nat.left_le_or
      omega
    · have := le_countLoop n
      omega

theorem dirTable_layout (h : c.dirTableSize < 2 ^ 32) : c.dirTable.Layout c.dirTableSize where
  count_pos := hashTableCount_pos _
  table_ge := Nat.le_of_eq (Nat.zero_add _)
  entrySize_eq := rfl
  size_lt := h

theorem fileTable_layout (h : c.fileTableSize < 2 ^ 32) : c.fileTable.Layout c.fileTableSize where
  count_pos := hashTableCount_pos _
  table_ge := Nat.le_refl _
  entrySize_eq := rfl
  size_lt := h

/-- What is written for a file. -/
def fileWrite (charSigned : Bool) (c : RomFSBuildContext F) (f : RomFSBuildFileContext F) : EntryWrite where
  slot := (romfsCalcPathHash charSigned (dirOffset c.builtDirectories f.parent) f.path f.curPathOfs
    (f.pathLen - f.curPathOfs)).toNat % c.fileTable.count
  offset := f.entryOffset
  parent := dirOffset c.builtDirectories f.parent
  middle := [(4, offsetOr (fileOffset c.builtFiles.1) f.sibling), (8, f.offset), (8, f.size)]
  name := fun k => f.path.getD (f.curPathOfs + k) 0
  nameSize := f.pathLen - f.curPathOfs

/-- What is written for a directory. -/
def dirWrite (charSigned : Bool) (c : RomFSBuildContext F) (d : RomFSBuildDirectoryContext) : EntryWrite where
  slot := (romfsCalcPathHash charSigned (parentOffset c.builtDirectories d) d.path d.curPathOfs
    (d.pathLen - d.curPathOfs)).toNat % c.dirTable.count
  offset := d.entryOffset
  parent := parentOffset c.builtDirectories d
  middle := [(4, offsetOr (dirOffset c.builtDirectories) d.sibling),
    (4, offsetOr (dirOffset c.builtDirectories) d.child), (4, offsetOr (fileOffset c.builtFiles.1) d.file)]
  name := fun k => d.path.getD (d.curPathOfs + k) 0
  nameSize := d.pathLen - d.curPathOfs

theorem metadata_eq (c : RomFSBuildContext F) : c.metadata charSigned =
    (c.builtDirectories.map (dirWrite charSigned c)).foldl c.dirTable.put
      ((c.builtFiles.1.map (fileWrite charSigned c)).foldl c.fileTable.put c.emptyMetadata) := by
  rw [metadata, foldl_map, foldl_map]
  rfl

theorem dirOffset_lt (h : Counted c) (hsize : c.dirTableSize < 2 ^ 32) (id : Nat) :
    dirOffset c.builtDirectories id < 2 ^ 32 := by
  obtain ⟨hlaid, hsum, -⟩ := builtDirectories_spec h hsize
  rw [dirOffset]
  cases hfind : c.builtDirectories.find? (·.id = id) with
  | none => exact Nat.two_pow_pos 32
  | some d =>
    have hbounds := hlaid.bounds (dirPlace d) (mem_map.mpr ⟨d, mem_of_find?_eq_some hfind, rfl⟩)
    rw [map_map, show Prod.snd ∘ dirPlace = dirSize from rfl, hsum, dirPlace] at hbounds
    exact Nat.lt_of_le_of_lt (show d.entryOffset ≤ c.dirTableSize by omega) hsize

theorem parentOffset_lt (h : Counted c) (hsize : c.dirTableSize < 2 ^ 32) (d : RomFSBuildDirectoryContext) :
    parentOffset c.builtDirectories d < 2 ^ 32 := by
  rw [parentOffset]
  split
  · exact Nat.two_pow_pos 32
  · cases d.parent with
    | none => exact Nat.two_pow_pos 32
    | some id => exact dirOffset_lt h hsize id

theorem getD_drop (path : List UInt8) (start k : Nat) : path.getD (start + k) 0 = (path.drop start).getD k 0 := by
  rw [getD_eq_getElem?_getD, getD_eq_getElem?_getD, List.getElem?_drop]

/-- **The writes of the files**: each fits, is for its entry, and they lie one behind the other. -/
theorem fileWrites_spec (charSigned : Bool) (h : Counted c) (hdir : c.dirTableSize < 2 ^ 32)
    (hfile : c.fileTableSize < 2 ^ 32) :
    (∀ f ∈ c.builtFiles.1, c.fileTable.Fits c.fileTableSize (fileWrite charSigned c f)) ∧
      (∀ f ∈ c.builtFiles.1, EntryTable.Writes (c.fileEntry f) (fileWrite charSigned c f)) ∧
      c.fileTable.Ordered (c.builtFiles.1.map (fileWrite charSigned c)) := by
  obtain ⟨hlaid, hsum, hpath⟩ := builtFiles_spec h hfile
  refine ⟨fun f hf => ⟨Nat.mod_lt _ (hashTableCount_pos _), ?_, rfl⟩, fun f hf => ?_, ?_⟩
  · have hbounds := hlaid.bounds (filePlace f) (mem_map.mpr ⟨f, hf, rfl⟩)
    rw [map_map, show Prod.snd ∘ filePlace = fileSize (F := F) from rfl, hsum, Nat.zero_add] at hbounds
    exact hbounds.2
  · obtain ⟨hlen, hcur⟩ := hpath f hf
    refine ⟨rfl, rfl, dirOffset_lt h hdir f.parent, ?_, fun k _ => getD_drop f.path f.curPathOfs k⟩
    rw [fileEntry, length_drop, hlen]
    rfl
  · exact pairwise_map.mpr (pairwise_map.mp hlaid.pairwise)

/-- **The writes of the directories**, likewise. -/
theorem dirWrites_spec (charSigned : Bool) (h : Counted c) (hdir : c.dirTableSize < 2 ^ 32) :
    (∀ d ∈ c.builtDirectories, c.dirTable.Fits c.dirTableSize (dirWrite charSigned c d)) ∧
      (∀ d ∈ c.builtDirectories, EntryTable.Writes (c.dirEntry d) (dirWrite charSigned c d)) ∧
      c.dirTable.Ordered (c.builtDirectories.map (dirWrite charSigned c)) := by
  obtain ⟨hlaid, hsum, hpath⟩ := builtDirectories_spec h hdir
  refine ⟨fun d hd => ⟨Nat.mod_lt _ (hashTableCount_pos _), ?_, rfl⟩, fun d hd => ?_, ?_⟩
  · have hbounds := hlaid.bounds (dirPlace d) (mem_map.mpr ⟨d, hd, rfl⟩)
    rw [map_map, show Prod.snd ∘ dirPlace = dirSize from rfl, hsum, Nat.zero_add] at hbounds
    exact hbounds.2
  · obtain ⟨hlen, hcur⟩ := hpath d hd
    refine ⟨rfl, rfl, parentOffset_lt h hdir d, ?_, fun k _ => getD_drop d.path d.curPathOfs k⟩
    rw [dirEntry, length_drop, hlen]
    rfl
  · exact pairwise_map.mpr (pairwise_map.mp hlaid.pairwise)

/-- **The chains of the image**: in both tables, those of what was written. -/
theorem metadata_chained (charSigned : Bool) (h : Counted c) (hdir : c.dirTableSize < 2 ^ 32)
    (hfile : c.fileTableSize < 2 ^ 32) :
    c.fileTable.Chained (c.metadata charSigned) (c.builtFiles.1.map (fileWrite charSigned c)) ∧
      c.dirTable.Chained (c.metadata charSigned) (c.builtDirectories.map (dirWrite charSigned c)) := by
  obtain ⟨hffits, -, hfordered⟩ := fileWrites_spec charSigned h hdir hfile
  obtain ⟨hdfits, -, hdordered⟩ := dirWrites_spec charSigned h hdir
  have hflayout := fileTable_layout hfile
  have hdlayout := dirTable_layout hdir
  have hffits' : ∀ w ∈ c.builtFiles.1.map (fileWrite charSigned c), c.fileTable.Fits c.fileTableSize w :=
    fun w hw => by
      obtain ⟨f, hf, rfl⟩ := mem_map.mp hw
      exact hffits f hf
  have hdfits' : ∀ w ∈ c.builtDirectories.map (dirWrite charSigned c), c.dirTable.Fits c.dirTableSize w :=
    fun w hw => by
      obtain ⟨d, hd, rfl⟩ := mem_map.mp hw
      exact hdfits d hd
  -- the directories lie in front of the files
  have hplace : c.dirTable.table + c.dirTableSize = c.fileTable.hashTable := rfl
  have hstart : c.dirTable.hashTable = 0 := rfl
  have hhash : c.dirTable.hashTable + 4 * c.dirTable.count = c.dirTable.table := Nat.zero_add _
  rw [metadata_eq]
  constructor
  · refine EntryTable.Chained.congr hflayout hffits'
      (EntryTable.Chained.puts hflayout hffits' hfordered (EntryTable.chained_nil fun k hk hk' => ?_))
      fun k hk hk' => EntryTable.puts_frame hdlayout hdfits' (.inr (by omega))
    rw [emptyMetadata]
    exact if_pos ⟨hk, hk'⟩
  · refine EntryTable.Chained.puts hdlayout hdfits' hdordered (EntryTable.chained_nil fun k hk hk' => ?_)
    rw [EntryTable.puts_frame hflayout hffits' (.inl (by omega)), emptyMetadata]
    rw [memcpyAt_of_not_mem (.inl (by omega))]
    exact if_pos ⟨hk, hk'⟩

theorem slot_iff {start n parent count : Nat} {e : RomFSEntry}
    (h : start + n = path.length) (hname : e.name = path.drop start) (hparent : e.parent = parent) :
    (romfsCalcPathHash charSigned parent path start n).toNat % count = e.hash.toNat % count ↔
      (charSigned = true → e.Stays count) := by
  rw [← hparent, hash_written h hname]
  cases charSigned with
  | false => exact iff_of_true rfl fun h => absurd h Bool.false_ne_true
  | true =>
    rw [if_pos rfl]
    exact ⟨fun h _ => h, fun h => h rfl⟩

/-- **When the lookup finds every entry.** For every tree, all chains are as they were written; every entry
is found on the chain of its hash just where `char` is unsigned, or the signs of the characters of each name
keep its hash in its bucket. -/
theorem lookup_finds_iff (vfs : VfsFiles F) (base : VfsDirectory F) (ext : Option (VfsDirectory F))
    (charSigned : Bool) (hsize : (make vfs base ext).metadataSize < 2 ^ 32) :
    (make vfs base ext).LookupFinds ((make vfs base ext).build charSigned) ↔ (charSigned = true →
        (∀ e ∈ (make vfs base ext).fileEntries, e.Stays (make vfs base ext).fileTable.count) ∧
          ∀ e ∈ (make vfs base ext).dirEntries, e.Stays (make vfs base ext).dirTable.count) := by
  have h := counted_make vfs base ext
  generalize make vfs base ext = c at *
  have hdir : c.dirTableSize < 2 ^ 32 := by
    rw [metadataSize] at hsize
    omega
  have hfile : c.fileTableSize < 2 ^ 32 := by
    rw [metadataSize] at hsize
    omega
  obtain ⟨hffits, hfwrites, hfordered⟩ := fileWrites_spec charSigned h hdir hfile
  obtain ⟨hdfits, hdwrites, hdordered⟩ := dirWrites_spec charSigned h hdir
  obtain ⟨hfchained, hdchained⟩ := metadata_chained charSigned h hdir hfile
  rw [LookupFinds, imageFileTable_build, imageDirTable_build]
  have hfiles := EntryTable.findsEvery_iff (fileTable_layout hfile) hffits hfwrites hfordered hfchained
  have hdirs := EntryTable.findsEvery_iff (dirTable_layout hdir) hdfits hdwrites hdordered hdchained
  have hfslot : ∀ f ∈ c.builtFiles.1,
      (fileWrite charSigned c f).slot = (c.fileEntry f).hash.toNat % c.fileTable.count ↔
      (charSigned = true → (c.fileEntry f).Stays c.fileTable.count) := fun f hf => by
    obtain ⟨hlen, hcur⟩ := (builtFiles_spec h hfile).2.2 f hf
    exact slot_iff (by omega) rfl rfl
  have hdslot : ∀ d ∈ c.builtDirectories,
      (dirWrite charSigned c d).slot = (c.dirEntry d).hash.toNat % c.dirTable.count ↔
      (charSigned = true → (c.dirEntry d).Stays c.dirTable.count) := fun d hd => by
    obtain ⟨hlen, hcur⟩ := (builtDirectories_spec h hdir).2.2 d hd
    exact slot_iff (by omega) rfl rfl
  refine (and_congr hfiles hdirs).trans ?_
  rw [fileEntries, dirEntries, forall_mem_map, forall_mem_map]
  constructor
  · exact fun hslots hs =>
      ⟨fun f hf => (hfslot f hf).mp (hslots.1 f hf) hs, fun d hd => (hdslot d hd).mp (hslots.2 d hd) hs⟩
  · exact fun hstays =>
      ⟨fun f hf => (hfslot f hf).mpr fun hs => (hstays hs).1 f hf,
        fun d hd => (hdslot d hd).mpr fun hs => (hstays hs).2 d hd⟩

/-- Files that are their names. -/
def namedFiles : VfsFiles (List UInt8) where
  getName := id
  getSize _ := 0
  patchIPS _ _ := none

/-- A tree with one file, with the name `a`. -/
theorem lookup_finds_ascii : (make namedFiles (.mk [] [[0x61]] []) none).LookupFinds
    ((make namedFiles (.mk [] [[0x61]] []) none).build true) :=
  (lookup_finds_iff namedFiles (.mk [] [[0x61]] []) none true (by decide)).mpr fun _ =>
    ⟨by decide, by decide⟩

/-- **A name that is not ASCII is not found**: the file `ü` of a tree with no other entries. -/
theorem umlaut_not_found : ¬∀ (vfs : VfsFiles (List UInt8)) (base : VfsDirectory (List UInt8))
    (ext : Option (VfsDirectory (List UInt8))) (charSigned : Bool), (make vfs base ext).metadataSize < 2 ^ 32 →
      (make vfs base ext).LookupFinds ((make vfs base ext).build charSigned) := by
  intro h
  obtain ⟨L, hchain, hmem⟩ :=
    (h namedFiles (.mk [] [[0xC3, 0xBC]] []) none true (by decide)).1.reached ⟨0, 0, [0xC3, 0xBC]⟩ (by decide)
  have hempty : (imageFileTable ((make namedFiles (.mk [] [[0xC3, 0xBC]] []) none).build true)).head
      ((make namedFiles (.mk [] [[0xC3, 0xBC]] []) none).build true).metadata
      ((⟨0, 0, [0xC3, 0xBC]⟩ : RomFSEntry).hash.toNat %
        (imageFileTable ((make namedFiles (.mk [] [[0xC3, 0xBC]] []) none).build true)).count) = none := by
    decide
  rw [EntryTable.Chain, hempty] at hchain
  rw [hchain.eq_nil_iff.mpr rfl] at hmem
  exact absurd hmem not_mem_nil

end RomFSBuildContext

end Yuzu.FileSys
