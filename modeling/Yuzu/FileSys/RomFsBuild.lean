/-
  File:      Yuzu/FileSys/RomFsBuild.lean
  Subject:   RomFSBuildContext (core/file_sys/fsmitm_romfsbuild.cpp): the tables of a RomFS.

  The builder walks a directory tree and collects a context for every directory and file. `build` sorts
  the contexts by path, gives every entry its offset in its table, and writes the entries. A hash table
  has for every bucket the offset of the entry that was written last; each entry leads on to the one
  that was there before it.

  The name is hashed as `char`, whose signedness is that of the platform: it is a parameter here.
-/
import Mathlib.Data.List.Sort
import Yuzu.Common.Alignment
import Yuzu.FileSys.VirtualFile

namespace Yuzu.FileSys

open Common

/-! ## 1. The tree -/

/-- What the builder asks of the files of the virtual file system. -/
structure VfsFiles (F : Type) where
  getName : F → List UInt8
  getSize : F → Nat
  patchIPS : F → F → Option F

/-- `VfsDirectory`, with the names, the files and the directories in it. -/
inductive VfsDirectory (F : Type) where
  | mk (name : List UInt8) (files : List F) (subdirectories : List (VfsDirectory F))

namespace VfsDirectory

variable {F : Type}

def getName : VfsDirectory F → List UInt8
  | mk name _ _ => name

/-- `VfsDirectory::GetFile`. -/
def getFile (vfs : VfsFiles F) (name : List UInt8) : VfsDirectory F → Option F
  | mk _ files _ => files.find? fun f => vfs.getName f = name

/-- `VfsDirectory::GetSubdirectory`. -/
def getSubdirectory (name : List UInt8) : VfsDirectory F → Option (VfsDirectory F)
  | mk _ _ subdirectories => subdirectories.find? fun d => d.getName = name

end VfsDirectory

/-! ## 2. The contexts -/

/-- `RomFSBuildDirectoryContext`. A pointer to a context is its `id`, the place it was added at. -/
structure RomFSBuildDirectoryContext where
  id : Nat
  path : List UInt8 := []
  curPathOfs : Nat := 0
  pathLen : Nat := 0
  entryOffset : Nat := 0
  parent : Option Nat := none
  child : Option Nat := none
  sibling : Option Nat := none
  file : Option Nat := none

/-- `RomFSBuildFileContext`. -/
structure RomFSBuildFileContext (F : Type) where
  id : Nat
  path : List UInt8
  curPathOfs : Nat
  pathLen : Nat
  entryOffset : Nat := 0
  offset : Nat := 0
  size : Nat
  parent : Nat
  sibling : Option Nat := none
  source : F

/-- `RomFSBuildContext`. -/
structure RomFSBuildContext (F : Type) where
  directories : List RomFSBuildDirectoryContext
  files : List (RomFSBuildFileContext F)
  numDirs : Nat
  numFiles : Nat
  dirTableSize : Nat
  fileTableSize : Nat

/-- `sizeof(RomFSDirectoryEntry)`. -/
def dirEntrySize : Nat := 0x18

/-- `sizeof(RomFSFileEntry)`. -/
def fileEntrySize : Nat := 0x20

namespace RomFSBuildContext

variable {F : Type}

/-- `AddDirectory`. -/
def addDirectory (c : RomFSBuildContext F) (parent : Nat) (dir : RomFSBuildDirectoryContext) :
    RomFSBuildContext F :=
  { c with
    numDirs := c.numDirs + 1
    dirTableSize := c.dirTableSize + (dirEntrySize + alignUp (dir.pathLen - dir.curPathOfs) 4)
    directories := c.directories ++ [{ dir with parent := some parent }] }

/-- `AddFile`. -/
def addFile (c : RomFSBuildContext F) (file : RomFSBuildFileContext F) : RomFSBuildContext F :=
  { c with
    numFiles := c.numFiles + 1
    fileTableSize := c.fileTableSize + (fileEntrySize + alignUp (file.pathLen - file.curPathOfs) 4)
    files := c.files ++ [file] }

/-- `".stub"`. -/
def stubSuffix : List UInt8 := [0x2e, 0x73, 0x74, 0x75, 0x62]

/-- `".ips"`. -/
def ipsSuffix : List UInt8 := [0x2e, 0x69, 0x70, 0x73]

/-- `'/'`. -/
def separator : UInt8 := 0x2f

/-- There is a stub for the name. -/
def isStubbed (vfs : VfsFiles F) (ext : Option (VfsDirectory F)) (name : List UInt8) : Bool :=
  (ext.bind (·.getFile vfs (name ++ stubSuffix))).isSome

/-- The file, or what its patch makes of it. -/
def patched (vfs : VfsFiles F) (ext : Option (VfsDirectory F)) (file : F) : F :=
  match ext.bind (·.getFile vfs (vfs.getName file ++ ipsSuffix)) with
  | some ips => (vfs.patchIPS file ips).getD file
  | none => file

/-- `VisitDirectory`, a file. -/
def visitFile (vfs : VfsFiles F) (ext : Option (VfsDirectory F)) (parent : RomFSBuildDirectoryContext)
    (c : RomFSBuildContext F) (file : F) : RomFSBuildContext F :=
  let name := vfs.getName file
  let curPathOfs := parent.pathLen + 1
  if isStubbed vfs ext name then c
  else
    let source := patched vfs ext file
    c.addFile
      { id := c.files.length
        path := parent.path ++ separator :: name
        curPathOfs := curPathOfs
        pathLen := curPathOfs + name.length
        size := vfs.getSize source
        parent := parent.id
        source := source }

mutual

/-- `VisitDirectory`. -/
def visitDirectory (vfs : VfsFiles F) : VfsDirectory F → Option (VfsDirectory F) →
    RomFSBuildDirectoryContext → RomFSBuildContext F → RomFSBuildContext F
  | .mk _ files subdirectories, ext, parent, c =>
    visitSubdirectories vfs subdirectories ext parent (files.foldl (visitFile vfs ext parent) c)

/-- `VisitDirectory`, the directories. -/
def visitSubdirectories (vfs : VfsFiles F) : List (VfsDirectory F) → Option (VfsDirectory F) →
    RomFSBuildDirectoryContext → RomFSBuildContext F → RomFSBuildContext F
  | [], _, _, c => c
  | dir :: rest, ext, parent, c =>
    if isStubbed vfs ext dir.getName then visitSubdirectories vfs rest ext parent c
    else
      let child : RomFSBuildDirectoryContext :=
        { id := c.directories.length
          path := parent.path ++ separator :: dir.getName
          curPathOfs := parent.pathLen + 1
          pathLen := parent.pathLen + 1 + dir.getName.length }
      visitSubdirectories vfs rest ext parent
        (visitDirectory vfs dir (ext.bind (·.getSubdirectory dir.getName)) child
          (c.addDirectory parent.id child))

end

/-- `RomFSBuildContext::RomFSBuildContext`: the root, and what is in it. -/
def make (vfs : VfsFiles F) (base : VfsDirectory F) (ext : Option (VfsDirectory F)) : RomFSBuildContext F :=
  visitDirectory vfs base ext { id := 0 }
    { directories := [{ id := 0 }], files := [], numDirs := 1, numFiles := 0, dirTableSize := 0x18,
      fileTableSize := 0 }

end RomFSBuildContext

/-! ## 3. Hashes -/

/-- `ROMFS_ENTRY_EMPTY`. -/
def romfsEntryEmpty : Nat := 0xFFFFFFFF

/-- A `char` as it is taken into a `u32`. -/
def charBits (charSigned : Bool) (c : UInt8) : BitVec 32 :=
  if charSigned then c.toBitVec.signExtend 32 else c.toBitVec.setWidth 32

/-- A turn of the loop of `romfs_calc_path_hash`. -/
def hashStep (charSigned : Bool) (hash : BitVec 32) (c : UInt8) : BitVec 32 :=
  (hash >>> 5 ||| hash <<< 27) ^^^ charBits charSigned c

/-- `romfs_calc_path_hash`. -/
def romfsCalcPathHash (charSigned : Bool) (parent : Nat) (path : List UInt8) (start pathLen : Nat) :
    BitVec 32 :=
  (List.range pathLen).foldl (fun hash i => hashStep charSigned hash (path.getD (start + i) 0))
    (BitVec.ofNat 32 parent ^^^ 123456789)

/-- A small prime divides the count. -/
def hasSmallFactor (count : Nat) : Bool :=
  count % 2 = 0 || count % 3 = 0 || count % 5 = 0 || count % 7 = 0 || count % 11 = 0 || count % 13 = 0 ||
    count % 17 = 0

/-- The product of the small primes. -/
def smallPrimes : Nat := 510510

theorem countLoop_decreases {count : Nat} (h : hasSmallFactor count) :
    (smallPrimes + 1 - (count + 1) % smallPrimes) % smallPrimes <
      (smallPrimes + 1 - count % smallPrimes) % smallPrimes := by
  have hne : count % smallPrimes ≠ 1 := by
    intro hone
    simp only [hasSmallFactor, Bool.or_eq_true, decide_eq_true_iff, or_assoc] at h
    rw [smallPrimes] at hone
    omega
  have hlt : count % smallPrimes < smallPrimes := Nat.mod_lt _ (by decide)
  rw [smallPrimes] at *
  omega

/-- The loop of `romfs_get_hash_table_count`. -/
def countLoop (count : Nat) : Nat :=
  if h : hasSmallFactor count then countLoop (count + 1) else count
termination_by (smallPrimes + 1 - count % smallPrimes) % smallPrimes
decreasing_by exact countLoop_decreases h

/-- `romfs_get_hash_table_count`. -/
def romfsGetHashTableCount (numEntries : Nat) : Nat :=
  if numEntries < 3 then 3
  else if numEntries < 19 then numEntries ||| 1
  else countLoop numEntries

/-! ## 4. Entries -/

/-- The bytes of a number, the lowest first. -/
def numberBytes (v : Nat) : Memory := fun k => UInt8.ofNat (v / 256 ^ k)

/-- The bytes of a struct: its fields with their sizes, one behind the other. -/
def structBytes : List (Nat × Nat) → Memory
  | [], _ => 0
  | (size, v) :: fields, k => if k < size then numberBytes v k else structBytes fields (k - size)

/-- A hash table and the table of its entries, by their places in the metadata. In an entry, the link to
the next one stands at `link`. -/
structure EntryTable where
  hashTable : Nat
  count : Nat
  table : Nat
  entrySize : Nat
  link : Nat

/-- The offset that stands at a place, if it is not empty. -/
def offsetAt (m : Memory) (place : Nat) : Option Nat :=
  if getUnsigned m place 4 = romfsEntryEmpty then none else some (getUnsigned m place 4)

namespace EntryTable

/-- The first entry of a bucket. -/
def head (t : EntryTable) (m : Memory) (slot : Nat) : Option Nat := offsetAt m (t.hashTable + 4 * slot)

/-- The entry that an entry leads on to. -/
def next (t : EntryTable) (m : Memory) (offset : Nat) : Option Nat := offsetAt m (t.table + offset + t.link)

/-- An entry is written: it takes the place of the first one of its bucket and leads on to that. -/
def putEntry (t : EntryTable) (m : Memory) (slot offset : Nat) (fields : Nat → List (Nat × Nat))
    (name : Memory) (nameSize : Nat) : Memory :=
  let hash := getUnsigned m (t.hashTable + 4 * slot) 4
  let m := memcpyAt m (t.hashTable + 4 * slot) (numberBytes offset) 4
  let m := memcpyAt m (t.table + offset) (structBytes (fields hash)) t.entrySize
  let m := memcpyAt m (t.table + offset + t.entrySize) (fun _ => 0) (alignUp nameSize 4)
  memcpyAt m (t.table + offset + t.entrySize) name nameSize

end EntryTable

/-! ## 5. `Build` -/

/-- `RomFSHeader`. -/
structure RomFSHeader where
  headerSize : Nat
  dirHashTableOfs : Nat
  dirHashTableSize : Nat
  dirTableOfs : Nat
  dirTableSize : Nat
  fileHashTableOfs : Nat
  fileHashTableSize : Nat
  fileTableOfs : Nat
  fileTableSize : Nat
  filePartitionOfs : Nat

/-- A piece of the image. -/
inductive RomFSPiece (F : Type) where
  | header (header : RomFSHeader)
  | source (file : F)
  | metadata (size : Nat) (data : Memory)

/-- What `Build` gives: the header and the tables, and the pieces of the image by their offsets. -/
structure RomFSImage (F : Type) where
  header : RomFSHeader
  metadata : Memory
  out : List (Nat × RomFSPiece F)

namespace RomFSBuildContext

variable {F : Type}

/-- Files by path. -/
def sortFiles (files : List (RomFSBuildFileContext F)) : List (RomFSBuildFileContext F) :=
  files.insertionSort fun a b => ¬b.path < a.path

/-- Directories by path. -/
def sortDirectories (directories : List RomFSBuildDirectoryContext) : List RomFSBuildDirectoryContext :=
  directories.insertionSort fun a b => ¬b.path < a.path

/-- The offsets of the files: in the partition, whose size is counted, and in the table. -/
def assignFileOffsets : Nat → Nat → List (RomFSBuildFileContext F) → List (RomFSBuildFileContext F) × Nat
  | partition, _, [] => ([], partition)
  | partition, entryOffset, cur :: rest =>
    let offset := alignUp partition 16
    let r := assignFileOffsets (offset + cur.size)
      ((entryOffset + (fileEntrySize + alignUp (cur.pathLen - cur.curPathOfs) 4)) % 2 ^ 32) rest
    ({ cur with offset := offset, entryOffset := entryOffset } :: r.1, r.2)

/-- The offsets of the directories. -/
def assignDirOffsets : Nat → List RomFSBuildDirectoryContext → List RomFSBuildDirectoryContext
  | _, [] => []
  | entryOffset, cur :: rest =>
    { cur with entryOffset := entryOffset } :: assignDirOffsets
        ((entryOffset + (dirEntrySize + alignUp (cur.pathLen - cur.curPathOfs) 4)) % 2 ^ 32) rest

/-- The siblings of the files, from the last file on, and the first file of every directory. -/
def linkFiles : List (RomFSBuildFileContext F) → List (RomFSBuildFileContext F) × (Nat → Option Nat)
  | [] => ([], fun _ => none)
  | cur :: rest =>
    let r := linkFiles rest
    ({ cur with sibling := r.2 cur.parent } :: r.1, Function.update r.2 cur.parent (some cur.id))

/-- The siblings of the directories, from the last one down to the root, and the first child of every
directory. -/
def linkDirectories : List RomFSBuildDirectoryContext →
    List RomFSBuildDirectoryContext × (Nat → Option Nat) × Bool
  | [] => ([], fun _ => none, false)
  | cur :: rest =>
    let r := linkDirectories rest
    match r.2.2 || cur.id = 0, cur.parent with
    | false, some parent =>
      ({ cur with sibling := r.2.1 parent } :: r.1, Function.update r.2.1 parent (some cur.id), false)
    | _, _ => (cur :: r.1, r.2.1, true)

/-- The entry offset of a directory. -/
def dirOffset (directories : List RomFSBuildDirectoryContext) (id : Nat) : Nat :=
  ((directories.find? (·.id = id)).map (·.entryOffset)).getD 0

/-- The entry offset of a file. -/
def fileOffset (files : List (RomFSBuildFileContext F)) (id : Nat) : Nat :=
  ((files.find? (·.id = id)).map (·.entryOffset)).getD 0

/-- The parent's entry offset of a directory. -/
def parentOffset (directories : List RomFSBuildDirectoryContext) (cur : RomFSBuildDirectoryContext) : Nat :=
  if cur.id = 0 then 0 else (cur.parent.map (dirOffset directories)).getD 0

/-- An offset that may be missing. -/
def offsetOr (offsetOf : Nat → Nat) (pointer : Option Nat) : Nat :=
  (pointer.map offsetOf).getD romfsEntryEmpty

/-- A turn of the loop that writes the files. -/
def populateFile (charSigned : Bool) (t : EntryTable) (directories : List RomFSBuildDirectoryContext)
    (files : List (RomFSBuildFileContext F)) (m : Memory) (cur : RomFSBuildFileContext F) : Memory :=
  let parent := dirOffset directories cur.parent
  let nameSize := cur.pathLen - cur.curPathOfs
  let hash := romfsCalcPathHash charSigned parent cur.path cur.curPathOfs nameSize
  t.putEntry m (hash.toNat % t.count) cur.entryOffset
    (fun hash => [(4, parent), (4, offsetOr (fileOffset files) cur.sibling), (8, cur.offset), (8, cur.size),
      (4, hash), (4, nameSize)])
    (fun k => cur.path.getD (cur.curPathOfs + k) 0) nameSize

/-- A turn of the loop that writes the directories. -/
def populateDir (charSigned : Bool) (t : EntryTable) (directories : List RomFSBuildDirectoryContext)
    (files : List (RomFSBuildFileContext F)) (m : Memory) (cur : RomFSBuildDirectoryContext) : Memory :=
  let parent := parentOffset directories cur
  let nameSize := cur.pathLen - cur.curPathOfs
  let hash := romfsCalcPathHash charSigned parent cur.path cur.curPathOfs nameSize
  t.putEntry m (hash.toNat % t.count) cur.entryOffset
    (fun hash => [(4, parent), (4, offsetOr (dirOffset directories) cur.sibling),
      (4, offsetOr (dirOffset directories) cur.child), (4, offsetOr (fileOffset files) cur.file), (4, hash),
      (4, nameSize)])
    (fun k => cur.path.getD (cur.curPathOfs + k) 0) nameSize

/-- The files as `Build` leaves them, and the size of their partition. -/
def builtFiles (c : RomFSBuildContext F) : List (RomFSBuildFileContext F) × Nat :=
  let r := assignFileOffsets 0 0 (sortFiles c.files)
  ((linkFiles r.1).1, r.2)

/-- The directories as `Build` leaves them. -/
def builtDirectories (c : RomFSBuildContext F) : List RomFSBuildDirectoryContext :=
  let files := linkFiles (assignFileOffsets 0 0 (sortFiles c.files)).1
  let linked := linkDirectories (assignDirOffsets 0 (sortDirectories c.directories))
  linked.1.map fun d => { d with file := files.2 d.id, child := linked.2.1 d.id }

/-- The table of the directories. -/
def dirTable (c : RomFSBuildContext F) : EntryTable where
  hashTable := 0
  count := romfsGetHashTableCount c.numDirs
  table := 4 * romfsGetHashTableCount c.numDirs
  entrySize := dirEntrySize
  link := 0x10

/-- The table of the files. -/
def fileTable (c : RomFSBuildContext F) : EntryTable where
  hashTable := 4 * romfsGetHashTableCount c.numDirs + c.dirTableSize
  count := romfsGetHashTableCount c.numFiles
  table := 4 * romfsGetHashTableCount c.numDirs + c.dirTableSize + 4 * romfsGetHashTableCount c.numFiles
  entrySize := fileEntrySize
  link := 0x18

/-- The size of all tables. -/
def metadataSize (c : RomFSBuildContext F) : Nat :=
  4 * romfsGetHashTableCount c.numFiles + c.fileTableSize + 4 * romfsGetHashTableCount c.numDirs +
    c.dirTableSize

/-- The metadata with empty hash tables. -/
def emptyMetadata (c : RomFSBuildContext F) : Memory :=
  let m : Memory := memcpyAt (fun _ => 0) c.dirTable.hashTable (fun _ => 0xFF) (4 * c.dirTable.count)
  memcpyAt m c.fileTable.hashTable (fun _ => 0xFF) (4 * c.fileTable.count)

/-- `ROMFS_FILEPARTITION_OFS`. -/
def romfsFilePartitionOfs : Nat := 0x200

/-- The header fields. -/
def header (c : RomFSBuildContext F) (filePartitionSize : Nat) : RomFSHeader :=
  let dirHashTableOfs := alignUp (romfsFilePartitionOfs + filePartitionSize) 4
  let dirTableOfs := dirHashTableOfs + 4 * romfsGetHashTableCount c.numDirs
  let fileHashTableOfs := dirTableOfs + c.dirTableSize
  { headerSize := 0x50
    dirHashTableOfs := dirHashTableOfs
    dirHashTableSize := 4 * romfsGetHashTableCount c.numDirs
    dirTableOfs := dirTableOfs
    dirTableSize := c.dirTableSize
    fileHashTableOfs := fileHashTableOfs
    fileHashTableSize := 4 * romfsGetHashTableCount c.numFiles
    fileTableOfs := fileHashTableOfs + 4 * romfsGetHashTableCount c.numFiles
    fileTableSize := c.fileTableSize
    filePartitionOfs := romfsFilePartitionOfs }

/-- The tables, once all entries were written. -/
def metadata (charSigned : Bool) (c : RomFSBuildContext F) : Memory :=
  let files := c.builtFiles.1
  let directories := c.builtDirectories
  directories.foldl (populateDir charSigned c.dirTable directories files)
    (files.foldl (populateFile charSigned c.fileTable directories files) c.emptyMetadata)

/-- `RomFSBuildContext::Build`. -/
def build (charSigned : Bool) (c : RomFSBuildContext F) : RomFSImage F :=
  let header := c.header c.builtFiles.2
  let metadata := c.metadata charSigned
  let out := (0, .header header) ::
    c.builtFiles.1.map (fun f => (f.offset + romfsFilePartitionOfs, .source f.source)) ++
    [(header.dirHashTableOfs, .metadata c.metadataSize metadata)]
  { header := header, metadata := metadata, out := out.insertionSort fun a b => ¬b.1 < a.1 }

end RomFSBuildContext

end Yuzu.FileSys
