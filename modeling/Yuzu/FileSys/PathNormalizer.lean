/-
  File:      Yuzu/FileSys/PathNormalizer.lean
  Subject:   PathNormalizer (core/file_sys/fs_path_utility.h).

  A path is its bytes in front of the terminator. `Normalize` writes into a buffer of `max_out_size`
  bytes, and a write outside of it is an overflow; one outside of the replacement buffer stops the run
  like an assertion that fails. What is left of the path stands for `cur_path + i`.
-/
import Yuzu.Lib.Checked
import Yuzu.FileSys.VirtualFile

namespace Yuzu.FileSys

open Checked Function

/-! ## 1. Characters -/

/-- `DirectorySeparator`. -/
def directorySeparator : UInt8 := 0x2f

/-- `AlternateDirectorySeparator`. -/
def alternateDirectorySeparator : UInt8 := 0x5c

/-- `Dot`. -/
def dot : UInt8 := 0x2e

/-- `NullTerminator`. -/
def nullTerminator : UInt8 := 0

/-- `InvalidCharacters`. -/
def invalidCharacters : List UInt8 := [0x3a, 0x2a, 0x3f, 0x3c, 0x3e, 0x7c]

/-- `IsInvalidCharacter`. A `char` is signed: from 0x80 on, the mask is read outside of its table, and
`outside` is what stands there. -/
def isInvalidCharacter (outside : UInt8 → Bool) (c : UInt8) : Bool :=
  if c < 0x80 then c ∈ invalidCharacters else outside c

/-- A directory separator of either kind. -/
def isSeparator (c : UInt8) : Bool := c = directorySeparator || c = alternateDirectorySeparator

/-- `EntryNameLengthMax`. -/
def entryNameLengthMax : Nat := 0x300

/-- The results of the path functions. -/
inductive PathResult where
  | invalidPathFormat
  | invalidCharacter
  | directoryUnobtainable
  | tooLongPath
  | notNormalized
  | notImplemented
  | unexpectedInPathA
  deriving DecidableEq

namespace PathNormalizer

/-- A write into a buffer of `size` bytes. -/
def store {ε : Type} (size : Nat) (dst : Memory) (i : Nat) (c : UInt8) : Checked ε Memory := do
  inBuffer (i < size)
  return update dst i c

/-- Writes one behind the other. -/
def storeAll {ε : Type} (size : Nat) : Memory → Nat → List UInt8 → Checked ε Memory
  | dst, _, [] => return dst
  | dst, i, c :: rest => do
    let dst ← store size dst i c
    storeAll size dst (i + 1) rest

/-! ## 2. Parent references with backslashes -/

/-- A write into the replacement buffer. -/
def storeReplacement (size : Nat) (dst : Memory) (i : Nat) (c : UInt8) : Checked PathResult Memory := do
  assertThat (i < size)
  return update dst i c

/-- The loop of `ReplaceParentDirectoryPath`; `prev` is `src[i - 1]`. -/
def replaceLoop (size : Nat) (prev : UInt8) (src : List UInt8) (i : Nat) (dst : Memory) :
    Checked PathResult Memory :=
  match src with
  | [] => storeReplacement size dst i nullTerminator
  | c :: rest =>
    if isSeparator prev ∧ c = dot ∧ rest.getD 0 nullTerminator = dot ∧
        isSeparator (rest.getD 1 nullTerminator) then do
      let dst ← storeReplacement size dst (i - 1) directorySeparator
      let dst ← storeReplacement size dst i dot
      let dst ← storeReplacement size dst (i + 1) dot
      let dst ← storeReplacement size dst (i + 2) directorySeparator
      replaceLoop size (rest.getD 1 nullTerminator) (rest.drop 2) (i + 3) dst
    else if prev = alternateDirectorySeparator ∧ c = dot ∧ rest.getD 0 nullTerminator = dot ∧
        rest.getD 1 nullTerminator = nullTerminator then do
      let dst ← storeReplacement size dst (i - 1) directorySeparator
      let dst ← storeReplacement size dst i dot
      let dst ← storeReplacement size dst (i + 1) dot
      storeReplacement size dst (i + 2) nullTerminator
    else do
      let dst ← storeReplacement size dst i c
      replaceLoop size c rest (i + 1) dst
termination_by src.length

/-- `ReplaceParentDirectoryPath`, into the replacement buffer. -/
def replaceParentDirectoryPath (src : List UInt8) (dst : Memory) : Checked PathResult Memory := do
  let dst ← storeReplacement (entryNameLengthMax + 1) dst 0 directorySeparator
  replaceLoop (entryNameLengthMax + 1) (src.getD 0 nullTerminator) (src.drop 1) 1 dst

/-- The loop of `IsParentDirectoryPathReplacementNeeded` and what comes behind it. -/
def replacementLoop : List UInt8 → Bool
  | c₀ :: c₁ :: c₂ :: c₃ :: rest =>
    if c₁ = dot ∧ c₂ = dot then
      if c₀ = alternateDirectorySeparator ∧ isSeparator c₃ then true
      else if c₃ = alternateDirectorySeparator ∧ isSeparator c₀ then true
      else replacementLoop (c₁ :: c₂ :: c₃ :: rest)
    else replacementLoop (c₁ :: c₂ :: c₃ :: rest)
  | [c₀, c₁, c₂] => c₀ = alternateDirectorySeparator ∧ c₁ = dot ∧ c₂ = dot
  | _ => false

/-- `IsParentDirectoryPathReplacementNeeded`. -/
def isParentDirectoryPathReplacementNeeded (path : List UInt8) : Bool :=
  isSeparator (path.getD 0 nullTerminator) && replacementLoop path

/-- The string in a buffer. -/
def cString (size : Nat) (m : Memory) : List UInt8 :=
  ((List.range size).map m).takeWhile (· ≠ nullTerminator)

/-! ## 3. `IsNormalized` -/

/-- `PathState`. -/
inductive PathState where
  | start
  | normal
  | firstSeparator
  | separator
  | currentDir
  | parentDir
  deriving DecidableEq

/-- The parse of `IsNormalized`, from a state on. -/
def isNormalizedFrom (invalid : UInt8 → Bool) (allowAllCharacters : Bool) :
    PathState → List UInt8 → Checked PathResult Bool
  | .start, [] => .error (.result .invalidPathFormat)
  | .normal, [] | .firstSeparator, [] => return true
  | .separator, [] | .currentDir, [] | .parentDir, [] => return false
  | .start, c :: rest => do
    resultUnless (c = directorySeparator) .invalidPathFormat
    isNormalizedFrom invalid allowAllCharacters .firstSeparator rest
  | .normal, c :: rest => do
    resultUnless (allowAllCharacters ∨ ¬invalid c) .invalidCharacter
    isNormalizedFrom invalid allowAllCharacters
      (if c = directorySeparator then .separator else .normal) rest
  | .firstSeparator, c :: rest | .separator, c :: rest => do
    resultUnless (allowAllCharacters ∨ ¬invalid c) .invalidCharacter
    if c = directorySeparator then return false
    else isNormalizedFrom invalid allowAllCharacters (if c = dot then .currentDir else .normal) rest
  | .currentDir, c :: rest => do
    resultUnless (allowAllCharacters ∨ ¬invalid c) .invalidCharacter
    if c = directorySeparator then return false
    else isNormalizedFrom invalid allowAllCharacters (if c = dot then .parentDir else .normal) rest
  | .parentDir, c :: rest => do
    resultUnless (allowAllCharacters ∨ ¬invalid c) .invalidCharacter
    if c = directorySeparator then return false
    else isNormalizedFrom invalid allowAllCharacters .normal rest

/-! ## 4. `Normalize` -/

/-- The arguments besides the path. -/
structure Options where
  maxOutSize : Nat
  isWindowsPath : Bool
  isDriveRelativePath : Bool
  allowAllCharacters : Bool
  outside : UInt8 → Bool

/-- The characters that are not allowed. -/
def Options.invalid (o : Options) : UInt8 → Bool := isInvalidCharacter o.outside

/-- What the loop keeps. -/
structure Output where
  dst : Memory
  totalLen : Nat
  skipNextSep : Bool

/-- The separators are swallowed. -/
def swallow : List UInt8 → List UInt8
  | [] => []
  | c :: rest => if c = directorySeparator then swallow rest else c :: rest

/-- The length of the current component. -/
def dirLength (o : Options) : List UInt8 → Checked PathResult Nat
  | [] => return 0
  | c :: rest =>
    if c = directorySeparator then return 0
    else do
      resultUnless (o.allowAllCharacters ∨ ¬o.invalid c) .invalidCharacter
      let n ← dirLength o rest
      return n + 1

/-- `IsCurrentDirectory`. -/
def isCurrentDirectory (path : List UInt8) : Bool :=
  path.getD 0 nullTerminator = dot &&
    (path.getD 1 nullTerminator = nullTerminator || path.getD 1 nullTerminator = directorySeparator)

/-- `IsParentDirectory`. -/
def isParentDirectory (path : List UInt8) : Bool :=
  path.getD 0 nullTerminator = dot && path.getD 1 nullTerminator = dot &&
    (path.getD 2 nullTerminator = nullTerminator || path.getD 2 nullTerminator = directorySeparator)

/-- The error of a path that does not fit, with the terminator behind what was written. -/
def tooLong (o : Options) (dst : Memory) (totalLen : Nat) {α : Type} : Checked PathResult α := do
  let _ ← store o.maxOutSize dst totalLen nullTerminator
  .error (.result .tooLongPath)

/-- The separator in front of a component. -/
def writeSeparator (o : Options) (s : Output) : Checked PathResult Output :=
  if s.skipNextSep then return { s with skipNextSep := false }
  else if s.totalLen + 1 = o.maxOutSize then tooLong o s.dst s.totalLen
  else do
    let dst ← store o.maxOutSize s.dst s.totalLen directorySeparator
    return { s with dst := dst, totalLen := s.totalLen + 1 }

/-- The search for the separator before a component, from a place on. Without one it would wrap around. -/
def walkBack (dst : Memory) : Nat → Checked PathResult Nat
  | 0 => do
    assertThat (dst 0 = directorySeparator)
    return 0
  | n + 1 =>
    if dst (n + 1) = directorySeparator then return n + 1
    else if n = 0 then return 0
    else walkBack dst n

/-- The length without the last component. -/
def lengthWithout (o : Options) (s : Output) : Checked PathResult Nat :=
  if s.totalLen = 1 then do
    resultUnless o.isWindowsPath .directoryUnobtainable
    return 0
  else walkBack s.dst (s.totalLen - 2)

/-- A parent reference takes the last component away. -/
def removeComponent (o : Options) (s : Output) : Checked PathResult Output := do
  assertThat (0 < s.totalLen ∧ s.dst (s.totalLen - 1) = directorySeparator)
  assertThat (o.isWindowsPath ∨ s.dst 0 = directorySeparator)
  let totalLen ← lengthWithout o s
  assertThat (o.isWindowsPath ∨ s.dst totalLen = directorySeparator)
  assertThat (totalLen < o.maxOutSize)
  return { s with totalLen := totalLen }

/-- A component is copied, or what fits of it. -/
def copyComponent (o : Options) (component : List UInt8) (s : Output) : Checked PathResult Output :=
  if s.totalLen + component.length + 1 > o.maxOutSize then do
    let copied := component.take (o.maxOutSize - (s.totalLen + 1))
    let dst ← storeAll o.maxOutSize s.dst s.totalLen copied
    tooLong o dst (s.totalLen + copied.length)
  else do
    let dst ← storeAll o.maxOutSize s.dst s.totalLen component
    return { s with dst := dst, totalLen := s.totalLen + component.length }

/-- The current component is handled. -/
def handleComponent (o : Options) (path : List UInt8) (dirLen : Nat) (s : Output) :
    Checked PathResult Output :=
  if isCurrentDirectory path then return { s with skipNextSep := true }
  else if isParentDirectory path then removeComponent o s
  else copyComponent o (path.take dirLen) s

/-- A turn of the loop behind the separators. -/
def component (o : Options) (path : List UInt8) (s : Output) :
    Checked PathResult (List UInt8 × Output) := do
  let dirLen ← dirLength o path
  let s ← handleComponent o path dirLen s
  return (path.drop dirLen, s)

/-- A turn of the loop, for a path that is not at its end. -/
def turn (o : Options) (path : List UInt8) (s : Output) : Checked PathResult (List UInt8 × Output) :=
  if path.getD 0 nullTerminator = directorySeparator then
    if swallow path = [] then return ([], s)
    else do
      let s ← writeSeparator o s
      component o (swallow path) s
  else component o path s

/-- The loop, for at most `fuel` turns. -/
def normalizeLoop (o : Options) : Nat → List UInt8 → Output → Checked PathResult Output
  | _, [], s => return s
  | 0, _ :: _, _ => .error .assertion
  | fuel + 1, c :: rest, s => do
    let r ← turn o (c :: rest) s
    normalizeLoop o fuel r.1 r.2

/-- An empty output becomes the root. -/
def orRoot (o : Options) (dst : Memory) (totalLen : Nat) : Checked PathResult (Memory × Nat) :=
  if totalLen = 0 ∧ o.maxOutSize ≠ 0 then do
    let dst ← store o.maxOutSize dst 0 directorySeparator
    return (dst, 1)
  else return (dst, totalLen)

/-- What comes behind the loop. The length would wrap around below 0. -/
def finish (o : Options) (s : Output) : Checked PathResult (Memory × Nat) := do
  assertThat (s.skipNextSep → 0 < s.totalLen)
  let r ← orRoot o s.dst (if s.skipNextSep then s.totalLen - 1 else s.totalLen)
  resultUnless (r.2 - 1 ≤ o.maxOutSize) .tooLongPath
  let dst ← store o.maxOutSize r.1 r.2 nullTerminator
  let isNormalized ← isNormalizedFrom o.invalid o.allowAllCharacters .start (cString o.maxOutSize dst)
  assertThat (isNormalized = true)
  return (dst, r.2)

/-- The path that the loop reads: the path itself, or the replacement buffer. -/
def replaced (path : List UInt8) (buffer : Memory) : Checked PathResult (List UInt8) :=
  if isParentDirectoryPathReplacementNeeded path then do
    let replacement ← replaceParentDirectoryPath path buffer
    return cString (entryNameLengthMax + 1) replacement
  else return path

/-- The output in front of the loop. -/
def startOutput (o : Options) (path : List UInt8) (dst : Memory) : Checked PathResult Output :=
  if path.getD 0 nullTerminator ≠ directorySeparator then do
    resultUnless o.isDriveRelativePath .invalidPathFormat
    let dst ← store o.maxOutSize dst 0 directorySeparator
    return { dst := dst, totalLen := 1, skipNextSep := false }
  else return { dst := dst, totalLen := 0, skipNextSep := false }

/-- `PathNormalizer::Normalize`, with what the two buffers hold: the string and its length. -/
def normalize (o : Options) (path : List UInt8) (dst buffer : Memory) :
    Checked PathResult (Memory × Nat) := do
  let s ← startOutput o path dst
  let curPath ← replaced path buffer
  let s ← normalizeLoop o curPath.length curPath s
  finish o s

end PathNormalizer

end Yuzu.FileSys
