/-
  File:      Yuzu/Kernel/MemoryBlock.lean
  Subject:   KMemoryBlock (k_memory_block.h): one run of pages with common properties.

  A block is the record the source keeps. Its mutating members become functions into `Option`,
  `none` where an `ASSERT` of the member fails; the 16-bit counters are bit vectors, so an
  increment wraps as the source's `u16` does and the `ASSERT(new_count > 0)` after it is the
  overflow check.

  Section 3 reads a block as three parts that later modules reason about separately:
  * `Page` -- the six fields every page of the block shares (`KMemoryBlock.page`);
  * `LeftMark`, `RightMark` -- what the block remembers at its left and at its right edge.
  `Split` cuts a block without changing any of the three (`split_spec`), `Add` joins two blocks
  that agree on the pages and carry no flag at the common edge (`add_spec`).
-/
import Yuzu.Lib.Assert
import Yuzu.Lib.Tiling

namespace Yuzu.Kernel

open Option

/-! ## 1. Flags -/

abbrev PageSize : Nat := 0x1000

abbrev KMemoryState := BitVec 32
abbrev KMemoryPermission := BitVec 8
abbrev KMemoryAttribute := BitVec 8

/-- The five flags the enumeration names. -/
abbrev KMemoryBlockDisableMergeAttribute := BitVec 5

/-- `KMemoryState::Free`. -/
def KMemoryState.free : KMemoryState := 0x00#32

namespace KMemoryPermission

def none : KMemoryPermission := 0x00#8
def userRead : KMemoryPermission := 0x09#8
def userExecute : KMemoryPermission := 0x04#8
def notMapped : KMemoryPermission := 0x40#8
/-- `NotMapped | UserReadWrite`. -/
def ipcLockChangeMask : KMemoryPermission := 0x5B#8

end KMemoryPermission

namespace KMemoryAttribute

def none : KMemoryAttribute := 0x00#8
def ipcLocked : KMemoryAttribute := 0x02#8
def deviceShared : KMemoryAttribute := 0x04#8
def uncached : KMemoryAttribute := 0x08#8

/-- `IpcLocked | DeviceShared`: the two attributes `Update` keeps. -/
def ignoreMask : KMemoryAttribute := ipcLocked ||| deviceShared

end KMemoryAttribute

namespace KMemoryBlockDisableMergeAttribute

def none : KMemoryBlockDisableMergeAttribute := 0x00#5
def normal : KMemoryBlockDisableMergeAttribute := 0x01#5
def deviceLeft : KMemoryBlockDisableMergeAttribute := 0x02#5
def ipcLeft : KMemoryBlockDisableMergeAttribute := 0x04#5
def locked : KMemoryBlockDisableMergeAttribute := 0x08#5
def deviceRight : KMemoryBlockDisableMergeAttribute := 0x10#5

def allLeft : KMemoryBlockDisableMergeAttribute := normal ||| deviceLeft ||| ipcLeft ||| locked
def allRight : KMemoryBlockDisableMergeAttribute := deviceRight

end KMemoryBlockDisableMergeAttribute

open KMemoryBlockDisableMergeAttribute (allLeft allRight deviceLeft deviceRight ipcLeft)

/-! ## 2. The block and its members -/

structure KMemoryBlock where
  deviceDisableMergeLeftCount : BitVec 16 := 0
  deviceDisableMergeRightCount : BitVec 16 := 0
  address : Nat
  numPages : Nat
  memoryState : KMemoryState
  ipcLockCount : BitVec 16 := 0
  deviceUseCount : BitVec 16 := 0
  ipcDisableMergeCount : BitVec 16 := 0
  permission : KMemoryPermission
  originalPermission : KMemoryPermission := KMemoryPermission.none
  attr : KMemoryAttribute
  disableMergeAttribute : KMemoryBlockDisableMergeAttribute :=
    KMemoryBlockDisableMergeAttribute.none
  deriving DecidableEq, Repr

namespace KMemoryBlock

def size (b : KMemoryBlock) : Nat := b.numPages * PageSize

def endAddress (b : KMemoryBlock) : Nat := b.address + b.size

def hasProperties (b : KMemoryBlock) (s : KMemoryState) (p : KMemoryPermission)
    (a : KMemoryAttribute) : Bool :=
  b.memoryState == s && b.permission == p &&
    (b.attr ||| KMemoryAttribute.ignoreMask) == (a ||| KMemoryAttribute.ignoreMask)

def hasSameProperties (b rhs : KMemoryBlock) : Bool :=
  b.memoryState == rhs.memoryState && b.permission == rhs.permission &&
    b.originalPermission == rhs.originalPermission && b.attr == rhs.attr &&
    b.ipcLockCount == rhs.ipcLockCount && b.deviceUseCount == rhs.deviceUseCount

def canMergeWith (b rhs : KMemoryBlock) : Bool :=
  b.hasSameProperties rhs && b.disableMergeAttribute &&& allRight == 0 &&
    rhs.disableMergeAttribute &&& allLeft == 0

/-- The source compares with the end address inclusively. -/
def contains (b : KMemoryBlock) (addr : Nat) : Prop := b.address ≤ addr ∧ addr ≤ b.endAddress

instance (b : KMemoryBlock) (addr : Nat) : Decidable (b.contains addr) :=
  inferInstanceAs (Decidable (_ ∧ _))

def add (b added : KMemoryBlock) : Option KMemoryBlock := do
  assert (added.numPages > 0)
  assert (b.address + added.size - 1 < b.endAddress + added.size - 1)
  return { b with
    numPages := b.numPages + added.numPages
    disableMergeAttribute := b.disableMergeAttribute ||| added.disableMergeAttribute
    deviceDisableMergeRightCount := added.deviceDisableMergeRightCount }

def update (b : KMemoryBlock) (s : KMemoryState) (p : KMemoryPermission) (a : KMemoryAttribute)
    (setDisableMergeAttr : Bool) (setMask clearMask : KMemoryBlockDisableMergeAttribute) :
    Option KMemoryBlock := do
  assert (b.originalPermission = KMemoryPermission.none)
  assert (b.attr &&& KMemoryAttribute.ipcLocked = KMemoryAttribute.none)
  let set := if setDisableMergeAttr ∧ setMask ≠ 0 then b.disableMergeAttribute ||| setMask
    else b.disableMergeAttribute
  return { b with
    memoryState := s
    permission := p
    attr := a ||| (b.attr &&& KMemoryAttribute.ignoreMask)
    disableMergeAttribute := if clearMask ≠ 0 then set &&& ~~~clearMask else set }

def updateAttribute (b : KMemoryBlock) (mask attr : KMemoryAttribute) : Option KMemoryBlock := do
  assert (mask &&& KMemoryAttribute.ipcLocked = KMemoryAttribute.none)
  assert (mask &&& KMemoryAttribute.deviceShared = KMemoryAttribute.none)
  return { b with attr := (b.attr &&& ~~~mask) ||| attr }

/-- `Split(block, addr)`: the new block takes the part below `addr`, `this` keeps the part from
    `addr` on. The pair is (new block, this). -/
def split (b : KMemoryBlock) (addr : Nat) : Option (KMemoryBlock × KMemoryBlock) := do
  assert (b.address < addr)
  assert (b.contains addr)
  assert (addr % PageSize = 0)
  let n := (addr - b.address) / PageSize
  return ( { b with
      numPages := n
      disableMergeAttribute := b.disableMergeAttribute &&& allLeft
      deviceDisableMergeRightCount := 0 },
    { b with
      address := addr
      numPages := b.numPages - n
      ipcDisableMergeCount := 0
      deviceDisableMergeLeftCount := 0
      disableMergeAttribute := b.disableMergeAttribute &&& allRight })

def updateDeviceDisableMergeStateForShareLeft (b : KMemoryBlock) (left : Bool) : Option KMemoryBlock :=
  if left then do
    let count := b.deviceDisableMergeLeftCount + 1
    assert (count ≠ 0)
    return { b with
      disableMergeAttribute := b.disableMergeAttribute ||| deviceLeft
      deviceDisableMergeLeftCount := count }
  else some b

def updateDeviceDisableMergeStateForShareRight (b : KMemoryBlock) (right : Bool) : Option KMemoryBlock :=
  if right then do
    let count := b.deviceDisableMergeRightCount + 1
    assert (count ≠ 0)
    return { b with
      disableMergeAttribute := b.disableMergeAttribute ||| deviceRight
      deviceDisableMergeRightCount := count }
  else some b

def updateDeviceDisableMergeStateForShare (b : KMemoryBlock) (left right : Bool) : Option KMemoryBlock := do
  let b ← b.updateDeviceDisableMergeStateForShareLeft left
  b.updateDeviceDisableMergeStateForShareRight right

def shareToDevice (b : KMemoryBlock) (left right : Bool) : Option KMemoryBlock := do
  assert (b.attr &&& KMemoryAttribute.deviceShared = KMemoryAttribute.deviceShared ∨ b.deviceUseCount = 0)
  let count := b.deviceUseCount + 1
  assert (count ≠ 0)
  { b with
    deviceUseCount := count
    attr := b.attr ||| KMemoryAttribute.deviceShared
  }.updateDeviceDisableMergeStateForShare left right

/-- A zero count at a left edge leaves the member at once; otherwise the count is clamped by the
    use count, and the flag goes with the last count. -/
def updateDeviceDisableMergeStateForUnshareLeft (b : KMemoryBlock) (left : Bool) :
    KMemoryBlock :=
  if left ∧ b.deviceDisableMergeLeftCount = 0 then b
  else
    let count := if left then b.deviceDisableMergeLeftCount - 1 else b.deviceDisableMergeLeftCount
    let count := if count ≤ b.deviceUseCount then count else b.deviceUseCount
    { b with
      deviceDisableMergeLeftCount := count
      disableMergeAttribute :=
        if count = 0 then b.disableMergeAttribute &&& ~~~deviceLeft else b.disableMergeAttribute }

def updateDeviceDisableMergeStateForUnshareRight (b : KMemoryBlock) (right : Bool) : Option KMemoryBlock :=
  if right then do
    assert (b.deviceDisableMergeRightCount ≠ 0)
    return { b with
      deviceDisableMergeRightCount := b.deviceDisableMergeRightCount - 1
      disableMergeAttribute :=
        if b.deviceDisableMergeRightCount = 1 then b.disableMergeAttribute &&& ~~~deviceRight
        else b.disableMergeAttribute }
  else some b

def updateDeviceDisableMergeStateForUnshare (b : KMemoryBlock) (left right : Bool) : Option KMemoryBlock :=
  (b.updateDeviceDisableMergeStateForUnshareLeft left).updateDeviceDisableMergeStateForUnshareRight
    right

/-- The common part of `UnshareToDevice` and `UnshareToDeviceRight`. -/
def unshare (b : KMemoryBlock) : Option KMemoryBlock := do
  assert (b.attr &&& KMemoryAttribute.deviceShared = KMemoryAttribute.deviceShared)
  assert (b.deviceUseCount ≠ 0)
  return { b with
    deviceUseCount := b.deviceUseCount - 1
    attr :=
      if b.deviceUseCount = 1 then b.attr &&& ~~~KMemoryAttribute.deviceShared
      else b.attr }

def unshareToDevice (b : KMemoryBlock) (left right : Bool) : Option KMemoryBlock := do
  (← b.unshare).updateDeviceDisableMergeStateForUnshare left right

def unshareToDeviceRight (b : KMemoryBlock) (right : Bool) : Option KMemoryBlock := do
  (← b.unshare).updateDeviceDisableMergeStateForUnshareRight right

def lockForIpc (b : KMemoryBlock) (newPerm : KMemoryPermission) (left : Bool) : Option KMemoryBlock := do
  assert (b.attr &&& KMemoryAttribute.ipcLocked = KMemoryAttribute.ipcLocked ∨ b.ipcLockCount = 0)
  let count := b.ipcLockCount + 1
  assert (count ≠ 0)
  -- the first lock replaces the permission
  assert (count = 1 → b.originalPermission = KMemoryPermission.none ∧
    b.permission ||| newPerm ||| KMemoryPermission.notMapped =
      b.permission ||| KMemoryPermission.notMapped ∧
    (b.permission &&& KMemoryPermission.userExecute ≠ KMemoryPermission.userExecute ∨
      newPerm = KMemoryPermission.userRead))
  let b := { b with
    ipcLockCount := count
    originalPermission := if count = 1 then b.permission else b.originalPermission
    permission :=
      if count = 1 then (newPerm &&& KMemoryPermission.ipcLockChangeMask) |||
        (b.permission &&& ~~~KMemoryPermission.ipcLockChangeMask)
      else b.permission
    attr := b.attr ||| KMemoryAttribute.ipcLocked }
  if left then do
    let merge := b.ipcDisableMergeCount + 1
    assert (merge ≠ 0)
    return { b with
      disableMergeAttribute := b.disableMergeAttribute ||| ipcLeft
      ipcDisableMergeCount := merge }
  else some b

def unlockForIpc (b : KMemoryBlock) (left : Bool) : Option KMemoryBlock := do
  assert (b.attr &&& KMemoryAttribute.ipcLocked = KMemoryAttribute.ipcLocked)
  assert (b.ipcLockCount ≠ 0)
  assert (b.ipcLockCount = 1 → b.originalPermission ≠ KMemoryPermission.none)
  let last := b.ipcLockCount = 1
  let b := { b with
    ipcLockCount := b.ipcLockCount - 1
    permission := if last then b.originalPermission else b.permission
    originalPermission := if last then KMemoryPermission.none else b.originalPermission
    attr := if last then b.attr &&& ~~~KMemoryAttribute.ipcLocked else b.attr }
  if left then do
    assert (b.ipcDisableMergeCount ≠ 0)
    return { b with
      ipcDisableMergeCount := b.ipcDisableMergeCount - 1
      disableMergeAttribute :=
        if b.ipcDisableMergeCount = 1 then b.disableMergeAttribute &&& ~~~ipcLeft
        else b.disableMergeAttribute }
  else some b

end KMemoryBlock

/-- The members of `KMemoryBlock` of the type `MemoryBlockLockFunction`. -/
inductive LockFunction where
  | shareToDevice
  | unshareToDevice
  | unshareToDeviceRight
  | updateDeviceDisableMergeStateForShareLeft
  | updateDeviceDisableMergeStateForShareRight
  | updateDeviceDisableMergeStateForShare
  | updateDeviceDisableMergeStateForUnshareLeft
  | updateDeviceDisableMergeStateForUnshareRight
  | updateDeviceDisableMergeStateForUnshare
  | lockForIpc
  | unlockForIpc
  deriving DecidableEq, Repr

/-- `(block->*lock_func)(perm, left, right)`. -/
def LockFunction.call (f : LockFunction) (perm : KMemoryPermission) (left right : Bool)
    (b : KMemoryBlock) : Option KMemoryBlock :=
  match f with
  | shareToDevice => b.shareToDevice left right
  | unshareToDevice => b.unshareToDevice left right
  | unshareToDeviceRight => b.unshareToDeviceRight right
  | updateDeviceDisableMergeStateForShareLeft => b.updateDeviceDisableMergeStateForShareLeft left
  | updateDeviceDisableMergeStateForShareRight => b.updateDeviceDisableMergeStateForShareRight right
  | updateDeviceDisableMergeStateForShare => b.updateDeviceDisableMergeStateForShare left right
  | updateDeviceDisableMergeStateForUnshareLeft =>
    some (b.updateDeviceDisableMergeStateForUnshareLeft left)
  | updateDeviceDisableMergeStateForUnshareRight =>
    b.updateDeviceDisableMergeStateForUnshareRight right
  | updateDeviceDisableMergeStateForUnshare => b.updateDeviceDisableMergeStateForUnshare left right
  | lockForIpc => b.lockForIpc perm left
  | unlockForIpc => b.unlockForIpc left

/-! ## 3. A block as pages and two edges -/

/-- What every page of a block has in common: the fields `HasSameProperties` compares. -/
structure Page where
  memoryState : KMemoryState
  permission : KMemoryPermission
  originalPermission : KMemoryPermission
  attr : KMemoryAttribute
  ipcLockCount : BitVec 16
  deviceUseCount : BitVec 16
  deriving DecidableEq, Repr

/-- What a block remembers at its left edge. -/
@[ext] structure LeftMark where
  flags : KMemoryBlockDisableMergeAttribute
  deviceCount : BitVec 16
  ipcCount : BitVec 16
  deriving DecidableEq, Repr

/-- What a block remembers at its right edge. -/
@[ext] structure RightMark where
  flags : KMemoryBlockDisableMergeAttribute
  deviceCount : BitVec 16
  deriving DecidableEq, Repr

instance : Inhabited LeftMark := ⟨⟨0, 0, 0⟩⟩
instance : Inhabited RightMark := ⟨⟨0, 0⟩⟩

theorem LeftMark.default_def : (default : LeftMark) = ⟨0, 0, 0⟩ := rfl
theorem RightMark.default_def : (default : RightMark) = ⟨0, 0⟩ := rfl

/-- A locked page has a lock count, a shared page a use count: what `CheckState` asks of the
    blocks it looks at. -/
def Page.CountsOk (q : Page) : Prop :=
  (q.attr &&& KMemoryAttribute.ipcLocked ≠ KMemoryAttribute.none → q.ipcLockCount ≠ 0) ∧
    (q.attr &&& KMemoryAttribute.deviceShared ≠ KMemoryAttribute.none → q.deviceUseCount ≠ 0)

instance (q : Page) : Decidable q.CountsOk := inferInstanceAs (Decidable (_ ∧ _))

namespace KMemoryBlock

def page (b : KMemoryBlock) : Page where
  memoryState := b.memoryState
  permission := b.permission
  originalPermission := b.originalPermission
  attr := b.attr
  ipcLockCount := b.ipcLockCount
  deviceUseCount := b.deviceUseCount

def leftMark (b : KMemoryBlock) : LeftMark where
  flags := b.disableMergeAttribute &&& allLeft
  deviceCount := b.deviceDisableMergeLeftCount
  ipcCount := b.ipcDisableMergeCount

def rightMark (b : KMemoryBlock) : RightMark where
  flags := b.disableMergeAttribute &&& allRight
  deviceCount := b.deviceDisableMergeRightCount

theorem endAddress_eq (b : KMemoryBlock) : b.endAddress = b.address + b.numPages * 4096 := rfl

theorem flags_eq (d : KMemoryBlockDisableMergeAttribute) : d &&& allLeft ||| d &&& allRight = d := by
  revert d; decide

variable {b c : KMemoryBlock}

theorem ext_parts (ha : b.address = c.address) (hn : b.numPages = c.numPages)
    (hp : b.page = c.page) (hl : b.leftMark = c.leftMark) (hr : b.rightMark = c.rightMark) :
    b = c := by
  have hd : b.disableMergeAttribute = c.disableMergeAttribute := by
    rw [← flags_eq b.disableMergeAttribute, ← flags_eq c.disableMergeAttribute]
    exact congrArg₂ _ (congrArg LeftMark.flags hl) (congrArg RightMark.flags hr)
  cases b
  cases c
  simp_all [page, leftMark, rightMark]

theorem canMergeWith_iff (b c : KMemoryBlock) : b.canMergeWith c = true ↔
      b.page = c.page ∧ b.rightMark.flags = 0 ∧ c.leftMark.flags = 0 := by
  simp only [canMergeWith, hasSameProperties, Bool.and_eq_true, beq_iff_eq, page, leftMark,
    rightMark, Page.mk.injEq]
  tauto

/-- What a cut of `b` at `addr` into `l` and `r` is: extents meet at `addr`, the pages are those
    of `b`, the outer edges are those of `b` and the new inner edges are bare. -/
structure IsSplit (b : KMemoryBlock) (addr : Nat) (l r : KMemoryBlock) : Prop where
  address_left : l.address = b.address
  end_left : l.endAddress = addr
  address_right : r.address = addr
  end_right : r.endAddress = b.endAddress
  page_left : l.page = b.page
  page_right : r.page = b.page
  leftMark_left : l.leftMark = b.leftMark
  rightMark_left : l.rightMark = default
  leftMark_right : r.leftMark = default
  rightMark_right : r.rightMark = b.rightMark

theorem split_spec {b l r : KMemoryBlock} {addr : Nat} (hb : b.address % 4096 = 0)
    (h : b.split addr = some (l, r)) :
    b.address < addr ∧ addr ≤ b.endAddress ∧ addr % 4096 = 0 ∧ IsSplit b addr l r := by
  have hd : ∀ d : KMemoryBlockDisableMergeAttribute, d &&& allLeft &&& allLeft = d &&& allLeft ∧
      d &&& allLeft &&& allRight = 0 ∧ d &&& allRight &&& allLeft = 0 ∧
      d &&& allRight &&& allRight = d &&& allRight := by decide
  obtain ⟨d1, d2, d3, d4⟩ := hd b.disableMergeAttribute
  simp only [split, assert_bind_eq_some, PageSize, pure_def, Option.some.injEq, Prod.mk.injEq] at h
  obtain ⟨h1, ⟨_, h2⟩, h3, rfl, rfl⟩ := h
  rw [endAddress_eq] at h2
  refine ⟨h1, by rw [endAddress_eq]; omega, h3, rfl, ?_, rfl, ?_, rfl, rfl, ?_, ?_, ?_, ?_⟩
  · simp only [endAddress_eq]
    omega
  · simp only [endAddress_eq]
    omega
  · simp [leftMark, d1]
  · simp [rightMark, d2, RightMark.default_def]
  · simp [leftMark, d3, LeftMark.default_def]
  · simp [rightMark, d4]

theorem split_isSome {b : KMemoryBlock} {addr : Nat} (h1 : b.address < addr)
    (h2 : addr ≤ b.endAddress) (h3 : addr % 4096 = 0) : (b.split addr).isSome = true := by
  have hc : b.contains addr := ⟨Nat.le_of_lt h1, h2⟩
  have ha : addr % PageSize = 0 := h3
  rw [split, assert_bind_of h1, assert_bind_of hc, assert_bind_of ha]
  rfl

theorem add_spec {b c m : KMemoryBlock} (hm : b.canMergeWith c = true)
    (hbc : b.endAddress = c.address) (h : b.add c = some m) :
    m.address = b.address ∧ m.endAddress = c.endAddress ∧ m.page = b.page ∧
      m.leftMark = b.leftMark ∧ m.rightMark = c.rightMark := by
  obtain ⟨_, hr, hl⟩ := (canMergeWith_iff b c).mp hm
  simp only [add, assert_bind_eq_some, pure_def, Option.some.injEq] at h
  obtain ⟨-, -, rfl⟩ := h
  simp only [rightMark, leftMark] at hr hl
  rw [endAddress_eq] at hbc
  refine ⟨rfl, ?_, rfl, ?_, ?_⟩
  · rw [endAddress_eq, endAddress_eq, ← hbc, Nat.add_mul, Nat.add_assoc]
  · simp [leftMark, BitVec.and_or_distrib_right, hl]
  · simp [rightMark, BitVec.and_or_distrib_right, hr]

theorem add_isSome (hb : 0 < b.numPages) (hc : 0 < c.numPages) : (b.add c).isSome = true := by
  have h : b.address + c.size - 1 < b.endAddress + c.size - 1 := by
    simp only [endAddress_eq, size, PageSize]
    omega
  rw [add, assert_bind_of hc, assert_bind_of h]
  rfl

end KMemoryBlock

/-! ## 4. What the members do to the pages -/

/-- `update` on one page. -/
def Page.update (s : KMemoryState) (p : KMemoryPermission) (a : KMemoryAttribute) (q : Page) :
    Page :=
  { q with
    memoryState := s
    permission := p
    attr := a ||| (q.attr &&& KMemoryAttribute.ignoreMask) }

/-- `hasProperties` on one page. -/
def Page.hasProperties (q : Page) (s : KMemoryState) (p : KMemoryPermission)
    (a : KMemoryAttribute) : Bool :=
  q.memoryState == s && q.permission == p &&
    (q.attr ||| KMemoryAttribute.ignoreMask) == (a ||| KMemoryAttribute.ignoreMask)

/-- `updateAttribute` on one page. -/
def Page.updateAttribute (mask attr : KMemoryAttribute) (q : Page) : Page :=
  { q with attr := (q.attr &&& ~~~mask) ||| attr }

/-- A lock function on one page. -/
def LockFunction.onPage (f : LockFunction) (perm : KMemoryPermission) (q : Page) : Page :=
  match f with
  | shareToDevice => { q with
      deviceUseCount := q.deviceUseCount + 1
      attr := q.attr ||| KMemoryAttribute.deviceShared }
  | unshareToDevice | unshareToDeviceRight => { q with
      deviceUseCount := q.deviceUseCount - 1
      attr := if q.deviceUseCount = 1 then q.attr &&& ~~~KMemoryAttribute.deviceShared
        else q.attr }
  | lockForIpc => { q with
      ipcLockCount := q.ipcLockCount + 1
      originalPermission := if q.ipcLockCount + 1 = 1 then q.permission else q.originalPermission
      permission :=
        if q.ipcLockCount + 1 = 1 then (perm &&& KMemoryPermission.ipcLockChangeMask) |||
          (q.permission &&& ~~~KMemoryPermission.ipcLockChangeMask)
        else q.permission
      attr := q.attr ||| KMemoryAttribute.ipcLocked }
  | unlockForIpc => { q with
      ipcLockCount := q.ipcLockCount - 1
      permission := if q.ipcLockCount = 1 then q.originalPermission else q.permission
      originalPermission :=
        if q.ipcLockCount = 1 then KMemoryPermission.none else q.originalPermission
      attr := if q.ipcLockCount = 1 then q.attr &&& ~~~KMemoryAttribute.ipcLocked else q.attr }
  | updateDeviceDisableMergeStateForShareLeft | updateDeviceDisableMergeStateForShareRight
  | updateDeviceDisableMergeStateForShare | updateDeviceDisableMergeStateForUnshareLeft
  | updateDeviceDisableMergeStateForUnshareRight | updateDeviceDisableMergeStateForUnshare => q

namespace KMemoryBlock

/-- `c` is `b` with its pages mapped by `g`: the extent stays. -/
def IsImage (g : Page → Page) (b c : KMemoryBlock) : Prop :=
  c.address = b.address ∧ c.numPages = b.numPages ∧ c.page = g b.page

theorem IsImage.endAddress {g : Page → Page} (h : IsImage g b c) : c.endAddress = b.endAddress := by
  rw [endAddress_eq, endAddress_eq, h.1, h.2.1]

theorem IsImage.comp {g g' : Page → Page} {b c d : KMemoryBlock} (h : IsImage g b c)
    (h' : IsImage g' c d) : IsImage (g' ∘ g) b d :=
  ⟨h'.1.trans h.1, h'.2.1.trans h.2.1, by rw [h'.2.2, h.2.2]; rfl⟩

theorem update_image {s : KMemoryState} {p : KMemoryPermission}
    {a : KMemoryAttribute} {set : Bool} {sm cm : KMemoryBlockDisableMergeAttribute}
    (h : b.update s p a set sm cm = some c) : IsImage (Page.update s p a) b c := by
  simp only [update, assert_bind_eq_some, pure_def, Option.some.injEq] at h
  obtain ⟨_, _, rfl⟩ := h
  exact ⟨rfl, rfl, rfl⟩

theorem updateAttribute_image {mask attr : KMemoryAttribute}
    (h : b.updateAttribute mask attr = some c) : IsImage (Page.updateAttribute mask attr) b c := by
  simp only [updateAttribute, assert_bind_eq_some, pure_def, Option.some.injEq] at h
  obtain ⟨_, _, rfl⟩ := h
  exact ⟨rfl, rfl, rfl⟩

section Image

variable {b c : KMemoryBlock} {left right : Bool}

theorem shareLeft_image (h : b.updateDeviceDisableMergeStateForShareLeft left = some c) :
    IsImage id b c := by
  unfold updateDeviceDisableMergeStateForShareLeft at h
  split at h
  · simp only [assert_bind_eq_some, pure_def, Option.some.injEq] at h
    obtain ⟨_, rfl⟩ := h
    exact ⟨rfl, rfl, rfl⟩
  · cases h
    exact ⟨rfl, rfl, rfl⟩

theorem shareRight_image (h : b.updateDeviceDisableMergeStateForShareRight right = some c) :
    IsImage id b c := by
  unfold updateDeviceDisableMergeStateForShareRight at h
  split at h
  · simp only [assert_bind_eq_some, pure_def, Option.some.injEq] at h
    obtain ⟨_, rfl⟩ := h
    exact ⟨rfl, rfl, rfl⟩
  · cases h
    exact ⟨rfl, rfl, rfl⟩

theorem share_image (h : b.updateDeviceDisableMergeStateForShare left right = some c) : IsImage id b c := by
  simp only [updateDeviceDisableMergeStateForShare, bind_eq_bind, bind_eq_some_iff] at h
  obtain ⟨d, h1, h2⟩ := h
  exact (shareLeft_image h1).comp (shareRight_image h2)

theorem unshareLeft_image (b : KMemoryBlock) (left : Bool) :
    IsImage id b (b.updateDeviceDisableMergeStateForUnshareLeft left) := by
  unfold updateDeviceDisableMergeStateForUnshareLeft
  split
  · exact ⟨rfl, rfl, rfl⟩
  · exact ⟨rfl, rfl, rfl⟩

theorem unshareRight_image (h : b.updateDeviceDisableMergeStateForUnshareRight right = some c) :
    IsImage id b c := by
  unfold updateDeviceDisableMergeStateForUnshareRight at h
  split at h
  · simp only [assert_bind_eq_some, pure_def, Option.some.injEq] at h
    obtain ⟨_, rfl⟩ := h
    exact ⟨rfl, rfl, rfl⟩
  · cases h
    exact ⟨rfl, rfl, rfl⟩

theorem unshare_image (perm : KMemoryPermission) (h : b.unshare = some c) :
    IsImage (LockFunction.unshareToDevice.onPage perm) b c := by
  simp only [unshare, assert_bind_eq_some, pure_def, Option.some.injEq] at h
  obtain ⟨_, _, rfl⟩ := h
  exact ⟨rfl, rfl, rfl⟩

variable {perm : KMemoryPermission}

theorem lockForIpc_image (h : b.lockForIpc perm left = some c) :
    IsImage (LockFunction.lockForIpc.onPage perm) b c := by
  simp only [lockForIpc, assert_bind_eq_some] at h
  obtain ⟨_, _, _, h⟩ := h
  split at h
  · simp only [assert_bind_eq_some, pure_def, Option.some.injEq] at h
    obtain ⟨_, rfl⟩ := h
    exact ⟨rfl, rfl, rfl⟩
  · cases h
    exact ⟨rfl, rfl, rfl⟩

theorem unlockForIpc_image (h : b.unlockForIpc left = some c) :
    IsImage (LockFunction.unlockForIpc.onPage perm) b c := by
  simp only [unlockForIpc, assert_bind_eq_some] at h
  obtain ⟨_, _, _, h⟩ := h
  split at h
  · simp only [assert_bind_eq_some, pure_def, Option.some.injEq] at h
    obtain ⟨_, rfl⟩ := h
    exact ⟨rfl, rfl, rfl⟩
  · cases h
    exact ⟨rfl, rfl, rfl⟩

end Image

/-- **A lock function acts on each page alone**, whatever the edges of the block. -/
theorem call_image {f : LockFunction} {left right : Bool} (h : f.call perm left right b = some c) :
    IsImage (f.onPage perm) b c := by
  cases f with
  | shareToDevice =>
    simp only [LockFunction.call, shareToDevice, assert_bind_eq_some] at h
    obtain ⟨_, _, h⟩ := h
    exact share_image h
  | unshareToDevice =>
    simp only [LockFunction.call, unshareToDevice, bind_eq_bind, bind_eq_some_iff] at h
    obtain ⟨d, h1, h2⟩ := h
    exact (unshare_image perm h1).comp ((unshareLeft_image d left).comp (unshareRight_image h2))
  | unshareToDeviceRight =>
    simp only [LockFunction.call, unshareToDeviceRight, bind_eq_bind, bind_eq_some_iff] at h
    obtain ⟨d, h1, h2⟩ := h
    exact (unshare_image perm h1).comp (unshareRight_image h2)
  | updateDeviceDisableMergeStateForShareLeft => exact shareLeft_image h
  | updateDeviceDisableMergeStateForShareRight => exact shareRight_image h
  | updateDeviceDisableMergeStateForShare => exact share_image h
  | updateDeviceDisableMergeStateForUnshareLeft =>
    cases h
    exact unshareLeft_image b left
  | updateDeviceDisableMergeStateForUnshareRight => exact unshareRight_image h
  | updateDeviceDisableMergeStateForUnshare =>
    exact (unshareLeft_image b left).comp (unshareRight_image h)
  | lockForIpc => exact lockForIpc_image h
  | unlockForIpc => exact unlockForIpc_image h

end KMemoryBlock

end Yuzu.Kernel
