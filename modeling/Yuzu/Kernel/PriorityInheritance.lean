/-
  File:      Yuzu/Kernel/PriorityInheritance.lean
  Subject:   PRIORITY INHERITANCE OF THE KERNEL'S LOCKS
             (core/hle/kernel/k_thread.cpp and k_thread.h: held locks, waiters, RestorePriority).

  Threads and lock infos are named; a lock info lives in the slab under its number, and a thread's
  held list and its waiting lock info are such numbers. A red black tree is the list of its nodes
  in order.
-/
import Yuzu.Lib.Assert
import Yuzu.Lib.OrderedTree
import Mathlib.Algebra.Order.Ring.Int

namespace Yuzu.Kernel.PriorityInheritance

open Function (update)

variable {T : Type} [DecidableEq T]

/-! ## 1. Lock infos and threads -/

/-- `LockWithPriorityInheritanceInfo`. -/
structure LockInfo (T : Type) where
  tree : List T
  addressKey : Nat
  owner : Option T
  waiterCount : Nat
  isKernelAddressKey : Bool
  deriving Repr, DecidableEq

/-- The threads' fields, the slab of lock infos (`allocated` of them were made so far), and the
trees of the condition variables and address arbiters. -/
structure Threads (T : Type) where
  basePriority : T → Int
  priority : T → Int
  addressKey : T → Nat
  isKernelAddressKey : T → Bool
  numKernelWaiters : T → Int
  heldLockInfoList : T → List Nat
  waitingLockInfo : T → Option Nat
  condvarTree : T → Option Nat
  condvarKey : T → Nat
  lockInfo : Nat → LockInfo T
  allocated : Nat
  condvar : Nat → List T

/-- `HighestThreadPriority` and `LowestThreadPriority`. -/
def highestThreadPriority : Int := 0
def lowestThreadPriority : Int := 63

namespace Threads

/-- Threads that were initialised with their priorities, before the first wait. -/
def start (prio : T → Int) : Threads T where
  basePriority := prio
  priority := prio
  addressKey := fun _ => 0
  isKernelAddressKey := fun _ => false
  numKernelWaiters := fun _ => 0
  heldLockInfoList := fun _ => []
  waitingLockInfo := fun _ => none
  condvarTree := fun _ => none
  condvarKey := fun _ => 0
  lockInfo := fun _ => ⟨[], 0, none, 0, false⟩
  allocated := 0
  condvar := fun _ => []

/-! ## 2. The lock info's own operations -/

/-- `LockWithPriorityInheritanceComparator::Compare`: behind the waiters of the same priority. -/
def compareWaiter (s : Threads T) (lhs rhs : T) : Ordering :=
  if s.priority lhs < s.priority rhs then .lt else .gt

/-- `LockWithPriorityInheritanceInfo::Create`. -/
def create (s : Threads T) (addressKey : Nat) (isKernelAddressKey : Bool) : Nat × Threads T :=
  (s.allocated,
    { s with lockInfo := update s.lockInfo s.allocated ⟨[], addressKey, none, 0, isKernelAddressKey⟩
             allocated := s.allocated + 1 })

/-- `LockWithPriorityInheritanceInfo::AddWaiter`. A node that is in a tree already has no place in
another. -/
def infoAddWaiter (s : Threads T) (i : Nat) (waiter : T) : Option (Threads T) := do
  assert (s.waitingLockInfo waiter = none)
  return { s with
    lockInfo := update s.lockInfo i
      { s.lockInfo i with
        tree := treeInsert (s.compareWaiter waiter) waiter (s.lockInfo i).tree
        waiterCount := (s.lockInfo i).waiterCount + 1 }
    waitingLockInfo := update s.waitingLockInfo waiter (some i) }

/-- `LockWithPriorityInheritanceInfo::RemoveWaiter`, and whether the count is zero now. -/
def infoRemoveWaiter (s : Threads T) (i : Nat) (waiter : T) : Bool × Threads T :=
  ((s.lockInfo i).waiterCount - 1 = 0, { s with
      lockInfo := update s.lockInfo i
        { s.lockInfo i with
          tree := (s.lockInfo i).tree.erase waiter
          waiterCount := (s.lockInfo i).waiterCount - 1 }
      waitingLockInfo := update s.waitingLockInfo waiter none })

/-! ## 3. Held locks -/

/-- `AddHeldLock`. -/
def addHeldLock (s : Threads T) (this : T) (i : Nat) : Threads T :=
  { s with
    lockInfo := update s.lockInfo i { s.lockInfo i with owner := some this }
    heldLockInfoList := update s.heldLockInfoList this (i :: s.heldLockInfoList this) }

/-- The erasure of a lock info from the held list. -/
def eraseHeldLock (s : Threads T) (this : T) (i : Nat) : Threads T :=
  { s with heldLockInfoList := update s.heldLockInfoList this ((s.heldLockInfoList this).erase i) }

/-- `FindHeldLock`. -/
def findHeldLock (s : Threads T) (this : T) (addressKey : Nat) (isKernelAddressKey : Bool) : Option Nat :=
  (s.heldLockInfoList this).find? fun i =>
    (s.lockInfo i).addressKey = addressKey && (s.lockInfo i).isKernelAddressKey = isKernelAddressKey

/-- `GetLockOwner`. -/
def getLockOwner (s : Threads T) (thread : T) : Option T :=
  (s.waitingLockInfo thread).bind fun i => (s.lockInfo i).owner

def addKernelWaiters (s : Threads T) (this : T) (count : Int) : Threads T :=
  { s with numKernelWaiters := update s.numKernelWaiters this (s.numKernelWaiters this + count) }

/-- The lock info of the address key, which is made when the thread holds none. -/
def findOrCreateHeldLock (s : Threads T) (this : T) (addressKey : Nat)
    (isKernelAddressKey : Bool) : Nat × Threads T :=
  match s.findHeldLock this addressKey isKernelAddressKey with
  | some i => (i, s)
  | none =>
    let (i, s) := s.create addressKey isKernelAddressKey
    (i, s.addHeldLock this i)

/-- `AddWaiterImpl`. -/
def addWaiterImpl (s : Threads T) (this thread : T) : Option (Threads T) := do
  assert (s.condvarTree thread = none)
  -- the assertion on the counter holds the increment
  assert (s.isKernelAddressKey thread = true → 0 ≤ s.numKernelWaiters this)
  let s := if s.isKernelAddressKey thread then s.addKernelWaiters this 1 else s
  let (i, s) := s.findOrCreateHeldLock this (s.addressKey thread) (s.isKernelAddressKey thread)
  s.infoAddWaiter i thread

/-- `RemoveWaiterImpl`. -/
def removeWaiterImpl (s : Threads T) (this thread : T) : Option (Threads T) := do
  assert (s.isKernelAddressKey thread = true → 0 < s.numKernelWaiters this)
  let s := if s.isKernelAddressKey thread then s.addKernelWaiters this (-1) else s
  let i ← s.waitingLockInfo thread
  assert ((s.lockInfo i).owner = some this)
  let (empty, s) := s.infoRemoveWaiter i thread
  return if empty then s.eraseHeldLock this i else s

/-! ## 4. Restoring priorities -/

/-- `ConditionVariableComparator::Compare`. -/
def compareCondvar (s : Threads T) (lhs rhs : T) : Ordering :=
  if s.condvarKey lhs < s.condvarKey rhs then .lt
  else if s.condvarKey lhs = s.condvarKey rhs ∧ s.priority lhs < s.priority rhs then .lt
  else .gt

/-- `BeforeUpdatePriority`, for a thread that is in a tree. -/
def beforeUpdatePriority (s : Threads T) (thread : T) : Threads T :=
  match s.condvarTree thread with
  | none => s
  | some c => { s with condvar := update s.condvar c ((s.condvar c).erase thread) }

/-- `AfterUpdatePriority`, for a thread that is in a tree. -/
def afterUpdatePriority (s : Threads T) (thread : T) : Threads T :=
  match s.condvarTree thread with
  | none => s
  | some c =>
    { s with
      condvar := update s.condvar c (treeInsert (s.compareCondvar thread) thread (s.condvar c)) }

def setPriority (s : Threads T) (thread : T) (value : Int) : Threads T :=
  { s with priority := update s.priority thread value }

/-- The priority that `RestorePriority` computes: the least of the base priority and of the first
waiters of the held locks. -/
def newPriority (s : Threads T) (thread : T) : Int :=
  (s.heldLockInfoList thread).foldl (fun p i =>
    match (s.lockInfo i).tree with
    | [] => p
    | waiter :: _ => min p (s.priority waiter)) (s.basePriority thread)

/-- What one round of `RestorePriority` changes: the thread leaves the trees it is in, and is
inserted again under its new priority. -/
def changePriority (s : Threads T) (thread : T) (value : Int) : Option (Threads T) := do
  let lockOwner := s.getLockOwner thread
  let s ← match lockOwner with
    | none => some s
    | some owner => s.removeWaiterImpl owner thread
  let s := ((s.beforeUpdatePriority thread).setPriority thread value).afterUpdatePriority thread
  match lockOwner with
  | none => some s
  | some owner => s.addWaiterImpl owner thread

/-- **`RestorePriority`**, with a bound on its rounds. -/
def restorePriority : Nat → Threads T → Option T → Option (Threads T)
  | _, s, none => some s
  | 0, _, some _ => none
  | fuel + 1, s, some thread =>
    let newPriority := s.newPriority thread
    if newPriority = s.priority thread then some s
    else do
      let lockOwner := s.getLockOwner thread
      let s ← s.changePriority thread newPriority
      restorePriority fuel s lockOwner

/-! ## 5. The operations -/

/-- `AddWaiter`. -/
def addWaiter (fuel : Nat) (s : Threads T) (this thread : T) : Option (Threads T) := do
  let s ← s.addWaiterImpl this thread
  if s.priority thread < s.priority this then restorePriority fuel s (some this) else some s

/-- `RemoveWaiter`. -/
def removeWaiter (fuel : Nat) (s : Threads T) (this thread : T) : Option (Threads T) := do
  let s ← s.removeWaiterImpl this thread
  if s.priority this = s.priority thread ∧ s.priority this < s.basePriority this then
    restorePriority fuel s (some this)
  else some s

/-- The part of `RemoveWaiterByKey` that moves the lock info to the next owner; the answer names
the next owner and says whether it has waiters. -/
def passLock (s : Threads T) (this : T) (i : Nat) : Option ((T × Bool) × Threads T) := do
  let count : Int := (s.lockInfo i).waiterCount
  let isKernel := (s.lockInfo i).isKernelAddressKey
  let s := s.eraseHeldLock this i
  let s := if isKernel then s.addKernelWaiters this (-count) else s
  assert (isKernel = true → 0 ≤ s.numKernelWaiters this)
  assert (0 < count)
  let next ← (s.lockInfo i).tree.head?
  let (empty, s) := s.infoRemoveWaiter i next
  if empty then return ((next, false), s)
  else
    let s := s.addHeldLock next i
    let s := if isKernel then s.addKernelWaiters next (s.lockInfo i).waiterCount else s
    assert (isKernel = true → 0 < s.numKernelWaiters next)
    return ((next, true), s)

/-- `RemoveWaiterByKey`. -/
def removeWaiterByKey (fuel : Nat) (s : Threads T) (this : T) (key : Nat)
    (isKernelAddressKey : Bool) : Option (Option T × Bool × Threads T) :=
  match s.findHeldLock this key isKernelAddressKey with
  | none => some (none, false, s)
  | some i => do
    let ((next, hasWaiters), s) ← s.passLock this i
    let s ← if s.priority this = s.priority next ∧ s.priority this < s.basePriority this then
        restorePriority fuel s (some this)
      else some s
    return (some next, hasWaiters, s)

/-- `SetBasePriority`. -/
def setBasePriority (fuel : Nat) (s : Threads T) (this : T) (value : Int) : Option (Threads T) := do
  assert (highestThreadPriority ≤ value ∧ value ≤ lowestThreadPriority)
  restorePriority fuel { s with basePriority := update s.basePriority this value } (some this)

/-- `IncreaseBasePriority`. -/
def increaseBasePriority (fuel : Nat) (s : Threads T) (this : T) (priority : Int) : Option (Threads T) := do
  assert (highestThreadPriority ≤ priority ∧ priority ≤ lowestThreadPriority)
  if s.basePriority this > priority then
    restorePriority fuel { s with basePriority := update s.basePriority this priority } (some this)
  else some s

/-- `SetUserAddressKey` and `SetKernelAddressKey`. -/
def setAddressKey (s : Threads T) (this : T) (key : Nat) (isKernel : Bool) : Option (Threads T) := do
  assert (s.waitingLockInfo this = none)
  return { s with addressKey := update s.addressKey this key
                  isKernelAddressKey := update s.isKernelAddressKey this isKernel }

/-- `SetConditionVariable` and the insertion into its tree. -/
def setConditionVariable (s : Threads T) (this : T) (tree address cvKey : Nat) : Option (Threads T) := do
  assert (s.waitingLockInfo this = none)
  assert (s.condvarTree this = none)
  let s := { s with condvarTree := update s.condvarTree this (some tree)
                    condvarKey := update s.condvarKey this cvKey
                    addressKey := update s.addressKey this address
                    isKernelAddressKey := update s.isKernelAddressKey this false }
  return s.afterUpdatePriority this

/-- The erasure from the tree and `ClearConditionVariable`. -/
def clearConditionVariable (s : Threads T) (this : T) : Threads T :=
  let s := s.beforeUpdatePriority this
  { s with condvarTree := update s.condvarTree this none }

end Threads

end Yuzu.Kernel.PriorityInheritance
