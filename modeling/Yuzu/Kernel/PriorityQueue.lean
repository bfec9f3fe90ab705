/-
  File:      Yuzu/Kernel/PriorityQueue.lean
  Subject:   KPriorityQueue (k_priority_queue.h): the queues of runnable threads.

  There are two kinds of queues, scheduled and suggested, each with a queue for every priority and
  core. The links are kept in the threads, one entry for each core, and the scheduled and the
  suggested queues share it. For each kind and core a bit set has the priorities with a thread.

  * `Represents` -- the links and bits are those of a family of lists `L core kind priority`;
  * `Represents.forQueues` -- the loops over the queues of a thread visit each of them once;
  * `Represents.pushBackAt`, `Represents.changeCore` and so on -- what the mutators do to the lists;
  * `Represents.front`, `Represents.getNext` -- what the getters read off them.
-/
import Yuzu.Common.BitSet
import Yuzu.Lib.Assert
import Yuzu.Lib.Linked

namespace Yuzu.Kernel

set_option linter.unusedSectionVars false

open Common List Option Function

/-! ## 1. Threads and queues -/

/-- `Core::Hardware::NUM_CPU_CORES`. -/
def numCores : Int := 4

/-- `Svc::LowestThreadPriority`. -/
def lowestPriority : Int := 63

/-- `Svc::HighestThreadPriority`. -/
def highestPriority : Int := 0

/-- The raw `ThreadState`, with its suspend flags. -/
abbrev ThreadState := BitVec 16

/-- `ThreadState::Runnable`. -/
def runnable : ThreadState := 2

/-- `KThread::QueueEntry`. -/
structure QueueEntry (T : Type) where
  prev : Option T
  next : Option T

/-- What the queues read of a `KThread`. -/
structure QueueMember where
  priority : Int
  activeCore : Int
  affinityMask : BitVec 64
  isDummyThread : Bool
  rawState : ThreadState

inductive QueueKind where
  | scheduled
  | suggested
  deriving DecidableEq, Repr

/-- `KPriorityQueueImpl`: the roots of its queues and the priorities that have a thread. -/
structure KPriorityQueueImpl (T : Type) where
  queues : Int → Int → QueueEntry T
  availablePriorities : Int → BitSet 64 64

/-- `KPriorityQueue`, with the threads `T` and the entries that are kept in them. -/
structure KPriorityQueue (T : Type) where
  threads : T → QueueMember
  entries : T → Int → QueueEntry T
  impl : QueueKind → KPriorityQueueImpl T

namespace KPriorityQueue

def isValidCore (core : Int) : Prop := 0 ≤ core ∧ core < numCores

def isValidPriority (priority : Int) : Prop :=
  highestPriority ≤ priority ∧ priority ≤ lowestPriority + 1

instance {core : Int} : Decidable (isValidCore core) := inferInstanceAs (Decidable (_ ∧ _))

instance {priority : Int} : Decidable (isValidPriority priority) :=
  inferInstanceAs (Decidable (_ ∧ _))

variable {T : Type} [DecidableEq T]

/-- The entry of a thread, or the root of the queue. -/
def entryAt (q : KPriorityQueue T) (k : QueueKind) (priority core : Int) : Option T → QueueEntry T
  | some member => q.entries member core
  | none => (q.impl k).queues priority core

def setEntryAt (q : KPriorityQueue T) (k : QueueKind) (priority core : Int) (pos : Option T)
    (e : QueueEntry T) : KPriorityQueue T :=
  match pos with
  | some member => { q with
      entries := fun t c => if t = member ∧ c = core then e else q.entries t c }
  | none => { q with
      impl := fun k' => if k' = k then { q.impl k' with
        queues := fun p c => if p = priority ∧ c = core then e else (q.impl k').queues p c }
      else q.impl k' }

def setPrev (q : KPriorityQueue T) (k : QueueKind) (priority core : Int) (pos v : Option T) :
    KPriorityQueue T :=
  q.setEntryAt k priority core pos { q.entryAt k priority core pos with prev := v }

def setNext (q : KPriorityQueue T) (k : QueueKind) (priority core : Int) (pos v : Option T) :
    KPriorityQueue T :=
  q.setEntryAt k priority core pos { q.entryAt k priority core pos with next := v }

/-! ## 2. The queue of a core -/

/-- `KPerCoreQueue::GetFront`. -/
def coreGetFront (q : KPriorityQueue T) (k : QueueKind) (priority core : Int) : Option T :=
  ((q.impl k).queues priority core).next

/-- `KPerCoreQueue::PushBack`. -/
def corePushBack (q : KPriorityQueue T) (k : QueueKind) (priority core : Int) (member : T) :
    Bool × KPriorityQueue T :=
  let tail := ((q.impl k).queues priority core).prev
  let q := q.setPrev k priority core (some member) tail
  let q := q.setNext k priority core (some member) none
  let q := q.setNext k priority core tail (some member)
  let q := q.setPrev k priority core none (some member)
  (tail.isNone, q)

/-- `KPerCoreQueue::PushFront`. -/
def corePushFront (q : KPriorityQueue T) (k : QueueKind) (priority core : Int) (member : T) :
    Bool × KPriorityQueue T :=
  let head := ((q.impl k).queues priority core).next
  let q := q.setPrev k priority core (some member) none
  let q := q.setNext k priority core (some member) head
  let q := q.setPrev k priority core head (some member)
  let q := q.setNext k priority core none (some member)
  (head.isNone, q)

/-- `KPerCoreQueue::Remove`. -/
def coreRemove (q : KPriorityQueue T) (k : QueueKind) (priority core : Int) (member : T) :
    Bool × KPriorityQueue T :=
  let prev := (q.entries member core).prev
  let next := (q.entries member core).next
  let q := q.setNext k priority core prev next
  let q := q.setPrev k priority core next prev
  ((q.coreGetFront k priority core).isNone, q)

/-! ## 3. The queues of a kind -/

def setAvailable (q : KPriorityQueue T) (k : QueueKind) (core : Int) (b : BitSet 64 64) :
    KPriorityQueue T :=
  { q with
    impl := fun k' => if k' = k then { q.impl k' with
      availablePriorities := fun c => if c = core then b else (q.impl k').availablePriorities c }
    else q.impl k' }

/-- `KPriorityQueueImpl::PushBack`. -/
def implPushBack (q : KPriorityQueue T) (k : QueueKind) (priority core : Int) (member : T) :
    Option (KPriorityQueue T) := do
  assert (isValidCore core)
  assert (isValidPriority priority)
  if priority > lowestPriority then
    return q
  match q.corePushBack k priority core member with
  | (true, q) =>
    return q.setAvailable k core (((q.impl k).availablePriorities core).setBit priority.toNat)
  | (false, q) => return q

/-- `KPriorityQueueImpl::PushFront`. -/
def implPushFront (q : KPriorityQueue T) (k : QueueKind) (priority core : Int) (member : T) :
    Option (KPriorityQueue T) := do
  assert (isValidCore core)
  assert (isValidPriority priority)
  if priority > lowestPriority then
    return q
  match q.corePushFront k priority core member with
  | (true, q) =>
    return q.setAvailable k core (((q.impl k).availablePriorities core).setBit priority.toNat)
  | (false, q) => return q

/-- `KPriorityQueueImpl::Remove`. -/
def implRemove (q : KPriorityQueue T) (k : QueueKind) (priority core : Int) (member : T) :
    Option (KPriorityQueue T) := do
  assert (isValidCore core)
  assert (isValidPriority priority)
  if priority > lowestPriority then
    return q
  match q.coreRemove k priority core member with
  | (true, q) =>
    return q.setAvailable k core (((q.impl k).availablePriorities core).clearBit priority.toNat)
  | (false, q) => return q

/-- `KPriorityQueueImpl::GetFront(core)`. -/
def implGetFront (q : KPriorityQueue T) (k : QueueKind) (core : Int) : Option (Option T) := do
  assert (isValidCore core)
  let priority : Int := ((q.impl k).availablePriorities core).countLeadingZero
  return if priority ≤ lowestPriority then q.coreGetFront k priority core else none

/-- `KPriorityQueueImpl::GetNext`. -/
def implGetNext (q : KPriorityQueue T) (k : QueueKind) (core : Int) (member : T) : Option (Option T) := do
  assert (isValidCore core)
  match (q.entries member core).next with
  | some next => return some next
  | none =>
    let priority : Int :=
      ((q.impl k).availablePriorities core).getNextSet (q.threads member).priority.toNat
    return if priority ≤ lowestPriority then q.coreGetFront k priority core else none

/-- `KPriorityQueueImpl::MoveToFront`. -/
def implMoveToFront (q : KPriorityQueue T) (k : QueueKind) (priority core : Int) (member : T) :
    Option (KPriorityQueue T) := do
  assert (isValidCore core)
  assert (isValidPriority priority)
  if priority ≤ lowestPriority then
    return ((q.coreRemove k priority core member).2.corePushFront k priority core member).2
  else
    return q

/-- `KPriorityQueueImpl::MoveToBack`. -/
def implMoveToBack (q : KPriorityQueue T) (k : QueueKind) (priority core : Int) (member : T) :
    Option (Option T × KPriorityQueue T) := do
  assert (isValidCore core)
  assert (isValidPriority priority)
  if priority ≤ lowestPriority then
    let q := ((q.coreRemove k priority core member).2.corePushBack k priority core member).2
    return (q.coreGetFront k priority core, q)
  else
    return (none, q)

/-! ## 4. The priority queue -/

def clearAffinityBit (affinity : BitVec 64) (core : Int) : BitVec 64 :=
  affinity &&& ~~~(1#64 <<< core.toNat)

/-- `GetNextCore`: the lowest core of the mask, and the mask without it. -/
def getNextCore (affinity : BitVec 64) : Int × BitVec 64 :=
  let core : Int := countrZero 64 affinity.toNat
  (core, clearAffinityBit affinity core)

/-- The loops `while (affinity)`, which take a core out of the mask in each round. -/
def forAffinity (body : KPriorityQueue T → Int → Option (KPriorityQueue T)) :
    Nat → BitVec 64 → KPriorityQueue T → Option (KPriorityQueue T)
  | 0, affinity, q => if affinity = 0 then some q else none
  | fuel + 1, affinity, q =>
    if affinity = 0 then some q
    else do
      let q ← body q (getNextCore affinity).1
      forAffinity body fuel (getNextCore affinity).2 q

/-- What `PushBack`, `PushFront` and `Remove` have in common: one call for the queue of the active
    core, if there is one, and one for each other core of the mask. -/
def forQueues (scheduled suggested : KPriorityQueue T → Int → Option (KPriorityQueue T))
    (q : KPriorityQueue T) (member : T) : Option (KPriorityQueue T) :=
  let affinity := (q.threads member).affinityMask
  let core := (q.threads member).activeCore
  if core ≥ 0 then do
    let q ← scheduled q core
    forAffinity suggested 64 (clearAffinityBit affinity core) q
  else forAffinity suggested 64 affinity q

/-- `PushBack(priority, member)`. -/
def pushBackAt (q : KPriorityQueue T) (priority : Int) (member : T) : Option (KPriorityQueue T) := do
  assert (isValidPriority priority)
  forQueues (fun q core => q.implPushBack .scheduled priority core member)
    (fun q core => q.implPushBack .suggested priority core member) q member

/-- `PushFront(priority, member)`: the suggested queues are pushed at the back. -/
def pushFrontAt (q : KPriorityQueue T) (priority : Int) (member : T) : Option (KPriorityQueue T) := do
  assert (isValidPriority priority)
  forQueues (fun q core => q.implPushFront .scheduled priority core member)
    (fun q core => q.implPushBack .suggested priority core member) q member

/-- `Remove(priority, member)`. -/
def removeAt (q : KPriorityQueue T) (priority : Int) (member : T) : Option (KPriorityQueue T) := do
  assert (isValidPriority priority)
  forQueues (fun q core => q.implRemove .scheduled priority core member)
    (fun q core => q.implRemove .suggested priority core member) q member

def getScheduledFront (q : KPriorityQueue T) (core : Int) : Option (Option T) :=
  q.implGetFront .scheduled core

def getSuggestedFront (q : KPriorityQueue T) (core : Int) : Option (Option T) :=
  q.implGetFront .suggested core

def getScheduledNext (q : KPriorityQueue T) (core : Int) (member : T) : Option (Option T) :=
  q.implGetNext .scheduled core member

def getSuggestedNext (q : KPriorityQueue T) (core : Int) (member : T) : Option (Option T) :=
  q.implGetNext .suggested core member

/-- `PushBack(member)`. -/
def pushBack (q : KPriorityQueue T) (member : T) : Option (KPriorityQueue T) :=
  if (q.threads member).isDummyThread then some q
  else q.pushBackAt (q.threads member).priority member

/-- `Remove(member)`. -/
def remove (q : KPriorityQueue T) (member : T) : Option (KPriorityQueue T) :=
  if (q.threads member).isDummyThread then some q
  else q.removeAt (q.threads member).priority member

def moveToScheduledFront (q : KPriorityQueue T) (member : T) : Option (KPriorityQueue T) :=
  if (q.threads member).isDummyThread then some q
  else q.implMoveToFront .scheduled (q.threads member).priority (q.threads member).activeCore member

def moveToScheduledBack (q : KPriorityQueue T) (member : T) : Option (Option T × KPriorityQueue T) :=
  if (q.threads member).isDummyThread then some (none, q)
  else q.implMoveToBack .scheduled (q.threads member).priority (q.threads member).activeCore member

def changePriority (q : KPriorityQueue T) (prevPriority : Int) (isRunning : Bool) (member : T) :
    Option (KPriorityQueue T) :=
  if (q.threads member).isDummyThread then some q
  else do
    assert (isValidPriority prevPriority)
    let newPriority := (q.threads member).priority
    let q ← q.removeAt prevPriority member
    if isRunning then q.pushFrontAt newPriority member else q.pushBackAt newPriority member

/-- `KAffinityMask::GetAffinity`. -/
def getAffinity (affinity : BitVec 64) (core : Int) : Bool :=
  affinity &&& (1#64 <<< core.toNat) != 0

/-- The loops of `ChangeAffinityMask` over the cores. -/
def forCores (body : KPriorityQueue T → QueueKind → Int → Option (KPriorityQueue T))
    (activeCore : Int) (affinity : BitVec 64) (q : KPriorityQueue T) : Option (KPriorityQueue T) :=
  [0, 1, 2, 3].foldlM (fun q (core : Int) =>
    if getAffinity affinity core then
      if core = activeCore then body q .scheduled core else body q .suggested core
    else some q) q

def changeAffinityMask (q : KPriorityQueue T) (prevCore : Int) (prevAffinity : BitVec 64)
    (member : T) : Option (KPriorityQueue T) :=
  if (q.threads member).isDummyThread then some q
  else do
    let priority := (q.threads member).priority
    let newAffinity := (q.threads member).affinityMask
    let newCore := (q.threads member).activeCore
    let q ← forCores (fun q k core => q.implRemove k priority core member) prevCore prevAffinity q
    forCores (fun q k core => q.implPushBack k priority core member) newCore newAffinity q

/-- `ChangeCore` removes the thread from the scheduled queue of the previous core. -/
def leaveCore (q : KPriorityQueue T) (priority prevCore : Int) (member : T) : Option (KPriorityQueue T) :=
  if prevCore ≥ 0 then q.implRemove .scheduled priority prevCore member else some q

/-- It moves it from the suggested to the scheduled queue of the new core. -/
def enterCore (q : KPriorityQueue T) (priority newCore : Int) (member : T) (toFront : Bool) :
    Option (KPriorityQueue T) :=
  if newCore ≥ 0 then do
    let q ← q.implRemove .suggested priority newCore member
    if toFront then q.implPushFront .scheduled priority newCore member
    else q.implPushBack .scheduled priority newCore member
  else some q

/-- It adds it to the suggested queue of the previous core. -/
def suggestCore (q : KPriorityQueue T) (priority prevCore : Int) (member : T) : Option (KPriorityQueue T) :=
  if prevCore ≥ 0 then q.implPushBack .suggested priority prevCore member else some q

def changeCore (q : KPriorityQueue T) (prevCore : Int) (member : T) (toFront : Bool) :
    Option (KPriorityQueue T) :=
  if (q.threads member).isDummyThread then some q
  else
    let newCore := (q.threads member).activeCore
    let priority := (q.threads member).priority
    if prevCore ≠ newCore then do
      let q ← q.leaveCore priority prevCore member
      let q ← q.enterCore priority newCore member toFront
      q.suggestCore priority prevCore member
    else some q

/-! ## 5. The links -/

/-- The lists of a core, by kind and priority. -/
abbrev CoreLists (T : Type) := QueueKind → Int → List T

/-- The lists of all queues. -/
abbrev Lists (T : Type) := Int → CoreLists T

def Lists.set (L : Lists T) (core : Int) (k : QueueKind) (priority : Int) (l : List T) : Lists T :=
  fun c k' p => if c = core ∧ k' = k ∧ p = priority then l else L c k' p

def next (q : KPriorityQueue T) (k : QueueKind) (priority core : Int) (pos : Option T) : Option T :=
  (q.entryAt k priority core pos).next

def prev (q : KPriorityQueue T) (k : QueueKind) (priority core : Int) (pos : Option T) : Option T :=
  (q.entryAt k priority core pos).prev

/-- A priority that has queues. -/
def hasQueue (priority : Int) : Prop := 0 ≤ priority ∧ priority ≤ lowestPriority

/-- The links are those of the lists, and no two lists of a core share a thread. -/
structure Links (q : KPriorityQueue T) (L : Lists T) : Prop where
  ring : ∀ c k p, isValidCore c → hasQueue p → Ring (q.next k p c) (q.prev k p c) (L c k p)
  disjoint : ∀ c k p k' p' t, t ∈ L c k p → t ∈ L c k' p' → k = k' ∧ p = p'

variable {q q' q'' : KPriorityQueue T} {k : QueueKind} {p c : Int} {m : T} {pos v : Option T}
  {L : Lists T} {A B l : List T}

theorem entryAt_setEntryAt {e : QueueEntry T} {k' : QueueKind} {p' c' : Int} {pos' : Option T} :
    (q.setEntryAt k p c pos e).entryAt k' p' c' pos' =
      if pos' = pos ∧ c' = c ∧ (pos = none → k' = k ∧ p' = p) then e
      else q.entryAt k' p' c' pos' := by
  cases pos with
  | some t =>
    cases pos' with
    | some t' => simp [setEntryAt, entryAt]
    | none => simp [setEntryAt, entryAt]
  | none =>
    cases pos' with
    | some t' => simp [setEntryAt, entryAt]
    | none =>
      simp only [setEntryAt, entryAt]
      by_cases hk : k' = k
      · simp [hk, and_comm]
      · simp [hk]

@[simp] theorem next_setNext :
    (q.setNext k p c pos v).next k p c = Function.update (q.next k p c) pos v := by
  funext pos'
  rw [next, setNext, entryAt_setEntryAt, update_apply]
  by_cases h : pos' = pos
  · simp [h]
  · simp [h, next]

@[simp] theorem prev_setNext : (q.setNext k p c pos v).prev k p c = q.prev k p c := by
  funext pos'
  rw [prev, setNext, entryAt_setEntryAt]
  by_cases h : pos' = pos
  · simp [h, prev]
  · simp [h, prev]

@[simp] theorem prev_setPrev :
    (q.setPrev k p c pos v).prev k p c = Function.update (q.prev k p c) pos v := by
  funext pos'
  rw [prev, setPrev, entryAt_setEntryAt, update_apply]
  by_cases h : pos' = pos
  · simp [h]
  · simp [h, prev]

@[simp] theorem next_setPrev : (q.setPrev k p c pos v).next k p c = q.next k p c := by
  funext pos'
  rw [next, setPrev, entryAt_setEntryAt]
  by_cases h : pos' = pos
  · simp [h, next]
  · simp [h, next]

/-- Only the root of one queue and the entries of some threads for its core are written. -/
structure Confined (S : T → Prop) (k : QueueKind) (p c : Int) (q q' : KPriorityQueue T) : Prop where
  threads : q'.threads = q.threads
  available : ∀ k' c', (q'.impl k').availablePriorities c' = (q.impl k').availablePriorities c'
  entryAt : ∀ k' p' c' pos, ¬(c' = c ∧ (pos = none → k' = k ∧ p' = p) ∧ ∀ t, pos = some t → S t) →
    q'.entryAt k' p' c' pos = q.entryAt k' p' c' pos

variable {S : T → Prop}

theorem Confined.trans (h : Confined S k p c q q') (h' : Confined S k p c q' q'') :
    Confined S k p c q q'' :=
  ⟨h'.threads.trans h.threads, fun k' c' => (h'.available k' c').trans (h.available k' c'),
    fun k' p' c' pos hn => (h'.entryAt k' p' c' pos hn).trans (h.entryAt k' p' c' pos hn)⟩

theorem confined_setEntryAt {e : QueueEntry T} (hS : ∀ t, pos = some t → S t) :
    Confined S k p c q (q.setEntryAt k p c pos e) := by
  refine ⟨?_, fun k' c' => ?_, fun k' p' c' pos' hn => ?_⟩
  · cases pos <;> rfl
  · cases pos with
    | some t => rfl
    | none =>
      simp only [setEntryAt]
      split <;> rfl
  · rw [entryAt_setEntryAt, if_neg]
    rintro ⟨rfl, rfl, h⟩
    exact hn ⟨rfl, h, hS⟩

theorem confined_setNext (hS : ∀ t, pos = some t → S t) :
    Confined S k p c q (q.setNext k p c pos v) := confined_setEntryAt hS

theorem confined_setPrev (hS : ∀ t, pos = some t → S t) :
    Confined S k p c q (q.setPrev k p c pos v) := confined_setEntryAt hS

/-- One queue changes; the others are as before. -/
theorem Links.update (h : Links q L) (hw : Confined (fun t => t ∈ L c k p ∨ t = m) k p c q q')
    (hm : ∀ k' p', m ∈ L c k' p' → k' = k ∧ p' = p)
    (hring : Ring (q'.next k p c) (q'.prev k p c) l) (hl : ∀ t ∈ l, t ∈ L c k p ∨ t = m) :
    Links q' (L.set c k p l) := by
  -- a thread of a list that is not this one is in none of the entries written
  have hother : ∀ {k' p' t}, t ∈ L c k' p' → t ∈ L c k p ∨ t = m → k' = k ∧ p' = p := by
    intro k' p' t ht hs
    rcases hs with hs | rfl
    · exact h.disjoint c k' p' k p t ht hs
    · exact hm k' p' ht
  refine ⟨fun c' k' p' hc hp => ?_, fun c' k1 p1 k2 p2 t ht1 ht2 => ?_⟩
  · unfold Lists.set
    split
    · rename_i he
      obtain ⟨rfl, rfl, rfl⟩ := he
      exact hring
    · rename_i he
      have hroot : ¬(c' = c ∧ ((none : Option T) = none → k' = k ∧ p' = p) ∧
          ∀ t, none = some t → (t ∈ L c k p ∨ t = m)) := fun hn => he ⟨hn.1, hn.2.1 rfl⟩
      have hentry : ∀ t ∈ L c' k' p', ¬(c' = c ∧ (some t = none → k' = k ∧ p' = p) ∧
          ∀ t', some t = some t' → (t' ∈ L c k p ∨ t' = m)) := fun t ht hn => by
        obtain ⟨rfl, -, hs⟩ := hn
        exact he ⟨rfl, hother ht (hs t rfl)⟩
      refine (h.ring c' k' p' hc hp).congr ?_ ?_ (fun t ht => ?_) fun t ht => ?_
      · rw [next, next, hw.entryAt k' p' c' none hroot]
      · rw [prev, prev, hw.entryAt k' p' c' none hroot]
      · rw [next, next, hw.entryAt k' p' c' (some t) (hentry t ht)]
      · rw [prev, prev, hw.entryAt k' p' c' (some t) (hentry t ht)]
  · simp only [Lists.set] at ht1 ht2
    split at ht1
    · rename_i he1
      obtain ⟨rfl, rfl, rfl⟩ := he1
      split at ht2
      · rename_i he2
        exact ⟨he2.2.1.symm, he2.2.2.symm⟩
      · obtain ⟨rfl, rfl⟩ := hother ht2 (hl t ht1)
        exact ⟨rfl, rfl⟩
    · split at ht2
      · rename_i he2
        obtain ⟨rfl, rfl, rfl⟩ := he2
        exact hother ht1 (hl t ht2)
      · exact h.disjoint c' k1 p1 k2 p2 t ht1 ht2

/-- **PushBack** of a queue appends the thread. -/
theorem Links.corePushBack (h : Links q L) (hc : isValidCore c) (hp : hasQueue p)
    (hm : ∀ k' p', m ∉ L c k' p') : ∃ q', q.corePushBack k p c m = ((L c k p).isEmpty, q') ∧
      Confined (fun t => t ∈ L c k p ∨ t = m) k p c q q' ∧ Links q' (L.set c k p (L c k p ++ [m])) := by
  have hring := h.ring c k p hc hp
  have htail : ((q.impl k).queues p c).prev = (L c k p).getLast? := hring.prev_none
  have hne : (L c k p).getLast? ≠ some m := Circuit.getLast?_ne_some (hm k p)
  have hlast : ∀ t, (L c k p).getLast? = some t → t ∈ L c k p ∨ t = m := fun t ht =>
    .inl (mem_of_getLast? ht)
  have hself : ∀ t, some m = some t → t ∈ L c k p ∨ t = m := fun t ht =>
    .inr (some.inj ht).symm
  have hw := ((((confined_setPrev hself).trans (confined_setNext hself)).trans
    (confined_setNext hlast)).trans (confined_setPrev fun t ht => nomatch ht) :
    Confined _ k p c q ((((q.setPrev k p c (some m) (L c k p).getLast?).setNext k p c (some m)
      none).setNext k p c (L c k p).getLast? (some m)).setPrev k p c none (some m)))
  refine ⟨_, ?_, hw, h.update hw (fun k' p' hm' => absurd hm' (hm k' p')) ?_ fun t ht => ?_⟩
  · rw [KPriorityQueue.corePushBack, htail]
    cases L c k p with
    | nil => rfl
    | cons t l => rw [List.getLast?_cons]; rfl
  · simp only [next_setPrev, next_setNext, prev_setPrev, prev_setNext]
    have hring' := hring
    rw [← append_nil (L c k p)] at hring'
    refine hring'.insert (by rw [append_nil]; exact hm k p) ?_ ?_ (fun pos h1 h2 => ?_) ?_ ?_
      fun pos h1 h2 => ?_
    · rw [update_self]
    · rw [update_of_ne hne.symm, update_self]
      rfl
    · rw [update_of_ne h1, update_of_ne h2]
    · rw [List.head?_nil, update_self]
    · rw [update_of_ne (some_ne_none m), update_self]
    · rw [List.head?_nil] at h1
      rw [update_of_ne h1, update_of_ne h2]
  · rcases mem_append.mp ht with ht | ht
    · exact .inl ht
    · exact .inr (mem_singleton.mp ht)

/-- **PushFront** of a queue puts the thread in front. -/
theorem Links.corePushFront (h : Links q L) (hc : isValidCore c) (hp : hasQueue p)
    (hm : ∀ k' p', m ∉ L c k' p') : ∃ q', q.corePushFront k p c m = ((L c k p).isEmpty, q') ∧
      Confined (fun t => t ∈ L c k p ∨ t = m) k p c q q' ∧ Links q' (L.set c k p (m :: L c k p)) := by
  have hring := h.ring c k p hc hp
  have hhead : ((q.impl k).queues p c).next = (L c k p).head? := hring.next_none
  have hne : (L c k p).head? ≠ some m := fun he => hm k p (mem_of_head? he)
  have hfirst : ∀ t, (L c k p).head? = some t → t ∈ L c k p ∨ t = m := fun t ht =>
    .inl (mem_of_head? ht)
  have hself : ∀ t, some m = some t → t ∈ L c k p ∨ t = m := fun t ht =>
    .inr (some.inj ht).symm
  have hw := ((((confined_setPrev hself).trans (confined_setNext hself)).trans
    (confined_setPrev hfirst)).trans (confined_setNext fun t ht => nomatch ht) :
    Confined _ k p c q ((((q.setPrev k p c (some m) none).setNext k p c (some m)
      (L c k p).head?).setPrev k p c (L c k p).head? (some m)).setNext k p c none (some m)))
  refine ⟨_, ?_, hw, h.update hw (fun k' p' hm' => absurd hm' (hm k' p')) ?_ fun t ht => ?_⟩
  · rw [KPriorityQueue.corePushFront, hhead]
    cases L c k p with
    | nil => rfl
    | cons t l => rfl
  · simp only [next_setPrev, next_setNext, prev_setPrev, prev_setNext]
    have hring' : Ring (q.next k p c) (q.prev k p c) ([] ++ L c k p) := hring
    refine hring'.insert (hm k p) ?_ ?_ (fun pos h1 h2 => ?_) ?_ ?_ fun pos h1 h2 => ?_
    · rw [List.getLast?_nil, update_self]
    · rw [update_of_ne (some_ne_none m), update_self]
    · rw [List.getLast?_nil] at h1
      rw [update_of_ne h1, update_of_ne h2]
    · rw [update_self]
    · rw [update_of_ne hne.symm, update_self]
      rfl
    · rw [update_of_ne h1, update_of_ne h2]
  · rcases mem_cons.mp ht with ht | ht
    · exact .inr ht
    · exact .inl ht

/-- **Remove** of a queue takes the thread out. -/
theorem Links.coreRemove (h : Links q L) (hc : isValidCore c) (hp : hasQueue p)
    (hm : m ∈ L c k p) : ∃ q', q.coreRemove k p c m = (((L c k p).erase m).isEmpty, q') ∧
      Confined (fun t => t ∈ L c k p ∨ t = m) k p c q q' ∧
      Links q' (L.set c k p ((L c k p).erase m)) := by
  have hring := h.ring c k p hc hp
  obtain ⟨A, B, hL⟩ := append_of_mem hm
  have hnodup := hring.nodup
  rw [hL] at hring hnodup
  obtain ⟨hmA, hmB⟩ : m ∉ A ∧ m ∉ B := by
    have := (nodup_middle.mp hnodup).notMem
    rw [mem_append, not_or] at this
    exact this
  have herase : (L c k p).erase m = A ++ B := by
    rw [hL, erase_append_right _ hmA, erase_cons_head]
  have hprev : (q.entries m c).prev = A.getLast? := hring.prev_some
  have hnext : (q.entries m c).next = B.head? := hring.next_some
  have hlast : ∀ t, A.getLast? = some t → t ∈ L c k p ∨ t = m := fun t ht => by
    rw [hL]
    exact .inl (mem_append_left _ (mem_of_getLast? ht))
  have hfirst : ∀ t, B.head? = some t → t ∈ L c k p ∨ t = m := fun t ht => by
    rw [hL]
    exact .inl (mem_append_right _ (mem_cons_of_mem m (mem_of_head? ht)))
  have hw := (confined_setNext hlast).trans (confined_setPrev hfirst) |> fun (hw :
    Confined _ k p c q ((q.setNext k p c A.getLast? B.head?).setPrev k p c B.head? A.getLast?)) => hw
  have hring' : Ring (((q.setNext k p c A.getLast? B.head?).setPrev k p c B.head?
      A.getLast?).next k p c) (((q.setNext k p c A.getLast? B.head?).setPrev k p c B.head?
      A.getLast?).prev k p c) (A ++ B) := by
    simp only [next_setPrev, next_setNext, prev_setPrev, prev_setNext]
    refine hring.remove ?_ (fun pos h1 _ => ?_) ?_ fun pos h1 _ => ?_
    · rw [update_self]
    · rw [update_of_ne h1]
    · rw [update_self]
    · rw [update_of_ne h1]
  rw [herase]
  refine ⟨_, ?_, hw, h.update hw (fun k' p' hm' => h.disjoint c k' p' k p m hm' hm) hring'
    fun t ht => ?_⟩
  · have hfront := hring'.next_none
    simp only [KPriorityQueue.coreRemove, hprev, hnext]
    congr 1
    change ((KPriorityQueue.next _ k p c none)).isNone = _
    rw [hfront]
    cases A ++ B <;> rfl
  · rw [hL]
    rcases mem_append.mp ht with ht | ht
    · exact .inl (mem_append_left _ ht)
    · exact .inl (mem_append_right _ (mem_cons_of_mem m ht))

/-! ## 6. The available priorities -/

/-- **The representation**: links, and a bit for every list that is not empty. -/
structure Represents (q : KPriorityQueue T) (L : Lists T) : Prop extends Links q L where
  available : ∀ c k p, isValidCore c → hasQueue p →
    (((q.impl k).availablePriorities c).test p.toNat = true ↔ L c k p ≠ [])

theorem entryAt_setAvailable {b : BitSet 64 64} {k' : QueueKind} {p' c' : Int} :
    (q.setAvailable k c b).entryAt k' p' c' pos = q.entryAt k' p' c' pos := by
  cases pos with
  | some t => rfl
  | none =>
    simp only [setAvailable, entryAt]
    split <;> rfl

theorem Links.setAvailable (h : Links q L) {b : BitSet 64 64} : Links (q.setAvailable k c b) L := by
  refine ⟨fun c' k' p' hc hp => (h.ring c' k' p' hc hp).congr ?_ ?_ (fun t _ => ?_) fun t _ => ?_,
    h.disjoint⟩ <;>
  · simp only [next, prev, entryAt_setAvailable]

theorem available_setAvailable {b : BitSet 64 64} {k' : QueueKind} {c' : Int} :
    ((q.setAvailable k c b).impl k').availablePriorities c' =
      if c' = c ∧ k' = k then b else (q.impl k').availablePriorities c' := by
  simp only [setAvailable]
  by_cases hk : k' = k
  · simp [hk]
  · simp [hk]

theorem toNat_inj {p p' : Int} (hp : hasQueue p) (hp' : hasQueue p') : p.toNat = p'.toNat ↔ p = p' := by
  obtain ⟨h1, -⟩ := hp
  obtain ⟨h2, -⟩ := hp'
  omega

/-- The bit of one list is set if the list got its first thread. -/
theorem Represents.added (h : Represents q L)
    (hw : Confined S k p c q q') (hl : Links q' (L.set c k p l)) (hne : l ≠ []) (hp : hasQueue p) :
    Represents (match (L c k p).isEmpty with
      | true => q'.setAvailable k c (((q'.impl k).availablePriorities c).setBit p.toNat)
      | false => q') (L.set c k p l) := by
  cases he : (L c k p).isEmpty with
  | true =>
    refine ⟨hl.setAvailable, fun c' k' p' hc' hp' => ?_⟩
    rw [available_setAvailable, Lists.set]
    by_cases hck : c' = c ∧ k' = k
    · obtain ⟨rfl, rfl⟩ := hck
      rw [if_pos ⟨rfl, rfl⟩, BitSet.test_setBit (by decide), hw.available, Bool.or_eq_true,
        h.available c' k' p' hc' hp', decide_eq_true_eq, toNat_inj hp hp']
      by_cases hpp : p' = p
      · rw [if_pos ⟨rfl, rfl, hpp⟩]
        exact iff_of_true (.inr hpp.symm) hne
      · rw [if_neg fun hn => hpp hn.2.2]
        exact or_iff_left fun he => hpp he.symm
    · rw [if_neg hck, hw.available, if_neg fun hn => hck ⟨hn.1, hn.2.1⟩]
      exact h.available c' k' p' hc' hp'
  | false =>
    refine ⟨hl, fun c' k' p' hc' hp' => ?_⟩
    rw [hw.available, h.available c' k' p' hc' hp', Lists.set]
    split
    · rename_i hn
      obtain ⟨rfl, rfl, rfl⟩ := hn
      rw [isEmpty_eq_false_iff] at he
      exact iff_of_true he hne
    · exact Iff.rfl

/-- The bit of one list is cleared if the list lost its last thread. -/
theorem Represents.removed (h : Represents q L)
    (hw : Confined S k p c q q') (hl : Links q' (L.set c k p l)) (hne : L c k p ≠ [])
    (hp : hasQueue p) :
    Represents (match l.isEmpty with
      | true => q'.setAvailable k c (((q'.impl k).availablePriorities c).clearBit p.toNat)
      | false => q') (L.set c k p l) := by
  cases he : l.isEmpty with
  | true =>
    refine ⟨hl.setAvailable, fun c' k' p' hc' hp' => ?_⟩
    rw [available_setAvailable, Lists.set]
    by_cases hck : c' = c ∧ k' = k
    · obtain ⟨rfl, rfl⟩ := hck
      rw [if_pos ⟨rfl, rfl⟩, BitSet.test_clearBit (by decide), hw.available, Bool.and_eq_true,
        h.available c' k' p' hc' hp', Bool.not_eq_true', decide_eq_false_iff_not,
        toNat_inj hp hp']
      by_cases hpp : p' = p
      · rw [if_pos ⟨rfl, rfl, hpp⟩]
        exact iff_of_false (fun hn => hn.2 hpp.symm) (not_not.mpr (isEmpty_iff.mp he))
      · rw [if_neg fun hn => hpp hn.2.2]
        exact and_iff_left fun he => hpp he.symm
    · rw [if_neg hck, hw.available, if_neg fun hn => hck ⟨hn.1, hn.2.1⟩]
      exact h.available c' k' p' hc' hp'
  | false =>
    refine ⟨hl, fun c' k' p' hc' hp' => ?_⟩
    rw [hw.available, h.available c' k' p' hc' hp', Lists.set]
    split
    · rename_i hn
      obtain ⟨rfl, rfl, rfl⟩ := hn
      rw [isEmpty_eq_false_iff] at he
      exact iff_of_true hne he
    · exact Iff.rfl

/-- The lists of a core after a change of one list, if the priority has one. -/
def CoreLists.change (l : CoreLists T) (k : QueueKind) (priority : Int) (f : List T → List T) :
    CoreLists T :=
  if priority ≤ lowestPriority then
    fun k' p => if k' = k ∧ p = priority then f (l k priority) else l k' p
  else l

def Lists.change (L : Lists T) (core : Int) (k : QueueKind) (priority : Int)
    (f : List T → List T) : Lists T :=
  Function.update L core ((L core).change k priority f)

theorem Lists.change_of_le {f : List T → List T} (hle : p ≤ lowestPriority) :
    L.change c k p f = L.set c k p (f (L c k p)) := by
  funext c' k' p'
  rw [Lists.change, CoreLists.change, if_pos hle, Lists.set, update_apply]
  by_cases hc : c' = c
  · simp [hc]
  · simp [hc]

theorem Lists.change_of_lt {f : List T → List T} (hlt : lowestPriority < p) : L.change c k p f = L := by
  rw [Lists.change, CoreLists.change, if_neg (Int.not_le.mpr hlt), update_eq_self]

theorem hasQueue_of (hp : isValidPriority p) (hle : p ≤ lowestPriority) : hasQueue p :=
  ⟨hp.1, hle⟩

theorem Represents.implPushBack (h : Represents q L) (hc : isValidCore c) (hp : isValidPriority p)
    (hm : ∀ k' p', m ∉ L c k' p') : ∃ q', q.implPushBack k p c m = some q' ∧
      q'.threads = q.threads ∧ Represents q' (L.change c k p (· ++ [m])) := by
  rw [KPriorityQueue.implPushBack, assert_bind_of hc, assert_bind_of hp]
  by_cases hle : p ≤ lowestPriority
  · rw [if_neg (Int.not_lt.mpr hle), Lists.change_of_le hle]
    have hq := hasQueue_of hp hle
    obtain ⟨q', hq', hw, hl⟩ := h.corePushBack (k := k) hc hq hm
    have hrep := h.added hw hl (append_ne_nil_of_right_ne_nil _ (cons_ne_nil m [])) hq
    rw [hq']
    refine ⟨_, ?_, ?_, hrep⟩
    · cases (L c k p).isEmpty <;> rfl
    · cases (L c k p).isEmpty <;> exact hw.threads
  · rw [if_pos (Int.not_le.mp hle), Lists.change_of_lt (Int.not_le.mp hle)]
    exact ⟨q, rfl, rfl, h⟩

theorem Represents.implPushFront (h : Represents q L) (hc : isValidCore c) (hp : isValidPriority p)
    (hm : ∀ k' p', m ∉ L c k' p') : ∃ q', q.implPushFront k p c m = some q' ∧
      q'.threads = q.threads ∧ Represents q' (L.change c k p (m :: ·)) := by
  rw [KPriorityQueue.implPushFront, assert_bind_of hc, assert_bind_of hp]
  by_cases hle : p ≤ lowestPriority
  · rw [if_neg (Int.not_lt.mpr hle), Lists.change_of_le hle]
    have hq := hasQueue_of hp hle
    obtain ⟨q', hq', hw, hl⟩ := h.corePushFront (k := k) hc hq hm
    have hrep := h.added hw hl (cons_ne_nil m _) hq
    rw [hq']
    refine ⟨_, ?_, ?_, hrep⟩
    · cases (L c k p).isEmpty <;> rfl
    · cases (L c k p).isEmpty <;> exact hw.threads
  · rw [if_pos (Int.not_le.mp hle), Lists.change_of_lt (Int.not_le.mp hle)]
    exact ⟨q, rfl, rfl, h⟩

theorem Represents.implRemove (h : Represents q L) (hc : isValidCore c) (hp : isValidPriority p)
    (hm : p ≤ lowestPriority → m ∈ L c k p) : ∃ q', q.implRemove k p c m = some q' ∧
      q'.threads = q.threads ∧ Represents q' (L.change c k p (·.erase m)) := by
  rw [KPriorityQueue.implRemove, assert_bind_of hc, assert_bind_of hp]
  by_cases hle : p ≤ lowestPriority
  · rw [if_neg (Int.not_lt.mpr hle), Lists.change_of_le hle]
    have hq := hasQueue_of hp hle
    obtain ⟨q', hq', hw, hl⟩ := h.coreRemove hc hq (hm hle)
    have hrep := h.removed hw hl (ne_nil_of_mem (hm hle)) hq
    rw [hq']
    refine ⟨_, ?_, ?_, hrep⟩
    · cases ((L c k p).erase m).isEmpty <;> rfl
    · cases ((L c k p).erase m).isEmpty <;> exact hw.threads
  · rw [if_pos (Int.not_le.mp hle), Lists.change_of_lt (Int.not_le.mp hle)]
    exact ⟨q, rfl, rfl, h⟩

theorem Represents.coreRemove_notMem (h : Represents q L) (hc : isValidCore c) (hp : hasQueue p)
    (hm : m ∈ L c k p) : ∀ k' p', m ∉ L.set c k p ((L c k p).erase m) c k' p' := by
  intro k' p' hm'
  unfold Lists.set at hm'
  split at hm'
  · exact (h.ring c k p hc hp).nodup.not_mem_erase hm'
  · rename_i hn
    obtain ⟨rfl, rfl⟩ := h.disjoint c k' p' k p m hm' hm
    exact hn ⟨rfl, rfl, rfl⟩

theorem Lists.set_set {l' : List T} : (L.set c k p l).set c k p l' = L.set c k p l' := by
  funext c' k' p'
  simp only [Lists.set]
  split <;> rfl

theorem Lists.set_self : L.set c k p l c k p = l := if_pos ⟨rfl, rfl, rfl⟩

theorem Represents.moved (h : Represents q L)
    (hav : ∀ k' c', (q'.impl k').availablePriorities c' = (q.impl k').availablePriorities c')
    (hl : Links q' (L.set c k p l)) (hne : L c k p ≠ []) (hne' : l ≠ []) :
    Represents q' (L.set c k p l) := by
  refine ⟨hl, fun c' k' p' hc' hp' => ?_⟩
  rw [hav, h.available c' k' p' hc' hp', Lists.set]
  split
  · rename_i hn
    obtain ⟨rfl, rfl, rfl⟩ := hn
    exact iff_of_true hne hne'
  · exact Iff.rfl

theorem Represents.implMoveToFront (h : Represents q L) (hc : isValidCore c)
    (hp : isValidPriority p) (hm : p ≤ lowestPriority → m ∈ L c k p) :
    ∃ q', q.implMoveToFront k p c m = some q' ∧ q'.threads = q.threads ∧
      Represents q' (L.change c k p fun l => m :: l.erase m) := by
  rw [KPriorityQueue.implMoveToFront, assert_bind_of hc, assert_bind_of hp]
  by_cases hle : p ≤ lowestPriority
  · rw [if_pos hle, Lists.change_of_le hle]
    have hq := hasQueue_of hp hle
    obtain ⟨q1, hq1, hw1, hl1⟩ := h.coreRemove hc hq (hm hle)
    obtain ⟨q2, hq2, hw2, hl2⟩ := hl1.corePushFront (k := k) hc hq (h.coreRemove_notMem hc hq (hm hle))
    rw [Lists.set_set, Lists.set_self] at hl2
    rw [hq1, hq2]
    exact ⟨q2, rfl, hw2.threads.trans hw1.threads, h.moved
      (fun k' c' => (hw2.available k' c').trans (hw1.available k' c')) hl2
      (ne_nil_of_mem (hm hle)) (cons_ne_nil m _)⟩
  · rw [if_neg hle, Lists.change_of_lt (Int.not_le.mp hle)]
    exact ⟨q, rfl, rfl, h⟩

theorem Represents.implMoveToBack (h : Represents q L) (hc : isValidCore c)
    (hp : isValidPriority p) (hm : p ≤ lowestPriority → m ∈ L c k p) :
    ∃ r q', q.implMoveToBack k p c m = some (r, q') ∧ q'.threads = q.threads ∧
      Represents q' (L.change c k p fun l => l.erase m ++ [m]) := by
  rw [KPriorityQueue.implMoveToBack, assert_bind_of hc, assert_bind_of hp]
  by_cases hle : p ≤ lowestPriority
  · rw [if_pos hle, Lists.change_of_le hle]
    have hq := hasQueue_of hp hle
    obtain ⟨q1, hq1, hw1, hl1⟩ := h.coreRemove hc hq (hm hle)
    obtain ⟨q2, hq2, hw2, hl2⟩ := hl1.corePushBack (k := k) hc hq (h.coreRemove_notMem hc hq (hm hle))
    rw [Lists.set_set, Lists.set_self] at hl2
    rw [hq1, hq2]
    exact ⟨_, q2, rfl, hw2.threads.trans hw1.threads, h.moved
      (fun k' c' => (hw2.available k' c').trans (hw1.available k' c')) hl2
      (ne_nil_of_mem (hm hle)) (append_ne_nil_of_right_ne_nil _ (cons_ne_nil m []))⟩
  · rw [if_neg hle, Lists.change_of_lt (Int.not_le.mp hle)]
    exact ⟨_, q, rfl, rfl, h⟩

/-! ## 7. The cores of a thread -/

/-- The kind of queue a thread is in on a core, by its active core and its affinity mask. -/
def place (core : Int) (affinity : BitVec 64) (c : Int) : Option QueueKind :=
  if 0 ≤ c ∧ affinity.getLsbD c.toNat = true then
    some (if c = core then .scheduled else .suggested)
  else none

/-- A mask of the cores there are. -/
def isValidMask (affinity : BitVec 64) : Prop := affinity.toNat < 16

/-- An active core is none, or a core of the mask. -/
def isValidActiveCore (core : Int) (affinity : BitVec 64) : Prop :=
  core = -1 ∨ (0 ≤ core ∧ affinity.getLsbD core.toNat = true)

variable {core : Int} {affinity : BitVec 64}

theorem isValidCore_of_getLsbD (ha : isValidMask affinity) (h0 : 0 ≤ c)
    (hb : affinity.getLsbD c.toNat = true) : isValidCore c := by
  refine ⟨h0, ?_⟩
  by_contra hn
  rw [numCores] at hn
  have hpow : 2 ^ 4 ≤ 2 ^ c.toNat := Nat.pow_le_pow_right (by decide) (by omega)
  rw [BitVec.getLsbD, Nat.testBit_lt_two_pow (Nat.lt_of_lt_of_le ha hpow)] at hb
  cases hb

theorem isValidCore_of_place (ha : isValidMask affinity) (h : place core affinity c = some k) :
    isValidCore c := by
  unfold place at h
  split at h
  · rename_i hb
    exact isValidCore_of_getLsbD ha hb.1 hb.2
  · cases h

/-- The cores in the order in which `GetNextCore` takes them. -/
def nextCores : Nat → BitVec 64 → Option (List Int)
  | 0, affinity => if affinity = 0 then some [] else none
  | fuel + 1, affinity =>
    if affinity = 0 then some []
    else (nextCores fuel (getNextCore affinity).2).map ((getNextCore affinity).1 :: ·)

theorem nextCores_eq (ha : isValidMask affinity) :
    nextCores 64 affinity = some ([0, 1, 2, 3].filter fun c => affinity.getLsbD c.toNat) := by
  have hall : ∀ n : Fin 16, nextCores 64 (BitVec.ofNat 64 n.val) =
      some ([0, 1, 2, 3].filter fun c => (BitVec.ofNat 64 n.val).getLsbD c.toNat) := by
    decide +kernel
  have := hall ⟨affinity.toNat, ha⟩
  rwa [BitVec.ofNat_toNat, BitVec.setWidth_eq] at this

theorem forAffinity_eq {body : KPriorityQueue T → Int → Option (KPriorityQueue T)} :
    ∀ {fuel : Nat} {affinity : BitVec 64} {cs : List Int} {q : KPriorityQueue T},
    nextCores fuel affinity = some cs → forAffinity body fuel affinity q = cs.foldlM body q
  | 0, affinity, cs, q, h => by
    rw [nextCores] at h
    split at h
    · cases h
      rw [forAffinity, if_pos ‹_›]
      rfl
    · cases h
  | fuel + 1, affinity, cs, q, h => by
    rw [nextCores] at h
    rw [forAffinity]
    split at h
    · cases h
      rw [if_pos ‹_›]
      rfl
    · obtain ⟨cs', hcs', rfl⟩ := map_eq_some_iff.mp h
      rw [if_neg ‹_›, foldlM_cons]
      exact bind_congr fun q1 => forAffinity_eq hcs'

/-- Steps on distinct cores, one after the other. -/
theorem Represents.foldlM {body : KPriorityQueue T → Int → Option (KPriorityQueue T)}
    {P : Int → CoreLists T → Prop} {f : Int → CoreLists T → CoreLists T}
    (hbody : ∀ q L c, Represents q L → isValidCore c → P c (L c) → ∃ q', body q c = some q' ∧
      q'.threads = q.threads ∧ Represents q' (Function.update L c (f c (L c)))) :
    ∀ {cs : List Int} {q : KPriorityQueue T} {L : Lists T}, Represents q L → cs.Nodup →
    (∀ c ∈ cs, isValidCore c ∧ P c (L c)) → ∃ q', cs.foldlM body q = some q' ∧
      q'.threads = q.threads ∧ Represents q' fun c => if c ∈ cs then f c (L c) else L c
  | [], q, L, h, _, _ => ⟨q, rfl, rfl, by simpa using h⟩
  | c :: cs, q, L, h, hd, hp => by
    obtain ⟨hc, hd⟩ := nodup_cons.mp hd
    obtain ⟨hvc, hpc⟩ := hp c mem_cons_self
    obtain ⟨q1, hq1, ht1, h1⟩ := hbody q L c h hvc hpc
    have hne : ∀ c' ∈ cs, Function.update L c (f c (L c)) c' = L c' := fun c' hc' =>
      update_of_ne (ne_of_mem_of_not_mem hc' hc) _ _
    have hp1 : ∀ c' ∈ cs, isValidCore c' ∧ P c' (Function.update L c (f c (L c)) c') :=
      fun c' hc' => by
        rw [hne c' hc']
        exact hp c' (mem_cons_of_mem c hc')
    obtain ⟨q', hq', ht', h'⟩ := foldlM hbody h1 hd hp1
    refine ⟨q', by rw [foldlM_cons, hq1]; exact hq', ht'.trans ht1, ?_⟩
    have hlists : (fun c' => if c' ∈ cs then f c' (Function.update L c (f c (L c)) c') else
        Function.update L c (f c (L c)) c') =
          fun c' => if c' ∈ c :: cs then f c' (L c') else L c' := by
      funext c'
      by_cases hc' : c' ∈ cs
      · rw [if_pos hc', hne c' hc', if_pos (mem_cons_of_mem c hc')]
      · rw [if_neg hc']
        by_cases he : c' = c
        · rw [he, update_self, if_pos mem_cons_self]
        · rw [update_of_ne he, if_neg]
          rw [mem_cons, not_or]
          exact ⟨he, hc'⟩
    rw [hlists] at h'
    exact h'

/-- The lists after a change of the lists a thread has a place in. -/
def Lists.visit (L : Lists T) (pl : Int → Option QueueKind) (priority : Int)
    (f : QueueKind → List T → List T) : Lists T :=
  fun c => match pl c with
    | some k => (L c).change k priority (f k)
    | none => L c

theorem mem_cores : c ∈ ([0, 1, 2, 3] : List Int) ↔ isValidCore c := by
  rw [isValidCore, numCores]
  simp only [mem_cons, not_mem_nil, or_false]
  omega

theorem getAffinity_eq (hc : isValidCore c) : getAffinity affinity c = affinity.getLsbD c.toNat := by
  have hlt : c.toNat < 64 := by
    rw [isValidCore, numCores] at hc
    omega
  rw [getAffinity, bne, Bool.not_eq_eq_eq_not, Bool.eq_iff_iff, beq_iff_eq, and_bit_eq_zero hlt]
  simp

theorem getLsbD_clearAffinityBit (hc : isValidCore core) (hc' : 0 ≤ c) :
    (clearAffinityBit affinity core).getLsbD c.toNat = (affinity.getLsbD c.toNat && decide (c ≠ core)) := by
  rw [isValidCore, numCores] at hc
  rw [clearAffinityBit, getLsbD_and_not_bit]
  congr 1
  by_cases he : c = core
  · simp [he]
    omega
  · have : core.toNat ≠ c.toNat := by omega
    simp [he, this]

theorem place_clear (hc : isValidCore core) :
    place core (clearAffinityBit affinity core) c = if c = core then none else place core affinity c := by
  unfold place
  by_cases h0 : 0 ≤ c
  · rw [getLsbD_clearAffinityBit hc h0]
    by_cases he : c = core
    · simp [he]
    · simp [he]
  · simp [h0]

theorem isValidMask_clear (ha : isValidMask affinity) : isValidMask (clearAffinityBit affinity core) := by
  exact Nat.lt_of_le_of_lt Nat.and_le_left ha

section Visits

variable {b : QueueKind → KPriorityQueue T → Int → Option (KPriorityQueue T)}
  {P : QueueKind → CoreLists T → Prop} {f : QueueKind → List T → List T}
  (hb : ∀ k q L c, Represents q L → isValidCore c → P k (L c) → ∃ q', b k q c = some q' ∧
    q'.threads = q.threads ∧ Represents q' (L.change c k p (f k)))
  (h : Represents q L) (hpre : ∀ c k, place core affinity c = some k → P k (L c))
  (ha : isValidMask affinity)

include hb h hpre ha

/-- The loops of `ChangeAffinityMask` visit every queue of the thread. -/
theorem Represents.forCores :
    ∃ q', forCores (fun q k => b k q) core affinity q = some q' ∧ q'.threads = q.threads ∧
      Represents q' (L.visit (place core affinity) p f) := by
  have hlists : L.visit (place core affinity) p f = fun c =>
      if c ∈ ([0, 1, 2, 3] : List Int) then L.visit (place core affinity) p f c else L c := by
    funext c
    split
    · rfl
    · rename_i hc
      rw [Lists.visit]
      cases hpl : place core affinity c with
      | none => rfl
      | some k => exact absurd (mem_cores.mpr (isValidCore_of_place ha hpl)) hc
  rw [hlists]
  refine @Represents.foldlM T _ _ (fun c l => ∀ k, place core affinity c = some k → P k l)
    (fun c l => match place core affinity c with
      | some k => l.change k p (f k)
      | none => l) (fun q L c h hc hP => ?_) _ _ _ h (by decide)
    fun c hc => ⟨mem_cores.mp hc, fun k => hpre c k⟩
  rw [getAffinity_eq hc]
  cases hbit : affinity.getLsbD c.toNat with
  | true =>
    have hpl : place core affinity c = some (if c = core then .scheduled else .suggested) :=
      if_pos ⟨hc.1, hbit⟩
    obtain ⟨q', hq', ht', h'⟩ := hb _ q L c h hc (hP _ hpl)
    rw [if_pos rfl, hpl]
    refine ⟨q', ?_, ht', h'⟩
    rw [← hq']
    split <;> rfl
  | false =>
    have hpl : place core affinity c = none := if_neg fun hn => by
      rw [hbit] at hn
      exact Bool.false_ne_true hn.2
    refine ⟨q, if_neg Bool.false_ne_true, rfl, ?_⟩
    rw [hpl]
    rw [update_eq_self]
    exact h

/-- The loops `while (affinity)` visit the suggested queues. -/
theorem Represents.forAffinity (hcore : place core affinity core = none) :
    ∃ q', forAffinity (b .suggested) 64 affinity q = some q' ∧ q'.threads = q.threads ∧
      Represents q' (L.visit (place core affinity) p f) := by
  have hplace : ∀ c, c ∈ ([0, 1, 2, 3] : List Int).filter (fun c => affinity.getLsbD c.toNat) ↔
      place core affinity c = some .suggested := fun c => by
    rw [mem_filter, mem_cores]
    constructor
    · rintro ⟨hc, hbit⟩
      have hpl : place core affinity c = some (if c = core then .scheduled else .suggested) :=
        if_pos ⟨hc.1, hbit⟩
      have hne : c ≠ core := fun he => by
        rw [he, hcore] at hpl
        cases hpl
      rw [hpl, if_neg hne]
    · intro hpl
      refine ⟨isValidCore_of_place ha hpl, ?_⟩
      unfold place at hpl
      split at hpl
      · rename_i hbit
        exact hbit.2
      · cases hpl
  have hlists : L.visit (place core affinity) p f = fun c =>
      if c ∈ ([0, 1, 2, 3] : List Int).filter (fun c => affinity.getLsbD c.toNat) then
        (L c).change .suggested p (f .suggested) else L c := by
    funext c
    rw [Lists.visit]
    split
    · rename_i k hpl
      have hk : k = .suggested := by
        cases k with
        | suggested => rfl
        | scheduled =>
          unfold place at hpl
          split at hpl
          · rename_i hbit
            by_cases he : c = core
            · rw [← he, place, if_pos hbit] at hcore
              cases hcore
            · rw [if_neg he] at hpl
              cases hpl
          · cases hpl
      rw [if_pos ((hplace c).mpr (hk ▸ hpl)), hk]
    · rename_i hpl
      rw [if_neg]
      rw [hplace c, hpl]
      exact fun hn => nomatch hn
  rw [forAffinity_eq (nextCores_eq ha), hlists]
  refine @Represents.foldlM T _ _ (fun c l => P .suggested l)
    (fun c l => l.change .suggested p (f .suggested)) (fun q L c h hc hP => ?_) _ _ _ h
    ((by decide : ([0, 1, 2, 3] : List Int).Nodup).filter _) fun c hc => ?_
  · exact hb .suggested q L c h hc hP
  · exact ⟨mem_cores.mp (mem_of_mem_filter hc), hpre c _ ((hplace c).mp hc)⟩

/-- **The queues of a thread** are visited one after the other. -/
theorem Represents.forQueues (hcore : isValidActiveCore core affinity)
    (hm : (q.threads m).activeCore = core ∧ (q.threads m).affinityMask = affinity) :
    ∃ q', forQueues (b .scheduled) (b .suggested) q m = some q' ∧ q'.threads = q.threads ∧
      Represents q' (L.visit (place core affinity) p f) := by
  unfold KPriorityQueue.forQueues
  rw [hm.1, hm.2]
  rcases hcore with rfl | ⟨h0, hbit⟩
  · rw [if_neg (by decide)]
    exact h.forAffinity hb hpre ha (if_neg fun hn => absurd hn.1 (by decide))
  · have hc := isValidCore_of_getLsbD ha h0 hbit
    have hpl : place core affinity core = some .scheduled := by
      rw [place, if_pos ⟨h0, hbit⟩, if_pos rfl]
    obtain ⟨q1, hq1, ht1, h1⟩ := hb .scheduled q L core h hc (hpre core _ hpl)
    have hother : ∀ c, c ≠ core → L.change core .scheduled p (f .scheduled) c = L c := fun c hne =>
      update_of_ne hne _ _
    have hpre1 : ∀ c k, place core (clearAffinityBit affinity core) c = some k →
        P k (L.change core .scheduled p (f .scheduled) c) := fun c k hk => by
      rw [place_clear hc] at hk
      split at hk
      · cases hk
      · rename_i hne
        rw [hother c hne]
        exact hpre c k hk
    obtain ⟨q', hq', ht', h'⟩ := h1.forAffinity hb hpre1 (isValidMask_clear ha)
      (by rw [place_clear hc, if_pos rfl])
    rw [if_pos h0, hq1]
    refine ⟨q', hq', ht'.trans ht1, ?_⟩
    have hlists : (L.change core .scheduled p (f .scheduled)).visit
        (place core (clearAffinityBit affinity core)) p f = L.visit (place core affinity) p f := by
      funext c
      rw [Lists.visit, Lists.visit, place_clear hc]
      by_cases hne : c = core
      · rw [if_pos hne, hne, hpl]
        exact update_self _ _ _
      · rw [if_neg hne, hother c hne]
    rw [hlists] at h'
    exact h'

end Visits

/-! ## 8. The mutators -/

/-- The cores of a thread exist, and its active core is one of them. -/
structure MemberOk (t : QueueMember) : Prop where
  mask : isValidMask t.affinityMask
  core : isValidActiveCore t.activeCore t.affinityMask

/-- The kind of queue a thread is in on a core. -/
def memberPlace (t : QueueMember) : Int → Option QueueKind := place t.activeCore t.affinityMask

/-- The thread is in the lists of its places and of its priority, and in no other. -/
def InPlace (L : Lists T) (m : T) (pl : Int → Option QueueKind) (priority : Int) : Prop :=
  ∀ c k p, m ∈ L c k p ↔ pl c = some k ∧ p = priority ∧ priority ≤ lowestPriority

/-- The thread is in no list. -/
def Absent (L : Lists T) (m : T) : Prop := ∀ c k p, m ∉ L c k p

variable {pl : Int → Option QueueKind} {f : QueueKind → List T → List T}

theorem Lists.visit_apply {k' : QueueKind} {p' : Int} : L.visit pl p f c k' p' =
    if pl c = some k' ∧ p' = p ∧ p ≤ lowestPriority then f k' (L c k' p') else L c k' p' := by
  unfold Lists.visit CoreLists.change
  cases pl c with
  | none => simp
  | some k0 =>
    by_cases hle : p ≤ lowestPriority
    · by_cases hk : k' = k0
      · by_cases hp : p' = p
        · simp [hle, hk, hp]
        · simp [hle, hk, hp]
      · have : ¬k0 = k' := fun he => hk he.symm
        simp [hle, hk, this]
    · simp [hle]

theorem InPlace.erase (h : InPlace L m pl p) (hd : ∀ c k p, (L c k p).Nodup) :
    Absent (L.visit pl p fun _ l => l.erase m) m := by
  intro c k' p' hm
  rw [Lists.visit_apply] at hm
  split at hm
  · exact (hd c k' p').not_mem_erase hm
  · rename_i hn
    exact hn ((h c k' p').mp hm)

theorem Represents.pushBackAt (h : Represents q L) (ht : MemberOk (q.threads m))
    (hp : isValidPriority p) (hm : Absent L m) :
    ∃ q', q.pushBackAt p m = some q' ∧ q'.threads = q.threads ∧
      Represents q' (L.visit (memberPlace (q.threads m)) p fun _ l => l ++ [m]) := by
  rw [KPriorityQueue.pushBackAt, assert_bind_of hp]
  exact h.forQueues (b := fun k q c => q.implPushBack k p c m) (P := fun _ l => ∀ k' p', m ∉ l k' p')
    (fun k q L c h hc hm => h.implPushBack hc hp hm) (fun c _ _ => hm c) ht.mask ht.core ⟨rfl, rfl⟩

/-- A thread is pushed to the front or the back of a scheduled list, and to the back of suggested
    ones. -/
def push (m : T) (toFront : Bool) (k : QueueKind) (l : List T) : List T :=
  match toFront, k with
  | true, .scheduled => m :: l
  | _, _ => l ++ [m]

theorem mem_push {toFront : Bool} {t : T} : t ∈ push m toFront k l ↔ t = m ∨ t ∈ l := by
  unfold push
  split
  · exact mem_cons
  · rw [mem_append, mem_singleton]
    exact or_comm

theorem Represents.pushFrontAt (h : Represents q L) (ht : MemberOk (q.threads m))
    (hp : isValidPriority p) (hm : Absent L m) :
    ∃ q', q.pushFrontAt p m = some q' ∧ q'.threads = q.threads ∧
      Represents q' (L.visit (memberPlace (q.threads m)) p (push m true)) := by
  rw [KPriorityQueue.pushFrontAt, assert_bind_of hp]
  exact h.forQueues (b := fun
      | .scheduled, q, c => q.implPushFront .scheduled p c m
      | .suggested, q, c => q.implPushBack .suggested p c m) (P := fun _ l => ∀ k' p', m ∉ l k' p')
    (fun k q L c h hc hm => by
      cases k with
      | scheduled => exact h.implPushFront hc hp hm
      | suggested => exact h.implPushBack hc hp hm)
    (fun c _ _ => hm c) ht.mask ht.core ⟨rfl, rfl⟩

theorem Represents.removeAt (h : Represents q L) (ht : MemberOk (q.threads m))
    (hp : isValidPriority p) (hm : InPlace L m (memberPlace (q.threads m)) p) :
    ∃ q', q.removeAt p m = some q' ∧ q'.threads = q.threads ∧
      Represents q' (L.visit (memberPlace (q.threads m)) p fun _ l => l.erase m) := by
  rw [KPriorityQueue.removeAt, assert_bind_of hp]
  exact h.forQueues (b := fun k q c => q.implRemove k p c m)
    (P := fun k l => p ≤ lowestPriority → m ∈ l k p)
    (fun k q L c h hc hm => h.implRemove hc hp hm)
    (fun c k hk hle => (hm c k p).mpr ⟨hk, rfl, hle⟩) ht.mask ht.core ⟨rfl, rfl⟩

/-- **ChangePriority** moves the thread from its old lists to its new ones. -/
theorem Represents.changePriority (h : Represents q L) (hd : (q.threads m).isDummyThread = false)
    (ht : MemberOk (q.threads m)) (hp : isValidPriority p)
    (hp' : isValidPriority (q.threads m).priority) {isRunning : Bool}
    (hm : InPlace L m (memberPlace (q.threads m)) p) (hn : ∀ c k p, (L c k p).Nodup) :
    ∃ q', q.changePriority p isRunning m = some q' ∧ q'.threads = q.threads ∧
      Represents q' ((L.visit (memberPlace (q.threads m)) p fun _ l => l.erase m).visit
        (memberPlace (q.threads m)) (q.threads m).priority (push m isRunning)) := by
  rw [KPriorityQueue.changePriority, hd, if_neg Bool.false_ne_true, assert_bind_of hp]
  obtain ⟨q1, hq1, ht1, h1⟩ := h.removeAt ht hp hm
  have hth : q1.threads m = q.threads m := congrFun ht1 m
  have ht' : MemberOk (q1.threads m) := by
    rw [hth]
    exact ht
  rw [hq1]
  cases isRunning with
  | true =>
    obtain ⟨q2, hq2, ht2, h2⟩ := h1.pushFrontAt ht' hp' (hm.erase hn)
    rw [hth] at h2
    exact ⟨q2, hq2, ht2.trans ht1, h2⟩
  | false =>
    obtain ⟨q2, hq2, ht2, h2⟩ := h1.pushBackAt ht' hp' (hm.erase hn)
    rw [hth] at h2
    exact ⟨q2, hq2, ht2.trans ht1, h2⟩

/-- **ChangeAffinityMask** does so too. -/
theorem Represents.changeAffinityMask (h : Represents q L)
    (hd : (q.threads m).isDummyThread = false) (ha : isValidMask affinity)
    (ht : MemberOk (q.threads m)) (hp : isValidPriority (q.threads m).priority)
    (hm : InPlace L m (place core affinity) (q.threads m).priority)
    (hn : ∀ c k p, (L c k p).Nodup) :
    ∃ q', q.changeAffinityMask core affinity m = some q' ∧ q'.threads = q.threads ∧
      Represents q' ((L.visit (place core affinity) (q.threads m).priority fun _ l =>
        l.erase m).visit (memberPlace (q.threads m)) (q.threads m).priority fun _ l => l ++ [m]) := by
  rw [KPriorityQueue.changeAffinityMask, hd, if_neg Bool.false_ne_true]
  generalize hprio : (q.threads m).priority = p at *
  obtain ⟨q1, hq1, ht1, h1⟩ := h.forCores (b := fun k q c => q.implRemove k p c m)
    (P := fun k l => p ≤ lowestPriority → m ∈ l k p)
    (fun k q L c h hc hm => h.implRemove hc hp hm)
    (fun c k hk hle => (hm c k p).mpr ⟨hk, rfl, hle⟩) ha
  obtain ⟨q2, hq2, ht2, h2⟩ := h1.forCores (b := fun k q c => q.implPushBack k p c m)
    (P := fun _ l => ∀ k' p', m ∉ l k' p') (fun k q L c h hc hm => h.implPushBack hc hp hm)
    (fun c _ _ => hm.erase hn c) ht.mask
  refine ⟨q2, ?_, ht2.trans ht1, h2⟩
  dsimp only
  rw [hq1]
  exact hq2

theorem place_self (h0 : 0 ≤ c) (hb : affinity.getLsbD c.toNat = true) :
    place c affinity c = some .scheduled := by
  rw [place, if_pos ⟨h0, hb⟩, if_pos rfl]

theorem place_other (h0 : 0 ≤ c) (hb : affinity.getLsbD c.toNat = true) (hne : c ≠ core) :
    place core affinity c = some .suggested := by
  rw [place, if_pos ⟨h0, hb⟩, if_neg hne]

theorem place_neg (h : ¬0 ≤ c) : place core affinity c = none :=
  if_neg fun hn => h hn.1

theorem InPlace.notMem_change (h : InPlace L m pl p) (hn : ∀ c k p, (L c k p).Nodup)
    (hk : pl c = some k) : ∀ k' p', m ∉ (L c).change k p (·.erase m) k' p' := by
  intro k' p' hm
  unfold CoreLists.change at hm
  split at hm
  · dsimp only at hm
    split at hm
    · exact (hn c k p).not_mem_erase hm
    · rename_i hne
      obtain ⟨hk', hp', -⟩ := (h c k' p').mp hm
      rw [hk] at hk'
      exact hne ⟨(some.inj hk').symm, hp'⟩
  · rename_i hle
    exact hle ((h c k' p').mp hm).2.2

/-- The part of `ChangeCore` for the new core. -/
theorem Represents.enterCore (h : Represents q L) (hc : isValidCore c) (hp : isValidPriority p)
    (hm : p ≤ lowestPriority → m ∈ L c .suggested p)
    (habs : ∀ k' p', m ∉ (L c).change .suggested p (·.erase m) k' p') {toFront : Bool} :
    ∃ q', q.enterCore p c m toFront = some q' ∧ q'.threads = q.threads ∧
      Represents q' (Function.update L c (((L c).change .suggested p (·.erase m)).change .scheduled p
        (push m toFront .scheduled))) := by
  obtain ⟨q1, hq1, ht1, h1⟩ := h.implRemove (k := .suggested) hc hp hm
  have hself : L.change c .suggested p (·.erase m) c = (L c).change .suggested p (·.erase m) :=
    update_self _ _ _
  have habs1 : ∀ k' p', m ∉ L.change c .suggested p (·.erase m) c k' p' := by
    rw [hself]
    exact habs
  have hlists : ∀ f : List T → List T, (L.change c .suggested p (·.erase m)).change c .scheduled p f =
        Function.update L c (((L c).change .suggested p (·.erase m)).change .scheduled p f) := fun f => by
    rw [Lists.change, hself, Lists.change, update_idem]
  rw [KPriorityQueue.enterCore, if_pos hc.1, hq1]
  cases toFront with
  | true =>
    obtain ⟨q2, hq2, ht2, h2⟩ := h1.implPushFront (k := .scheduled) hc hp habs1
    rw [hlists] at h2
    exact ⟨q2, hq2, ht2.trans ht1, h2⟩
  | false =>
    obtain ⟨q2, hq2, ht2, h2⟩ := h1.implPushBack (k := .scheduled) hc hp habs1
    rw [hlists] at h2
    exact ⟨q2, hq2, ht2.trans ht1, h2⟩

/-- A change for a core that may be none. -/
def Lists.changeIf (L : Lists T) (core : Int) (k : QueueKind) (priority : Int)
    (f : List T → List T) : Lists T :=
  if core ≥ 0 then L.change core k priority f else L

theorem Lists.changeIf_of_ne {g : List T → List T} (hne : c ≠ core) : L.changeIf core k p g c = L c := by
  unfold Lists.changeIf
  split
  · exact update_of_ne hne _ _
  · rfl

/-- The two cores that `ChangeCore` touches. -/
def between (prevCore newCore : Int) (pl : Int → Option QueueKind) (c : Int) : Option QueueKind :=
  if c = prevCore ∨ c = newCore then pl c else none

/-- What the visits of `ChangeCore` make of the lists of a core. -/
theorem visit_between {newCore : Int} {toFront : Bool} (hcore : isValidActiveCore core affinity)
    (hnew : isValidActiveCore newCore affinity) (hne : core ≠ newCore) :
    (L.visit (between core newCore (place core affinity)) p fun _ l => l.erase m).visit
      (between core newCore (place newCore affinity)) p (push m toFront) = fun c =>
      if c = core ∧ 0 ≤ core then
        ((L c).change .scheduled p (·.erase m)).change .suggested p (· ++ [m])
      else if c = newCore ∧ 0 ≤ newCore then
        ((L c).change .suggested p (·.erase m)).change .scheduled p (push m toFront .scheduled)
      else L c := by
  funext c
  have hpl : ∀ pl, c = core ∨ c = newCore → between core newCore pl c = pl c := fun pl hc =>
    if_pos hc
  by_cases hc : c = core
  · by_cases h0 : 0 ≤ core
    · obtain ⟨-, hb⟩ := hcore.resolve_left (by omega)
      subst hc
      rw [if_pos ⟨rfl, h0⟩]
      simp only [Lists.visit, hpl _ (.inl rfl), place_self h0 hb, place_other h0 hb hne]
      cases toFront <;> rfl
    · rw [if_neg (by omega), if_neg (by omega)]
      have hneg : ¬0 ≤ c := by omega
      simp only [Lists.visit, hpl _ (.inl hc), place_neg hneg]
  · have hnc : ¬(c = core ∧ 0 ≤ core) := fun hn => hc hn.1
    rw [if_neg hnc]
    by_cases hc' : c = newCore
    · by_cases h0 : 0 ≤ newCore
      · obtain ⟨-, hb⟩ := hnew.resolve_left (by omega)
        subst hc'
        rw [if_pos ⟨rfl, h0⟩]
        simp only [Lists.visit, hpl _ (.inr rfl), place_other h0 hb hc, place_self h0 hb]
      · rw [if_neg (by omega)]
        have hneg : ¬0 ≤ c := by omega
        simp only [Lists.visit, hpl _ (.inr hc'), place_neg hneg]
    · have hnone : ∀ pl, between core newCore pl c = none := fun pl =>
        if_neg (not_or.mpr ⟨hc, hc'⟩)
      have hnc' : ¬(c = newCore ∧ 0 ≤ newCore) := fun hn => hc' hn.1
      simp only [Lists.visit, hnone, if_neg hnc']

/-- **ChangeCore** moves the thread between its scheduled and its suggested lists of the two
    cores. -/
theorem Represents.changeCore (h : Represents q L) (hd : (q.threads m).isDummyThread = false)
    (ht : MemberOk (q.threads m)) (hp : isValidPriority (q.threads m).priority)
    (hcore : isValidActiveCore core (q.threads m).affinityMask) {toFront : Bool}
    (hm : InPlace L m (place core (q.threads m).affinityMask) (q.threads m).priority)
    (hn : ∀ c k p, (L c k p).Nodup) (hne : core ≠ (q.threads m).activeCore) :
    ∃ q', q.changeCore core m toFront = some q' ∧ q'.threads = q.threads ∧
      Represents q' ((L.visit (between core (q.threads m).activeCore
          (place core (q.threads m).affinityMask)) (q.threads m).priority fun _ l => l.erase m).visit
        (between core (q.threads m).activeCore (memberPlace (q.threads m)))
          (q.threads m).priority (push m toFront)) := by
  obtain ⟨ha, hnew⟩ := ht
  rw [KPriorityQueue.changeCore, hd, if_neg Bool.false_ne_true]
  dsimp only [memberPlace]
  rw [if_pos hne]
  generalize (q.threads m).priority = p at *
  generalize (q.threads m).activeCore = newCore at *
  generalize (q.threads m).affinityMask = affinity at *
  rw [visit_between hcore hnew hne]
  -- the old core, if there is one: the thread leaves its scheduled list
  have hleave : ∃ q1, q.leaveCore p core m = some q1 ∧ q1.threads = q.threads ∧
      Represents q1 (L.changeIf core .scheduled p (·.erase m)) := by
    unfold KPriorityQueue.leaveCore Lists.changeIf
    split
    · rename_i h0
      obtain ⟨-, hb⟩ := hcore.resolve_left (by omega)
      exact h.implRemove (isValidCore_of_getLsbD ha h0 hb) hp
        fun hle => (hm core .scheduled p).mpr ⟨place_self h0 hb, rfl, hle⟩
    · exact ⟨q, rfl, rfl, h⟩
  obtain ⟨q1, hq1, ht1, h1⟩ := hleave
  have hL1 : ∀ c, c ≠ core → L.changeIf core .scheduled p (·.erase m) c = L c := fun c hc =>
    Lists.changeIf_of_ne hc
  -- the new core, if there is one: it goes from the suggested to the scheduled list
  have henter : ∃ q2, q1.enterCore p newCore m toFront = some q2 ∧ q2.threads = q1.threads ∧
      Represents q2 fun c => if c = newCore ∧ 0 ≤ newCore then
        ((L c).change .suggested p (·.erase m)).change .scheduled p (push m toFront .scheduled)
      else L.changeIf core .scheduled p (·.erase m) c := by
    by_cases h0 : 0 ≤ newCore
    · obtain ⟨-, hb⟩ := hnew.resolve_left (by omega)
      have hpl : place core affinity newCore = some .suggested := place_other h0 hb hne.symm
      obtain ⟨q2, hq2, ht2, h2⟩ := @Represents.enterCore T _ q1 p newCore m
        (L.changeIf core .scheduled p (·.erase m)) h1 (isValidCore_of_getLsbD ha h0 hb) hp
        (by rw [hL1 newCore hne.symm]; exact fun hle => (hm newCore _ p).mpr ⟨hpl, rfl, hle⟩)
        (by rw [hL1 newCore hne.symm]; exact hm.notMem_change hn hpl) toFront
      refine ⟨q2, hq2, ht2, ?_⟩
      rw [hL1 newCore hne.symm] at h2
      convert h2 using 1
      funext c
      by_cases hc : c = newCore
      · rw [if_pos ⟨hc, h0⟩, hc, update_self]
      · rw [if_neg fun hn => hc hn.1, update_of_ne hc]
    · refine ⟨q1, if_neg h0, rfl, ?_⟩
      simp only [h0, and_false, if_false]
      exact h1
  obtain ⟨q2, hq2, ht2, h2⟩ := henter
  rw [hq1, bind_eq_bind, bind_some, hq2, bind_some, suggestCore]
  -- the old core again: it is suggested there from now on
  by_cases h0 : 0 ≤ core
  · obtain ⟨-, hb⟩ := hcore.resolve_left (by omega)
    have hself : (if core = newCore ∧ 0 ≤ newCore then
        ((L core).change .suggested p (·.erase m)).change .scheduled p (push m toFront .scheduled)
      else L.changeIf core .scheduled p (·.erase m) core) = (L core).change .scheduled p (·.erase m) := by
      rw [if_neg fun hn => hne hn.1, Lists.changeIf, if_pos h0]
      exact update_self _ _ _
    obtain ⟨q3, hq3, ht3, h3⟩ := h2.implPushBack (k := .suggested) (isValidCore_of_getLsbD ha h0 hb) hp
      (by rw [hself]; exact hm.notMem_change hn (place_self h0 hb))
    rw [if_pos h0]
    refine ⟨q3, hq3, ht3.trans (ht2.trans ht1), ?_⟩
    convert h3 using 1
    funext c
    rw [Lists.change]
    by_cases hc : c = core
    · rw [if_pos ⟨hc, h0⟩, hc, update_self, hself]
    · rw [if_neg fun hn => hc hn.1, update_of_ne hc, Lists.changeIf_of_ne hc]
  · rw [if_neg h0]
    refine ⟨q2, rfl, ht2.trans ht1, ?_⟩
    simp only [h0, and_false, if_false]
    simp only [Lists.changeIf, ge_iff_le, h0, if_false] at h2
    exact h2

/-! ## 9. The getters -/

/-- The first thread of the most urgent list from `p` on, if there is one. -/
def FirstFrom (l : Int → List T) (p : Int) (r : Option T) : Prop :=
  (r = none ∧ ∀ p', p ≤ p' → hasQueue p' → l p' = []) ∨
    ∃ p', p ≤ p' ∧ hasQueue p' ∧ l p' ≠ [] ∧ r = (l p').head? ∧
      ∀ p'', p ≤ p'' → p'' < p' → hasQueue p'' → l p'' = []

theorem coreGetFront_eq (h : Represents q L) (hc : isValidCore c) (hp : hasQueue p) :
    q.coreGetFront k p c = (L c k p).head? :=
  (h.ring c k p hc hp).next_none

/-- A search in the bits is a search for a list that is not empty. -/
theorem Represents.search (h : Represents q L) (hc : isValidCore c) {n i : Nat}
    (hi : (i = 64 ∧ ∀ j, n ≤ j → j < 64 → ((q.impl k).availablePriorities c).test j = false) ∨
      (n ≤ i ∧ i < 64 ∧ ((q.impl k).availablePriorities c).test i = true ∧
        ∀ j, n ≤ j → j < i → ((q.impl k).availablePriorities c).test j = false)) :
    FirstFrom (L c k) n (if (i : Int) ≤ lowestPriority then q.coreGetFront k i c else none) := by
  have hempty : ∀ p : Int, hasQueue p →
      ((q.impl k).availablePriorities c).test p.toNat = false → L c k p = [] := fun p hp ht => by
    by_contra hne
    rw [(h.available c k p hc hp).mpr hne] at ht
    cases ht
  rcases hi with ⟨rfl, hi⟩ | ⟨hn, hlt, hset, hi⟩
  · rw [if_neg (by decide)]
    refine .inl ⟨rfl, fun p' hp' hq => hempty p' hq (hi _ ?_ ?_)⟩
    · omega
    · rw [hasQueue, lowestPriority] at hq
      omega
  · have hq : hasQueue (i : Int) := by
      rw [hasQueue, lowestPriority]
      omega
    rw [if_pos hq.2, coreGetFront_eq h hc hq]
    refine .inr ⟨i, by omega, hq, (h.available c k i hc hq).mp hset, rfl, fun p' hp' hlt' hq' => ?_⟩
    refine hempty p' hq' (hi _ ?_ ?_)
    · omega
    · have := hq'.1
      omega

theorem numWords_eq : BitSet.numWords 64 64 = 1 := by decide

/-- **GetFront**. -/
theorem Represents.front (h : Represents q L) (hc : isValidCore c) :
    ∃ r, q.implGetFront k c = some r ∧ FirstFrom (L c k) 0 r := by
  rw [implGetFront, assert_bind_of hc]
  refine ⟨_, rfl, h.search (n := 0) hc ?_⟩
  rcases BitSet.countLeadingZero_spec numWords_eq with ⟨he, hall⟩ | ⟨hlt, hset, hall⟩
  · exact .inl ⟨he, fun j _ hj => hall j hj⟩
  · exact .inr ⟨Nat.zero_le _, hlt, hset, fun j _ hj => hall j hj⟩

/-- **GetNext**: the thread that follows in its list, else the first one of a less urgent list. -/
theorem Represents.getNext (h : Represents q L) (hc : isValidCore c)
    (hp : hasQueue (q.threads m).priority) (hL : L c k (q.threads m).priority = A ++ m :: B) :
    ∃ r, q.implGetNext k c m = some r ∧ (r = B.head? ∧ B ≠ [] ∨
      B = [] ∧ FirstFrom (L c k) ((q.threads m).priority + 1) r) := by
  have hring := h.ring c k _ hc hp
  rw [hL] at hring
  have hnext : (q.entries m c).next = B.head? := hring.next_some
  rw [implGetNext, assert_bind_of hc, hnext]
  cases B with
  | cons b B => exact ⟨_, rfl, .inl ⟨rfl, cons_ne_nil b B⟩⟩
  | nil =>
    refine ⟨_, rfl, .inr ⟨rfl, ?_⟩⟩
    have hcast : ((q.threads m).priority.toNat + 1 : Nat) = (q.threads m).priority + 1 := by
      have := hp.1
      omega
    rw [← hcast]
    refine h.search hc ?_
    have hlt : (q.threads m).priority.toNat < 64 := by
      rw [hasQueue, lowestPriority] at hp
      omega
    rcases BitSet.getNextSet_spec numWords_eq hlt with ⟨he, hall⟩ | ⟨hgt, hlt, hset, hall⟩
    · exact .inl ⟨he, hall⟩
    · exact .inr ⟨hgt, hlt, hset, hall⟩

end KPriorityQueue

end Yuzu.Kernel
