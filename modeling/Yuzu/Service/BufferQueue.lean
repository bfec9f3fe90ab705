/-
  File:      Yuzu/Service/BufferQueue.lean
  Subject:   BufferQueueCore, BufferQueueProducer and BufferQueueConsumer (core/hle/service/nvnflinger):
             the slots of a display layer and the queue between the application and the compositor.

  Every operation is a function from the core to its reply and the core after it. The pointer that
  identifies a graphic buffer is a number (`GraphicBuffer.id`), drawn from a counter of the core, so
  that no two allocations share one. Listeners, the wait event and the nvmap references of a buffer
  are left out; the consumer's listener is kept as "there is one".

  `DequeueBuffer` holds the lock twice: once to take a slot, once more to put a newly made buffer
  into it. The two sections are `dequeueSlot` and `storeAllocation`; `dequeueBuffer` is both.
-/
import Mathlib.Data.Fintype.Basic
import Mathlib.Algebra.Order.Ring.Int

namespace Yuzu.Service

/-! ## 1. Data -/

/-- `BufferQueueDefs::NUM_BUFFER_SLOTS`. -/
abbrev numBufferSlots : Nat := 64

abbrev SlotIndex := Fin numBufferSlots

/-- `UINT32_MAX`, the frame number of a slot without a frame. -/
def uint32Max : Nat := 2 ^ 32 - 1

/-- `Status`. The two flags a successful `DequeueBuffer` returns are fields of its reply. -/
inductive Status where
  | noError
  | staleBufferSlot
  | noBufferAvailable
  | presentLater
  | wouldBlock
  | noMemory
  | busy
  | noInit
  | badValue
  | invalidOperation
deriving DecidableEq, Repr

inductive PixelFormat where
  | noFormat
  | rgba8888
  | rgbx8888
  | rgb888
  | rgb565
  | bgra8888
  | rgba5551
  | rgba4444
  | unnamed (code : Nat)
deriving DecidableEq, Repr

inductive NativeWindowApi where
  | noConnectedApi
  | egl
  | cpu
  | media
  | camera
  | unnamed (code : Int)
deriving DecidableEq, Repr

inductive NativeWindowScalingMode where
  | freeze
  | scaleToWindow
  | scaleCrop
  | noScaleCrop
  | preserveAspectRatio
  | unnamed (code : Int)
deriving DecidableEq, Repr

structure NvFence where
  id : Int := 0
  value : Nat := 0
deriving DecidableEq, Repr

structure Fence where
  numFences : Nat := 0
  fences : List NvFence := [{}, {}, {}, {}]
deriving DecidableEq, Repr

/-- `Fence::NoFence`. -/
def Fence.noFence : Fence where
  fences := List.replicate 4 { id := -1 }

/-- `Common::Rectangle<s32>`. -/
structure Rectangle where
  left : Int := 0
  top : Int := 0
  right : Int := 0
  bottom : Int := 0
deriving DecidableEq, Repr

/-- `Rectangle::Intersect`, the result it writes. -/
def Rectangle.intersect (r w : Rectangle) : Rectangle where
  left := max r.left w.left
  top := max r.top w.top
  right := min r.right w.right
  bottom := min r.bottom w.bottom

/-- What `NvGraphicBuffer` says about a buffer, as far as the queue reads it. -/
structure NvGraphicBuffer where
  width : BitVec 32
  height : BitVec 32
  format : PixelFormat
  usage : BitVec 32
deriving DecidableEq, Repr

/-- A `std::shared_ptr<GraphicBuffer>` that is not null: `id` is the pointer. -/
structure GraphicBuffer extends NvGraphicBuffer where
  id : Nat
deriving DecidableEq, Repr

inductive BufferState where
  | free
  | dequeued
  | queued
  | acquired
deriving DecidableEq, Repr

structure BufferSlot where
  graphicBuffer : Option GraphicBuffer := none
  bufferState : BufferState := .free
  requestBufferCalled : Bool := false
  frameNumber : Nat := 0
  fence : Fence := {}
  acquireCalled : Bool := false
  needsCleanupOnRelease : Bool := false
  attachedByConsumer : Bool := false
  isPreallocated : Bool := false

structure BufferItem where
  graphicBuffer : Option GraphicBuffer
  fence : Fence
  crop : Rectangle
  transform : BitVec 32
  scalingMode : NativeWindowScalingMode
  timestamp : Int
  isAutoTimestamp : Bool
  frameNumber : Nat
  slot : SlotIndex
  isDroppable : Bool
  acquireCalled : Bool
  transformToDisplayInverse : Bool
  swapInterval : Int
deriving DecidableEq, Repr

structure QueueBufferInput where
  timestamp : Int
  isAutoTimestamp : Bool
  crop : Rectangle
  scalingMode : NativeWindowScalingMode
  transform : BitVec 32
  async : Bool
  swapInterval : Int
  fence : Fence

structure QueueBufferOutput where
  width : BitVec 32
  height : BitVec 32
  transformHint : BitVec 32
  numPendingBuffers : Nat
deriving DecidableEq, Repr

abbrev Slots := SlotIndex → BufferSlot

structure BufferQueueCore where
  isAbandoned : Bool := false
  consumerControlledByApp : Bool := false
  consumerListener : Bool := false
  consumerUsageBit : BitVec 32 := 0#32
  connectedApi : NativeWindowApi := .noConnectedApi
  slots : Slots := fun _ => {}
  queue : List BufferItem := []
  overrideMaxBufferCount : Nat := 0
  dequeuePossible : Bool := false
  dequeueBufferCannotBlock : Bool := false
  defaultBufferFormat : PixelFormat := .rgba8888
  defaultWidth : BitVec 32 := 1#32
  defaultHeight : BitVec 32 := 1#32
  bufferHasBeenQueued : Bool := false
  frameCounter : Nat := 0
  transformHint : BitVec 32 := 0#32
  nextBuffer : Nat := 0

/-- `use_async_buffer`, always disabled on HOS. -/
def useAsyncBuffer : Bool := false

/-- `max_acquired_buffer_count`, always zero on HOS. -/
def maxAcquiredBufferCount : Nat := 0

/-- `default_max_buffer_count`. -/
def defaultMaxBufferCount : Nat := 2

/-- What an operation answers. `blocked` is a `DequeueBuffer` that waits, `fault` a call that reads
through a null buffer. -/
inductive Reply where
  | status (status : Status)
  | buffer (buffer : Option GraphicBuffer)
  | dequeued (slot : SlotIndex) (fence : Fence) (bufferNeedsReallocation releaseAllBuffers : Bool)
  | output (output : QueueBufferOutput)
  | acquired (item : BufferItem)
  | blocked
  | fault
deriving DecidableEq, Repr

namespace BufferQueueCore

/-! ## 2. The core -/

variable (core : BufferQueueCore)

/-- `SignalDequeueCondition`. -/
def signalDequeueCondition : BufferQueueCore := { core with dequeuePossible := true }

/-- `GetMinUndequeuedBufferCountLocked`. -/
def getMinUndequeuedBufferCountLocked (async : Bool) : Nat :=
  if !useAsyncBuffer then 0
  else if core.dequeueBufferCannotBlock || async then maxAcquiredBufferCount + 1
  else maxAcquiredBufferCount

/-- `GetMinMaxBufferCountLocked`. -/
def getMinMaxBufferCountLocked (async : Bool) : Nat := core.getMinUndequeuedBufferCountLocked async

/-- The producer has the slot, or its frame waits in the queue. -/
def preserves (s : SlotIndex) : Bool :=
  (core.slots s).bufferState == .queued || (core.slots s).bufferState == .dequeued

/-- `GetMaxBufferCountLocked`. -/
def getMaxBufferCountLocked (async : Bool) : Nat :=
  let maxBufferCount := max defaultMaxBufferCount (core.getMinMaxBufferCountLocked async)
  if core.overrideMaxBufferCount ≠ 0 then core.overrideMaxBufferCount
  else
    -- Slots the producer has, or whose frames wait in the queue, have to be preserved.
    ((List.finRange numBufferSlots).filter fun s => maxBufferCount ≤ s.val).foldl
      (fun count s => if core.preserves s then s.val + 1 else count) maxBufferCount

/-- `GetPreallocatedBufferCountLocked`. -/
def getPreallocatedBufferCountLocked : Nat :=
  (List.finRange numBufferSlots).countP fun s => (core.slots s).isPreallocated

end BufferQueueCore

/-- What `FreeBufferLocked` makes of a slot. -/
def BufferSlot.free (slot : BufferSlot) : BufferSlot :=
  { slot with
    graphicBuffer := none
    needsCleanupOnRelease := slot.needsCleanupOnRelease || slot.bufferState == .acquired
    bufferState := .free
    frameNumber := uint32Max
    acquireCalled := false
    fence := .noFence }

/-- `StillTracking`: the slot of the item has a buffer, and it is the item's. -/
def stillTracking (slots : Slots) (item : BufferItem) : Bool :=
  match (slots item.slot).graphicBuffer, item.graphicBuffer with
  | some b, some b' => b'.id == b.id
  | _, _ => false

namespace BufferQueueCore

variable (core : BufferQueueCore)

/-- A change to one slot. -/
def setSlot (s : SlotIndex) (slot : BufferSlot) : BufferQueueCore :=
  { core with slots := Function.update core.slots s slot }

/-- `FreeBufferLocked`. -/
def freeBufferLocked (s : SlotIndex) : BufferQueueCore := core.setSlot s (core.slots s).free

/-- `FreeAllBuffersLocked`. -/
def freeAllBuffersLocked : BufferQueueCore :=
  { core with bufferHasBeenQueued := false, slots := fun s => (core.slots s).free }

end BufferQueueCore

/-- A slot number of a request, if it is one of a slot. -/
def slotOf (slot : Int) : Option SlotIndex :=
  if h : 0 ≤ slot ∧ slot < numBufferSlots then some ⟨slot.toNat, by omega⟩ else none

/-! ## 3. The producer -/

namespace BufferQueueCore

variable (core : BufferQueueCore)

/-- `RequestBuffer`. -/
def requestBuffer (slot : Int) : Reply × BufferQueueCore :=
  if core.isAbandoned then (.status .noInit, core)
  else match slotOf slot with
    | none => (.status .badValue, core)
    | some s =>
      if (core.slots s).bufferState ≠ .dequeued then (.status .badValue, core)
      else (.buffer (core.slots s).graphicBuffer,
        core.setSlot s { core.slots s with requestBufferCalled := true })

/-- `SetBufferCount`. -/
def setBufferCount (bufferCount : Int) : Reply × BufferQueueCore :=
  if core.isAbandoned then (.status .noInit, core)
  else if bufferCount > numBufferSlots then (.status .badValue, core)
  -- There must be no dequeued buffers when changing the buffer count.
  else if (List.finRange numBufferSlots).any
      fun s => (core.slots s).bufferState == .dequeued then (.status .badValue, core)
  else if bufferCount = 0 then
    (.status .noError, signalDequeueCondition { core with overrideMaxBufferCount := 0 })
  else if bufferCount < core.getMinMaxBufferCountLocked false then (.status .badValue, core)
  else
    let core := if core.getPreallocatedBufferCountLocked = 0 then core.freeAllBuffersLocked else core
    (.status .noError, signalDequeueCondition { core with overrideMaxBufferCount := bufferCount.toNat })

/-- The slots below a bound in a given state. -/
def countState (bound : Nat) (state : BufferState) : Nat :=
  (List.finRange numBufferSlots).countP fun s => s.val < bound && (core.slots s).bufferState == state

/-- A free slot is kept if none was found before, or if its frame is older. -/
def keepOldest (found : Option SlotIndex) (s : SlotIndex) : Option SlotIndex :=
  match found with
  | none => some s
  | some f => if (core.slots s).frameNumber < (core.slots f).frameNumber then some s else some f

/-- The choice of `WaitForFreeSlotThenRelock`: the oldest of the free slots below the bound. -/
def oldestFree (bound : Nat) : Option SlotIndex :=
  ((List.finRange numBufferSlots).filter fun s =>
    s.val < bound && (core.slots s).bufferState == .free).foldl core.keepOldest none

/-- A slot beyond the maximum whose buffer `WaitForFreeSlotThenRelock` frees. -/
def idleBeyond (bound : Nat) (s : SlotIndex) : Bool :=
  bound ≤ s.val && (core.slots s).graphicBuffer.isSome && (core.slots s).bufferState == .free &&
    !(core.slots s).isPreallocated

/-- The first loop of `WaitForFreeSlotThenRelock`, over the slots beyond the maximum. -/
def freeBeyond (bound : Nat) : BufferQueueCore :=
  { core with
    slots := fun s => if core.idleBeyond bound s then (core.slots s).free else core.slots s }

end BufferQueueCore

/-- Where a pass through the loop of `WaitForFreeSlotThenRelock` ends. -/
inductive Attempt where
  | failed (status : Status)
  | found (slot : SlotIndex)
  | wait

namespace BufferQueueCore

variable (core : BufferQueueCore)

/-- `found == INVALID_BUFFER_SLOT || too_many_buffers`. -/
def tryAgain (bound : Nat) : Bool := (core.oldestFree bound).isNone || core.queue.length > bound

/-- A pass through the loop of `WaitForFreeSlotThenRelock` once the slots beyond the maximum are
cleared. -/
def findSlot (async : Bool) (bound : Nat) : Attempt :=
  let dequeuedCount := core.countState bound .dequeued
  let acquiredCount := core.countState bound .acquired
  if core.overrideMaxBufferCount = 0 ∧ dequeuedCount ≠ 0 then .failed .invalidOperation
  else if core.bufferHasBeenQueued ∧
      (bound : Int) - (dequeuedCount + 1) < core.getMinUndequeuedBufferCountLocked async then
    .failed .invalidOperation
  else if core.tryAgain bound then
    if core.dequeueBufferCannotBlock ∧ acquiredCount ≤ maxAcquiredBufferCount then
      .failed .wouldBlock
    else .wait
  else match core.oldestFree bound with
    | some s => .found s
    -- A free slot was found, or the pass would be tried again.
    | none => .wait

/-- A pass through the loop of `WaitForFreeSlotThenRelock`; the flag says that buffers beyond the
maximum were freed. -/
def tryFreeSlot (async releaseAllBuffers : Bool) : Attempt × Bool × BufferQueueCore :=
  let bound := core.getMaxBufferCountLocked async
  if core.isAbandoned then (.failed .noInit, releaseAllBuffers, core)
  else if async ∧ core.overrideMaxBufferCount ≠ 0 ∧ core.overrideMaxBufferCount < bound then
    (.failed .badValue, releaseAllBuffers, core)
  else
    let core' := core.freeBeyond bound
    (core'.findSlot async bound,
      releaseAllBuffers || (List.finRange numBufferSlots).any (core.idleBeyond bound), core')

/-- `WaitForFreeSlotThenRelock`, up to where it returns or waits with the condition not signalled.
A signal that stands is consumed and the loop goes round once more; there is none after that. -/
def waitForFreeSlotThenRelock (async : Bool) : Attempt × Bool × BufferQueueCore :=
  match core.tryFreeSlot async false with
  | (.wait, releaseAllBuffers, core') =>
    if core'.dequeuePossible then
      tryFreeSlot { core' with dequeuePossible := false } async releaseAllBuffers
    else (.wait, releaseAllBuffers, core')
  | r => r

end BufferQueueCore

/-- The arguments of `DequeueBuffer`. -/
structure DequeueRequest where
  async : Bool
  width : BitVec 32
  height : BitVec 32
  format : PixelFormat
  usage : BitVec 32

/-- How the first section of `DequeueBuffer` ends: with a status, waiting, or with a slot and, when
its buffer has to be made anew, what to make. -/
inductive DequeueSection where
  | done (status : Status)
  | waiting
  | taken (slot : SlotIndex) (fence : Fence) (attachedByConsumer releaseAllBuffers : Bool)
      (allocation : Option NvGraphicBuffer)
deriving DecidableEq

namespace BufferQueueCore

variable (core : BufferQueueCore)

/-- `width != 0` and `height == 0`, or the other way round. -/
def invalidSize (r : DequeueRequest) : Bool :=
  (r.width ≠ 0#32 && r.height == 0#32) || (r.width == 0#32 && r.height ≠ 0#32)

/-- The format and usage `DequeueBuffer` settles on before it looks for a slot. -/
def resolve (r : DequeueRequest) : DequeueRequest :=
  { r with
    format := if r.format = .noFormat then core.defaultBufferFormat else r.format
    usage := r.usage ||| core.consumerUsageBit }

/-- The buffer a request asks for, with the default size where it gives none. -/
def wanted (r : DequeueRequest) : NvGraphicBuffer where
  width := if r.width = 0#32 ∧ r.height = 0#32 then core.defaultWidth else r.width
  height := if r.width = 0#32 ∧ r.height = 0#32 then core.defaultHeight else r.height
  format := r.format
  usage := r.usage

/-- The buffer of a slot does for what is wanted. -/
def fits (buffer : Option GraphicBuffer) (w : NvGraphicBuffer) : Bool :=
  match buffer with
  | none => false
  | some b => b.width == w.width && b.height == w.height && b.format == w.format &&
      b.usage &&& w.usage == w.usage

/-- The rest of the first section of `DequeueBuffer`, with the slot it found. -/
def takeSlot (s : SlotIndex) (w : NvGraphicBuffer) : Fence × Option NvGraphicBuffer × BufferQueueCore :=
  let slot := core.slots s
  if fits slot.graphicBuffer w then
    (slot.fence, none, core.setSlot s { slot with bufferState := .dequeued, fence := .noFence })
  else
    (.noFence, some w, core.setSlot s { slot with
      bufferState := .dequeued
      acquireCalled := false
      graphicBuffer := none
      requestBufferCalled := false
      fence := .noFence })

/-- The first section of `DequeueBuffer`, from the loop on. -/
def dequeueSlot (r : DequeueRequest) : DequeueSection × BufferQueueCore :=
  match core.waitForFreeSlotThenRelock r.async with
  | (.failed status, _, core') => (.done status, core')
  | (.wait, _, core') => (.waiting, core')
  | (.found s, releaseAllBuffers, core') =>
    let (fence, allocation, core'') := core'.takeSlot s (core'.wanted r)
    (.taken s fence (core'.slots s).attachedByConsumer releaseAllBuffers allocation, core'')

/-- The second section of `DequeueBuffer`: the new buffer goes into the slot. -/
def storeAllocation (s : SlotIndex) (w : NvGraphicBuffer) : Option Status × BufferQueueCore :=
  if core.isAbandoned then (some .noInit, core)
  else (none, { core with
    slots := Function.update core.slots s { core.slots s with
      frameNumber := uint32Max
      graphicBuffer := some { w with id := core.nextBuffer } }
    nextBuffer := core.nextBuffer + 1 })

/-- `DequeueBuffer`, both sections. -/
def dequeueBuffer (r : DequeueRequest) : Reply × BufferQueueCore :=
  if invalidSize r then (.status .badValue, core)
  else match core.dequeueSlot (core.resolve r) with
    | (.done status, core') => (.status status, core')
    | (.waiting, core') => (.blocked, core')
    | (.taken s fence attached releaseAllBuffers none, core') =>
      (.dequeued s fence attached releaseAllBuffers, core')
    | (.taken s fence _ releaseAllBuffers (some w), core') =>
      match core'.storeAllocation s w with
      | (some status, core'') => (.status status, core'')
      | (none, core'') => (.dequeued s fence true releaseAllBuffers, core'')

/-- `DetachBuffer`. -/
def detachBuffer (slot : Int) : Reply × BufferQueueCore :=
  if core.isAbandoned then (.status .noInit, core)
  else match slotOf slot with
    | none => (.status .badValue, core)
    | some s =>
      if (core.slots s).bufferState ≠ .dequeued then (.status .badValue, core)
      else if !(core.slots s).requestBufferCalled then (.status .badValue, core)
      else (.status .noError, (core.freeBufferLocked s).signalDequeueCondition)

/-- The switch of `QueueBuffer` on the scaling mode. -/
def validScalingMode : NativeWindowScalingMode → Bool
  | .unnamed _ => false
  | _ => true

/-- The item `QueueBuffer` makes, with the frame counter already increased. -/
def itemOf (s : SlotIndex) (input : QueueBufferInput) : BufferItem where
  acquireCalled := (core.slots s).acquireCalled
  graphicBuffer := (core.slots s).graphicBuffer
  crop := input.crop
  transform := input.transform &&& ~~~0x08#32
  transformToDisplayInverse := input.transform &&& 0x08#32 ≠ 0#32
  scalingMode := input.scalingMode
  timestamp := input.timestamp
  isAutoTimestamp := input.isAutoTimestamp
  frameNumber := core.frameCounter
  slot := s
  fence := input.fence
  isDroppable := core.dequeueBufferCannotBlock || input.async
  swapInterval := input.swapInterval

/-- The slot and the frame counter as `QueueBuffer` leaves them. -/
def countFrame (s : SlotIndex) (fence : Fence) : BufferQueueCore :=
  let frame := (core.frameCounter + 1) % 2 ^ 64
  { core with
    slots := Function.update core.slots s { core.slots s with
      fence := fence
      bufferState := .queued
      frameNumber := frame }
    frameCounter := frame }

/-- The queue's part of `QueueBuffer`: the item goes to the end, or in place of a front that may be
dropped. -/
def pushItem (item : BufferItem) : BufferQueueCore :=
  match core.queue with
  | [] => { core with queue := [item] }
  | front :: rest =>
    if front.isDroppable then
      { core with
        slots :=
          if stillTracking core.slots front then
            Function.update core.slots front.slot { core.slots front.slot with
              bufferState := .free
              frameNumber := 0 }
          else core.slots
        queue := item :: rest }
    else { core with queue := front :: rest ++ [item] }

/-- `QueueBufferOutput::Inflate`, with the values of the core. -/
def output : QueueBufferOutput where
  width := core.defaultWidth
  height := core.defaultHeight
  transformHint := core.transformHint
  numPendingBuffers := core.queue.length

/-- `QueueBuffer`. -/
def queueBuffer (slot : Int) (input : QueueBufferInput) : Reply × BufferQueueCore :=
  if !validScalingMode input.scalingMode then (.status .badValue, core)
  else if core.isAbandoned then (.status .noInit, core)
  else
    let bound := core.getMaxBufferCountLocked input.async
    if input.async ∧ core.overrideMaxBufferCount ≠ 0 ∧ core.overrideMaxBufferCount < bound then
      (.status .badValue, core)
    else match slotOf slot with
      | none => (.status .badValue, core)
      | some s =>
        if bound ≤ s.val then (.status .badValue, core)
        else if (core.slots s).bufferState ≠ .dequeued then (.status .badValue, core)
        else if !(core.slots s).requestBufferCalled then (.status .badValue, core)
        else match (core.slots s).graphicBuffer with
          | none => (.fault, core)
          | some b =>
            if input.crop.intersect { right := b.width.toInt, bottom := b.height.toInt } ≠
                input.crop then (.status .badValue, core)
            else
              let counted := core.countFrame s input.fence
              let pushed := counted.pushItem (counted.itemOf s input)
              (.output pushed.output, signalDequeueCondition { pushed with bufferHasBeenQueued := true })

/-- `CancelBuffer`; it answers nothing, so the transaction reports no error. -/
def cancelBuffer (slot : Int) (fence : Fence) : Reply × BufferQueueCore :=
  if core.isAbandoned then (.status .noError, core)
  else match slotOf slot with
    | none => (.status .noError, core)
    | some s =>
      if (core.slots s).bufferState ≠ .dequeued then (.status .noError, core)
      else (.status .noError, (core.setSlot s { core.slots s with
        bufferState := .free
        frameNumber := 0
        fence := fence }).signalDequeueCondition)

/-- The apis `Connect` and `Disconnect` know. -/
def knownApi : NativeWindowApi → Bool
  | .egl | .cpu | .media | .camera => true
  | _ => false

/-- `BufferQueueProducer::Connect`. -/
def connect (api : NativeWindowApi) (producerControlledByApp : Bool) : Reply × BufferQueueCore :=
  if core.isAbandoned then (.status .noInit, core)
  else if !core.consumerListener then (.status .noInit, core)
  else if core.connectedApi ≠ .noConnectedApi then (.status .badValue, core)
  else
    -- Also a request for an unknown api gets this far.
    let core' := { core with
      bufferHasBeenQueued := false
      dequeueBufferCannotBlock := core.consumerControlledByApp && producerControlledByApp }
    if knownApi api then (.output core.output, { core' with connectedApi := api })
    else (.status .badValue, core')

/-- `BufferQueueProducer::Disconnect`. -/
def disconnect (api : NativeWindowApi) : Reply × BufferQueueCore :=
  if core.isAbandoned then (.status .noError, core)
  else if !knownApi api then (.status .badValue, core)
  else if core.connectedApi ≠ api then (.status .badValue, core)
  else (.status .noError, signalDequeueCondition { core.freeAllBuffersLocked with
    queue := []
    connectedApi := .noConnectedApi })

/-- `SetPreallocatedBuffer`. A null buffer makes a buffer without contents. -/
def setPreallocatedBuffer (slot : Int) (buffer : Option NvGraphicBuffer) : Reply × BufferQueueCore :=
  match slotOf slot with
  | none => (.status .badValue, core)
  | some s =>
    let contents := buffer.getD { width := 0#32, height := 0#32, format := .noFormat, usage := 0#32 }
    let core := { core with
      slots := Function.update core.slots s {
        fence := .noFence
        graphicBuffer := some { contents with id := core.nextBuffer }
        isPreallocated := buffer.isSome }
      nextBuffer := core.nextBuffer + 1 }
    match buffer with
    | none => (.status .noError, core.signalDequeueCondition)
    | some b => (.status .noError, signalDequeueCondition { core with
        overrideMaxBufferCount := core.getPreallocatedBufferCountLocked
        defaultWidth := b.width
        defaultHeight := b.height
        defaultBufferFormat := b.format })

/-! ## 4. The consumer -/

/-- `MAX_REASONABLE_NSEC`, one second. -/
def maxReasonableNsec : Int := 1000000000

/-- The front is dropped: the item behind it is due at the expected time. -/
def timely (expectedPresent : Int) (front next : BufferItem) : Bool :=
  !front.isAutoTimestamp && !(decide (next.timestamp < expectedPresent - maxReasonableNsec) ||
    decide (next.timestamp > expectedPresent))

/-- A slot whose frame leaves the queue unseen. -/
def dropFrame (slots : Slots) (front : BufferItem) : Slots :=
  if stillTracking slots front then
    Function.update slots front.slot { slots front.slot with bufferState := .free }
  else slots

/-- The loop of `AcquireBuffer`. -/
def dropLoop (expectedPresent : Int) : Slots → List BufferItem → Slots × List BufferItem
  | slots, front :: next :: rest =>
    if timely expectedPresent front next then
      dropLoop expectedPresent (dropFrame slots front) (next :: rest)
    else (slots, front :: next :: rest)
  | slots, queue => (slots, queue)

/-- The front is to be shown later. -/
def deferred (expectedPresent : Int) (front : BufferItem) : Bool :=
  decide (front.timestamp > expectedPresent) &&
    decide (front.timestamp < expectedPresent + maxReasonableNsec)

/-- The rest of `AcquireBuffer`: the front leaves the queue for the consumer. -/
def takeFront (front : BufferItem) (rest : List BufferItem) : Reply × BufferQueueCore :=
  let slots :=
    if stillTracking core.slots front then
      Function.update core.slots front.slot { core.slots front.slot with
        acquireCalled := true
        needsCleanupOnRelease := false
        bufferState := .acquired }
    else core.slots
  (.acquired (if front.acquireCalled then { front with graphicBuffer := none } else front),
    signalDequeueCondition { core with slots := slots, queue := rest })

/-- `AcquireBuffer`; an expected time of zero takes whatever is first. -/
def acquireBuffer (expectedPresent : Int) : Reply × BufferQueueCore :=
  if core.countState numBufferSlots .acquired ≥ maxAcquiredBufferCount + 1 then
    (.status .invalidOperation, core)
  else if core.queue.isEmpty then (.status .noBufferAvailable, core)
  else
    let (slots, queue) :=
      if expectedPresent ≠ 0 then dropLoop expectedPresent core.slots core.queue
      else (core.slots, core.queue)
    let core := { core with slots := slots, queue := queue }
    match queue with
    | [] => (.status .noBufferAvailable, core)
    | front :: rest =>
      if expectedPresent ≠ 0 ∧ deferred expectedPresent front then (.status .presentLater, core)
      else core.takeFront front rest

/-- `ReleaseBuffer`. -/
def releaseBuffer (slot : Int) (frameNumber : Nat) : Reply × BufferQueueCore :=
  match slotOf slot with
  | none => (.status .badValue, core)
  | some s =>
    if frameNumber ≠ (core.slots s).frameNumber then (.status .staleBufferSlot, core)
    else if core.queue.any fun item => item.slot == s then (.status .badValue, core)
    else if (core.slots s).bufferState = .acquired then
      (.status .noError, (core.setSlot s { core.slots s with bufferState := .free }).signalDequeueCondition)
    else if (core.slots s).needsCleanupOnRelease then
      (.status .staleBufferSlot, core.setSlot s { core.slots s with needsCleanupOnRelease := false })
    else (.status .badValue, core)

/-- `BufferQueueConsumer::Connect`. -/
def consumerConnect (listener controlledByApp : Bool) : Reply × BufferQueueCore :=
  if !listener then (.status .badValue, core)
  else if core.isAbandoned then (.status .noInit, core)
  else (.status .noError,
    { core with consumerListener := true, consumerControlledByApp := controlledByApp })

/-- `BufferQueueConsumer::Disconnect`. -/
def consumerDisconnect : Reply × BufferQueueCore :=
  if !core.consumerListener then (.status .badValue, core)
  else (.status .noError, signalDequeueCondition { core.freeAllBuffersLocked with
    isAbandoned := true
    consumerListener := false
    queue := [] })

end BufferQueueCore

/-! ## 5. Operations -/

/-- The operations of the producer's `Transact` and of the consumer. -/
inductive Op where
  | requestBuffer (slot : Int)
  | setBufferCount (bufferCount : Int)
  | dequeueBuffer (request : DequeueRequest)
  | detachBuffer (slot : Int)
  | queueBuffer (slot : Int) (input : QueueBufferInput)
  | cancelBuffer (slot : Int) (fence : Fence)
  | connect (api : NativeWindowApi) (producerControlledByApp : Bool)
  | disconnect (api : NativeWindowApi)
  | setPreallocatedBuffer (slot : Int) (buffer : Option NvGraphicBuffer)
  | acquireBuffer (expectedPresent : Int)
  | releaseBuffer (slot : Int) (frameNumber : Nat)
  | consumerConnect (listener controlledByApp : Bool)
  | consumerDisconnect

/-- One operation, taken as one step. -/
def BufferQueueCore.apply (core : BufferQueueCore) : Op → Reply × BufferQueueCore
  | .requestBuffer slot => core.requestBuffer slot
  | .setBufferCount bufferCount => core.setBufferCount bufferCount
  | .dequeueBuffer request => core.dequeueBuffer request
  | .detachBuffer slot => core.detachBuffer slot
  | .queueBuffer slot input => core.queueBuffer slot input
  | .cancelBuffer slot fence => core.cancelBuffer slot fence
  | .connect api producerControlledByApp => core.connect api producerControlledByApp
  | .disconnect api => core.disconnect api
  | .setPreallocatedBuffer slot buffer => core.setPreallocatedBuffer slot buffer
  | .acquireBuffer expectedPresent => core.acquireBuffer expectedPresent
  | .releaseBuffer slot frameNumber => core.releaseBuffer slot frameNumber
  | .consumerConnect listener controlledByApp => core.consumerConnect listener controlledByApp
  | .consumerDisconnect => core.consumerDisconnect

end Yuzu.Service
