/-
  File:      Yuzu/Common/RingBuffer.lean
  Subject:   `Common::RingBuffer` (common/ring_buffer.h) with one producer and one consumer, each
             index load, each slot copied and each index store a step of its own.

  Indices and counts are `std::size_t`: words of 64 bits, with their wrapping arithmetic. Beside the
  memory of the buffer the state keeps the history its users see: the slots pushed and popped so
  far, what each `Push` accepted, and what `Size` returned.
-/
import Yuzu.Lib.Trace
import Mathlib.Algebra.Order.Ring.Int

namespace Yuzu.Common.RingBuffer

/-- `std::size_t`. -/
abbrev Word := BitVec 64

/-- The two index members. -/
inductive Index where
  | read
  | write
  deriving DecidableEq, Repr

/-! ## 1. What a call computes before it copies -/

/-- `std::min` on words. -/
def wordMin (a b : Word) : Word := if b < a then b else a

/-- One copy through the end of the buffer: its count, where it begins, and how many slots lie
before the wrap. -/
structure Copy where
  count : Word
  pos : Word
  firstCopy : Word
  deriving DecidableEq, Repr

/-- The copy of `count` slots from an index on. -/
def planCopy (capacity index count : Word) : Copy :=
  let pos := index % capacity
  { count := count, pos := pos, firstCopy := wordMin (capacity - pos) count }

/-- The slot of the buffer that the copy's `i`-th slot is at. -/
def Copy.slot (c : Copy) (i : Nat) : Nat :=
  if i < c.firstCopy.toNat then c.pos.toNat + i else i - c.firstCopy.toNat

/-! ## 2. The two threads -/

variable {α : Type}

/-- Where the producer stands. `free` is the number of slots that were free when its `Push` began;
only the history uses it. -/
inductive Producer (α : Type) where
  | idle
  | pushLoaded (slots : List α) (free : Nat) (writeIndex : Word)
  | pushCopying (slots : List α) (free : Nat) (writeIndex : Word) (copy : Copy) (done : Nat)
  | sizeLoaded (first : Index) (value : Word)

/-- Where the consumer stands. -/
inductive Consumer (α : Type) where
  | idle
  | popLoaded (maxSlots readIndex : Word)
  | popCopying (readIndex : Word) (copy : Copy) (output : List α)
  | sizeLoaded (first : Index) (value : Word)

/-- What one `Push` was given, found and took. -/
structure PushRecord where
  slotCount : Nat
  free : Nat
  pushCount : Nat
  deriving DecidableEq, Repr

/-- The buffer, its two threads and their history. -/
structure State (α : Type) where
  capacity : Word
  data : Nat → α
  readIndex : Word
  writeIndex : Word
  producer : Producer α
  consumer : Consumer α
  pushed : List α
  popped : List α
  pushes : List PushRecord
  sizes : List Word

/-- A new buffer of `2 ^ k` slots. -/
def initial (k : Nat) (data : Nat → α) : State α where
  capacity := BitVec.ofNat 64 (2 ^ k)
  data := data
  readIndex := 0
  writeIndex := 0
  producer := .idle
  consumer := .idle
  pushed := []
  popped := []
  pushes := []
  sizes := []

namespace State

/-- The value of an index member. -/
def load (s : State α) : Index → Word
  | .read => s.readIndex
  | .write => s.writeIndex

/-- `Size` with both loads in one state. -/
def size (s : State α) : Word := s.writeIndex - s.readIndex

/-- Slots that hold nothing unread. -/
def freeSlots (s : State α) : Nat := s.capacity.toNat + s.popped.length - s.pushed.length

/-- What `Size` returns from its two loads. -/
def sizeOf (first : Index) (value second : Word) : Word :=
  match first with
  | .write => value - second
  | .read => second - value

/-- The index that `Size` loads after the given one. -/
def otherIndex : Index → Index
  | .write => .read
  | .read => .write

/-- The next step of the producer's call: in `Push` the load of the read index, the copy of one slot,
or the store of the write index. -/
def producerStep (s : State α) : Option (State α) :=
  match s.producer with
  | .idle => none
  | .pushLoaded slots free writeIndex =>
    let slotsFree := s.capacity + s.readIndex - writeIndex
    let pushCount := wordMin (BitVec.ofNat 64 slots.length) slotsFree
    let copy := planCopy s.capacity writeIndex pushCount
    some { s with producer := .pushCopying slots free writeIndex copy 0 }
  | .pushCopying slots free writeIndex copy done =>
    if done < copy.count.toNat then
      match slots[done]? with
      | none => none
      | some slot =>
        some { s with
          data := Function.update s.data (copy.slot done) slot
          producer := .pushCopying slots free writeIndex copy (done + 1) }
    else
      some { s with
        writeIndex := writeIndex + copy.count
        producer := .idle
        pushed := s.pushed ++ slots.take copy.count.toNat
        pushes := s.pushes ++ [⟨slots.length, free, copy.count.toNat⟩] }
  | .sizeLoaded first value =>
    some { s with
      producer := .idle
      sizes := s.sizes ++ [sizeOf first value (s.load (otherIndex first))] }

/-- The next step of the consumer's call. -/
def consumerStep (s : State α) : Option (State α) :=
  match s.consumer with
  | .idle => none
  | .popLoaded maxSlots readIndex =>
    let slotsFilled := s.writeIndex - readIndex
    let popCount := wordMin slotsFilled maxSlots
    let copy := planCopy s.capacity readIndex popCount
    some { s with consumer := .popCopying readIndex copy [] }
  | .popCopying readIndex copy output =>
    if output.length < copy.count.toNat then
      some { s with
        consumer := .popCopying readIndex copy (output ++ [s.data (copy.slot output.length)]) }
    else
      some { s with
        readIndex := readIndex + copy.count
        consumer := .idle
        popped := s.popped ++ output }
  | .sizeLoaded first value =>
    some { s with
      consumer := .idle
      sizes := s.sizes ++ [sizeOf first value (s.load (otherIndex first))] }

end State

/-- What can happen next: a thread that is idle begins a call with the call's first load, or a thread
goes on with its call. -/
inductive Action (α : Type) where
  | startPush (slots : List α)
  | startPop (maxSlots : Word)
  | producerSize (first : Index)
  | consumerSize (first : Index)
  | producer
  | consumer

/-- One step; an action that is not possible has no result. The slots of a `Push` are counted by a
word. -/
def State.step (s : State α) : Action α → Option (State α)
  | .startPush slots =>
    match s.producer with
    | .idle =>
      if slots.length < 2 ^ 64 then
        some { s with producer := .pushLoaded slots s.freeSlots s.writeIndex }
      else none
    | _ => none
  | .startPop maxSlots =>
    match s.consumer with
    | .idle => some { s with consumer := .popLoaded maxSlots s.readIndex }
    | _ => none
  | .producerSize first =>
    match s.producer with
    | .idle => some { s with producer := .sizeLoaded first (s.load first) }
    | _ => none
  | .consumerSize first =>
    match s.consumer with
    | .idle => some { s with consumer := .sizeLoaded first (s.load first) }
    | _ => none
  | .producer => s.producerStep
  | .consumer => s.consumerStep

/-- A run of the two threads from a new buffer. -/
abbrev Run (k : Nat) (data : Nat → α) (as : List (Action α)) (s : State α) : Prop :=
  Path (fun s a s' => State.step s a = some s') (initial k data) as s

end Yuzu.Common.RingBuffer
