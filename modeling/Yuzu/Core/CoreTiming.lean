/-
  File:      Yuzu/Core/CoreTiming.lean
  Subject:   Core::Timing::CoreTiming (core/core_timing.cpp): the queue of events, scheduling and
             unscheduling, and `Advance` with its callbacks.

  What runs under `basic_lock` is one step; `Advance` gives the lock up around each callback, and
  anything may run there. Times are integers, sequence numbers and fifo orders naturals. The heap is
  the list of its nodes; a handle stands for its node for ever.
-/
import Mathlib.Data.List.Count
import Mathlib.Data.List.Nodup
import Yuzu.Lib.Trace

namespace Yuzu.Core

/-! ## 1. The queue -/

/-- `CoreTiming::Event`. -/
structure Event where
  time : Int
  fifoOrder : Nat
  type : Nat
  rescheduleTime : Int
  handle : Nat
  deriving DecidableEq, Repr

/-- `operator<`: by time, then in the order added. -/
def Event.before (left right : Event) : Bool :=
  left.time < right.time || (left.time == right.time && left.fifoOrder < right.fifoOrder)

/-- `event_queue.top()`. -/
def top : List Event → Option Event
  | [] => none
  | e :: queue => match top queue with
      | none => some e
      | some e' => if e'.before e then some e' else some e

/-! ## 2. The state -/

/-- A callback that `Advance` has taken: what it keeps of the event, and whether the callback has
    started. -/
structure Callback where
  handle : Nat
  type : Nat
  evtTime : Int
  evtSequenceNum : Nat
  looping : Bool
  started : Bool
  deriving DecidableEq, Repr

/-- Where `Advance` stands: not running, at the head of its loop with both locks, or around a
    callback with `advance_lock` alone. -/
inductive Advance where
  | idle
  | loop
  | callback (c : Callback)
  deriving DecidableEq, Repr

/-- A callback that was started, and when. -/
structure Fired where
  handle : Nat
  type : Nat
  time : Int
  now : Int
  deriving DecidableEq, Repr

/-- The state of the timing. `now` is the clock; `waiting` are the calls of `UnscheduleEvent` that
    wait for `advance_lock`; `fired` records the callbacks started, and `fault` whether a node was
    used after it was erased. -/
structure CoreTiming where
  eventQueue : List Event := []
  eventFifoId : Nat := 0
  nextHandle : Nat := 0
  sequenceNumber : Nat → Nat := fun _ => 0
  expired : Nat → Bool := fun _ => false
  globalTimer : Int := 0
  pauseEndTime : Int := 0
  now : Int := 0
  advance : Advance := .idle
  waiting : List Nat := []
  fired : List Fired := []
  fault : Bool := false

namespace CoreTiming

/-! ## 3. The sections -/

/-- The time that an event is scheduled for. -/
def nextTime (s : CoreTiming) (nsIntoFuture : Int) (absoluteTime : Bool) : Int :=
  if absoluteTime then nsIntoFuture else s.now + nsIntoFuture

/-- `event_queue.emplace`. -/
def emplace (s : CoreTiming) (time : Int) (type : Nat) (rescheduleTime : Int) : CoreTiming :=
  { s with
    eventQueue := ⟨time, s.eventFifoId, type, rescheduleTime, s.nextHandle⟩ :: s.eventQueue
    eventFifoId := s.eventFifoId + 1
    nextHandle := s.nextHandle + 1 }

/-- `ScheduleEvent`. -/
def scheduleEvent (s : CoreTiming) (nsIntoFuture : Int) (eventType : Nat) (absoluteTime : Bool) :
    CoreTiming :=
  s.emplace (s.nextTime nsIntoFuture absoluteTime) eventType 0

/-- `ScheduleLoopingEvent`. -/
def scheduleLoopingEvent (s : CoreTiming) (startTime reschedTime : Int) (eventType : Nat)
    (absoluteTime : Bool) : CoreTiming :=
  s.emplace (s.nextTime startTime absoluteTime) eventType reschedTime

/-- The section of `UnscheduleEvent` under `basic_lock`. -/
def unscheduleEvent (s : CoreTiming) (eventType : Nat) : CoreTiming :=
  { s with
    eventQueue := s.eventQueue.filter fun e => e.type ≠ eventType
    sequenceNumber := Function.update s.sequenceNumber eventType (s.sequenceNumber eventType + 1) }

/-- A round of the loop of `Advance`, up to the callback. -/
def advanceLoop (s : CoreTiming) : CoreTiming :=
  match top s.eventQueue with
  | none => { s with advance := .idle }
  | some evt =>
    if evt.time ≤ s.globalTimer then
      if s.expired evt.type then { s with globalTimer := s.now }
      else if evt.rescheduleTime = 0 then
        { s with
          eventQueue := s.eventQueue.erase evt
          advance := .callback ⟨evt.handle, evt.type, evt.time, s.sequenceNumber evt.type,
            false, false⟩ }
      else
        { s with
          advance := .callback ⟨evt.handle, evt.type, evt.time, s.sequenceNumber evt.type,
            true, false⟩ }
    else { s with advance := .idle }

/-- A callback starts. -/
def callbackStart (s : CoreTiming) (c : Callback) : CoreTiming :=
  { s with
    advance := .callback { c with started := true }
    fired := ⟨c.handle, c.type, c.evtTime, s.now⟩ :: s.fired }

/-- A node gets a new time, where it was left. -/
def rescheduled (s : CoreTiming) (evt : Event) (nextScheduleTime : Int) : Event :=
  { time := if evt.time < s.pauseEndTime then s.pauseEndTime + nextScheduleTime
      else evt.time + nextScheduleTime
    fifoOrder := s.eventFifoId
    type := evt.type
    rescheduleTime := nextScheduleTime
    handle := evt.handle }

/-- What `Advance` does once a callback has returned. -/
def callbackEnd (s : CoreTiming) (c : Callback) (newScheduleTime : Option Int) : CoreTiming :=
  if c.looping = false then { s with globalTimer := s.now, advance := .loop }
  else if c.evtSequenceNum ≠ s.sequenceNumber c.type then { s with advance := .loop }
  else match s.eventQueue.find? fun e => e.handle = c.handle with
    | none => { s with fault := true, advance := .loop }
    | some evt =>
      { s with
        eventQueue := s.eventQueue.map fun e => if e.handle = evt.handle then
          s.rescheduled evt (newScheduleTime.getD evt.rescheduleTime) else e
        eventFifoId := s.eventFifoId + 1
        globalTimer := s.now
        advance := .loop }

end CoreTiming

/-! ## 4. Steps -/

/-- A step of some thread. -/
inductive TimingStep where
  | scheduleEvent (nsIntoFuture : Int) (eventType : Nat) (absoluteTime : Bool)
  | scheduleLoopingEvent (startTime reschedTime : Int) (eventType : Nat) (absoluteTime : Bool)
  | unscheduleEvent (call eventType : Nat) (wait : Bool)
  | unscheduleReturn (call : Nat)
  | advance
  | advanceLoop
  | callbackStart
  | callbackEnd (newScheduleTime : Option Int)
  | expire (eventType : Nat)
  | pause
  | tick (time : Int)
  deriving DecidableEq, Repr

/-- The steps that schedule a type. -/
def TimingStep.Schedules (type : Nat) : TimingStep → Prop
  | .scheduleEvent _ eventType _ => eventType = type
  | .scheduleLoopingEvent _ _ eventType _ => eventType = type
  | _ => False

/-- The steps. `basic_lock` is free but at the head of `Advance`'s loop, `advance_lock` when no
    `Advance` runs; who schedules or unschedules a type holds it, and so does `Advance` around its
    callback. -/
inductive CoreTiming.Step : CoreTiming → TimingStep → CoreTiming → Prop where
  | scheduleEvent {s : CoreTiming} {ns : Int} {type : Nat} {abs : Bool}
      (hbasic : s.advance ≠ .loop) (htype : s.expired type = false) :
      Step s (.scheduleEvent ns type abs) (s.scheduleEvent ns type abs)
  | scheduleLoopingEvent {s : CoreTiming} {start resched : Int} {type : Nat} {abs : Bool}
      (hbasic : s.advance ≠ .loop) (htype : s.expired type = false) :
      Step s (.scheduleLoopingEvent start resched type abs) (s.scheduleLoopingEvent start resched type abs)
  | unscheduleWait {s : CoreTiming} {call type : Nat}
      (hbasic : s.advance ≠ .loop) (htype : s.expired type = false) :
      Step s (.unscheduleEvent call type true) { s.unscheduleEvent type with waiting := call :: s.waiting }
  | unscheduleNoWait {s : CoreTiming} {call type : Nat}
      (hbasic : s.advance ≠ .loop) (htype : s.expired type = false) :
      Step s (.unscheduleEvent call type false) (s.unscheduleEvent type)
  | unscheduleReturn {s : CoreTiming} {call : Nat} (hadvance : s.advance = .idle)
      (hcall : call ∈ s.waiting) :
      Step s (.unscheduleReturn call) { s with waiting := s.waiting.erase call }
  | advance {s : CoreTiming} (hadvance : s.advance = .idle) :
      Step s .advance { s with globalTimer := s.now, advance := .loop }
  | advanceLoop {s : CoreTiming} (hadvance : s.advance = .loop) : Step s .advanceLoop s.advanceLoop
  | callbackStart {s : CoreTiming} {c : Callback} (hadvance : s.advance = .callback c)
      (hstarted : c.started = false) : Step s .callbackStart (s.callbackStart c)
  | callbackEnd {s : CoreTiming} {c : Callback} {new : Option Int}
      (hadvance : s.advance = .callback c) (hstarted : c.started = true) :
      Step s (.callbackEnd new) (s.callbackEnd c new)
  | expire {s : CoreTiming} {type : Nat}
      (hheld : ∀ c, s.advance = .callback c → c.type ≠ type) :
      Step s (.expire type) { s with expired := Function.update s.expired type true }
  | pause {s : CoreTiming} : Step s .pause { s with pauseEndTime := s.now }
  | tick {s : CoreTiming} {time : Int} (hnow : s.now ≤ time) :
      Step s (.tick time) { s with now := time }

end Yuzu.Core
