/-
  File:      Yuzu/VideoCore/DmaPusher.lean
  Subject:   `Tegra::DmaPusher` (video_core/dma_pusher.cpp) with the calls it makes on the puller
             (engines/puller.cpp) and on the engines, and a decoder that takes one word at a time.

  The trace keeps every call in order. What an engine does with a call is not part of the pusher; which of
  its methods are executed at once is its mask. A call through an empty subchannel has no result.
-/
import Yuzu.Lib.Trace
import Mathlib.Algebra.Order.Ring.Int

namespace Yuzu.VideoCore.Dma

/-! ## 1. Command words -/

/-- The fields of a `CommandHeader`. -/
def headerMethod (word : Nat) : Nat := word % 2 ^ 13

def headerSubchannel (word : Nat) : Nat := word / 2 ^ 13 % 2 ^ 3

/-- `arg_count`, which is `method_count` too. -/
def headerCount (word : Nat) : Nat := word / 2 ^ 16 % 2 ^ 13

/-- `SubmissionMode`. -/
inductive SubmissionMode where
  | increasingOld
  | increasing
  | nonIncreasingOld
  | nonIncreasing
  | inline
  | increaseOnce
  | unknown
  deriving DecidableEq, Repr

/-- The mode of a header. -/
def headerMode (word : Nat) : SubmissionMode :=
  match word / 2 ^ 29 % 2 ^ 3 with
  | 0 => .increasingOld
  | 1 => .increasing
  | 2 => .nonIncreasingOld
  | 3 => .nonIncreasing
  | 4 => .inline
  | 5 => .increaseOnce
  | _ => .unknown

/-! ## 2. The pusher -/

/-- `EngineTypes`. -/
inductive EngineTypes where
  | keplerCompute
  | maxwell3D
  | fermi2D
  | maxwellDMA
  | keplerMemory
  deriving DecidableEq, Repr

/-- The engine of an `EngineID`. -/
def engineOf (engineId : Nat) : Option EngineTypes :=
  if engineId = 0x902D then some .fermi2D
  else if engineId = 0xB197 then some .maxwell3D
  else if engineId = 0xB1C0 then some .keplerCompute
  else if engineId = 0xB0B5 then some .maxwellDMA
  else if engineId = 0xA140 then some .keplerMemory
  else none

/-- A call that the pusher makes. -/
inductive Event where
  /-- `Puller::CallPullerMethod`. -/
  | puller (method argument subchannel methodCount : Nat)
  /-- An entry put into the `method_sink` of an engine. -/
  | sink (engine : EngineTypes) (subchannel method argument : Nat)
  /-- `ConsumeSinkImpl` with the entries of the sink. -/
  | consume (engine : EngineTypes) (entries : List (Nat × Nat))
  /-- `CallMethod` of an engine, with its `current_dma_segment`. -/
  | call (engine : EngineTypes) (segment subchannel method argument : Nat) (isLastCall : Bool)
  /-- `CallMultiMethod` of an engine, with its `current_dma_segment`. -/
  | multi (engine : EngineTypes) (segment subchannel method : Nat) (arguments : List Nat) (methodsPending : Nat)
  deriving DecidableEq, Repr

/-- `DmaState`. -/
structure DmaState where
  method : Nat
  subchannel : Nat
  methodCount : Nat
  dmaGet : Nat
  dmaWordOffset : Nat
  nonIncrementing : Bool
  isLastCall : Bool

/-- `DmaPusher`, with the puller's bound engines, the sinks of the engines and the calls made. -/
structure DmaPusher where
  dmaState : DmaState
  dmaIncrementOnce : Bool
  subchannels : Nat → Option EngineTypes
  boundEngines : Nat → Nat
  methodSink : EngineTypes → List (Nat × Nat)
  trace : List Event

/-- `non_puller_methods`, and `BufferMethods::NonPullerMethods`. -/
def nonPullerMethods : Nat := 0x40

namespace DmaPusher

/-- One more call in the trace. -/
def log (p : DmaPusher) (event : Event) : DmaPusher := { p with trace := p.trace ++ [event] }

/-- `Puller::ProcessBindMethod`. -/
def processBindMethod (p : DmaPusher) (argument subchannel : Nat) : DmaPusher :=
  let p := { p with boundEngines := Function.update p.boundEngines subchannel argument }
  match engineOf argument with
  | some engine => { p with subchannels := Function.update p.subchannels subchannel (some engine) }
  | none => p

/-- `Puller::CallPullerMethod`; `BindObject` is the one that concerns the pusher. -/
def callPullerMethod (p : DmaPusher) (method argument subchannel methodCount : Nat) : DmaPusher :=
  let p := p.log (.puller method argument subchannel methodCount)
  if method = 0 then p.processBindMethod argument subchannel else p

/-- The loop of `Puller::CallMultiMethod`. -/
def pullerLoop (p : DmaPusher) (method subchannel methodsPending : Nat) : List Nat → DmaPusher
  | [] => p
  | argument :: arguments =>
    (p.callPullerMethod method argument subchannel methodsPending).pullerLoop method subchannel
      (methodsPending - 1) arguments

/-- `Puller::CallMultiMethod`. -/
def pullerCallMultiMethod (p : DmaPusher) (method subchannel : Nat) (arguments : List Nat)
    (methodsPending : Nat) : DmaPusher :=
  if method ≥ nonPullerMethods then
    match engineOf (p.boundEngines subchannel) with
    | some engine => p.log (.multi engine p.dmaState.dmaGet subchannel method arguments methodsPending)
    | none => p
  else p.pullerLoop method subchannel methodsPending arguments

/-- `EngineInterface::ConsumeSink`. -/
def consumeSink (p : DmaPusher) (engine : EngineTypes) : DmaPusher :=
  match p.methodSink engine with
  | [] => p
  | entries =>
    { p with methodSink := Function.update p.methodSink engine [] }.log (.consume engine entries)

/-- `current_dma_segment` of a call. -/
def segment (p : DmaPusher) : Nat := (p.dmaState.dmaGet + p.dmaState.dmaWordOffset) % 2 ^ 64

/-- `CallMethod`. -/
def callMethod (executionMask : EngineTypes → Nat → Bool) (p : DmaPusher) (argument : Nat) : Option DmaPusher :=
  let s := p.dmaState
  if s.method < nonPullerMethods then
    some (p.callPullerMethod s.method argument s.subchannel s.methodCount)
  else
    match p.subchannels s.subchannel with
    | none => none
    | some engine =>
      if executionMask engine s.method then
        let p := p.consumeSink engine
        some (p.log (.call engine p.segment s.subchannel s.method argument s.isLastCall))
      else
        some ({ p with methodSink :=
          Function.update p.methodSink engine (p.methodSink engine ++ [(s.method, argument)]) }.log
            (.sink engine s.subchannel s.method argument))

/-- `CallMultiMethod`. -/
def callMultiMethod (p : DmaPusher) (arguments : List Nat) : Option DmaPusher :=
  let s := p.dmaState
  if s.method < nonPullerMethods then
    some (p.pullerCallMultiMethod s.method s.subchannel arguments s.methodCount)
  else
    match p.subchannels s.subchannel with
    | none => none
    | some engine =>
      let p := p.consumeSink engine
      some (p.log (.multi engine p.segment s.subchannel s.method arguments s.methodCount))

/-- `SetState`. -/
def setState (p : DmaPusher) (word : Nat) : DmaPusher :=
  { p with dmaState := { p.dmaState with
      method := headerMethod word, subchannel := headerSubchannel word, methodCount := headerCount word } }

/-- The submission flags of a command. -/
def setFlags (p : DmaPusher) (nonIncrementing incrementOnce : Bool) : DmaPusher :=
  { p with dmaState := { p.dmaState with nonIncrementing := nonIncrementing }, dmaIncrementOnce := incrementOnce }

/-- The first word of a command. -/
def processHeader (executionMask : EngineTypes → Nat → Bool) (p : DmaPusher) (word : Nat) : Option DmaPusher :=
  match headerMode word with
  | .increasing => some ((p.setState word).setFlags false false)
  | .nonIncreasing => some ((p.setState word).setFlags true false)
  | .inline =>
    let p := { p with dmaState := { p.dmaState with
      method := headerMethod word, subchannel := headerSubchannel word,
      dmaWordOffset := (2 ^ 64 - p.dmaState.dmaGet % 2 ^ 64) % 2 ^ 64 } }
    match p.callMethod executionMask (headerCount word) with
    | none => none
    | some p => some (p.setFlags true false)
  | .increaseOnce => some ((p.setState word).setFlags false true)
  | _ => some p

/-- A data word that is not part of a batch. -/
def processData (executionMask : EngineTypes → Nat → Bool) (p : DmaPusher) (word : Nat) : Option DmaPusher :=
  let p := { p with dmaState := { p.dmaState with isLastCall := decide (p.dmaState.methodCount ≤ 1) } }
  match p.callMethod executionMask word with
  | none => none
  | some p =>
    let p := if p.dmaState.nonIncrementing = false then
      { p with dmaState := { p.dmaState with method := p.dmaState.method + 1 } } else p
    let p := if p.dmaIncrementOnce then
      { p with dmaState := { p.dmaState with nonIncrementing := true } } else p
    some { p with dmaState := { p.dmaState with methodCount := p.dmaState.methodCount - 1 } }

/-- `dma_word_offset` of the word at an index. -/
def setWordOffset (p : DmaPusher) (index : Nat) : DmaPusher :=
  { p with dmaState := { p.dmaState with dmaWordOffset := index * 4 % 2 ^ 32 } }

/-- `ProcessCommands` from the index on, with the words from there. -/
def processCommands (executionMask : EngineTypes → Nat → Bool) (p : DmaPusher) (index : Nat) :
    List Nat → Option DmaPusher
  | [] => some p
  | word :: words =>
    if _hcount : p.dmaState.methodCount ≠ 0 then
      let p := p.setWordOffset index
      if p.dmaState.nonIncrementing then
        let maxWrite := min (index + p.dmaState.methodCount) (index + (words.length + 1)) - index
        match p.callMultiMethod ((word :: words).take maxWrite) with
        | none => none
        | some p => { p with dmaState := { p.dmaState with
            methodCount := p.dmaState.methodCount - maxWrite, isLastCall := true } }.processCommands
              executionMask (index + maxWrite) ((word :: words).drop maxWrite)
      else
        match p.processData executionMask word with
        | none => none
        | some p => p.processCommands executionMask (index + 1) words
    else
      match p.processHeader executionMask word with
      | none => none
      | some p => p.processCommands executionMask (index + 1) words
  termination_by words => words.length
  decreasing_by
    all_goals simp only [List.length_drop, List.length_cons, setWordOffset]
    all_goals omega

/-- A command buffer: the words, and the address that `dma_get` is set to. A prefetched one has none. -/
structure Piece where
  address : Option Nat
  words : List Nat

/-- `Step` on one command buffer. -/
def step (executionMask : EngineTypes → Nat → Bool) (p : DmaPusher) (piece : Piece) : Option DmaPusher :=
  { p with dmaState := { p.dmaState with dmaGet := piece.address.getD p.dmaState.dmaGet } }.processCommands
    executionMask 0 piece.words

/-- `Step` for each command buffer. -/
def stepAll (executionMask : EngineTypes → Nat → Bool) (p : DmaPusher) : List Piece → Option DmaPusher
  | [] => some p
  | piece :: pieces =>
    match p.step executionMask piece with
    | none => none
    | some p => p.stepAll executionMask pieces

/-- `DispatchCalls` with the command buffers that are queued. -/
def dispatchCalls (executionMask : EngineTypes → Nat → Bool) (p : DmaPusher) (pieces : List Piece) :
    Option DmaPusher :=
  { p with dmaState := { p.dmaState with isLastCall := true } }.stepAll executionMask pieces

/-- One `DispatchCalls` after the other. -/
def dispatchAll (executionMask : EngineTypes → Nat → Bool) (p : DmaPusher) :
    List (List Piece) → Option DmaPusher
  | [] => some p
  | pieces :: dispatches =>
    match p.dispatchCalls executionMask pieces with
    | none => none
    | some p => p.dispatchAll executionMask dispatches

end DmaPusher

/-! ## 3. One word at a time -/

/-- A write: a method with its argument, and whether it is the last of its command. -/
structure MethodWrite where
  subchannel : Nat
  method : Nat
  argument : Nat
  last : Bool
  deriving DecidableEq, Repr

/-- When the method advances. -/
inductive Advance where
  | always
  | once
  | never
  deriving DecidableEq, Repr

/-- The command that the decoder is in, with the number of data words that remain. -/
structure Decoder where
  method : Nat
  subchannel : Nat
  remaining : Nat
  advance : Advance

namespace Decoder

/-- No command. -/
def idle : Decoder := ⟨0, 0, 0, .never⟩

/-- A command that begins. -/
def start (word : Nat) (advance : Advance) : Decoder :=
  ⟨headerMethod word, headerSubchannel word, headerCount word, advance⟩

/-- After one data word. -/
def next (d : Decoder) : Decoder :=
  match d.advance with
  | .always => { d with method := d.method + 1, remaining := d.remaining - 1 }
  | .once => { d with method := d.method + 1, remaining := d.remaining - 1, advance := .never }
  | .never => { d with remaining := d.remaining - 1 }

/-- **One word**: the write it makes, if any. -/
def word (d : Decoder) (w : Nat) : Option MethodWrite × Decoder :=
  if d.remaining = 0 then
    match headerMode w with
    | .increasing => (none, start w .always)
    | .nonIncreasing => (none, start w .never)
    | .inline => (some ⟨headerSubchannel w, headerMethod w, headerCount w, true⟩, d)
    | .increaseOnce => (none, start w .once)
    | _ => (none, d)
  else (some ⟨d.subchannel, d.method, w, decide (d.remaining = 1)⟩, d.next)

/-- The writes of a stream of words. -/
def writes (d : Decoder) (words : List Nat) : List MethodWrite := (replies word d words).filterMap id

end Decoder

end Yuzu.VideoCore.Dma
