/-
  File:      Yuzu/VideoCore/Maxwell3D.lean
  Subject:   The register writes of `Maxwell3D` (engines/maxwell_3d.cpp), immediate and through its
             `method_sink`, with the actions of `ProcessMethodCall` and of `DrawManager::ProcessMethodCall`.

  A register index is `MAXWELL3D_REG_INDEX` of the field: its offset in `Regs` by four. What an action does is
  a parameter, and so are the macro methods; they may change every part of the state. An assertion that
  fails has no effect on the state.
-/
import Mathlib.Algebra.Order.Ring.Int

namespace Yuzu.VideoCore.Maxwell

/-! ## 1. Register indices -/

/-- `MacroRegistersStart`. -/
def macroRegistersStart : Nat := 0xE00

namespace Reg

def waitForIdle : Nat := 0x44

def loadMmeInstructionPtr : Nat := 0x45

def loadMmeInstruction : Nat := 0x46

def loadMmeStartAddress : Nat := 0x48

def shadowRamControl : Nat := 0x49

def launchDma : Nat := 0x6C

def inlineData : Nat := 0x6D

def syncInfo : Nat := 0xB2

def vertexBufferFirst : Nat := 0x35D

def vertexBufferCount : Nat := 0x35E

def fragmentBarrier : Nat := 0x378

def invalidateTextureDataCache : Nat := 0x3DD

def tiledCacheBarrier : Nat := 0x3DF

def drawTextureSrcY0 : Nat := 0x42B

def vertexArrayInstanceFirst : Nat := 0x485

def vertexArrayInstanceSubsequent : Nat := 0x486

def inlineIndex4x8Index0 : Nat := 0x4C1

def clearReportValue : Nat := 0x54C

def renderEnableMode : Nat := 0x556

def drawInlineIndex : Nat := 0x57A

def inlineIndex2x16Even : Nat := 0x57C

def drawEnd : Nat := 0x585

def drawBegin : Nat := 0x586

def indexBufferFirst : Nat := 0x5F7

def indexBufferCount : Nat := 0x5F8

def indexBuffer32First : Nat := 0x5F9

def indexBuffer16First : Nat := 0x5FA

def indexBuffer8First : Nat := 0x5FB

def indexBuffer32Subsequent : Nat := 0x5FC

def indexBuffer16Subsequent : Nat := 0x5FD

def indexBuffer8Subsequent : Nat := 0x5FE

def topologyOverride : Nat := 0x65C

def clearSurface : Nat := 0x674

def reportSemaphoreQuery : Nat := 0x6C3

def falcon4 : Nat := 0x8C4

def constBufferBuffer : Nat := 0x8E4

/-- `bind_groups[group].raw_config`. -/
def bindGroupsRawConfig (group : Nat) : Nat := 0x904 + 8 * group

end Reg

/-- The methods that `IsMethodExecutable` lists. -/
def executableMethods : List Nat :=
  [Reg.drawEnd, Reg.drawBegin, Reg.vertexBufferFirst, Reg.vertexBufferCount, Reg.indexBufferFirst,
    Reg.indexBufferCount, Reg.drawInlineIndex, Reg.indexBuffer32Subsequent, Reg.indexBuffer16Subsequent,
    Reg.indexBuffer8Subsequent, Reg.indexBuffer32First, Reg.indexBuffer16First, Reg.indexBuffer8First,
    Reg.inlineIndex2x16Even, Reg.inlineIndex4x8Index0, Reg.vertexArrayInstanceFirst,
    Reg.vertexArrayInstanceSubsequent, Reg.drawTextureSrcY0, Reg.waitForIdle, Reg.shadowRamControl,
    Reg.loadMmeInstructionPtr, Reg.loadMmeInstruction, Reg.loadMmeStartAddress, Reg.falcon4,
    Reg.constBufferBuffer, Reg.constBufferBuffer + 1, Reg.constBufferBuffer + 2, Reg.constBufferBuffer + 3,
    Reg.constBufferBuffer + 4, Reg.constBufferBuffer + 5, Reg.constBufferBuffer + 6, Reg.constBufferBuffer + 7,
    Reg.constBufferBuffer + 8, Reg.constBufferBuffer + 9, Reg.constBufferBuffer + 10, Reg.constBufferBuffer + 11,
    Reg.constBufferBuffer + 12, Reg.constBufferBuffer + 13, Reg.constBufferBuffer + 14,
    Reg.constBufferBuffer + 15, Reg.bindGroupsRawConfig 0, Reg.bindGroupsRawConfig 1, Reg.bindGroupsRawConfig 2,
    Reg.bindGroupsRawConfig 3, Reg.bindGroupsRawConfig 4, Reg.topologyOverride, Reg.clearSurface,
    Reg.reportSemaphoreQuery, Reg.renderEnableMode, Reg.clearReportValue, Reg.syncInfo, Reg.launchDma,
    Reg.inlineData, Reg.fragmentBarrier, Reg.invalidateTextureDataCache, Reg.tiledCacheBarrier]

/-- `IsMethodExecutable`. -/
def isMethodExecutable (method : Nat) : Bool :=
  if method ≥ macroRegistersStart then true else decide (method ∈ executableMethods)

/-! ## 2. Actions -/

/-- What a method call asks of the rasterizer, the macro engine, the upload state, the draw manager and the
engine itself. -/
inductive Action where
  | waitForIdle
  | clearCode (instructionPtr : Nat)
  | addCode (instructionPtr argument : Nat)
  | processMacroBind (argument : Nat)
  | processFirmwareCall4
  | processCBData (argument : Nat)
  | processCBBind (stageIndex : Nat)
  | processQueryGet
  | processQueryCondition
  | processCounterReset
  | processSyncPoint
  | processExec (isLinear : Bool)
  | processData (argument : Nat) (isLastCall : Bool)
  | fragmentBarrier
  | invalidateGPUCache
  | tiledCacheBarrier
  | clear (layerCount : Nat)
  | drawBegin
  | drawEnd
  /-- `draw_state.draw_indexed = true`. -/
  | setDrawIndexed
  /-- `draw_state.instance_count++`. -/
  | incrementInstanceCount
  | drawIndexSmall (argument : Nat)
  | setInlineIndexBuffer (index : Nat)
  | drawArrayInstanced (topology vertexFirst vertexCount : Nat) (subsequent : Bool)
  | drawTexture
  deriving DecidableEq, Repr

/-- The actions of `DrawManager::ProcessMethodCall`. -/
def drawActions (regs : Nat → Nat) (method argument : Nat) : List Action :=
  if method = Reg.clearSurface then [.clear 1]
  else if method = Reg.drawBegin then [.drawBegin]
  else if method = Reg.drawEnd then [.drawEnd]
  else if method = Reg.vertexBufferFirst ∨ method = Reg.vertexBufferCount ∨ method = Reg.indexBufferFirst then []
  else if method = Reg.indexBufferCount then [.setDrawIndexed]
  else if method = Reg.indexBuffer32Subsequent ∨ method = Reg.indexBuffer16Subsequent ∨
      method = Reg.indexBuffer8Subsequent then
    [.incrementInstanceCount, .drawIndexSmall argument]
  else if method = Reg.indexBuffer32First ∨ method = Reg.indexBuffer16First ∨ method = Reg.indexBuffer8First then
    [.drawIndexSmall argument]
  else if method = Reg.drawInlineIndex then [.setInlineIndexBuffer argument]
  else if method = Reg.inlineIndex2x16Even then
    let value := regs Reg.inlineIndex2x16Even
    [.setInlineIndexBuffer (value % 2 ^ 16), .setInlineIndexBuffer (value / 2 ^ 16 % 2 ^ 16)]
  else if method = Reg.inlineIndex4x8Index0 then
    let value := regs Reg.inlineIndex4x8Index0
    [.setInlineIndexBuffer (value % 2 ^ 8), .setInlineIndexBuffer (value / 2 ^ 8 % 2 ^ 8),
      .setInlineIndexBuffer (value / 2 ^ 16 % 2 ^ 8), .setInlineIndexBuffer (value / 2 ^ 24 % 2 ^ 8)]
  else if method = Reg.vertexArrayInstanceFirst then
    let value := regs Reg.vertexArrayInstanceFirst
    [.drawArrayInstanced (value / 2 ^ 28 % 2 ^ 3) (value % 2 ^ 16) (value / 2 ^ 16 % 2 ^ 12) false]
  else if method = Reg.vertexArrayInstanceSubsequent then
    let value := regs Reg.vertexArrayInstanceSubsequent
    [.drawArrayInstanced (value / 2 ^ 28 % 2 ^ 3) (value % 2 ^ 16) (value / 2 ^ 16 % 2 ^ 12) true]
  else if method = Reg.drawTextureSrcY0 then [.drawTexture]
  else []

/-- The actions of `ProcessMethodCall`; for `shadow_ram_control` there is none. -/
def methodActions (regs : Nat → Nat) (method argument : Nat) (isLastCall : Bool) : List Action :=
  if method = Reg.waitForIdle then [.waitForIdle]
  else if method = Reg.shadowRamControl then []
  else if method = Reg.loadMmeInstructionPtr then [.clearCode (regs Reg.loadMmeInstructionPtr)]
  else if method = Reg.loadMmeInstruction then [.addCode (regs Reg.loadMmeInstructionPtr) argument]
  else if method = Reg.loadMmeStartAddress then [.processMacroBind argument]
  else if method = Reg.falcon4 then [.processFirmwareCall4]
  else if Reg.constBufferBuffer ≤ method ∧ method ≤ Reg.constBufferBuffer + 15 then [.processCBData argument]
  else if method = Reg.bindGroupsRawConfig 0 then [.processCBBind 0]
  else if method = Reg.bindGroupsRawConfig 1 then [.processCBBind 1]
  else if method = Reg.bindGroupsRawConfig 2 then [.processCBBind 2]
  else if method = Reg.bindGroupsRawConfig 3 then [.processCBBind 3]
  else if method = Reg.bindGroupsRawConfig 4 then [.processCBBind 4]
  else if method = Reg.reportSemaphoreQuery then [.processQueryGet]
  else if method = Reg.renderEnableMode then [.processQueryCondition]
  else if method = Reg.clearReportValue then [.processCounterReset]
  else if method = Reg.syncInfo then [.processSyncPoint]
  else if method = Reg.launchDma then [.processExec (decide (regs Reg.launchDma % 2 = 1))]
  else if method = Reg.inlineData then [.processData argument isLastCall]
  else if method = Reg.fragmentBarrier then [.fragmentBarrier]
  else if method = Reg.invalidateTextureDataCache then [.invalidateGPUCache, .waitForIdle]
  else if method = Reg.tiledCacheBarrier then [.tiledCacheBarrier]
  else drawActions regs method argument

/-! ## 3. The registers -/

variable {R : Type*}

/-- `regs`, `shadow_state`, `dirty.flags`, and everything else that actions read and write. -/
structure State (R : Type*) where
  regs : Nat → Nat
  shadowState : Nat → Nat
  flags : Nat → Bool
  rest : R

/-- `Regs::ShadowRamControl`. -/
def ShadowRamControl.track : Nat := 0

def ShadowRamControl.trackWithFilter : Nat := 1

def ShadowRamControl.replay : Nat := 3

namespace State

/-- `shadow_state.shadow_ram_control`, which is one of the shadow registers. -/
def control (s : State R) : Nat := s.shadowState Reg.shadowRamControl

/-- A shadow register is written. -/
def setShadow (s : State R) (method value : Nat) : State R :=
  { s with shadowState := Function.update s.shadowState method value }

/-- `ProcessShadowRam`: the argument that takes effect, and the state. -/
def processShadowRam (s : State R) (method argument : Nat) : Nat × State R :=
  if s.control = ShadowRamControl.track ∨ s.control = ShadowRamControl.trackWithFilter then
    (argument, s.setShadow method argument)
  else if s.control = ShadowRamControl.replay then (s.shadowState method, s)
  else (argument, s)

/-- `ProcessDirtyRegisters`, with the tables `dirty.tables`. -/
def processDirtyRegisters (tables : List (Nat → Nat)) (s : State R) (method argument : Nat) : State R :=
  if s.regs method = argument then s
  else { s with
    regs := Function.update s.regs method argument
    flags := tables.foldl (fun flags table => Function.update flags (table method) true) s.flags }

/-- `ConsumeSinkImpl`: the control is read once, and each case has its own loop. -/
def consumeSinkImpl (tables : List (Nat → Nat)) (s : State R) (methodSink : List (Nat × Nat)) : State R :=
  if s.control = ShadowRamControl.track ∨ s.control = ShadowRamControl.trackWithFilter then
    methodSink.foldl (fun s entry =>
      (s.setShadow entry.1 entry.2).processDirtyRegisters tables entry.1 entry.2) s
  else if s.control = ShadowRamControl.replay then
    methodSink.foldl (fun s entry => s.processDirtyRegisters tables entry.1 (s.shadowState entry.1)) s
  else methodSink.foldl (fun s entry => s.processDirtyRegisters tables entry.1 entry.2) s

end State

/-! ## 4. Method calls -/

/-- A write: a method with its argument, and the last-call flag of the pusher. -/
structure Write where
  method : Nat
  argument : Nat
  isLastCall : Bool

/-- What is seen of a run: the state at each executed call, and the actions. -/
inductive Entry (R : Type*) where
  | executed (state : State R) (write : Write)
  | action (action : Action)

/-- The engine with its sink, and what was seen of it. -/
structure Maxwell3D (R : Type*) where
  state : State R
  methodSink : List (Nat × Nat)
  seen : List (Entry R)

/-- What the engine is given: the tables of dirty flags, the effect of an action, and the macro methods. -/
structure Environment (R : Type*) where
  tables : List (Nat → Nat)
  perform : Action → State R → State R
  processMacro : Write → Maxwell3D R → Maxwell3D R

namespace Maxwell3D

/-- `ProcessMethodCall`. -/
def processMethodCall (env : Environment R) (m : Maxwell3D R) (method argument nonshadowArgument : Nat)
    (isLastCall : Bool) : Maxwell3D R :=
  let actions := methodActions m.state.regs method argument isLastCall
  let state := if method = Reg.shadowRamControl then m.state.setShadow Reg.shadowRamControl nonshadowArgument
    else m.state
  { m with state := actions.foldl (fun s a => env.perform a s) state, seen := m.seen ++ actions.map .action }

/-- `CallMethod`. -/
def callMethod (env : Environment R) (m : Maxwell3D R) (w : Write) : Maxwell3D R :=
  if w.method ≥ macroRegistersStart then env.processMacro w m
  else
    let (argument, state) := m.state.processShadowRam w.method w.argument
    { m with state := state.processDirtyRegisters env.tables w.method argument }.processMethodCall env
      w.method argument w.argument w.isLastCall

/-- `ConsumeSink`. -/
def consumeSink (env : Environment R) (m : Maxwell3D R) : Maxwell3D R :=
  match m.methodSink with
  | [] => m
  | entries => { m with state := m.state.consumeSinkImpl env.tables entries, methodSink := [] }

/-- A call is executed in this state. -/
def note (m : Maxwell3D R) (w : Write) : Maxwell3D R := { m with seen := m.seen ++ [.executed m.state w] }

/-- A write as `DmaPusher::CallMethod` passes it on. -/
def deferred (env : Environment R) (m : Maxwell3D R) (w : Write) : Maxwell3D R :=
  if isMethodExecutable w.method then ((m.consumeSink env).note w).callMethod env w
  else { m with methodSink := m.methodSink ++ [(w.method, w.argument)] }

/-- A write that is made at once. -/
def immediate (env : Environment R) (m : Maxwell3D R) (w : Write) : Maxwell3D R :=
  (if isMethodExecutable w.method then m.note w else m).callMethod env w

end Maxwell3D

end Yuzu.VideoCore.Maxwell
