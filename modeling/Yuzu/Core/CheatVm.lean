/-
  File:      Yuzu/Core/CheatVm.lean
  Subject:   `DmntCheatVm::Execute` and `SkipConditionalBlock` (core/memory/dmnt_cheat_vm.cpp).

  The memory, the process and the log behind the callbacks are a world of any type. The trace keeps every
  callback of the loop in order; a `CommandLog` of an opcode is one entry, with what its texts are made of.
  A shift by 64 or more, which the language leaves open, takes the low six bits.
-/
import Yuzu.Core.CheatOpcodes

namespace Yuzu.Core.Cheat

/-! ## 1. The machine -/

/-- A callback that the VM makes. -/
inductive Event where
  | commandLog (instructionPtr : Nat) (opcode : Opcode) (registers savedValues : Nat → UInt64)
  | memoryRead (address : UInt64) (size : Nat)
  | memoryWrite (address value : UInt64) (size : Nat)
  | pauseProcess
  | resumeProcess
  | debugLog (id : Nat) (value : UInt64)

/-- `Callbacks` over a world, `CheatProcessMetadata`, and the keys that are down. -/
structure Environment (W : Type*) where
  memoryRead : W → UInt64 → Nat → UInt64 × W
  memoryWrite : W → UInt64 → UInt64 → Nat → W
  pauseProcess : W → W
  resumeProcess : W → W
  debugLog : W → Nat → UInt64 → W
  mainNsoBase : UInt64
  heapBase : UInt64
  aliasBase : UInt64
  aslrBase : UInt64
  keysDown : Nat

/-- The registers, and the world with the callbacks made. -/
structure Machine (W : Type*) where
  registers : Nat → UInt64
  savedValues : Nat → UInt64
  staticRegisters : Nat → UInt64
  world : W
  trace : List Event

variable {W : Type*}

/-! ## 2. Values -/

/-- The widths at which memory is read and written. -/
def validWidth (bitWidth : Nat) : Bool := bitWidth = 1 || bitWidth = 2 || bitWidth = 4 || bitWidth = 8

/-- The low bytes of a value, for a valid width. -/
def lowBytes (bitWidth : Nat) (value : UInt64) : UInt64 := UInt64.ofNat (value.toNat % 2 ^ (8 * bitWidth))

/-- `GetVmInt`, and the masks of the comparisons: 0 for a width that is not valid. -/
def getVmInt (value : UInt64) (bitWidth : Nat) : UInt64 :=
  if validWidth bitWidth then lowBytes bitWidth value else 0

/-- The width of a result: all of it for a width that is not valid. -/
def applyBitWidth (value : UInt64) (bitWidth : Nat) : UInt64 :=
  if validWidth bitWidth then lowBytes bitWidth value else value

/-- A value whose low bytes are overwritten by what is read. -/
def readInto (old data : UInt64) (bitWidth : Nat) : UInt64 := old - lowBytes bitWidth old + lowBytes bitWidth data

/-- `GetCheatProcessAddress`. -/
def getCheatProcessAddress (env : Environment W) (memType : Nat) (relAddress : UInt64) : UInt64 :=
  if memType = 1 then env.heapBase + relAddress
  else if memType = 2 then env.aliasBase + relAddress
  else if memType = 3 then env.aslrBase + relAddress
  else env.mainNsoBase + relAddress

/-- `ConditionalComparisonType`: `GT`, `GE`, `LT`, `LE`, `EQ`, `NE` are 1 to 6. -/
def compare (condType : Nat) (srcValue condValue : UInt64) : Bool :=
  if condType = 1 then decide (srcValue > condValue)
  else if condType = 2 then decide (srcValue ≥ condValue)
  else if condType = 3 then decide (srcValue < condValue)
  else if condType = 4 then decide (srcValue ≤ condValue)
  else if condType = 5 then decide (srcValue = condValue)
  else if condType = 6 then decide (srcValue ≠ condValue)
  else false

/-- `RegisterArithmeticType`: addition, subtraction, multiplication, left shift and right shift are 0 to 4. -/
def mathStatic (mathType : Nat) (a b : UInt64) : UInt64 :=
  if mathType = 0 then a + b
  else if mathType = 1 then a - b
  else if mathType = 2 then a * b
  else if mathType = 3 then a <<< b
  else if mathType = 4 then a >>> b
  else a

/-- The arithmetic of registers: and, or, not, exclusive or and none are 5 to 9. -/
def mathRegister (mathType : Nat) (a b : UInt64) : UInt64 :=
  if mathType ≤ 4 then mathStatic mathType a b
  else if mathType = 5 then a &&& b
  else if mathType = 6 then a ||| b
  else if mathType = 7 then ~~~a
  else if mathType = 8 then a ^^^ b
  else if mathType = 9 then a
  else 0

namespace Machine

/-- A register is written. -/
def setRegister (m : Machine W) (i : Nat) (value : UInt64) : Machine W :=
  { m with registers := Function.update m.registers i value }

/-- One more callback in the trace. -/
def log (m : Machine W) (event : Event) : Machine W := { m with trace := m.trace ++ [event] }

/-- `MemoryReadUnsafe` over an old value, at a valid width. -/
def memoryRead (env : Environment W) (m : Machine W) (address old : UInt64) (bitWidth : Nat) : UInt64 × Machine W :=
  if validWidth bitWidth then
    let (data, world) := env.memoryRead m.world address bitWidth
    (readInto old data bitWidth, { m with world := world }.log (.memoryRead address bitWidth))
  else (old, m)

/-- `MemoryWriteUnsafe`, at a valid width. -/
def memoryWrite (env : Environment W) (m : Machine W) (address value : UInt64) (bitWidth : Nat) : Machine W :=
  if validWidth bitWidth then
    { m with world := env.memoryWrite m.world address value bitWidth }.log (.memoryWrite address value bitWidth)
  else m

/-! ## 3. Conditions and plain opcodes -/

/-- The value that a register is compared with. -/
def conditionValue (env : Environment W) (m : Machine W) (bitWidth compType memType addrRegIndex otherRegIndex
    ofsRegIndex : Nat) (relAddress value : UInt64) : UInt64 × Machine W :=
  if compType = 4 then (getVmInt value bitWidth, m)
  else if compType = 5 then (getVmInt (m.registers otherRegIndex) bitWidth, m)
  else
    let address :=
      if compType = 0 then getCheatProcessAddress env memType relAddress
      else if compType = 1 then getCheatProcessAddress env memType (m.registers ofsRegIndex)
      else if compType = 2 then m.registers addrRegIndex + relAddress
      else if compType = 3 then m.registers addrRegIndex + m.registers ofsRegIndex
      else 0
    m.memoryRead env address 0 bitWidth

/-- **The condition of a block**, and the machine after it is read. -/
def condition (env : Environment W) (m : Machine W) : Opcode → Bool × Machine W
  | .beginConditional bitWidth memType condType relAddress value =>
    let (srcValue, m) := m.memoryRead env (getCheatProcessAddress env memType relAddress) 0 bitWidth
    (compare condType srcValue (getVmInt value bitWidth), m)
  | .beginKeypressConditional keyMask => (decide (keyMask &&& env.keysDown = keyMask), m)
  | .beginRegisterConditional bitWidth condType valRegIndex compType memType addrRegIndex otherRegIndex ofsRegIndex
      relAddress value =>
      let srcValue := getVmInt (m.registers valRegIndex) bitWidth
      let (condValue, m) := m.conditionValue env bitWidth compType memType addrRegIndex otherRegIndex ofsRegIndex
        relAddress value
      (compare condType srcValue condValue, m)
  | _ => (true, m)

/-- `SaveRestoreRegister`: restore, save, clear the saved value, clear the register are 0 to 3. -/
def saveRestore (m : Machine W) (opType dst src : Nat) : Machine W :=
  if opType = 3 then m.setRegister dst 0
  else if opType = 2 then { m with savedValues := Function.update m.savedValues dst 0 }
  else if opType = 1 then { m with savedValues := Function.update m.savedValues dst (m.registers src) }
  else m.setRegister dst (m.savedValues src)

/-- The address of `StoreRegisterToAddress`. -/
def storeAddress (env : Environment W) (m : Machine W) (addrRegIndex ofsType memType ofsRegIndex : Nat)
    (relAddress : UInt64) : UInt64 :=
  let address := m.registers addrRegIndex
  if ofsType = 1 then address + m.registers ofsRegIndex
  else if ofsType = 2 then address + relAddress
  else if ofsType = 3 then getCheatProcessAddress env memType address
  else if ofsType = 4 then getCheatProcessAddress env memType relAddress
  else if ofsType = 5 then getCheatProcessAddress env memType (address + relAddress)
  else address

/-- The value that `DebugLog` logs. -/
def logValue (env : Environment W) (m : Machine W) (bitWidth valType memType addrRegIndex valRegIndex
    ofsRegIndex : Nat) (relAddress : UInt64) : UInt64 × Machine W :=
  if valType = 4 then (getVmInt (m.registers valRegIndex) bitWidth, m)
  else
    let address :=
      if valType = 0 then getCheatProcessAddress env memType relAddress
      else if valType = 1 then getCheatProcessAddress env memType (m.registers ofsRegIndex)
      else if valType = 2 then m.registers addrRegIndex + relAddress
      else if valType = 3 then m.registers addrRegIndex + m.registers ofsRegIndex
      else 0
    m.memoryRead env address 0 bitWidth

/-- **What an opcode does** that is no condition and no loop. -/
def perform (env : Environment W) (m : Machine W) : Opcode → Machine W
  | .storeStatic bitWidth memType offsetRegister relAddress value =>
    m.memoryWrite env (getCheatProcessAddress env memType (relAddress + m.registers offsetRegister))
      (getVmInt value bitWidth) bitWidth
  | .loadRegisterStatic regIndex value => m.setRegister regIndex value
  | .loadRegisterMemory bitWidth memType regIndex loadFromReg relAddress =>
    let address := if loadFromReg then m.registers regIndex + relAddress
      else getCheatProcessAddress env memType relAddress
    let (value, m) := m.memoryRead env address (m.registers regIndex) bitWidth
    m.setRegister regIndex value
  | .storeStaticToAddress bitWidth regIndex incrementReg addOffsetReg offsetRegIndex value =>
    let address := m.registers regIndex + (if addOffsetReg then m.registers offsetRegIndex else 0)
    let m := m.memoryWrite env address value bitWidth
    if incrementReg then m.setRegister regIndex (m.registers regIndex + UInt64.ofNat bitWidth) else m
  | .performArithmeticStatic bitWidth regIndex mathType value =>
    m.setRegister regIndex (applyBitWidth (mathStatic mathType (m.registers regIndex) value) bitWidth)
  | .performArithmeticRegister bitWidth mathType dstRegIndex srcReg1Index srcReg2Index hasImmediate value =>
    let operand := if hasImmediate then getVmInt value bitWidth else m.registers srcReg2Index
    m.setRegister dstRegIndex (applyBitWidth (mathRegister mathType (m.registers srcReg1Index) operand) bitWidth)
  | .storeRegisterToAddress bitWidth strRegIndex addrRegIndex incrementReg ofsType memType ofsRegIndex relAddress =>
    let address := m.storeAddress env addrRegIndex ofsType memType ofsRegIndex relAddress
    let m := m.memoryWrite env address (m.registers strRegIndex) bitWidth
    if incrementReg then m.setRegister addrRegIndex (m.registers addrRegIndex + UInt64.ofNat bitWidth) else m
  | .saveRestoreRegister dstIndex srcIndex opType => m.saveRestore opType dstIndex srcIndex
  | .saveRestoreRegisterMask opType operateMask =>
    (List.range 16).foldl (fun m i => if operateMask.testBit i then m.saveRestore opType i i else m) m
  | .readWriteStaticRegister staticIdx idx =>
    if staticIdx < 0x80 then m.setRegister idx (m.staticRegisters staticIdx)
    else { m with staticRegisters := Function.update m.staticRegisters staticIdx (m.registers idx) }
  | .pauseProcess => { m with world := env.pauseProcess m.world }.log .pauseProcess
  | .resumeProcess => { m with world := env.resumeProcess m.world }.log .resumeProcess
  | .debugLog bitWidth logId valType memType addrRegIndex valRegIndex ofsRegIndex relAddress =>
    let (value, m) := m.logValue env bitWidth valType memType addrRegIndex valRegIndex ofsRegIndex relAddress
    { m with world := env.debugLog m.world logId value }.log (.debugLog logId value)
  | _ => m

/-- The texts of an opcode that is executed. -/
def logOpcode (m : Machine W) (instructionPtr : Nat) (opcode : Opcode) : Machine W :=
  m.log (.commandLog instructionPtr opcode m.registers m.savedValues)

end Machine

/-! ## 4. The VM -/

/-- `DmntCheatVm`. -/
structure DmntCheatVm (W : Type*) where
  machine : Machine W
  instructionPtr : Nat
  conditionDepth : Nat
  decodeSuccess : Bool
  loopTops : Nat → Nat

namespace DmntCheatVm

/-- `DecodeNextOpcode`; a decode that has failed stays failed. -/
def decodeNextOpcode (program : List Nat) (vm : DmntCheatVm W) : Option Opcode × DmntCheatVm W :=
  if vm.decodeSuccess then
    match decodeNext program vm.instructionPtr with
    | some (opcode, next) => (some opcode, { vm with instructionPtr := next })
    | none => (none, { vm with decodeSuccess := false })
  else (none, vm)

/-- The loop of `SkipConditionalBlock`, for at most the given number of opcodes. -/
def skipLoop (program : List Nat) (isIf : Bool) (desiredDepth : Nat) : Nat → DmntCheatVm W → DmntCheatVm W
  | 0, vm => vm
  | fuel + 1, vm =>
    if vm.conditionDepth > desiredDepth then
      match vm.decodeNextOpcode program with
      | (none, vm) => vm
      | (some opcode, vm) =>
        if opcode.beginConditionalBlock then
          skipLoop program isIf desiredDepth fuel { vm with conditionDepth := vm.conditionDepth + 1 }
        else
          match opcode with
          | .endConditional false =>
            skipLoop program isIf desiredDepth fuel { vm with conditionDepth := vm.conditionDepth - 1 }
          | .endConditional true =>
            if isIf ∧ vm.conditionDepth - 1 = desiredDepth then vm
            else skipLoop program isIf desiredDepth fuel vm
          | _ => skipLoop program isIf desiredDepth fuel vm
    else vm

/-- `SkipConditionalBlock`. At depth 0 it is `UNREACHABLE`, which ends the program: there is no result. -/
def skipConditionalBlock (program : List Nat) (isIf : Bool) (vm : DmntCheatVm W) : Option (DmntCheatVm W) :=
  if vm.conditionDepth > 0 then
    -- each opcode takes a word, so that the program ends before the fuel does
    some (skipLoop program isIf (vm.conditionDepth - 1) program.length vm)
  else none

/-- An opcode that was decoded, in the loop of `Execute`. -/
def executeOpcode (program : List Nat) (env : Environment W) (vm : DmntCheatVm W) (opcode : Opcode) :
    Option (DmntCheatVm W) :=
  let vm := { vm with machine := vm.machine.logOpcode vm.instructionPtr opcode }
  if opcode.beginConditionalBlock then
    let (condMet, machine) := vm.machine.condition env opcode
    let vm := { vm with conditionDepth := vm.conditionDepth + 1, machine := machine }
    if condMet then some vm else vm.skipConditionalBlock program true
  else
    match opcode with
    | .endConditional true => vm.skipConditionalBlock program false
    | .endConditional false =>
      if vm.conditionDepth > 0 then some { vm with conditionDepth := vm.conditionDepth - 1 } else some vm
    | .controlLoop true regIndex numIters =>
      some { vm with
        machine := vm.machine.setRegister regIndex (UInt64.ofNat numIters)
        loopTops := Function.update vm.loopTops regIndex vm.instructionPtr }
    | .controlLoop false regIndex _ =>
      let machine := vm.machine.setRegister regIndex (vm.machine.registers regIndex - 1)
      if machine.registers regIndex ≠ 0 then
        some { vm with machine := machine, instructionPtr := vm.loopTops regIndex }
      else some { vm with machine := machine }
    | opcode => some { vm with machine := vm.machine.perform env opcode }

/-- **One turn of the loop of `Execute`**. When decoding fails the loop has ended, and the VM stays. -/
def step (program : List Nat) (env : Environment W) (vm : DmntCheatVm W) : Option (DmntCheatVm W) :=
  match vm.decodeNextOpcode program with
  | (none, vm) => some vm
  | (some opcode, vm) => vm.executeOpcode program env opcode

/-- So many turns. -/
def run (program : List Nat) (env : Environment W) : Nat → DmntCheatVm W → Option (DmntCheatVm W)
  | 0, vm => some vm
  | n + 1, vm =>
    match vm.run program env n with
    | none => none
    | some vm => vm.step program env

/-- `ResetState`: the static registers and the world stay. -/
def resetState (staticRegisters : Nat → UInt64) (world : W) : DmntCheatVm W :=
  ⟨⟨fun _ => 0, fun _ => 0, staticRegisters, world, []⟩, 0, 0, true, fun _ => 0⟩

end DmntCheatVm

end Yuzu.Core.Cheat
