/-
  File:      Yuzu/Core/CheatOpcodes.lean
  Subject:   The opcodes of the cheat VM and `DmntCheatVm::DecodeNextOpcode` (core/memory/dmnt_cheat_vm.cpp).

  Program words are below 2^32. Enumerations keep their numbers, since a nibble need not be one of the
  named values. The two words of a 64-bit value are read in the order in which they are written.
-/
import Mathlib.Data.List.GetD
import Yuzu.Lib.Cursor
import Mathlib.Algebra.Order.Ring.Int

namespace Yuzu.Core.Cheat

/-! ## 1. Opcodes -/

/-- The alternatives of `CheatVmOpcode::opcode`. -/
inductive Opcode where
  | storeStatic (bitWidth memType offsetRegister : Nat) (relAddress value : UInt64)
  | beginConditional (bitWidth memType condType : Nat) (relAddress value : UInt64)
  | endConditional (isElse : Bool)
  | controlLoop (startLoop : Bool) (regIndex numIters : Nat)
  | loadRegisterStatic (regIndex : Nat) (value : UInt64)
  | loadRegisterMemory (bitWidth memType regIndex : Nat) (loadFromReg : Bool) (relAddress : UInt64)
  | storeStaticToAddress (bitWidth regIndex : Nat) (incrementReg addOffsetReg : Bool) (offsetRegIndex : Nat)
      (value : UInt64)
  | performArithmeticStatic (bitWidth regIndex mathType : Nat) (value : UInt64)
  | beginKeypressConditional (keyMask : Nat)
  | performArithmeticRegister (bitWidth mathType dstRegIndex srcReg1Index srcReg2Index : Nat)
      (hasImmediate : Bool) (value : UInt64)
  | storeRegisterToAddress (bitWidth strRegIndex addrRegIndex : Nat) (incrementReg : Bool)
      (ofsType memType ofsRegIndex : Nat) (relAddress : UInt64)
  | beginRegisterConditional (bitWidth condType valRegIndex compType memType addrRegIndex otherRegIndex
      ofsRegIndex : Nat) (relAddress value : UInt64)
  | saveRestoreRegister (dstIndex srcIndex opType : Nat)
  | saveRestoreRegisterMask (opType operateMask : Nat)
  | readWriteStaticRegister (staticIdx idx : Nat)
  | pauseProcess
  | resumeProcess
  | debugLog (bitWidth logId valType memType addrRegIndex valRegIndex ofsRegIndex : Nat) (relAddress : UInt64)
  deriving DecidableEq, Repr

/-- `begin_conditional_block`. -/
def Opcode.beginConditionalBlock : Opcode → Bool
  | .beginConditional .. => true
  | .beginKeypressConditional .. => true
  | .beginRegisterConditional .. => true
  | _ => false

/-! ## 2. Fields -/

/-- The four bits from bit `4 * i` on. -/
def nibble (word i : Nat) : Nat := word / 2 ^ (4 * i) % 16

/-- The 64-bit value of two words. -/
def joinDwords (high low : Nat) : UInt64 := UInt64.ofNat (high * 2 ^ 32 + low)

/-- `opcode_type` of a first word. -/
def opcodeType (first : Nat) : Nat :=
  let type := nibble first 7
  let type := if type ≥ 12 then type * 16 + nibble first 6 else type
  if type ≥ 0xF0 then type * 16 + nibble first 5 else type

/-- `GetNextVmInt`: a width that is none of the four takes a word, and its value is never read. -/
def getNextVmInt (program : List Nat) (bitWidth : Nat) : Cursor UInt64 := do
  let first ← nextWord program
  if bitWidth = 1 then pure (UInt64.ofNat (first % 2 ^ 8))
  else if bitWidth = 2 then pure (UInt64.ofNat (first % 2 ^ 16))
  else if bitWidth = 4 then pure (UInt64.ofNat first)
  else if bitWidth = 8 then do
    let second ← nextWord program
    pure (joinDwords first second)
  else pure 0

/-- The 64-bit value of the next two words. -/
def getNextQword (program : List Nat) : Cursor UInt64 := do
  let high ← nextWord program
  let low ← nextWord program
  pure (joinDwords high low)

/-- A 36-bit address: four bits of the first word, and the next word. -/
def getNextAddress (program : List Nat) (first : Nat) : Cursor UInt64 := do
  let second ← nextWord program
  pure (joinDwords (first % 16) second)

/-! ## 3. Decoding -/

def decodeStoreStatic (program : List Nat) (first : Nat) : Cursor Opcode := do
  let second ← nextWord program
  let value ← getNextVmInt program (nibble first 6)
  pure (.storeStatic (nibble first 6) (nibble first 5) (nibble first 4) (joinDwords (first % 256) second) value)

def decodeBeginConditional (program : List Nat) (first : Nat) : Cursor Opcode := do
  let second ← nextWord program
  let value ← getNextVmInt program (nibble first 6)
  pure (.beginConditional (nibble first 6) (nibble first 5) (nibble first 4) (joinDwords (first % 256) second)
    value)

def decodeControlLoop (program : List Nat) (first : Nat) : Cursor Opcode :=
  if nibble first 6 = 0 then do
    let numIters ← nextWord program
    pure (.controlLoop true (nibble first 5) numIters)
  else pure (.controlLoop false (nibble first 5) 0)

def decodeLoadRegisterStatic (program : List Nat) (first : Nat) : Cursor Opcode := do
  let value ← getNextQword program
  pure (.loadRegisterStatic (nibble first 4) value)

def decodeLoadRegisterMemory (program : List Nat) (first : Nat) : Cursor Opcode := do
  let second ← nextWord program
  pure (.loadRegisterMemory (nibble first 6) (nibble first 5) (nibble first 4) (decide (nibble first 3 ≠ 0))
    (joinDwords (first % 256) second))

def decodeStoreStaticToAddress (program : List Nat) (first : Nat) : Cursor Opcode := do
  let value ← getNextQword program
  pure (.storeStaticToAddress (nibble first 6) (nibble first 4) (decide (nibble first 3 ≠ 0))
    (decide (nibble first 2 ≠ 0)) (nibble first 1) value)

def decodePerformArithmeticStatic (program : List Nat) (first : Nat) : Cursor Opcode := do
  let value ← nextWord program
  pure (.performArithmeticStatic (nibble first 6) (nibble first 4) (nibble first 3) (UInt64.ofNat value))

def decodePerformArithmeticRegister (program : List Nat) (first : Nat) : Cursor Opcode :=
  if nibble first 2 ≠ 0 then do
    let value ← getNextVmInt program (nibble first 6)
    pure (.performArithmeticRegister (nibble first 6) (nibble first 5) (nibble first 4) (nibble first 3) 0 true
      value)
  else
    pure (.performArithmeticRegister (nibble first 6) (nibble first 5) (nibble first 4) (nibble first 3)
      (nibble first 1) false 0)

/-- `StoreRegisterOffsetType`: `None`, `Reg`, `Imm`, `MemReg`, `MemImm`, `MemImmReg` are 0 to 5. -/
def decodeStoreRegisterToAddress (program : List Nat) (first : Nat) : Cursor Opcode :=
  let make := fun ofsType memType relAddress =>
    Opcode.storeRegisterToAddress (nibble first 6) (nibble first 5) (nibble first 4)
      (decide (nibble first 3 ≠ 0)) ofsType memType (nibble first 1) relAddress
  let ofsType := nibble first 2
  if ofsType = 0 ∨ ofsType = 1 then pure (make ofsType 0 0)
  else if ofsType = 2 then do
    let relAddress ← getNextAddress program first
    pure (make ofsType 0 relAddress)
  else if ofsType = 3 then pure (make ofsType (nibble first 1) 0)
  else if ofsType = 4 ∨ ofsType = 5 then do
    let relAddress ← getNextAddress program first
    pure (make ofsType (nibble first 1) relAddress)
  else pure (make 0 0 0)

/-- `CompareRegisterValueType`: `MemoryRelAddr`, `MemoryOfsReg`, `RegisterRelAddr`, `RegisterOfsReg`,
`StaticValue`, `OtherRegister` are 0 to 5. -/
def decodeBeginRegisterConditional (program : List Nat) (first : Nat) : Cursor Opcode :=
  let make := fun memType addrReg otherReg ofsReg relAddress value =>
    Opcode.beginRegisterConditional (nibble first 5) (nibble first 4) (nibble first 3) (nibble first 2) memType
      addrReg otherReg ofsReg relAddress value
  let compType := nibble first 2
  if compType = 4 then do
    let value ← getNextVmInt program (nibble first 5)
    pure (make 0 0 0 0 0 value)
  else if compType = 5 then pure (make 0 0 (nibble first 1) 0 0 0)
  else if compType = 0 then do
    let relAddress ← getNextAddress program first
    pure (make (nibble first 1) 0 0 0 relAddress 0)
  else if compType = 1 then pure (make (nibble first 1) 0 0 (nibble first 0) 0 0)
  else if compType = 2 then do
    let relAddress ← getNextAddress program first
    pure (make 0 (nibble first 1) 0 0 relAddress 0)
  else if compType = 3 then pure (make 0 (nibble first 1) 0 (nibble first 0) 0 0)
  else pure (make 0 0 0 0 0 0)

/-- `DebugLogValueType`: `MemoryRelAddr`, `MemoryOfsReg`, `RegisterRelAddr`, `RegisterOfsReg`,
`RegisterValue` are 0 to 4. -/
def decodeDebugLog (program : List Nat) (first : Nat) : Cursor Opcode :=
  let make := fun memType addrReg valReg ofsReg relAddress =>
    Opcode.debugLog (nibble first 4) (nibble first 3) (nibble first 2) memType addrReg valReg ofsReg relAddress
  let valType := nibble first 2
  if valType = 4 then pure (make 0 0 (nibble first 1) 0 0)
  else if valType = 0 then do
    let relAddress ← getNextAddress program first
    pure (make (nibble first 1) 0 0 0 relAddress)
  else if valType = 1 then pure (make (nibble first 1) 0 0 (nibble first 0) 0)
  else if valType = 2 then do
    let relAddress ← getNextAddress program first
    pure (make 0 (nibble first 1) 0 0 relAddress)
  else if valType = 3 then pure (make 0 (nibble first 1) 0 (nibble first 0) 0)
  else pure (make 0 0 0 0 0)

/-- The opcode that a first word begins. A type that is not listed is not decoded. -/
def decodeBody (program : List Nat) (first : Nat) : Cursor Opcode :=
  if opcodeType first = 0 then decodeStoreStatic program first
  else if opcodeType first = 1 then decodeBeginConditional program first
  else if opcodeType first = 2 then pure (.endConditional (decide (nibble first 6 = 1)))
  else if opcodeType first = 3 then decodeControlLoop program first
  else if opcodeType first = 4 then decodeLoadRegisterStatic program first
  else if opcodeType first = 5 then decodeLoadRegisterMemory program first
  else if opcodeType first = 6 then decodeStoreStaticToAddress program first
  else if opcodeType first = 7 then decodePerformArithmeticStatic program first
  else if opcodeType first = 8 then pure (.beginKeypressConditional (first % 2 ^ 28))
  else if opcodeType first = 9 then decodePerformArithmeticRegister program first
  else if opcodeType first = 10 then decodeStoreRegisterToAddress program first
  else if opcodeType first = 0xC0 then decodeBeginRegisterConditional program first
  else if opcodeType first = 0xC1 then
    pure (.saveRestoreRegister (nibble first 4) (nibble first 2) (nibble first 1))
  else if opcodeType first = 0xC2 then pure (.saveRestoreRegisterMask (nibble first 5) (first % 2 ^ 16))
  else if opcodeType first = 0xC3 then pure (.readWriteStaticRegister (first / 16 % 256) (nibble first 0))
  else if opcodeType first = 0xFF0 then pure .pauseProcess
  else if opcodeType first = 0xFF1 then pure .resumeProcess
  else if opcodeType first = 0xFFF then decodeDebugLog program first
  else fun _ => none

/-- **`DecodeNextOpcode`** at an instruction pointer, when no decode has failed yet. -/
def decodeNext (program : List Nat) : Cursor Opcode := do
  let first ← nextWord program
  decodeBody program first

/-! ## 4. What decoding reads -/

section Advances

open Cursor

variable {program : List Nat} {first : Nat}

theorem advances_getNextVmInt (bitWidth : Nat) : Advances program.length (getNextVmInt program bitWidth) := by
  refine (Advances.nextWord program).bind fun w => ?_
  refine (Advances.pure _).ite ((Advances.pure _).ite ((Advances.pure _).ite (Advances.ite ?_ (Advances.pure _))))
  exact (Advances.nextWord program).bind fun _ => .pure _

theorem advances_getNextQword : Advances program.length (getNextQword program) :=
  (Advances.nextWord program).bind fun _ => (Advances.nextWord program).bind fun _ => .pure _

theorem advances_getNextAddress : Advances program.length (getNextAddress program first) :=
  (Advances.nextWord program).bind fun _ => .pure _

theorem advances_address {f : UInt64 → Opcode} :
    Advances program.length (getNextAddress program first >>= fun a => pure (f a)) :=
  advances_getNextAddress.bind fun _ => .pure _

theorem advances_decodeBody : Advances program.length (decodeBody program first) := by
  have hword := Advances.nextWord program
  unfold decodeBody
  refine Advances.ite (hword.bind fun _ => (advances_getNextVmInt _).bind fun _ => .pure _) ?_
  refine Advances.ite (hword.bind fun _ => (advances_getNextVmInt _).bind fun _ => .pure _) ?_
  refine (Advances.pure _).ite ?_
  refine Advances.ite ((hword.bind fun _ => .pure _).ite (.pure _)) ?_
  refine Advances.ite (advances_getNextQword.bind fun _ => .pure _) ?_
  refine Advances.ite (hword.bind fun _ => .pure _) ?_
  refine Advances.ite (advances_getNextQword.bind fun _ => .pure _) ?_
  refine Advances.ite (hword.bind fun _ => .pure _) ?_
  refine (Advances.pure _).ite ?_
  refine Advances.ite (((advances_getNextVmInt _).bind fun _ => .pure _).ite (.pure _)) ?_
  refine Advances.ite ((Advances.pure _).ite (advances_address.ite ((Advances.pure _).ite
    (advances_address.ite (.pure _))))) ?_
  refine Advances.ite (((advances_getNextVmInt _).bind fun _ => .pure _).ite ((Advances.pure _).ite
    (advances_address.ite ((Advances.pure _).ite (advances_address.ite ((Advances.pure _).ite (.pure _))))))) ?_
  refine (Advances.pure _).ite ((Advances.pure _).ite ((Advances.pure _).ite ((Advances.pure _).ite
    ((Advances.pure _).ite ?_))))
  refine Advances.ite ((Advances.pure _).ite (advances_address.ite ((Advances.pure _).ite
    (advances_address.ite ((Advances.pure _).ite (.pure _)))))) .none

/-- **An opcode takes at least one word**, and none behind the program. -/
theorem decodeNext_spec {i j : Nat} {o : Opcode} (h : decodeNext program i = some (o, j)) :
    i < j ∧ j ≤ program.length :=
  Advances.nextWord_bind (fun _ => advances_decodeBody) h

end Advances

end Yuzu.Core.Cheat
