/-
  File:      Yuzu/VideoCore/Macro.lean
  Subject:   Tegra::Macro (video_core/macro/macro.h): the opcode word with its fields, the method
             address, and what a macro sees of the GPU engine.
-/
import Mathlib.Data.BitVec

namespace Yuzu.VideoCore.Macro

/-! ## 1. Opcodes -/

/-- `Operation`. -/
inductive Operation where
  | alu
  | addImmediate
  | extractInsert
  | extractShiftLeftImmediate
  | extractShiftLeftRegister
  | read
  | unused
  | branch
  deriving DecidableEq, Repr

/-- `ALUOperation`; `invalid` is any encoding without a name. -/
inductive ALUOperation where
  | add
  | addWithCarry
  | subtract
  | subtractWithBorrow
  | xor
  | or
  | and
  | andNot
  | nand
  | invalid
  deriving DecidableEq, Repr

/-- `ResultOperation`. -/
inductive ResultOperation where
  | ignoreAndFetch
  | move
  | moveAndSetMethod
  | fetchAndSend
  | moveAndSend
  | fetchAndSetMethod
  | moveAndSetMethodFetchAndSend
  | moveAndSetMethodSend
  deriving DecidableEq, Repr

/-- `BranchCondition`. -/
inductive BranchCondition where
  | zero
  | notZero
  deriving DecidableEq, Repr

/-- `Opcode`: the fields overlap in one word. -/
structure Opcode where
  raw : BitVec 32
  deriving DecidableEq, Repr

namespace Opcode

def operation (opcode : Opcode) : Operation :=
  match (opcode.raw.extractLsb' 0 3).toNat with
  | 0 => .alu
  | 1 => .addImmediate
  | 2 => .extractInsert
  | 3 => .extractShiftLeftImmediate
  | 4 => .extractShiftLeftRegister
  | 5 => .read
  | 6 => .unused
  | _ => .branch

def resultOperation (opcode : Opcode) : ResultOperation :=
  match (opcode.raw.extractLsb' 4 3).toNat with
  | 0 => .ignoreAndFetch
  | 1 => .move
  | 2 => .moveAndSetMethod
  | 3 => .fetchAndSend
  | 4 => .moveAndSend
  | 5 => .fetchAndSetMethod
  | 6 => .moveAndSetMethodFetchAndSend
  | _ => .moveAndSetMethodSend

def branchCondition (opcode : Opcode) : BranchCondition :=
  if opcode.raw.getLsbD 4 then .notZero else .zero

def branchAnnul (opcode : Opcode) : Bool := opcode.raw.getLsbD 5

def isExit (opcode : Opcode) : Bool := opcode.raw.getLsbD 7

def dst (opcode : Opcode) : BitVec 3 := opcode.raw.extractLsb' 8 3

def srcA (opcode : Opcode) : BitVec 3 := opcode.raw.extractLsb' 11 3

def srcB (opcode : Opcode) : BitVec 3 := opcode.raw.extractLsb' 14 3

/-- `immediate`, sign-extended to a word. -/
def immediate (opcode : Opcode) : BitVec 32 := (opcode.raw.extractLsb' 14 18).signExtend 32

def aluOperation (opcode : Opcode) : ALUOperation :=
  match (opcode.raw.extractLsb' 17 5).toNat with
  | 0 => .add
  | 1 => .addWithCarry
  | 2 => .subtract
  | 3 => .subtractWithBorrow
  | 8 => .xor
  | 9 => .or
  | 10 => .and
  | 11 => .andNot
  | 12 => .nand
  | _ => .invalid

def bfSrcBit (opcode : Opcode) : Nat := (opcode.raw.extractLsb' 17 5).toNat

def bfSize (opcode : Opcode) : Nat := (opcode.raw.extractLsb' 22 5).toNat

def bfDstBit (opcode : Opcode) : Nat := (opcode.raw.extractLsb' 27 5).toNat

/-- `GetBitfieldMask`. -/
def getBitfieldMask (opcode : Opcode) : BitVec 32 := 1#32 <<< opcode.bfSize - 1#32

/-- `GetBranchTarget`: in bytes, from the branch. -/
def getBranchTarget (opcode : Opcode) : Int := opcode.immediate.toInt * 4

end Opcode

/-! ## 2. Method addresses and the engine -/

/-- One `CallMethod(method, value)`. -/
structure Call where
  method : BitVec 12
  value : BitVec 32
  deriving DecidableEq, Repr

/-- `MethodAddress::address`. -/
def methodOf (raw : BitVec 32) : BitVec 12 := raw.extractLsb' 0 12

/-- `MethodAddress::increment`. -/
def incrementOf (raw : BitVec 32) : BitVec 6 := raw.extractLsb' 12 6

/-- `address.Assign`: the field is overwritten, the other bits stay. -/
def assignMethod (raw : BitVec 32) (method : BitVec 12) : BitVec 32 :=
  raw &&& 0xfffff000#32 ||| method.setWidth 32

/-- **What one execution of a macro is given**: the uploaded code, the parameters, the engine's
    registers, and which value each branch in turn compares with zero.

    A called method may write the registers, so `GetRegisterValue` depends on the calls so far. In
    the program a branch compares the register it names: that is `fun _ value => value`. -/
structure Env where
  code : List Opcode
  params : List (BitVec 32)
  /-- `GetRegisterValue` after some calls. -/
  getRegisterValue : List Call → BitVec 32 → BitVec 32
  /-- The word behind the copied parameters that an index too large reads. -/
  stray : Nat → BitVec 32
  branchValue : Nat → BitVec 32 → BitVec 32

end Yuzu.VideoCore.Macro
