/-
  File:      Yuzu/ShaderRecompiler/MicroInstruction.lean
  Subject:   The values and instructions of the shader IR, and how a value is looked through the
             `Identity` instructions that replaced instructions leave behind.
-/
import Yuzu.Lib.StraightLine

namespace Yuzu.Shader

/-! ## 1. Opcodes -/

/-- The result types of the opcodes; a composite has the type of its elements and their number. -/
inductive IrType where
  | void | u1 | u8 | u16 | u32 | u64 | f16 | f32 | f64
  | composite (elem : IrType) (n : Nat)
  deriving DecidableEq, Repr

/-- The vertex attributes the pass knows by name. -/
inductive Attribute where
  | primitiveId | instanceId | vertexId | baseVertex | baseInstance | drawID
  | other (index : Nat)
  deriving DecidableEq, Repr

/-- The opcodes constant propagation looks at. The families `SelectU1` .. `SelectF64` and
    `Composite..U32x2` .. `Composite..F64x4` carry their type; `other` is every further opcode,
    with its result type. -/
inductive Opcode where
  | identity | getRegister | getPred | getCbufU32 | getCbufF32 | getAttribute | getAttributeU32
  | iAdd32 | iAdd64 | iSub32 | iMul32 | shiftLeftLogical32 | shiftRightArithmetic32
  | bitwiseAnd32 | bitwiseOr32 | bitwiseXor32
  | bitFieldInsert | bitFieldSExtract | bitFieldUExtract
  | sLessThan | uLessThan | iEqual | sLessThanEqual | uLessThanEqual
  | sGreaterThan | uGreaterThan | iNotEqual | sGreaterThanEqual | uGreaterThanEqual
  | logicalOr | logicalAnd | logicalNot
  | select (type : IrType)
  | bitCastU32F32 | bitCastF32U32
  | compositeConstruct (elem : IrType) (n : Nat)
  | compositeExtract (elem : IrType) (n : Nat)
  | compositeInsert (elem : IrType) (n : Nat)
  | packHalf2x16 | unpackHalf2x16 | packFloat2x16 | unpackFloat2x16
  | fPNeg32 | fPAdd32 | fPMul32 | fPRecip32 | fSwizzleAdd
  | yDirection | dPdxFine | dPdyFine | shuffleButterfly
  | imageSampleImplicitLod | boundImageSampleImplicitLod | bindlessImageSampleImplicitLod
  | other (op : Nat) (type : IrType)
  deriving DecidableEq, Repr

/-- `TypeOf`. -/
def Opcode.type : Opcode → IrType
  | .identity => .void
  | .getRegister | .getCbufU32 | .getAttributeU32 => .u32
  | .getPred => .u1
  | .getCbufF32 | .getAttribute => .f32
  | .iAdd32 | .iSub32 | .iMul32 | .shiftLeftLogical32 | .shiftRightArithmetic32
  | .bitwiseAnd32 | .bitwiseOr32 | .bitwiseXor32
  | .bitFieldInsert | .bitFieldSExtract | .bitFieldUExtract => .u32
  | .iAdd64 => .u64
  | .sLessThan | .uLessThan | .iEqual | .sLessThanEqual | .uLessThanEqual
  | .sGreaterThan | .uGreaterThan | .iNotEqual | .sGreaterThanEqual | .uGreaterThanEqual
  | .logicalOr | .logicalAnd | .logicalNot => .u1
  | .select type => type
  | .bitCastU32F32 => .u32
  | .bitCastF32U32 => .f32
  | .compositeConstruct elem n | .compositeInsert elem n => .composite elem n
  | .compositeExtract elem _ => elem
  | .packHalf2x16 | .packFloat2x16 => .u32
  | .unpackHalf2x16 => .composite .f32 2
  | .unpackFloat2x16 => .composite .f16 2
  | .fPNeg32 | .fPAdd32 | .fPMul32 | .fPRecip32 | .fSwizzleAdd => .f32
  | .yDirection | .dPdxFine | .dPdyFine => .f32
  | .shuffleButterfly => .u32
  | .imageSampleImplicitLod | .boundImageSampleImplicitLod
  | .bindlessImageSampleImplicitLod => .composite .f32 4
  | .other _ type => type

/-! ## 2. Values and instructions -/

/-- A `Value`: an immediate with its type, or a pointer to an instruction. Floats are their bits. -/
inductive Value where
  | void
  | reg (index : Nat) | pred (index : Nat) | attr (attr : Attribute) | patch (index : Nat)
  | u1 (imm : Bool) | u8 (imm : BitVec 8) | u16 (imm : BitVec 16)
  | u32 (imm : BitVec 32) | f32 (imm : BitVec 32) | u64 (imm : BitVec 64) | f64 (imm : BitVec 64)
  | inst (id : Nat)
  deriving DecidableEq, Repr

/-- An instruction: opcode, arguments, whether it has `associated_insts`, and the one flag the
    pass reads, `no_contraction` of `FpControl`. -/
structure Inst where
  op : Opcode
  args : List Value
  hasAssociatedPseudoOperation : Bool := false
  noContraction : Bool := false
  deriving DecidableEq, Repr

/-- The instructions before a point of the program, the latest first. -/
abbrev Heap := List (Line Inst)

/-- `Inst::Arg`. -/
def Inst.arg (inst : Inst) (index : Nat) : Value := inst.args.getD index .void

/-- `Inst::ReplaceUsesWith`: the instruction becomes an `Identity`. -/
def Inst.replaceUsesWith (inst : Inst) (replacement : Value) : Inst :=
  { inst with op := .identity, args := [replacement] }

/-- `Inst::SetArg` of the first two arguments. -/
def Inst.setArgs (inst : Inst) (lhs rhs : Value) : Inst := { inst with args := [lhs, rhs] }

/-- `RZ`. -/
def regRZ : Nat := 255

/-- `PT`. -/
def predPT : Nat := 7

/-! ## 3. Looking through identities -/

/-- `Value::Resolve`. -/
def resolve : Heap → Value → Value
  | [], v => v
  | l :: earlier, .inst id =>
    if l.id = id then
      if l.inst.op = .identity then resolve earlier (l.inst.arg 0) else .inst id
    else resolve earlier (.inst id)
  | _ :: _, v => v

/-- `Value::IsImmediate`. -/
def isImmediate (h : Heap) (v : Value) : Bool :=
  match resolve h v with
  | .inst _ => false
  | _ => true

/-- `Value::InstRecursive` and `Value::TryInstRecursive`: the instruction with its name, none for
    an immediate. -/
def instRecursive (h : Heap) (v : Value) : Option (Nat × Inst) :=
  match resolve h v with
  | .inst id => (lineFind h id).map fun inst => (id, inst)
  | _ => none

/-- `Value::U32` and the bits of `Value::F32`. -/
def immU32 (h : Heap) (v : Value) : BitVec 32 :=
  match resolve h v with
  | .u32 imm => imm
  | .f32 imm => imm
  | _ => 0

/-- `Value::U64`. -/
def immU64 (h : Heap) (v : Value) : BitVec 64 :=
  match resolve h v with
  | .u64 imm => imm
  | .f64 imm => imm
  | _ => 0

/-- `Value::U1`. -/
def immU1 (h : Heap) (v : Value) : Bool :=
  match resolve h v with
  | .u1 imm => imm
  | _ => false

end Yuzu.Shader
