/-
  File:      Yuzu/ShaderRecompiler/ConstantPropagation.lean
  Subject:   The constant propagation pass of the shader recompiler: every fold, the opcode switch
             and the walk over the instructions of a block.
-/
import Yuzu.ShaderRecompiler.MicroInstruction

namespace Yuzu.Shader

/-! ## 1. What surrounds the pass -/

/-- `ReplaceConstant`. -/
inductive ReplaceConstant where
  | baseInstance | baseVertex | drawID
  deriving DecidableEq, Repr

/-- The pass: the instructions up to here and the name of the next new one. -/
structure State where
  heap : Heap
  next : Nat
  deriving DecidableEq

/-- What the pass asks the `Environment`, and what the compiled pass computes where its source
    leaves it to the host: `hostShl` and `hostSar` are `a << n` and `a >> n` with `n` out of
    range, the `fP` fields are float arithmetic on bits. `foldImageSampleImplicitLod` is the
    texture fold: the instructions it inserts, and the instruction it leaves. -/
structure Environment where
  hasHLEMacroState : Bool
  isProprietaryDriver : Bool
  getReplaceConstBuffer : BitVec 32 → BitVec 32 → Option ReplaceConstant
  readCbufValue : BitVec 32 → BitVec 32 → BitVec 32
  hostShl : BitVec 32 → BitVec 32 → BitVec 32
  hostSar : BitVec 32 → BitVec 32 → BitVec 32
  fPNeg : BitVec 32 → BitVec 32
  fPAdd : BitVec 32 → BitVec 32 → BitVec 32
  fPMul : BitVec 32 → BitVec 32 → BitVec 32
  foldImageSampleImplicitLod : State → Inst → List Inst × Inst

/-- `IREmitter::Inst`: a new instruction in front of the folded one. -/
def State.emit (s : State) (inst : Inst) : State × Value :=
  (⟨⟨s.next, inst⟩ :: s.heap, s.next + 1⟩, .inst s.next)

/-! ## 2. The general folds -/

/-- Two reads of the same constant buffer word. -/
def equalCbuf (a b : Inst) : Prop :=
  a.op = .getCbufU32 ∧ b.op = .getCbufU32 ∧ a.arg 0 = b.arg 0 ∧ a.arg 1 = b.arg 1

instance (a b : Inst) : Decidable (equalCbuf a b) := by unfold equalCbuf; infer_instance

/-- The comparison of `AreEqual`, on resolved values. -/
def equalValues (h : Heap) (lhs rhs : Value) : Bool :=
  decide (lhs = rhs) ||
    match instRecursive h lhs, instRecursive h rhs with
    | some (_, a), some (_, b) => decide (equalCbuf a b)
    | _, _ => false

/-- `AreEqual` on three values. -/
def areEqual (h : Heap) (a b c : Value) : Bool :=
  equalValues h (resolve h a) (resolve h b) && equalValues h (resolve h b) (resolve h c)

/-! ## 3. Registers, additions and subtractions -/

/-- An argument that is an instruction with the given opcode. -/
def instWith (h : Heap) (v : Value) (op : Opcode) : Option (Nat × Inst) :=
  (instRecursive h v).filter fun found => found.2.op = op

/-- An argument that is `BitFieldUExtract %source, #offset, #16`: the source. -/
def halfOf (h : Heap) (v : Value) (offset : BitVec 32) : Option Value :=
  ((instWith h v .bitFieldUExtract).filter fun found =>
    found.2.arg 1 = .u32 offset ∧ found.2.arg 2 = .u32 16).map fun found => found.2.arg 0

/-- An argument that is `ShiftLeftLogical32 %source, #16`: the source. -/
def shiftedBySixteen (h : Heap) (v : Value) : Option Value :=
  ((instWith h v .shiftLeftLogical32).filter fun found => found.2.arg 1 = .u32 16).map
    fun found => found.2.arg 0

/-- `FoldXmadMultiply`: the factors of the product the pattern computes. -/
def matchXmadMultiply (h : Heap) (inst : Inst) : Option (Value × Value) := do
  let (_, rhsMul) ← instRecursive h (inst.arg 1)
  let lhsShl ← shiftedBySixteen h (inst.arg 0)
  let (_, lhsMul) ← instWith h lhsShl .iMul32
  guard (rhsMul.op = .iMul32)
  let factorB := lhsMul.arg 1
  guard (resolve h factorB = resolve h (rhsMul.arg 1))
  let factorA ← halfOf h (lhsMul.arg 0) 16
  let factorA' ← halfOf h (rhsMul.arg 0) 0
  guard (resolve h factorA = resolve h factorA')
  return (factorA, factorB)

/-- The left addend of `FoldXmadMultiplyAdd`, the high half of `b` times a half of `%11`. The
    names here and below are those of the pattern in the source. -/
def matchHighProduct (h : Heap) (v : Value) : Option (Value × Nat × Inst) := do
  let v25 ← shiftedBySixteen h v
  let (_, v24) ← instWith h v25 .iMul32
  let v22 ← halfOf h (v24.arg 0) 16
  let v23 ← halfOf h (v24.arg 1) 16
  let (id11, v11) ← instWith h v23 .bitFieldInsert
  return (v22, id11, v11)

/-- `%11`, the low half of `a` over the product of the low half of `b` and the high half of `a`. -/
def matchCrossProduct (h : Heap) (v11 : Inst) : Option (Value × Value × Value) := do
  guard (v11.arg 2 = .u32 16 ∧ v11.arg 3 = .u32 16)
  let (_, v8) ← instWith h (v11.arg 0) .iMul32
  let v10 ← halfOf h (v11.arg 1) 0
  let v6 ← halfOf h (v8.arg 0) 0
  let v7 ← halfOf h (v8.arg 1) 16
  return (v10, v6, v7)

/-- The right addend: `%26` with the product of the low halves and `c`. -/
def matchLowSum (h : Heap) (v : Value) : Option (Value × Value × Value × Value) := do
  let (_, v27) ← instWith h v .iAdd32
  let v26 ← shiftedBySixteen h (v27.arg 0)
  let (_, v18) ← instWith h (v27.arg 1) .iAdd32
  let (_, v17) ← instWith h (v18.arg 0) .iMul32
  let v15 ← halfOf h (v17.arg 0) 0
  let v16 ← halfOf h (v17.arg 1) 0
  return (v26, v15, v16, v18.arg 1)

/-- `FoldXmadMultiplyAdd`: the operands `a`, `b` and `c` of the `a * b + c` the pattern computes. -/
def matchXmadMultiplyAdd (h : Heap) (inst : Inst) : Option (Value × Value × Value) := do
  let (v22, id11, v11) ← matchHighProduct h (inst.arg 0)
  let (v10, v6, v7) ← matchCrossProduct h v11
  let (v26, v15, v16, opC) ← matchLowSum h (inst.arg 1)
  guard ((instRecursive h v26).map Prod.fst = some id11)
  guard (areEqual h v7 v16 v10 = true ∧ areEqual h v22 v6 v15 = true)
  return (resolve h v7, resolve h v6, opC)

/-- `a << n` as the compiled pass computes it. -/
def Environment.shl (env : Environment) (a n : BitVec 32) : BitVec 32 :=
  if n.toNat < 32 then a <<< n.toNat else env.hostShl a n

end Yuzu.Shader
