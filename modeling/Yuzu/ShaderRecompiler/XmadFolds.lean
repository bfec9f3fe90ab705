/-
  File:      Yuzu/ShaderRecompiler/XmadFolds.lean
  Subject:   The two folds of 16-bit multiplication trees (`FoldXmadMultiply` and
             `FoldXmadMultiplyAdd` of the constant propagation pass) are exact.
-/
import Yuzu.ShaderRecompiler.ConstantPropagationFolds

namespace Yuzu.Shader

/-! ## 1. The code -/

/-- `FoldXmadMultiply`: the replaced instruction, where it matches. -/
def foldXmadMultiply (s : State) (inst : Inst) : Option (State × Inst) :=
  (matchXmadMultiply s.heap inst).map fun (factorA, factorB) =>
    let (s, mul) := s.emit { op := .iMul32, args := [factorA, factorB] }
    (s, inst.replaceUsesWith mul)

/-- `FoldXmadMultiplyAdd`: the replaced instruction, where it matches. -/
def foldXmadMultiplyAdd (s : State) (inst : Inst) : Option (State × Inst) :=
  (matchXmadMultiplyAdd s.heap inst).map fun (a, b, c) =>
    let (s, mul) := s.emit { op := .iMul32, args := [a, b] }
    let (s, add) := s.emit { op := .iAdd32, args := [mul, c] }
    (s, inst.replaceUsesWith add)

/-! ## 2. The replaced values -/

section Exact

variable {σ : Assignment} {s s' : State} {id : Nat} {inst inst' : Inst} {x : Val}

theorem argValue_emit_mul {va vb : Value} {a b : BitVec 32}
    (ha : argValue σ s.heap va = some (.u32 a)) (hb : argValue σ s.heap vb = some (.u32 b)) :
    argValue σ (s.emit { op := .iMul32, args := [va, vb] }).1.heap
      (s.emit { op := .iMul32, args := [va, vb] }).2 = some (.u32 (a * b)) := by
  rw [argValue_emit, instMeaning_two ha hb rfl]
  rfl

theorem argValue_emit_add {va vb : Value} {a b : BitVec 32}
    (ha : argValue σ s.heap va = some (.u32 a)) (hb : argValue σ s.heap vb = some (.u32 b)) :
    argValue σ (s.emit { op := .iAdd32, args := [va, vb] }).1.heap
      (s.emit { op := .iAdd32, args := [va, vb] }).2 = some (.u32 (a + b)) := by
  rw [argValue_emit, instMeaning_two ha hb rfl]
  rfl

theorem foldXmadMultiply_exact (hok : s.Ok) (hop : inst.op = .iAdd32)
    (hx : instMeaning σ (valueOf σ s.heap) id inst = some x)
    (hfold : foldXmadMultiply s inst = some (s', inst')) :
    ∃ va vb a b, matchXmadMultiply s.heap inst = some (va, vb) ∧
      argValue σ s.heap va = some (.u32 a) ∧ argValue σ s.heap vb = some (.u32 b) ∧
      x = .u32 (a * b) ∧ instMeaning σ (valueOf σ s'.heap) id inst' = some x := by
  obtain ⟨⟨va, vb⟩, hmatch, heq⟩ := Option.map_eq_some_iff.mp hfold
  obtain ⟨a, b, ha, hb, rfl⟩ := matchXmadMultiply_value hok.distinct hop hx hmatch
  obtain ⟨rfl, rfl⟩ := Prod.mk.inj heq
  exact ⟨va, vb, a, b, hmatch, ha, hb, rfl, instMeaning_replaceUsesWith (argValue_emit_mul ha hb)⟩

theorem foldXmadMultiplyAdd_exact (hok : s.Ok) (hop : inst.op = .iAdd32)
    (hx : instMeaning σ (valueOf σ s.heap) id inst = some x)
    (hfold : foldXmadMultiplyAdd s inst = some (s', inst')) :
    ∃ va vb vc a b c, matchXmadMultiplyAdd s.heap inst = some (va, vb, vc) ∧
      argValue σ s.heap va = some (.u32 a) ∧ argValue σ s.heap vb = some (.u32 b) ∧
      argValue σ s.heap vc = some (.u32 c) ∧ x = .u32 (a * b + c) ∧
      instMeaning σ (valueOf σ s'.heap) id inst' = some x := by
  obtain ⟨⟨va, vb, vc⟩, hmatch, heq⟩ := Option.map_eq_some_iff.mp hfold
  obtain ⟨a, b, c, ha, hb, hc, rfl⟩ := matchXmadMultiplyAdd_value hok.distinct hop hx hmatch
  obtain ⟨rfl, rfl⟩ := Prod.mk.inj heq
  -- the new product leaves the value of `c`
  have hc' := argValue_mono ((Grows.emit s { op := .iMul32, args := [va, vb] }).refines hok) hc
  exact ⟨va, vb, vc, a, b, c, hmatch, ha, hb, hc, rfl,
    instMeaning_replaceUsesWith (argValue_emit_add (argValue_emit_mul ha hb) hc')⟩

end Exact

/-- **The XMAD folds are exact.** Whatever the inputs are, where a fold matches an `IAdd32` the
value of the tree is `a * b`, or `a * b + c`, and so is the value of what replaces it. -/
theorem xmad_folds_exact (σ : Assignment) (s : State) (hok : s.Ok) (id : Nat) (inst : Inst)
    (hop : inst.op = .iAdd32) (x : Val) (hx : instMeaning σ (valueOf σ s.heap) id inst = some x) :
    (∀ s' inst', foldXmadMultiply s inst = some (s', inst') →
      ∃ va vb a b, matchXmadMultiply s.heap inst = some (va, vb) ∧
        argValue σ s.heap va = some (.u32 a) ∧ argValue σ s.heap vb = some (.u32 b) ∧
        x = .u32 (a * b) ∧ instMeaning σ (valueOf σ s'.heap) id inst' = some x) ∧
    ∀ s' inst', foldXmadMultiplyAdd s inst = some (s', inst') →
      ∃ va vb vc a b c, matchXmadMultiplyAdd s.heap inst = some (va, vb, vc) ∧
        argValue σ s.heap va = some (.u32 a) ∧ argValue σ s.heap vb = some (.u32 b) ∧
        argValue σ s.heap vc = some (.u32 c) ∧ x = .u32 (a * b + c) ∧
        instMeaning σ (valueOf σ s'.heap) id inst' = some x :=
  ⟨fun _ _ => foldXmadMultiply_exact hok hop hx, fun _ _ => foldXmadMultiplyAdd_exact hok hop hx⟩

/-- The tree of an integer multiplication and addition, under the names in the source; `%1`, `%2`
and `%3` are the operands. -/
def xmadTree : State where
  heap :=
    [⟨27, { op := .iAdd32, args := [.inst 26, .inst 18] }⟩,
      ⟨26, { op := .shiftLeftLogical32, args := [.inst 11, .u32 16] }⟩,
      ⟨25, { op := .shiftLeftLogical32, args := [.inst 24, .u32 16] }⟩,
      ⟨24, { op := .iMul32, args := [.inst 22, .inst 23] }⟩,
      ⟨23, { op := .bitFieldUExtract, args := [.inst 11, .u32 16, .u32 16] }⟩,
      ⟨22, { op := .bitFieldUExtract, args := [.inst 2, .u32 16, .u32 16] }⟩,
      ⟨18, { op := .iAdd32, args := [.inst 17, .inst 3] }⟩,
      ⟨17, { op := .iMul32, args := [.inst 15, .inst 16] }⟩,
      ⟨16, { op := .bitFieldUExtract, args := [.inst 1, .u32 0, .u32 16] }⟩,
      ⟨15, { op := .bitFieldUExtract, args := [.inst 2, .u32 0, .u32 16] }⟩,
      ⟨11, { op := .bitFieldInsert, args := [.inst 8, .inst 10, .u32 16, .u32 16] }⟩,
      ⟨10, { op := .bitFieldUExtract, args := [.inst 1, .u32 0, .u32 16] }⟩,
      ⟨8, { op := .iMul32, args := [.inst 6, .inst 7] }⟩,
      ⟨7, { op := .bitFieldUExtract, args := [.inst 1, .u32 16, .u32 16] }⟩,
      ⟨6, { op := .bitFieldUExtract, args := [.inst 2, .u32 0, .u32 16] }⟩,
      ⟨3, { op := .other 0 .u32, args := [] }⟩,
      ⟨2, { op := .other 0 .u32, args := [] }⟩,
      ⟨1, { op := .other 0 .u32, args := [] }⟩]
  next := 28

/-- Operands that are full words. -/
def wideAssignment : Assignment where
  input id _ := .u32 (BitVec.ofNat 32 (id * 0x12345679))
  word _ _ := 0
  attrBits _ _ := 0
  undefined _ _ := 0

theorem xmadTree_folds : ∃ s' inst', foldXmadMultiplyAdd xmadTree
      { op := .iAdd32, args := [.inst 25, .inst 27] } = some (s', inst') ∧
    instMeaning wideAssignment (valueOf wideAssignment s'.heap) 99 inst' =
      some (.u32 (0x12345679 * 0x2468ACF2 + 0x369D036B)) := by
  have hok : xmadTree.Ok := ⟨by unfold Distinct; decide, by decide⟩
  obtain ⟨-, hadd⟩ := xmad_folds_exact wideAssignment xmadTree hok 99
    { op := .iAdd32, args := [.inst 25, .inst 27] } rfl _ rfl
  obtain ⟨va, vb, vc, a, b, c, hmatch, ha, hb, hc, hx, hvalue⟩ := hadd _ _ rfl
  obtain ⟨rfl, rfl, rfl⟩ : va = .inst 1 ∧ vb = .inst 2 ∧ vc = .inst 3 := by
    have hmatch' : some (Value.inst 1, Value.inst 2, Value.inst 3) = some (va, vb, vc) := hmatch
    cases hmatch'
    exact ⟨rfl, rfl, rfl⟩
  cases ha
  cases hb
  cases hc
  exact ⟨_, _, rfl, hvalue.trans (congrArg some hx)⟩

end Yuzu.Shader
