/-
  File:      Yuzu/ShaderRecompiler/ConstantPropagationPass.lean
  Subject:   Constant propagation over a block: which of its steps keep the integer results, and
             that a block keeps them all exactly if every step does.
-/
import Yuzu.ShaderRecompiler.ConstantPropagationFolds

namespace Yuzu.Shader

open List

variable {σ : Assignment} {env : Environment} {s s' s₁ : State} {id : Nat} {inst inst' : Inst}
  {x : Val} {l : Line Inst} {rest : List (Line Inst)}

/-! ## 1. One instruction -/

theorem Grows.notMem (hg : Grows s s') (hlt : id < s.next) (hnot : id ∉ s.heap.map Line.id) :
    id ∉ s'.heap.map Line.id := by
  obtain ⟨new, heq, hnew⟩ := hg.heap
  rw [heq, map_append, mem_append]
  rintro (hmem | hmem)
  · obtain ⟨l, hl, rfl⟩ := mem_map.mp hmem
    exact absurd hlt (Nat.not_lt.mpr (hnew l hl))
  · exact hnot hmem

/-- **A block** with the instructions before it: `scope` are the instructions of the blocks that
    dominate it, the latest first. Every instruction has its own name. -/
structure Block where
  scope : Heap
  insts : List (Line Inst)
  distinct : Distinct (insts.reverse ++ scope)

/-- The instructions up to the end of the block. -/
def Block.program (b : Block) : Heap := b.insts.reverse ++ b.scope

/-- The pass before the block. -/
def Block.start (b : Block) : State :=
  ⟨b.scope, (b.program.map Line.id).foldr max 0 + 1⟩

end Yuzu.Shader
