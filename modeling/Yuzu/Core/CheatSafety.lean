/-
  File:      Yuzu/Core/CheatSafety.lean
  Subject:   What goes wrong in `DmntCheatVm::Execute` for an arbitrary program: never an index, but an `else`
             outside every block, and a shift by 64 or more.
-/
import Yuzu.Core.CheatVm

namespace Yuzu.Core.Cheat

open Cursor

/-! ## 1. Indices and shifts -/

/-- The tables of the VM. -/
inductive Table where
  | registers
  | savedValues
  | staticRegisters
  | loopTops

/-- `NumRegisters`, and `NumStaticRegisters` for the static registers. -/
def Table.size : Table → Nat
  | .staticRegisters => 0x80 + 0x80
  | _ => 0x10

section Decode

variable {program : List Nat} {first : Nat}

end Decode

/-! ## 3. Runs -/

namespace DmntCheatVm

variable {W : Type*} {program : List Nat} {env : Environment W} {vm : DmntCheatVm W}

/-- An environment in which nothing happens. -/
def quiet : Environment Unit := ⟨fun w _ _ => (0, w), fun w _ _ _ => w, id, id, fun w _ _ => w, 0, 0, 0, 0, 0⟩

end DmntCheatVm

end Yuzu.Core.Cheat
