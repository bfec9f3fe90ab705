/-
  File:      Yuzu/Kernel/Results.lean
  Subject:   Result codes of the kernel (svc_results.h).

  Only the codes that modelled functions return are listed.
-/
import Mathlib.Tactic.TypeStar

namespace Yuzu.Kernel

/-- `Result`. -/
inductive Result where
  | success
  | outOfMemory
  | outOfResource
  | outOfHandles
  deriving DecidableEq, Repr

end Yuzu.Kernel
