/-
  File:      Yuzu/Lib/Assert.lean
  Subject:   Checked steps: a computation whose assertion fails has no result.

  A routine that carries assertions is a function into `Option`: `none` is a run that trips an
  assertion (or leaves the structure it walks), `some` a run in which every assertion holds.
  The two lemmas below are the only way proofs look inside `assert`.
-/
import Mathlib.Data.Option.Basic

namespace Yuzu

/-- The assertion of `p`: continue if it holds, no result otherwise. -/
def assert (p : Prop) [Decidable p] : Option Unit :=
  if p then some () else none

variable {α : Type} {p : Prop} [Decidable p]

@[simp] theorem assert_bind_eq_some {k : Unit → Option α} {a : α} :
    (assert p >>= k) = some a ↔ p ∧ k () = some a := by
  by_cases hp : p <;> simp [assert, hp]

theorem assert_bind_of {k : Unit → Option α} (hp : p) : (assert p >>= k) = k () := by
  simp [assert, hp]

end Yuzu
