/-
  File:      Yuzu/Lib/Checked.lean
  Subject:   Code that may return an error and that carries assertions.

  A run ends with a value, with an error that the code returns, at an assertion that fails, or at an
  access outside of a buffer. `Ends` is the triple of such code: it says which of the ends without a
  value are fine, and what a value has. `Safe` allows the errors only.
-/
import Mathlib.Tactic.Common

namespace Yuzu

/-- How a run ends that has no value. -/
inductive Stop (ε : Type) where
  /-- The code returns an error. -/
  | result (e : ε)
  /-- An assertion fails. -/
  | assertion
  /-- An access leaves its buffer. -/
  | overflow
deriving DecidableEq, Repr

/-- An error that the code returns. -/
def Stop.IsResult {ε : Type} : Stop ε → Prop
  | .result _ => True
  | _ => False

/-- A run. -/
abbrev Checked (ε α : Type) := Except (Stop ε) α

namespace Checked

variable {ε α β : Type} {p : Prop} [Decidable p] {e : ε} {s : Stop ε} {x : Checked ε α}

/-- Where `p` fails, the run ends. -/
def check (p : Prop) [Decidable p] (s : Stop ε) : Checked ε Unit := if p then .ok () else .error s

/-- The assertion of `p`. -/
def assertThat (p : Prop) [Decidable p] : Checked ε Unit := check p .assertion

/-- The check of `p`: where it fails, the error is returned. -/
def resultUnless (p : Prop) [Decidable p] (e : ε) : Checked ε Unit := check p (.result e)

/-- An access that has to stay inside of its buffer. -/
def inBuffer (p : Prop) [Decidable p] : Checked ε Unit := check p .overflow

@[simp] theorem value_bind (a : α) (f : α → Checked ε β) : ((Except.ok a : Checked ε α) >>= f) = f a := rfl

@[simp] theorem assertThat_of (h : p) : (assertThat p : Checked ε Unit) = .ok () := if_pos h

@[simp] theorem resultUnless_of (h : p) : (resultUnless p e : Checked ε Unit) = .ok () := if_pos h

@[simp] theorem resultUnless_of_not (h : ¬p) : (resultUnless p e : Checked ε Unit) = .error (.result e) :=
  if_neg h

@[simp] theorem inBuffer_of (h : p) : (inBuffer p : Checked ε Unit) = .ok () := if_pos h

variable {f : α → Checked ε β}

theorem bind_eq_ok {b : β} (h : (x >>= f) = .ok b) : ∃ a, x = .ok a ∧ f a = .ok b := by
  cases x with
  | ok a => exact ⟨a, rfl, h⟩
  | error s => cases h

variable {k : Unit → Checked ε α}

theorem check_bind_eq_ok {a : α} (h : (check p s >>= k) = .ok a) : p ∧ k () = .ok a := by
  by_cases hp : p
  · rw [check, if_pos hp] at h
    exact ⟨hp, h⟩
  · rw [check, if_neg hp] at h
    cases h

/-! ## The triple -/

/-- **What a run ends with**: a value with the postcondition, or a stop that is fine. -/
def Ends (fine : Stop ε → Prop) (post : α → Prop) : Checked ε α → Prop
  | .ok a => post a
  | .error s => fine s

section Ends

variable {fine : Stop ε → Prop} {post mid : α → Prop}

theorem Ends.of_ok (h : Ends fine (fun _ => True) x) (hok : ∀ a, x = .ok a → post a) :
    Ends fine post x := by
  cases x with
  | ok a => exact hok a rfl
  | error s => exact h

theorem Ends.bind {post : β → Prop} (h : Ends fine mid x)
    (hf : ∀ a, mid a → Ends fine post (f a)) : Ends fine post (x >>= f) := by
  cases x with
  | ok a => exact hf a h
  | error s => exact h

theorem Ends.check (hs : ¬p → fine s) (hk : p → Ends fine post (k ())) :
    Ends fine post (Checked.check p s >>= k) := by
  by_cases h : p
  · rw [Checked.check, if_pos h]
    exact hk h
  · rw [Checked.check, if_neg h]
    exact hs h

end Ends

/-- **No assertion is tripped and no buffer is left**, and a value has the postcondition. -/
def Safe (post : α → Prop) (x : Checked ε α) : Prop := Ends Stop.IsResult post x

section Safe

variable {post mid : α → Prop}

theorem Safe.of_ok (h : Safe (fun _ => True) x) (hok : ∀ a, x = .ok a → post a) : Safe post x :=
  Ends.of_ok h hok

theorem Safe.bind {post : β → Prop} (h : Safe mid x)
    (hf : ∀ a, mid a → Safe post (f a)) : Safe post (x >>= f) :=
  Ends.bind h hf

theorem Safe.resultUnless (hk : p → Safe post (k ())) : Safe post (Checked.resultUnless p e >>= k) :=
  Ends.check (fun _ => trivial) hk

end Safe

/-- **Two runs that end alike**: with values that are related, with the same error, or both at an
assertion. -/
def Alike (R : α → β → Prop) : Checked ε α → Checked ε β → Prop
  | .ok a, .ok b => R a b
  | .error s, .error s' => s = s'
  | _, _ => False

section Alike

variable {α' β' : Type} {R : α → β → Prop} {R' : α' → β' → Prop} {y : Checked ε β}

theorem Alike.bind {f : α → Checked ε α'} {g : β → Checked ε β'} (h : Alike R x y)
    (hfg : ∀ a b, R a b → Alike R' (f a) (g b)) : Alike R' (x >>= f) (y >>= g) := by
  cases x with
  | ok a => cases y with
    | ok b => exact hfg a b h
    | error s => exact absurd h id
  | error s => cases y with
    | ok b => exact absurd h id
    | error s' => exact h

theorem Alike.and_right {Q : β → Prop} (h : Alike R x y) (hy : ∀ b, y = .ok b → Q b) :
    Alike (fun a b => R a b ∧ Q b) x y := by
  cases x with
  | ok a => cases y with
    | ok b => exact ⟨h, hy b rfl⟩
    | error s => exact h
  | error s => cases y with
    | ok b => exact h
    | error s' => exact h

theorem Alike.resultUnless {k' : Unit → Checked ε β} (h : p → Alike R (k ()) (k' ())) :
    Alike R (Checked.resultUnless p e >>= k) (Checked.resultUnless p e >>= k') := by
  by_cases hp : p
  · rw [resultUnless_of hp]
    exact h hp
  · rw [resultUnless_of_not hp]
    rfl

theorem Alike.ends {fine : Stop ε → Prop} {post : α → Prop} {post' : β → Prop} (h : Alike R x y)
    (hy : Ends fine post' y) (himp : ∀ a b, R a b → post' b → post a) : Ends fine post x := by
  cases x with
  | ok a => cases y with
    | ok b => exact himp a b h hy
    | error s => exact absurd h id
  | error s => cases y with
    | ok b => exact absurd h id
    | error s' =>
      obtain rfl : s = s' := h
      exact hy

theorem Alike.of_ok {b : β} (h : Alike R x (.ok b)) : ∃ a, x = .ok a ∧ R a b := by
  cases x with
  | ok a => exact ⟨a, rfl, h⟩
  | error s => exact absurd h id

end Alike

end Checked

end Yuzu
