/-
  File:      Yuzu/Lib/Cursor.lean
  Subject:   Readers of a list of words: each takes words from a position on and fails at the end.
-/
import Mathlib.Data.List.Basic

namespace Yuzu

open Option

/-- A reader: from a position, the value read and the position behind it. -/
abbrev Cursor (α : Type) := StateT Nat Option α

/-- The next word. -/
def nextWord (words : List Nat) : Cursor Nat := fun i =>
  match words[i]? with
  | some w => some (w, i + 1)
  | none => none

namespace Cursor

variable {α β : Type} {n i j : Nat} {c : Cursor α}

/-- A reader that does not go back, and that does not pass the end. -/
def Advances (n : Nat) (c : Cursor α) : Prop := ∀ i a j, c i = some (a, j) → i ≤ j ∧ (j ≤ n ∨ j = i)

theorem Advances.pure (a : α) : Advances n (Pure.pure a : Cursor α) := by
  rintro i b j ⟨⟩
  exact ⟨Nat.le_refl _, .inr rfl⟩

theorem Advances.bind {f : α → Cursor β} (hc : Advances n c) (hf : ∀ a, Advances n (f a)) :
    Advances n (c >>= f) := by
  intro i b k h
  obtain ⟨⟨a, j⟩, hcj, hfk⟩ := bind_eq_some_iff.mp h
  have hj := hc i a j hcj
  have hk := hf a j b k hfk
  omega

theorem Advances.none : Advances n (fun _ => none : Cursor α) := fun _ _ _ h => nomatch h

theorem Advances.ite {p : Prop} [Decidable p] {d : Cursor α} (hc : Advances n c) (hd : Advances n d) :
    Advances n (if p then c else d) := by
  split
  · exact hc
  · exact hd

/-- A reader whose values have a property. -/
def Yields (P : α → Prop) (c : Cursor α) : Prop := ∀ i a j, c i = some (a, j) → P a

section Yields

variable {P : α → Prop}

theorem Yields.pure {a : α} (h : P a) : Yields P (Pure.pure a : Cursor α) := by
  intro i b j heq
  obtain ⟨rfl, -⟩ := Prod.mk.inj (some.inj heq)
  exact h

theorem Yields.bind {d : Cursor β} {f : β → Cursor α} (hf : ∀ b, Yields P (f b)) : Yields P (d >>= f) := by
  intro i a k h
  obtain ⟨⟨b, j⟩, -, hfk⟩ := bind_eq_some_iff.mp h
  exact hf b j a k hfk

theorem Yields.none : Yields P (fun _ => none : Cursor α) := fun _ _ _ h => nomatch h

theorem Yields.ite {p : Prop} [Decidable p] {d : Cursor α} (hc : Yields P c) (hd : Yields P d) :
    Yields P (if p then c else d) := by
  split
  · exact hc
  · exact hd

end Yields

theorem nextWord_spec {words : List Nat} {w : Nat} (h : nextWord words i = some (w, j)) :
    j = i + 1 ∧ j ≤ words.length := by
  unfold nextWord at h
  cases hw : words[i]? with
  | none =>
    rw [hw] at h
    cases h
  | some v =>
    rw [hw] at h
    obtain ⟨hlt, -⟩ := List.getElem?_eq_some_iff.mp hw
    obtain ⟨rfl, rfl⟩ := Prod.mk.inj (some.inj h)
    exact ⟨rfl, hlt⟩

theorem Advances.nextWord (words : List Nat) : Advances words.length (Yuzu.nextWord words) := by
  intro i w j h
  have := nextWord_spec h
  omega

theorem Advances.nextWord_bind {words : List Nat} {f : Nat → Cursor β} (hf : ∀ w, Advances words.length (f w))
    {b : β} (h : (Yuzu.nextWord words >>= f) i = some (b, j)) : i < j ∧ j ≤ words.length := by
  obtain ⟨⟨w, k⟩, hw, hfk⟩ := bind_eq_some_iff.mp h
  have hk := nextWord_spec hw
  have hj := hf w k b j hfk
  omega

end Cursor

end Yuzu
