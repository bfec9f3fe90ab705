/-
  File:      Yuzu/Lib/Positions.lean
  Subject:   Vectors edited at positions.

  A vector with iterators is a list with indices: elements are inserted before an index and erased
  between two. The lemmas read such an edit off a list that is given as the parts between the
  indices; a walk towards the front stops at the last element before a part.
-/
import Mathlib.Order.Basic
import Mathlib.Data.List.Induction

namespace Yuzu

open List

variable {β : Type}

/-- The elements `xs` put before the position `i`. -/
def insertAt (l : List β) (i : Nat) (xs : List β) : List β := l.take i ++ xs ++ l.drop i

/-- The elements from the position `i` to `j`, the latter kept, taken out. -/
def eraseRange (l : List β) (i j : Nat) : List β := l.take i ++ l.drop j

/-- The position of the last element up to `i` on which `p` fails. -/
def walkBack (p : β → Bool) (l : List β) : Nat → Option Nat
  | 0 => match l[0]? with
      | some b => if p b then none else some 0
      | none => none
  | i + 1 => match l[i + 1]? with
      | some b => if p b then walkBack p l i else some (i + 1)
      | none => none

variable {A M B xs : List β} {b c : β} {i j : Nat} {p : β → Bool}

theorem insertAt_append (hi : i = A.length) : insertAt (A ++ B) i xs = A ++ (xs ++ B) := by
  rw [insertAt, hi, take_left, drop_left, append_assoc]

theorem eraseRange_append (hi : i = A.length) (hj : j = A.length + M.length) :
    eraseRange (A ++ (M ++ B)) i j = A ++ B := by
  rw [eraseRange, hi, hj, take_left, ← append_assoc, ← length_append, drop_left]

theorem set_append_cons (hi : i = A.length) : (A ++ b :: B).set i c = A ++ c :: B := by
  rw [hi, set_append_right _ _ (Nat.le_refl _), Nat.sub_self, set_cons_zero]

theorem getElem?_append_cons (hi : i = A.length) : (A ++ b :: B)[i]? = some b := by
  rw [hi, List.getElem?_append_right (Nat.le_refl _), Nat.sub_self, List.getElem?_cons_zero]

/-- The walk goes over a part on which `p` holds and stops at the element before it. -/
theorem walkBack_append (hb : p b = false) (hM : ∀ e ∈ M, p e = true) (hi : i = A.length + M.length) :
    walkBack p (A ++ b :: (M ++ B)) i = some A.length := by
  subst hi
  induction M using List.reverseRecOn generalizing B with
  | nil =>
    rw [length_nil, Nat.add_zero, nil_append]
    have hget := getElem?_append_cons (A := A) (b := b) (B := B) rfl
    cases hA : A.length with
    | zero =>
      rw [hA] at hget
      rw [walkBack, hget]
      simp only [hb]
      rfl
    | succ n =>
      rw [hA] at hget
      rw [walkBack, hget]
      simp only [hb]
      rfl
  | append_singleton M e ih =>
    have hsplit : A ++ b :: (M ++ [e] ++ B) = (A ++ b :: M) ++ e :: B := by
      simp only [append_assoc, cons_append, nil_append]
    have hlen : A.length + (M ++ [e]).length = A.length + M.length + 1 := by
      rw [length_append, length_singleton, Nat.add_assoc]
    have hget : (A ++ b :: (M ++ [e] ++ B))[A.length + M.length + 1]? = some e := by
      rw [hsplit]
      refine getElem?_append_cons ?_
      rw [length_append, length_cons, Nat.add_assoc]
    have he : p e = true := hM e (mem_append_right _ mem_cons_self)
    rw [hlen, walkBack, hget]
    simp only [he, if_true]
    rw [append_assoc]
    exact ih fun e' he' => hM e' (mem_append_left _ he')

end Yuzu
