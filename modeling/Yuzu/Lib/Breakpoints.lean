/-
  File:      Yuzu/Lib/Breakpoints.lean
  Subject:   Piecewise functions given by a list of breakpoints.

  A list of entries with keys stands for a function: at `x` it is the last entry whose key is at
  most `x`. In a sorted list that is the entry before the first key above `x`, and `entryAt` stops
  there. The lemmas say how a function built from two parts reads on either side of a cut.
-/
import Mathlib.Data.List.Basic
import Mathlib.Algebra.Order.Ring.Int

namespace Yuzu

open List

variable {K β γ : Type} [LinearOrder K] (key : β → K)

/-- The entry that holds at `x`, with `d` before the first one. -/
def entryAt (d : β) : List β → K → β
  | [], _ => d
  | e :: l, x => if key e ≤ x then entryAt e l x else d

variable {key} {d d' : β} {A B l : List β} {x : K}

theorem entryAt_append_left (h : ∀ e ∈ B, x < key e) : entryAt key d (A ++ B) x = entryAt key d A x := by
  induction A generalizing d with
  | nil =>
    cases B with
    | nil => rfl
    | cons e B => exact if_neg (not_le.mpr (h e mem_cons_self))
  | cons a A ih =>
    rw [cons_append, entryAt, entryAt, ih]

theorem entryAt_append_right (h : ∀ e ∈ A, key e ≤ x) :
    entryAt key d (A ++ B) x = entryAt key (A.getLastD d) B x := by
  induction A generalizing d with
  | nil => rfl
  | cons a A ih =>
    rw [cons_append, entryAt, if_pos (h a mem_cons_self), ih fun e he => h e (mem_cons_of_mem a he)]
    cases A <;> rfl

theorem entryAt_of_le (h : ∀ e ∈ A, key e ≤ x) : entryAt key d A x = A.getLastD d := by
  have := entryAt_append_right (B := []) (d := d) h
  rwa [append_nil] at this

theorem entryAt_of_lt (h : ∀ e ∈ A, x < key e) : entryAt key d A x = d :=
  entryAt_append_left (A := []) h

theorem entryAt_congr {f : β → γ} (h : f d = f d') : f (entryAt key d l x) = f (entryAt key d' l x) := by
  cases l with
  | nil => exact h
  | cons e l =>
    rw [entryAt, entryAt]
    split
    · rfl
    · exact h

theorem entryAt_cut {e : β} (hA : ∀ e ∈ A, key e ≤ x) (he : key e ≤ x) (hB : ∀ e ∈ B, x < key e) :
    entryAt key d (A ++ e :: B) x = e := by
  rw [entryAt_append_right hA, entryAt, if_pos he]
  exact entryAt_of_lt hB

theorem not_of_mem_dropWhile {p : β → Bool} (hs : l.Pairwise (key · < key ·))
    (hp : ∀ e e', key e < key e' → p e' = true → p e = true) : ∀ e ∈ l.dropWhile p, p e = false := by
  induction l with
  | nil => exact fun e he => nomatch he
  | cons a l ih =>
    obtain ⟨ha, hs⟩ := pairwise_cons.mp hs
    rw [dropWhile_cons]
    split
    · exact ih hs
    · rename_i hpa
      intro e he
      rcases mem_cons.mp he with rfl | he
      · exact Bool.eq_false_iff.mpr hpa
      · exact Bool.eq_false_iff.mpr fun hpe => hpa (hp a e (ha e he) hpe)

theorem le_of_mem_dropWhile {a : K} (hs : l.Pairwise (key · < key ·)) :
    ∀ e ∈ l.dropWhile (fun e => decide (key e < a)), a ≤ key e := fun e he => by
  have := not_of_mem_dropWhile hs (p := fun e => decide (key e < a))
    (fun e e' hlt he' => decide_eq_true (lt_trans hlt (of_decide_eq_true he'))) e he
  exact not_lt.mp (of_decide_eq_false this)

theorem lt_of_mem_dropWhile {b : K} (hs : l.Pairwise (key · < key ·)) :
    ∀ e ∈ l.dropWhile (fun e => decide (key e ≤ b)), b < key e := fun e he => by
  have := not_of_mem_dropWhile hs (p := fun e => decide (key e ≤ b))
    (fun e e' hlt he' => decide_eq_true (le_trans (le_of_lt hlt) (of_decide_eq_true he'))) e he
  exact not_le.mp (of_decide_eq_false this)

end Yuzu
