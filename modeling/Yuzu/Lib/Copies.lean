/-
  File:      Yuzu/Lib/Copies.lean
  Subject:   Buffers as functions of the offset, and runs of copies between them.

  A run of copies of `n` bytes each leaves what no copy covers; where several copies cover a byte
  and agree on it, that is what it holds. `gathered` is a buffer whose first bytes are given by a
  function, `scattered` one whose bytes were written one after another at given places; the lemmas
  say how a copy extends either.
-/
import Mathlib.Data.List.Basic

namespace Yuzu

open List

variable {β : Type}

/-- `n` bytes of `input` from `src` on put into `output` from `dst` on. -/
def copyBytes (output input : Nat → β) (dst src n : Nat) : Nat → β := fun k =>
  if dst ≤ k ∧ k < dst + n then input (src + (k - dst)) else output k

/-- Copies one after another, each from an offset (second) to an offset (first). -/
def copyAll (input : Nat → β) (n : Nat) (output : Nat → β) (copies : List (Nat × Nat)) : Nat → β :=
  copies.foldl (fun output c => copyBytes output input c.1 c.2 n) output

variable {output input : Nat → β} {n k : Nat} {copies : List (Nat × Nat)} {v : β}

theorem copyAll_nil : copyAll input n output [] = output := rfl

theorem copyAll_cons {c : Nat × Nat} : copyAll input n output (c :: copies) =
    copyAll input n (copyBytes output input c.1 c.2 n) copies := rfl

theorem copyAll_append {copies' : List (Nat × Nat)} : copyAll input n output (copies ++ copies') =
      copyAll input n (copyAll input n output copies) copies' := foldl_append

theorem copyAll_flatMap {ι : Type} {l : List ι} {f : ι → List (Nat × Nat)} :
    copyAll input n output (l.flatMap f) =
      l.foldl (fun output i => copyAll input n output (f i)) output := by
  induction l generalizing output with
  | nil => rfl
  | cons i l ih => rw [flatMap_cons, copyAll_append, ih, foldl_cons]

theorem copyAll_outside (h : ∀ c ∈ copies, ¬ (c.1 ≤ k ∧ k < c.1 + n)) :
    copyAll input n output copies k = output k := by
  induction copies generalizing output with
  | nil => rfl
  | cons c copies ih =>
    rw [copyAll_cons, ih fun c' hc' => h c' (mem_cons_of_mem _ hc'), copyBytes, if_neg (h c mem_cons_self)]

theorem copyAll_inside (h : ∀ c ∈ copies, c.1 ≤ k → k < c.1 + n → input (c.2 + (k - c.1)) = v)
    (hk : ∃ c ∈ copies, c.1 ≤ k ∧ k < c.1 + n) : copyAll input n output copies k = v := by
  induction copies generalizing output with
  | nil => exact absurd hk (by simp)
  | cons c copies ih =>
    have h' : ∀ c ∈ copies, c.1 ≤ k → k < c.1 + n → input (c.2 + (k - c.1)) = v :=
      fun c' hc' => h c' (mem_cons_of_mem _ hc')
    rw [copyAll_cons]
    by_cases hrest : ∃ c ∈ copies, c.1 ≤ k ∧ k < c.1 + n
    · exact ih h' hrest
    · have hout : ∀ c' ∈ copies, ¬ (c'.1 ≤ k ∧ k < c'.1 + n) := fun c' hc' hin =>
        hrest ⟨c', hc', hin⟩
      obtain ⟨c', hc', hin⟩ := hk
      obtain rfl : c' = c := (mem_cons.mp hc').resolve_right fun hmem => hout c' hmem hin
      rw [copyAll_outside hout, copyBytes, if_pos hin]
      exact h c' mem_cons_self hin.1 hin.2

/-! ## Gathering and scattering -/

/-- The first `n` bytes are those of `f`. -/
def gathered (f dest : Nat → β) (n : Nat) : Nat → β := fun j => if j < n then f j else dest j

/-- The bytes of `src` written in order, byte `i` to `target i` if it has a place. -/
def scattered (target : Nat → Option Nat) (src mem : Nat → β) : Nat → Nat → β
  | 0 => mem
  | n + 1 => match target n with
      | some p => fun k => if k = p then src n else scattered target src mem n k
      | none => scattered target src mem n

variable {f dest src mem : Nat → β} {target target' : Nat → Option Nat} {i p : Nat}

theorem gathered_copy (h : ∀ j < n, src (p + j) = f (i + j)) :
    copyBytes (gathered f dest i) src i p n = gathered f dest (i + n) := by
  funext j
  rw [copyBytes]
  by_cases hj : i ≤ j ∧ j < i + n
  · rw [if_pos hj, h (j - i) (by omega), Nat.add_sub_cancel' hj.1, gathered, if_pos hj.2]
  · rw [if_neg hj, gathered, gathered]
    by_cases hlt : j < i
    · rw [if_pos hlt, if_pos (by omega)]
    · rw [if_neg hlt, if_neg (by omega)]

theorem scattered_copy (h : ∀ j < n, target (i + j) = some (p + j)) :
    copyBytes (scattered target src mem i) src p i n = scattered target src mem (i + n) := by
  induction n with
  | zero =>
    funext k
    rw [copyBytes, if_neg (by omega), Nat.add_zero]
  | succ n ih =>
    have hlast := h n (Nat.lt_succ_self n)
    rw [← Nat.add_assoc, scattered, hlast, ← ih fun j hj => h j (by omega)]
    funext k
    dsimp only
    rw [copyBytes, copyBytes]
    by_cases hk : k = p + n
    · rw [if_pos hk, if_pos (by omega), hk, Nat.add_sub_cancel_left]
    · rw [if_neg hk]
      by_cases hin : p ≤ k ∧ k < p + n
      · rw [if_pos hin, if_pos (by omega)]
      · rw [if_neg hin, if_neg (by omega)]

theorem scattered_skip (h : ∀ j < n, target (i + j) = none) :
    scattered target src mem (i + n) = scattered target src mem i := by
  induction n with
  | zero => rw [Nat.add_zero]
  | succ n ih =>
    rw [← Nat.add_assoc, scattered, h n (Nat.lt_succ_self n)]
    exact ih fun j hj => h j (by omega)

theorem scattered_outside (h : ∀ j < n, target j ≠ some p) : scattered target src mem n p = mem p := by
  induction n with
  | zero => rfl
  | succ n ih =>
    have ih := ih fun j hj => h j (by omega)
    rw [scattered]
    cases hn : target n with
    | none => exact ih
    | some q =>
      have hne : p ≠ q := fun heq => h n (Nat.lt_succ_self n) (heq ▸ hn)
      exact (if_neg hne).trans ih

theorem scattered_last (hi : i < n) (ht : target i = some p)
    (hlast : ∀ j, i < j → j < n → target j ≠ some p) : scattered target src mem n p = src i := by
  induction n with
  | zero => exact absurd hi (Nat.not_lt_zero i)
  | succ n ih =>
    rw [scattered]
    by_cases hin : i = n
    · subst hin
      rw [ht]
      exact if_pos rfl
    · have ih := ih (by omega) fun j hj hjn => hlast j hj (by omega)
      cases hn : target n with
      | none => exact ih
      | some q =>
        have hne : p ≠ q := fun heq => hlast n (by omega) (Nat.lt_succ_self n) (heq ▸ hn)
        exact (if_neg hne).trans ih

end Yuzu
