/-
  File:      Yuzu/Common/Alignment.lean
  Subject:   AlignUp and AlignDown (common/alignment.h).
-/
import Mathlib.Data.Nat.ModEq
import Mathlib.Tactic.Ring

namespace Yuzu.Common

def alignDown (value size : Nat) : Nat := value - value % size

def alignUp (value size : Nat) : Nat :=
  if value % size = 0 then value - value % size else value - value % size + size

variable {v n : Nat}

theorem alignDown_le : alignDown v n ≤ v := Nat.sub_le _ _

theorem dvd_alignDown : n ∣ alignDown v n := Nat.dvd_sub_mod v

theorem alignDown_eq_mul_div : alignDown v n = n * (v / n) := by
  have h := Nat.div_add_mod v n
  rw [alignDown]
  omega

theorem dvd_alignUp : n ∣ alignUp v n := by
  unfold alignUp
  split
  · exact Nat.dvd_sub_mod v
  · exact Nat.dvd_add (Nat.dvd_sub_mod v) (Nat.dvd_refl n)

theorem le_alignUp (hn : 0 < n) : v ≤ alignUp v n := by
  have h1 := Nat.mod_lt v hn
  have h2 := Nat.mod_le v n
  unfold alignUp
  split <;> omega

theorem alignUp_of_dvd (h : n ∣ v) : alignUp v n = v := by
  rw [alignUp, if_pos (Nat.mod_eq_zero_of_dvd h), Nat.mod_eq_zero_of_dvd h, Nat.sub_zero]

theorem alignDown_of_dvd (h : n ∣ v) : alignDown v n = v := by
  rw [alignDown, Nat.mod_eq_zero_of_dvd h, Nat.sub_zero]

end Yuzu.Common
