/-
  File:      Yuzu/Lib/Accounts.lean
  Subject:   Totals over a list of holdings, and what adding, dropping and changing one holding does
             to them.
-/
import Mathlib.Algebra.Order.BigOperators.Group.List
import Mathlib.Algebra.Order.Ring.Int

namespace Yuzu

open List

variable {H : Type*} {f g : H → Int} {l : List H} {h h' : H} {i : Nat}

/-- The total of what the holdings count for. -/
def total (f : H → Int) (l : List H) : Int := (l.map f).sum

@[simp] theorem total_nil : total f [] = 0 := rfl

@[simp] theorem total_cons : total f (h :: l) = f h + total f l := rfl

theorem total_append_singleton : total f (l ++ [h]) = total f l + f h := by
  simp [total]

theorem total_eraseIdx (hi : l[i]? = some h) : total f (l.eraseIdx i) = total f l - f h := by
  induction l generalizing i with
  | nil => cases hi
  | cons a l ih =>
    cases i with
    | zero =>
      obtain rfl : a = h := Option.some.inj hi
      rw [eraseIdx_cons_zero, total_cons]
      omega
    | succ i =>
      rw [eraseIdx_cons_succ, total_cons, total_cons, ih hi]
      omega

theorem total_set (hi : l[i]? = some h) : total f (l.set i h') = total f l - f h + f h' := by
  induction l generalizing i with
  | nil => cases hi
  | cons a l ih =>
    cases i with
    | zero =>
      obtain rfl : a = h := Option.some.inj hi
      rw [set_cons_zero, total_cons, total_cons]
      omega
    | succ i =>
      rw [set_cons_succ, total_cons, total_cons, ih hi]
      omega

theorem total_nonneg (hf : ∀ a ∈ l, 0 ≤ f a) : 0 ≤ total f l := by
  induction l with
  | nil => exact Int.le_refl 0
  | cons a l ih =>
    have ha := hf a mem_cons_self
    have hl := ih fun b hb => hf b (mem_cons_of_mem _ hb)
    rw [total_cons]
    omega

theorem total_le_total (hfg : ∀ a ∈ l, f a ≤ g a) : total f l ≤ total g l := by
  induction l with
  | nil => exact Int.le_refl 0
  | cons a l ih =>
    have ha := hfg a mem_cons_self
    have hl := ih fun b hb => hfg b (mem_cons_of_mem _ hb)
    rw [total_cons, total_cons]
    omega

end Yuzu
