/-
  File:      Yuzu/Lib/BigEndian.lean
  Subject:   The number that a list of digits writes, the most significant digit first.
-/
import Mathlib.Tactic.Ring

namespace Yuzu

open List

variable {base : Nat} {l l' : List Nat}

/-- The number with these digits, the most significant one first. -/
def bigEndian (base : Nat) (l : List Nat) : Nat := l.foldl (fun value digit => value * base + digit) 0

@[simp] theorem bigEndian_nil : bigEndian base [] = 0 := rfl

theorem foldl_bigEndian (value : Nat) :
    l.foldl (fun value digit => value * base + digit) value = value * base ^ l.length + bigEndian base l := by
  induction l generalizing value with
  | nil => simp [bigEndian]
  | cons d l ih =>
    rw [bigEndian, foldl_cons, foldl_cons, ih, ih (0 * base + d), length_cons]
    ring

theorem bigEndian_append :
    bigEndian base (l ++ l') = bigEndian base l * base ^ l'.length + bigEndian base l' := by
  rw [bigEndian, foldl_append, foldl_bigEndian]
  rfl

theorem bigEndian_concat {d : Nat} : bigEndian base (l ++ [d]) = bigEndian base l * base + d := by
  rw [bigEndian, foldl_append]
  rfl

theorem bigEndian_lt (hl : ∀ d ∈ l, d < base) : bigEndian base l < base ^ l.length := by
  induction l with
  | nil => simp
  | cons d l ih =>
    have hd := hl d mem_cons_self
    have ih := ih fun x hx => hl x (mem_cons_of_mem _ hx)
    have hsplit : bigEndian base (d :: l) = d * base ^ l.length + bigEndian base l := by
      rw [show d :: l = [d] ++ l from rfl, bigEndian_append]
      simp [bigEndian]
    have hmul := Nat.mul_le_mul_right (base ^ l.length) (Nat.succ_le_of_lt hd)
    rw [hsplit, length_cons, Nat.pow_succ, Nat.mul_comm _ base]
    rw [Nat.succ_mul] at hmul
    omega

theorem bigEndian_append_div (hl : ∀ d ∈ l', d < base) :
    bigEndian base (l ++ l') / base ^ l'.length = bigEndian base l := by
  have hlt := bigEndian_lt hl
  rw [bigEndian_append, Nat.mul_comm, Nat.mul_add_div (by omega), Nat.div_eq_of_lt hlt, Nat.add_zero]

end Yuzu
