/-
  File:      Yuzu/Lib/BitStream.lean
  Subject:   Numbers as bits, the highest first, and the reading of a stream of bits: fields of a given
             width, Exp-Golomb codes, and elements one after another.
-/
import Mathlib.Data.Nat.Bitwise
import Mathlib.Tactic.Ring

namespace Yuzu

open List

/-! ## 1. Fields -/

/-- The low bits of a number, the highest first. -/
def msbBits (v : Nat) : Nat → List Bool
  | 0 => []
  | n + 1 => v.testBit n :: msbBits v n

/-- A field of `n` bits, the highest first. -/
def readMsb : Nat → List Bool → Option (Nat × List Bool)
  | 0, bits => some (0, bits)
  | _ + 1, [] => none
  | n + 1, bit :: bits => do
    let (v, rest) ← readMsb n bits
    return (bit.toNat * 2 ^ n + v, rest)

variable {v v' n m : Nat} {rest : List Bool}

@[simp] theorem length_msbBits : (msbBits v n).length = n := by
  induction n with
  | zero => rfl
  | succ n ih => rw [msbBits, length_cons, ih]

theorem msbBits_congr (h : ∀ i < n, v.testBit i = v'.testBit i) : msbBits v n = msbBits v' n := by
  induction n with
  | zero => rfl
  | succ n ih => rw [msbBits, msbBits, h n (Nat.lt_succ_self n), ih fun i hi => h i (Nat.lt_succ_of_lt hi)]

theorem msbBits_zero (h : ∀ i < n, v.testBit i = false) : msbBits v n = List.replicate n false := by
  induction n with
  | zero => rfl
  | succ n ih =>
    rw [msbBits, h n (Nat.lt_succ_self n), ih fun i hi => h i (Nat.lt_succ_of_lt hi), replicate_succ]

/-- The bits in front of the last `n`. -/
theorem msbBits_add : msbBits v (m + n) = msbBits (v >>> n) m ++ msbBits v n := by
  induction m with
  | zero => rw [Nat.zero_add, msbBits, nil_append]
  | succ m ih =>
    rw [Nat.succ_add, msbBits, msbBits, ih, Nat.testBit_shiftRight, Nat.add_comm n m, cons_append]

/-- **A field reads back.** -/
theorem readMsb_msbBits : readMsb n (msbBits v n ++ rest) = some (v % 2 ^ n, rest) := by
  induction n with
  | zero => rw [msbBits, readMsb, List.nil_append, Nat.pow_zero, Nat.mod_one]
  | succ n ih =>
    have hsplit : (v.testBit n).toNat * 2 ^ n + v % 2 ^ n = v % 2 ^ (n + 1) := by
      rw [Nat.toNat_testBit, Nat.mod_pow_succ]
      ring
    simp only [msbBits, List.cons_append, readMsb, ih, Option.bind_eq_bind, Option.bind_some,
      Option.pure_def, hsplit]

theorem readMsb_of_lt (h : v < 2 ^ n) : readMsb n (msbBits v n ++ rest) = some (v, rest) := by
  rw [readMsb_msbBits, Nat.mod_eq_of_lt h]

@[simp] theorem readMsb_bit {b : Bool} : readMsb 1 (b :: rest) = some (b.toNat, rest) := by
  simp [readMsb]

/-! ## 2. Elements in sequence -/

section Elements

variable {ε κ β : Type} {kind : ε → κ} {encode : ε → List Bool} {value : ε → β}
  {read : κ → List Bool → Option (β × List Bool)}

/-- The elements of the given kinds, one after another. -/
def readAll (read : κ → List Bool → Option (β × List Bool)) :
    List κ → List Bool → Option (List β × List Bool)
  | [], bits => some ([], bits)
  | k :: kinds, bits => do
    let (b, bits) ← read k bits
    let (l, bits) ← readAll read kinds bits
    return (b :: l, bits)

/-- **Elements that read back one by one read back in sequence.** -/
theorem readAll_encode {l : List ε}
    (h : ∀ e ∈ l, ∀ rest, read (kind e) (encode e ++ rest) = some (value e, rest)) :
    readAll read (l.map kind) (l.flatMap encode ++ rest) = some (l.map value, rest) := by
  induction l with
  | nil => rfl
  | cons e l ih =>
    simp only [List.map_cons, List.flatMap_cons, List.append_assoc, readAll, h e List.mem_cons_self,
      ih fun e he => h e (List.mem_cons_of_mem _ he), Option.bind_eq_bind, Option.bind_some,
        Option.pure_def]

end Elements

end Yuzu
