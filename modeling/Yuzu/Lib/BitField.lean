/-
  File:      Yuzu/Lib/BitField.lean
  Subject:   Fields of machine words, given bit by bit: reading a field with or without its sign,
             writing one, and the shift and mask formulas that compute them.
-/
import Mathlib.Data.Nat.Bitwise
import Mathlib.Tactic.Ring

namespace Yuzu

open BitVec

variable {w : Nat} {v base ins : BitVec w} {off cnt i : Nat}

/-! ## 1. Fields -/

/-- The word with the given bits. -/
def ofBits (f : Nat → Bool) : BitVec w := (BitVec.iunfoldr (fun i _ => ((), f i.val)) ()).2

theorem getLsbD_ofBits {f : Nat → Bool} (hi : i < w) : (ofBits f : BitVec w).getLsbD i = f i :=
  iunfoldr_getLsbD (fun _ => ()) ⟨i, hi⟩ fun _ => rfl

/-- The `cnt` bits of `v` from bit `off` on. -/
def fieldU (v : BitVec w) (off cnt : Nat) : BitVec w :=
  ofBits fun i => decide (i < cnt) && v.getLsbD (off + i)

/-- The `cnt` bits of `v` from bit `off` on, the topmost repeated. -/
def fieldS (v : BitVec w) (off cnt : Nat) : BitVec w :=
  ofBits fun i => decide (0 < cnt) && v.getLsbD (off + min i (cnt - 1))

/-- `base` with its `cnt` bits from bit `off` on replaced by the low bits of `ins`. -/
def fieldInsert (base ins : BitVec w) (off cnt : Nat) : BitVec w :=
  ofBits fun i => if off ≤ i ∧ i < off + cnt then ins.getLsbD (i - off) else base.getLsbD i

theorem getLsbD_fieldU :
    (fieldU v off cnt).getLsbD i = (decide (i < w ∧ i < cnt) && v.getLsbD (off + i)) := by
  by_cases hi : i < w
  · simp only [fieldU, getLsbD_ofBits hi, hi, true_and]
  · rw [getLsbD_of_ge _ _ (by omega)]
    simp [hi]

theorem getLsbD_fieldInsert (hi : i < w) : (fieldInsert base ins off cnt).getLsbD i =
      if off ≤ i ∧ i < off + cnt then ins.getLsbD (i - off) else base.getLsbD i :=
  getLsbD_ofBits hi

theorem toNat_fieldU (h : off + cnt ≤ w) : (fieldU v off cnt).toNat = v.toNat / 2 ^ off % 2 ^ cnt := by
  refine Nat.eq_of_testBit_eq fun i => ?_
  rw [testBit_toNat, getLsbD_fieldU, Nat.testBit_mod_two_pow, Nat.testBit_div_two_pow,
    testBit_toNat, Nat.add_comm i off]
  by_cases hi : i < cnt
  · simp [hi, show i < w by omega]
  · simp [hi]

/-! ## 2. The formulas -/

theorem fieldU_fieldInsert (h : off + cnt ≤ w) :
    fieldU (fieldInsert base ins off cnt) off cnt = fieldU ins 0 cnt := by
  refine eq_of_getLsbD_eq fun i hi => ?_
  rw [getLsbD_fieldU, getLsbD_fieldU]
  by_cases hc : i < cnt
  · rw [getLsbD_fieldInsert (by omega)]
    simp [hc]
  · simp [hc]

theorem fieldInsert_shiftLeft {k : Nat} (h : w ≤ off + k) :
    fieldInsert base ins off cnt <<< k = base <<< k := by
  refine eq_of_getLsbD_eq fun i hi => ?_
  rw [getLsbD_shiftLeft, getLsbD_shiftLeft]
  by_cases hk : i < k
  · simp [hk]
  · rw [getLsbD_fieldInsert (by omega), if_neg (by omega)]

/-- **A product by the halves of one factor.** -/
theorem mul_by_halves {a b : BitVec w} {k : Nat} (hw : off + k = w) :
    (fieldU a off k * b) <<< off + fieldU a 0 off * b = a * b := by
  refine eq_of_toNat_eq ?_
  have hhigh : (fieldU a off k).toNat = a.toNat / 2 ^ off := by
    rw [toNat_fieldU (by omega), Nat.mod_eq_of_lt]
    rw [Nat.div_lt_iff_lt_mul (Nat.two_pow_pos off), ← Nat.pow_add, Nat.add_comm k, hw]
    exact a.isLt
  have hlow : (fieldU a 0 off).toNat = a.toNat % 2 ^ off := by
    rw [toNat_fieldU (by omega)]
    simp
  rw [toNat_add, toNat_shiftLeft, toNat_mul, toNat_mul,
    toNat_mul, hhigh, hlow, Nat.shiftLeft_eq, Nat.mod_mul_mod, ← Nat.add_mod]
  congr 1
  calc a.toNat / 2 ^ off * b.toNat * 2 ^ off + a.toNat % 2 ^ off * b.toNat
      = (2 ^ off * (a.toNat / 2 ^ off) + a.toNat % 2 ^ off) * b.toNat := by ring
    _ = a.toNat * b.toNat := by rw [Nat.div_add_mod]

theorem mul_low_shiftLeft {a b : BitVec w} {k : Nat} (hw : off + k = w) :
    (b * fieldU a 0 k) <<< off = (b * a) <<< off := by
  have hpow : 2 ^ w = 2 ^ k * 2 ^ off := by rw [← Nat.pow_add, Nat.add_comm k, hw]
  have hshift : ∀ n : Nat, n % 2 ^ w * 2 ^ off % 2 ^ w = n % 2 ^ k * 2 ^ off := fun n => by
    rw [Nat.mod_mul_mod, hpow, Nat.mul_mod_mul_right]
  refine eq_of_toNat_eq ?_
  rw [toNat_shiftLeft, toNat_shiftLeft, toNat_mul, toNat_mul,
    toNat_fieldU (by omega), Nat.shiftLeft_eq, Nat.shiftLeft_eq, hshift, hshift, pow_zero,
    Nat.div_one, Nat.mul_mod_mod]

/-- **A product from the four products of the halves.** -/
theorem mul_by_quarters {a b : BitVec w} {k : Nat} (hw : off + k = w) (hk : k = off) :
    (fieldU b off k * fieldU a 0 k) <<< off +
      ((fieldU b 0 off * fieldU a off k) <<< off + fieldU b 0 off * fieldU a 0 off) = a * b := by
  subst hk
  rw [mul_low_shiftLeft hw, BitVec.mul_comm (fieldU b 0 k), BitVec.mul_comm (fieldU b 0 k),
    mul_by_halves hw, BitVec.mul_comm a (fieldU b 0 k), mul_by_halves hw, BitVec.mul_comm]

end Yuzu
