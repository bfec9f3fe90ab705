/-
  File:      Yuzu/Lib/Word.lean
  Subject:   Bits of machine words.

  A word is a bit vector, read bit by bit with `getLsbD`. The lemmas say what setting a bit,
  clearing a bit and masking a range of bits do to the reading of every bit; `countrZero` is the
  number of trailing zeros.
-/
import Mathlib.Data.Nat.Bitwise
import Mathlib.Tactic.Ring

namespace Yuzu

variable {w : Nat} {v : BitVec w} {i j count shift : Nat}

theorem getLsbD_one_shiftLeft : (1#w <<< i).getLsbD j = decide (i = j ∧ j < w) := by
  rw [BitVec.getLsbD_shiftLeft, BitVec.getLsbD_one]
  by_cases hj : j < w
  · by_cases hij : i = j
    · simp [hij, hj, Nat.zero_lt_of_lt hj]
    · by_cases hlt : j < i
      · simp [hj, hij, hlt]
      · have : j - i ≠ 0 := by omega
        simp [hj, hij, this]
  · simp [hj]

theorem getLsbD_or_bit : (v ||| 1#w <<< i).getLsbD j = (v.getLsbD j || decide (i = j ∧ j < w)) := by
  rw [BitVec.getLsbD_or, getLsbD_one_shiftLeft]

theorem getLsbD_and_not_bit :
    (v &&& ~~~(1#w <<< i)).getLsbD j = (v.getLsbD j && !decide (i = j ∧ j < w)) := by
  rw [BitVec.getLsbD_and, BitVec.getLsbD_not, getLsbD_one_shiftLeft]
  by_cases hj : j < w
  · simp [hj]
  · rw [BitVec.getLsbD_of_ge v j (Nat.le_of_not_lt hj)]
    simp

theorem and_bit_eq_zero (hi : i < w) : v &&& 1#w <<< i = 0 ↔ v.getLsbD i = false := by
  constructor
  · intro h
    have e := congrArg (·.getLsbD i) h
    simpa only [BitVec.getLsbD_and, getLsbD_one_shiftLeft, hi, and_self, decide_true,
      Bool.and_true, BitVec.ofNat_eq_ofNat, BitVec.getLsbD_zero] using e
  · intro h
    refine BitVec.eq_of_getLsbD_eq fun j hj => ?_
    rw [BitVec.getLsbD_and, getLsbD_one_shiftLeft, BitVec.ofNat_eq_ofNat, BitVec.getLsbD_zero]
    by_cases hij : i = j
    · rw [← hij, h, Bool.false_and]
    · simp [hij]

theorem word_ne_zero_iff : v ≠ 0 ↔ ∃ i < w, v.getLsbD i = true := by
  constructor
  · intro h
    refine Classical.byContradiction fun hn => h (BitVec.eq_of_getLsbD_eq fun j hj => ?_)
    rw [BitVec.ofNat_eq_ofNat, BitVec.getLsbD_zero]
    by_contra hv
    exact hn ⟨j, hj, by simpa using hv⟩
  · rintro ⟨i, -, h⟩ rfl
    simp at h

/-- The mask of `count` bits from `shift` on, as a shift of ones builds it. -/
theorem getLsbD_mask (hc : count < w) : ((1#w <<< count - 1) <<< shift).getLsbD j =
    decide (shift ≤ j ∧ j < shift + count ∧ j < w) := by
  have hone : 1#w <<< count - 1 = BitVec.ofNat w (2 ^ count - 1) := by
    have hlt : 2 ^ count < 2 ^ w := Nat.pow_lt_pow_right (by decide) hc
    have hpos : 0 < 2 ^ count := Nat.two_pow_pos count
    have h1w : 1 < 2 ^ w := Nat.lt_of_le_of_lt hpos hlt
    have e : 1#w <<< count = BitVec.ofNat w (2 ^ count) := by
      rw [← BitVec.toNat_inj, BitVec.toNat_shiftLeft, BitVec.toNat_ofNat, BitVec.toNat_ofNat,
        Nat.mod_eq_of_lt h1w, Nat.one_shiftLeft]
    have e1 : (1 : BitVec w).toNat = 1 := by
      rw [BitVec.ofNat_eq_ofNat, BitVec.toNat_ofNat, Nat.mod_eq_of_lt h1w]
    rw [e, ← BitVec.toNat_inj, BitVec.toNat_sub_of_le, BitVec.toNat_ofNat, BitVec.toNat_ofNat,
      Nat.mod_eq_of_lt hlt, Nat.mod_eq_of_lt (by omega), e1]
    rw [BitVec.le_def, BitVec.toNat_ofNat, Nat.mod_eq_of_lt hlt, e1]
    exact hpos
  rw [BitVec.getLsbD_shiftLeft, hone, BitVec.getLsbD_ofNat, Nat.testBit_two_pow_sub_one]
  by_cases h1 : j < w
  · by_cases h2 : j < shift
    · simp [h1, h2, Nat.not_le.mpr h2]
    · by_cases h3 : j < shift + count
      · simp [h1, h2, h3, Nat.le_of_not_lt h2]
        omega
      · simp [h1, h2, h3]
        omega
  · simp [h1]

theorem and_mask_eq_iff (hc : count < w) (hs : shift + count ≤ w) :
    v &&& (1#w <<< count - 1) <<< shift = (1#w <<< count - 1) <<< shift ↔
      ∀ j, shift ≤ j → j < shift + count → v.getLsbD j = true := by
  constructor
  · intro h j h1 h2
    have e := congrArg (·.getLsbD j) h
    simp only [BitVec.getLsbD_and, getLsbD_mask hc] at e
    rw [decide_eq_true ⟨h1, h2, by omega⟩, Bool.and_true] at e
    exact e
  · intro h
    refine BitVec.eq_of_getLsbD_eq fun j hj => ?_
    rw [BitVec.getLsbD_and, getLsbD_mask hc]
    by_cases hm : shift ≤ j ∧ j < shift + count ∧ j < w
    · rw [h j hm.1 hm.2.1, Bool.true_and]
    · rw [decide_eq_false hm, Bool.and_false]

theorem getLsbD_and_not_mask (hc : count < w) : (v &&& ~~~((1#w <<< count - 1) <<< shift)).getLsbD j =
      (v.getLsbD j && !decide (shift ≤ j ∧ j < shift + count)) := by
  rw [BitVec.getLsbD_and, BitVec.getLsbD_not, getLsbD_mask hc]
  by_cases hj : j < w
  · simp [hj]
  · rw [BitVec.getLsbD_of_ge v j (Nat.le_of_not_lt hj)]
    simp

/-! ## Trailing zeros -/

/-- The number of trailing zeros of a number, at most `fuel`. -/
def countrZero : Nat → Nat → Nat
  | 0, _ => 0
  | fuel + 1, n => if n % 2 = 1 then 0 else countrZero fuel (n / 2) + 1

theorem countrZero_two_pow : ∀ {fuel k : Nat}, k < fuel → countrZero fuel (2 ^ k) = k
  | 0, _, h => by omega
  | fuel + 1, 0, _ => rfl
  | fuel + 1, k + 1, h => by
    have hm : 2 ^ (k + 1) % 2 = 0 := by
      rw [Nat.pow_succ, Nat.mul_mod_left]
    have hd : 2 ^ (k + 1) / 2 = 2 ^ k := by
      rw [Nat.pow_succ, Nat.mul_div_cancel _ (by decide)]
    rw [countrZero, if_neg (by omega), hd, countrZero_two_pow (by omega)]

theorem two_pow_countrZero_dvd : ∀ (fuel n : Nat), 2 ^ countrZero fuel n ∣ n
  | 0, n => Nat.one_dvd n
  | fuel + 1, n => by
    rw [countrZero]
    split
    · exact Nat.one_dvd n
    · rename_i hn
      obtain ⟨c, hc⟩ := two_pow_countrZero_dvd fuel (n / 2)
      refine ⟨c, ?_⟩
      rw [Nat.pow_succ, Nat.mul_right_comm, ← hc]
      omega

theorem le_countrZero : ∀ {k fuel : Nat} (n : Nat), k ≤ fuel → k ≤ countrZero fuel (n * 2 ^ k)
  | 0, _, _, _ => Nat.zero_le _
  | k + 1, 0, _, h => absurd h (Nat.not_succ_le_zero k)
  | k + 1, fuel + 1, n, h => by
    have hm : n * 2 ^ (k + 1) % 2 = 0 := by
      rw [Nat.pow_succ, ← Nat.mul_assoc, Nat.mul_mod_left]
    have hd : n * 2 ^ (k + 1) / 2 = n * 2 ^ k := by
      rw [Nat.pow_succ, ← Nat.mul_assoc, Nat.mul_div_cancel _ (by decide)]
    rw [countrZero, if_neg (by omega), hd]
    exact Nat.succ_le_succ (le_countrZero n (Nat.le_of_succ_le_succ h))

theorem countrZero_testBit : ∀ {fuel n : Nat}, n ≠ 0 → n < 2 ^ fuel →
    countrZero fuel n < fuel ∧ n.testBit (countrZero fuel n) = true
  | 0, n, h0, h => by
    rw [Nat.pow_zero] at h
    omega
  | fuel + 1, n, h0, h => by
    rw [countrZero]
    split
    · rename_i hn
      refine ⟨Nat.succ_pos _, ?_⟩
      rw [Nat.testBit_zero, decide_eq_true_eq]
      exact hn
    · rename_i hn
      rw [Nat.pow_succ] at h
      have hn0 : n / 2 ≠ 0 := by omega
      have hn1 : n / 2 < 2 ^ fuel := by omega
      obtain ⟨h1, h2⟩ := countrZero_testBit hn0 hn1
      refine ⟨Nat.succ_lt_succ h1, ?_⟩
      rw [Nat.testBit_succ]
      exact h2

theorem countrZero_bits (v : BitVec w) : (∀ j < countrZero w v.toNat, v.getLsbD j = false) ∧
      (v ≠ 0 → countrZero w v.toNat < w ∧ v.getLsbD (countrZero w v.toNat) = true) := by
  constructor
  · intro j hj
    obtain ⟨c, hc⟩ := two_pow_countrZero_dvd w v.toNat
    rw [BitVec.getLsbD, hc, Nat.testBit_two_pow_mul, decide_eq_false (Nat.not_le.mpr hj), Bool.false_and]
  · intro hv
    have hne : v.toNat ≠ 0 := fun h => hv (BitVec.eq_of_toNat_eq h)
    exact countrZero_testBit hne v.isLt

/-! ## Fields of a word -/

section Fields

variable {mask field : BitVec w} {k s t : Nat}

/-- A word with one field written: the mask has the width of the field. -/
def setField (v mask field : BitVec w) (s : Nat) : BitVec w :=
  ~~~(mask <<< s) &&& v ||| field <<< s

theorem getLsbD_setField (hmask : ∀ j, mask.getLsbD j = decide (j < k))
    (hfield : ∀ j, k ≤ j → field.getLsbD j = false) (hj : j < w) :
    (setField v mask field s).getLsbD j =
      if s ≤ j ∧ j < s + k then field.getLsbD (j - s) else v.getLsbD j := by
  rw [setField, BitVec.getLsbD_or, BitVec.getLsbD_and, BitVec.getLsbD_not, BitVec.getLsbD_shiftLeft,
    BitVec.getLsbD_shiftLeft, hmask]
  by_cases hlow : j < s
  · rw [if_neg (by omega)]
    simp [hlow, hj]
  · by_cases hhigh : j < s + k
    · rw [if_pos (by omega)]
      simp [hlow, hj, show j - s < k by omega]
    · rw [if_neg (by omega), hfield (j - s) (by omega)]
      simp [hlow, hj, show ¬ j - s < k by omega]

theorem field_setField_self (hmask : ∀ j, mask.getLsbD j = decide (j < k))
    (hfield : ∀ j, k ≤ j → field.getLsbD j = false) (hs : s + k ≤ w) :
    setField v mask field s >>> s &&& mask = field := by
  refine BitVec.eq_of_getLsbD_eq fun j hj => ?_
  rw [BitVec.getLsbD_and, BitVec.getLsbD_ushiftRight, hmask]
  by_cases hk : j < k
  · rw [getLsbD_setField hmask hfield (by omega), if_pos (by omega), Nat.add_sub_cancel_left]
    simp [hk]
  · rw [hfield j (by omega)]
    simp [hk]

theorem field_setField_other (hmask : ∀ j, mask.getLsbD j = decide (j < k))
    (hfield : ∀ j, k ≤ j → field.getLsbD j = false) (ht : t + k ≤ w)
    (hst : s + k ≤ t ∨ t + k ≤ s) :
    setField v mask field s >>> t &&& mask = v >>> t &&& mask := by
  refine BitVec.eq_of_getLsbD_eq fun j hj => ?_
  rw [BitVec.getLsbD_and, BitVec.getLsbD_and, BitVec.getLsbD_ushiftRight, BitVec.getLsbD_ushiftRight, hmask]
  by_cases hk : j < k
  · rw [getLsbD_setField hmask hfield (by omega), if_neg (by omega)]
  · simp [hk]

end Fields

/-! ## Leading zeros -/

theorem clz_spec (h : v ≠ 0) : v.clz.toNat < w ∧ v.getLsbD (w - 1 - v.clz.toNat) = true ∧
    ∀ k, k < v.clz.toNat → v.getLsbD (w - 1 - k) = false := by
  have hw : 0 < w := by
    rcases Nat.eq_zero_or_pos w with rfl | hw
    · exact absurd (BitVec.of_length_zero) h
    · exact hw
  have hlt : v.clz.toNat < w := by
    have := BitVec.clz_lt_iff_ne_zero.mpr h
    rw [BitVec.lt_def, BitVec.natCast_eq_ofNat, BitVec.toNat_ofNat,
      Nat.mod_eq_of_lt Nat.lt_two_pow_self] at this
    exact this
  refine ⟨hlt, BitVec.getLsbD_true_clz_of_ne_zero hw h, fun k hk => ?_⟩
  have hbound : v.toNat < 2 ^ (w - v.clz.toNat) := BitVec.toNat_lt_two_pow_sub_clz
  rw [BitVec.getLsbD, Nat.testBit_lt_two_pow]
  exact Nat.lt_of_lt_of_le hbound (Nat.pow_le_pow_right (by decide) (by omega))

end Yuzu
