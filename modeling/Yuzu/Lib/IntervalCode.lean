/-
  File:      Yuzu/Lib/IntervalCode.lean
  Subject:   Interval coding with exact numbers: each symbol narrows an interval, and scaling it adds
             a binary digit.

  The interval after `shifts` digits is `low, low + 1, …, low + range - 1` in units of
  `2 ^ -(width + shifts)`. A later interval lies in every earlier one (`Inside`), which is what a decoder
  uses, and what keeps the leading digits of the low end from shrinking.
-/
import Mathlib.Tactic.Ring

namespace Yuzu

/-- An interval of codes. -/
structure CodeInterval where
  low : Nat
  range : Nat
  shifts : Nat
  deriving DecidableEq, Repr

namespace CodeInterval

variable {c d e : CodeInterval} {width m k split : Nat}

/-- The part below the split for a `false`, the part above for a `true`. -/
def narrow (c : CodeInterval) (split : Nat) (bit : Bool) : CodeInterval :=
  if bit then ⟨c.low + split, c.range - split, c.shifts⟩ else ⟨c.low, split, c.shifts⟩

/-- The same interval with more digits. -/
def scale (c : CodeInterval) (s : Nat) : CodeInterval := ⟨c.low * 2 ^ s, c.range * 2 ^ s, c.shifts + s⟩

/-- The second interval lies in the first. -/
structure Inside (c d : CodeInterval) : Prop where
  shifts_le : c.shifts ≤ d.shifts
  low_le : c.low * 2 ^ (d.shifts - c.shifts) ≤ d.low
  high_le : d.low + d.range ≤ (c.low + c.range) * 2 ^ (d.shifts - c.shifts)

theorem Inside.refl (c : CodeInterval) : Inside c c :=
  ⟨Nat.le_refl _, by rw [Nat.sub_self, Nat.pow_zero, Nat.mul_one],
    by rw [Nat.sub_self, Nat.pow_zero, Nat.mul_one]⟩

theorem Inside.trans (h : Inside c d) (h' : Inside d e) : Inside c e := by
  have hpow : 2 ^ (e.shifts - c.shifts) = 2 ^ (d.shifts - c.shifts) * 2 ^ (e.shifts - d.shifts) := by
    rw [← Nat.pow_add]
    congr 1
    have := h.shifts_le
    have := h'.shifts_le
    omega
  refine ⟨Nat.le_trans h.shifts_le h'.shifts_le, ?_, ?_⟩
  · rw [hpow, ← Nat.mul_assoc]
    exact Nat.le_trans (Nat.mul_le_mul_right _ h.low_le) h'.low_le
  · rw [hpow, ← Nat.mul_assoc]
    exact Nat.le_trans h'.high_le (Nat.mul_le_mul_right _ h.high_le)

theorem inside_narrow (hs : split ≤ c.range) (bit : Bool) : Inside c (c.narrow split bit) := by
  cases bit with
  | false =>
    refine ⟨Nat.le_refl _, ?_, ?_⟩ <;>
      simp only [narrow, Bool.false_eq_true, if_false, Nat.sub_self, Nat.pow_zero, Nat.mul_one] <;> omega
  | true =>
    refine ⟨Nat.le_refl _, ?_, ?_⟩ <;>
      simp only [narrow, if_true, Nat.sub_self, Nat.pow_zero, Nat.mul_one] <;> omega

theorem inside_scale (s : Nat) : Inside c (c.scale s) := by
  refine ⟨Nat.le_add_right _ _, ?_, ?_⟩
  · simp only [scale, Nat.add_sub_cancel_left]
    exact Nat.le_refl _
  · simp only [scale, Nat.add_sub_cancel_left, Nat.add_mul]
    exact Nat.le_refl _

/-- The first `m` digits of the low end. -/
def leading (width : Nat) (c : CodeInterval) (m : Nat) : Nat := c.low / 2 ^ (width + c.shifts - m)

theorem leading_sub (hm : m ≤ width + c.shifts) (hk : k ≤ m) :
    c.leading width (m - k) = c.leading width m / 2 ^ k := by
  rw [leading, leading, Nat.div_div_eq_div_mul, ← Nat.pow_add]
  congr 2
  omega

theorem leading_scale (s : Nat) (hm : m ≤ width + c.shifts) :
    (c.scale s).leading width m = c.leading width m := by
  have hpow : 2 ^ (width + (c.shifts + s) - m) = 2 ^ s * 2 ^ (width + c.shifts - m) := by
    rw [← Nat.pow_add]
    congr 1
    omega
  simp only [leading, scale]
  rw [hpow, Nat.mul_comm c.low, Nat.mul_div_mul_left _ _ (Nat.two_pow_pos s)]

/-- **Leading digits never shrink.** -/
theorem Inside.leading_le (h : Inside c d) (hm : m ≤ width + c.shifts) :
    c.leading width m ≤ d.leading width m := by
  have hle := h.shifts_le
  have hlow := h.low_le
  have hscale := @CodeInterval.leading_scale c width m (d.shifts - c.shifts) hm
  rw [← hscale, leading, leading]
  simp only [scale]
  have hshifts : c.shifts + (d.shifts - c.shifts) = d.shifts := by omega
  rw [hshifts]
  exact Nat.div_le_div_right hlow

/-- **A later low end lies in the interval**, read with as many digits. -/
theorem Inside.low_mem (h : Inside c d) (hd : 0 < d.range) :
    c.low ≤ d.low / 2 ^ (d.shifts - c.shifts) ∧ d.low / 2 ^ (d.shifts - c.shifts) < c.low + c.range := by
  have hpos : 0 < 2 ^ (d.shifts - c.shifts) := Nat.two_pow_pos _
  have hlow := h.low_le
  have hhigh := h.high_le
  exact ⟨(Nat.le_div_iff_mul_le hpos).mpr hlow, (Nat.div_lt_iff_lt_mul hpos).mpr (by omega)⟩

end CodeInterval

end Yuzu
