/-
  File:      Yuzu/Lib/CounterMode.lean
  Subject:   Counter mode: block `i` of a text is XORed with the keystream block of the counter
             `iv + i`.

  Texts are functions of a byte offset. The two facts every use rests on: transcoding twice gives
  the text back, and the text from block `n` on is transcoded with the counter moved on by `n`.
-/
import Mathlib.Algebra.Order.Ring.Int

namespace Yuzu

/-- **A cipher in counter mode**: its counters run up to `modulus` and start again, and each has a
keystream block. -/
structure CounterCipher where
  blockSize : Nat
  modulus : Nat
  keystream : Nat → Nat → UInt8
  blockSize_pos : 0 < blockSize

namespace CounterCipher

variable (c : CounterCipher)

/-- The text transcoded from the counter `iv` on. -/
def apply (iv : Nat) (text : Nat → UInt8) (k : Nat) : UInt8 :=
  text k ^^^ c.keystream ((iv + k / c.blockSize) % c.modulus) (k % c.blockSize)

variable {c} {iv iv' n k i : Nat} {text text' : Nat → UInt8}

theorem apply_apply : c.apply iv (c.apply iv text) k = text k := by
  rw [apply, apply, UInt8.xor_assoc, UInt8.xor_self, UInt8.xor_zero]

theorem apply_congr (h : text k = text' k) : c.apply iv text k = c.apply iv text' k := by
  rw [apply, apply, h]

theorem apply_modEq (h : iv % c.modulus = iv' % c.modulus) : c.apply iv text k = c.apply iv' text k := by
  rw [apply, apply, Nat.add_mod, h, ← Nat.add_mod]

/-- **Transcoding from block `n` on** starts with the counter of block `n`. -/
theorem apply_add_blocks :
    c.apply iv text (n * c.blockSize + k) = c.apply (iv + n) (fun i => text (n * c.blockSize + i)) k := by
  have hdiv : (n * c.blockSize + k) / c.blockSize = n + k / c.blockSize := by
    rw [Nat.add_comm, Nat.add_mul_div_right _ _ c.blockSize_pos, Nat.add_comm]
  have hmod : (n * c.blockSize + k) % c.blockSize = k % c.blockSize := by
    rw [Nat.add_comm, Nat.add_mul_mod_self_right]
  rw [apply, apply, hdiv, hmod, Nat.add_assoc]

end CounterCipher

end Yuzu
