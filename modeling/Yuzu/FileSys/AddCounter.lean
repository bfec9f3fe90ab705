/-
  File:      Yuzu/FileSys/AddCounter.lean
  Subject:   `AddCounter` (core/file_sys/fssystem/fssystem_utility.cpp).

  A counter is a list of bytes, the highest first. The loop walks it from the lowest byte with what
  is left of the value and the carry, and stops early when both are 0. It adds the value modulo the
  number of counters (`counterValue_addCounter`).
-/
import Yuzu.Lib.BigEndian

namespace Yuzu.FileSys

open List

/-! ## 1. The code -/

/-- The loop of `AddCounter`, over the bytes from the lowest on. -/
def addCounterLoop : List UInt8 → Nat → Nat → List UInt8
  | [], _, _ => []
  | b :: bytes, remaining, carry =>
    let sum := b.toNat + remaining % 256 + carry
    let carry := sum / 256
    let sum8 := UInt8.ofNat (sum % 256)
    let remaining := remaining / 256
    if carry = 0 ∧ remaining = 0 then sum8 :: bytes
    else sum8 :: addCounterLoop bytes remaining carry

/-- `AddCounter`. -/
def addCounter (counter : List UInt8) (value : Nat) : List UInt8 :=
  (addCounterLoop counter.reverse value 0).reverse

/-- The number that a counter holds, big-endian. -/
def counterValue (counter : List UInt8) : Nat := bigEndian 256 (counter.map UInt8.toNat)

/-! ## 2. What it adds -/

variable {counter bytes : List UInt8} {value remaining carry : Nat}

theorem length_addCounterLoop : (addCounterLoop bytes remaining carry).length = bytes.length := by
  induction bytes generalizing remaining carry with
  | nil => rfl
  | cons b bytes ih =>
    dsimp only [addCounterLoop]
    split
    · rfl
    · rw [length_cons, length_cons, ih]

theorem length_addCounter : (addCounter counter value).length = counter.length := by
  rw [addCounter, length_reverse, length_addCounterLoop, length_reverse]

theorem counterValue_lt : counterValue counter < 256 ^ counter.length := by
  have hlt := @bigEndian_lt 256 (counter.map UInt8.toNat) fun d hd => by
    obtain ⟨b, -, rfl⟩ := mem_map.mp hd
    exact b.toNat_lt
  rwa [length_map] at hlt

theorem counterValue_reverse_cons (b : UInt8) :
    counterValue (b :: bytes).reverse = counterValue bytes.reverse * 256 + b.toNat := by
  rw [counterValue, reverse_cons, map_append, map_singleton, bigEndian_concat]
  rfl

/-- **The loop adds what remains and the carry**, modulo the counters of the bytes left. -/
theorem counterValue_addCounterLoop : counterValue (addCounterLoop bytes remaining carry).reverse =
      (counterValue bytes.reverse + remaining + carry) % 256 ^ bytes.length := by
  induction bytes generalizing remaining carry with
  | nil => rw [length_nil, Nat.pow_zero, Nat.mod_one]; rfl
  | cons b bytes ih =>
    dsimp only [addCounterLoop]
    generalize hsum : b.toNat + remaining % 256 + carry = sum
    have hlow : (UInt8.ofNat (sum % 256)).toNat = sum % 256 := by
      rw [UInt8.toNat_ofNat']
      exact Nat.mod_mod _ _
    have htotal : counterValue (b :: bytes).reverse + remaining + carry =
        sum + 256 * (counterValue bytes.reverse + remaining / 256) := by
      rw [counterValue_reverse_cons, ← hsum]
      omega
    rw [htotal, length_cons]
    split
    · rename_i hstop
      -- nothing is carried on: the bytes above stay, and the sum is below the modulus
      obtain ⟨hcarry, hrest⟩ := hstop
      have hlt := @counterValue_lt bytes.reverse
      rw [length_reverse] at hlt
      have hpow : 256 ^ (bytes.length + 1) = 256 * 256 ^ bytes.length := Nat.pow_succ'
      have htop : sum + 256 * (counterValue bytes.reverse + 0) < 256 ^ (bytes.length + 1) := by omega
      rw [counterValue_reverse_cons, hlow, hrest, Nat.mod_eq_of_lt htop]
      omega
    · rw [counterValue_reverse_cons, ih, hlow, Nat.pow_succ', Nat.mod_mul]
      have hdiv : (sum + 256 * (counterValue bytes.reverse + remaining / 256)) / 256 =
          counterValue bytes.reverse + remaining / 256 + sum / 256 := by omega
      rw [hdiv, Nat.add_mul_mod_self_left]
      omega

/-- **`AddCounter` adds the value to the number in the counter**, with every carry. -/
theorem counterValue_addCounter :
    counterValue (addCounter counter value) = (counterValue counter + value) % 256 ^ counter.length := by
  rw [addCounter, counterValue_addCounterLoop, reverse_reverse, length_reverse, Nat.add_zero]

example : addCounter [0x00, 0xFF, 0xFE] 0x103 = [0x01, 0x01, 0x01] := by decide

end Yuzu.FileSys
