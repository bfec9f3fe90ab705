/-
  File:      Yuzu/Common/BitSet.lean
  Subject:   Common::impl::BitSet (common/bit_set.h): flags in words, the most significant bit first.

  * `BitSet.test` -- how a flag is read off the words;
  * `countLeadingZero_spec`, `getNextSet_spec` -- the searches find the first flag that is set, in
    sets of one word, which all uses are.
-/
import Yuzu.Common.Alignment
import Yuzu.Lib.Word

namespace Yuzu.Common

open BitVec

/-- `BitSet` of `n` flags in words of `w` bits. -/
structure BitSet (w n : Nat) where
  words : Nat → BitVec w

namespace BitSet

variable {w n : Nat}

def empty : BitSet w n := ⟨fun _ => 0⟩

/-- `NumWords`. -/
def numWords (w n : Nat) : Nat := alignUp n w / w

def getBitMask (w bit : Nat) : BitVec w := 1#w <<< (w - 1 - bit)

def setBit (s : BitSet w n) (i : Nat) : BitSet w n :=
  ⟨fun k => if k = i / w then s.words k ||| getBitMask w (i % w) else s.words k⟩

def clearBit (s : BitSet w n) (i : Nat) : BitSet w n :=
  ⟨fun k => if k = i / w then s.words k &&& ~~~getBitMask w (i % w) else s.words k⟩

/-- `CountLeadingZeroImpl`. -/
def countLeadingZeroImpl (word : BitVec w) : Nat := word.clz.toNat

/-- The loop of `CountLeadingZero` from word `i` on. -/
def countLeadingZeroFrom (s : BitSet w n) : Nat → Nat → Nat
  | 0, _ => w * numWords w n
  | fuel + 1, i =>
    if s.words i ≠ 0 then w * i + countLeadingZeroImpl (s.words i)
    else countLeadingZeroFrom s fuel (i + 1)

def countLeadingZero (s : BitSet w n) : Nat := s.countLeadingZeroFrom (numWords w n) 0

/-- The loop of `GetNextSet` from word `i` on. -/
def getNextSetFrom (s : BitSet w n) (k : Nat) : Nat → Nat → Nat
  | 0, _ => w * numWords w n
  | fuel + 1, i =>
    let word := if (k + 1) % w ≠ 0 then s.words i &&& (getBitMask w (k % w) - 1) else s.words i
    if word ≠ 0 then w * i + countLeadingZeroImpl word else getNextSetFrom s k fuel (i + 1)

def getNextSet (s : BitSet w n) (k : Nat) : Nat :=
  s.getNextSetFrom k (numWords w n - (k + 1) / w) ((k + 1) / w)

/-- The flag `i`. -/
def test (s : BitSet w n) (i : Nat) : Bool := (s.words (i / w)).getLsbD (w - 1 - i % w)

variable {s : BitSet w n} {i j : Nat}

theorem test_empty : (empty : BitSet w n).test i = false :=
  getLsbD_zero

theorem eq_of_place (hw : 0 < w) (h : j / w = i / w) (hp : w - 1 - i % w = w - 1 - j % w) : i = j := by
  have hi := Nat.mod_lt i hw
  have hj := Nat.mod_lt j hw
  have hmod : i % w = j % w := by omega
  rw [← Nat.div_add_mod i w, ← Nat.div_add_mod j w, h, hmod]

theorem test_setBit (hw : 0 < w) : (s.setBit i).test j = (s.test j || decide (i = j)) := by
  have hlt : w - 1 - j % w < w := by omega
  unfold test setBit
  dsimp only
  split
  · rename_i hk
    rw [getBitMask, getLsbD_or_bit]
    congr 1
    rw [decide_eq_decide]
    exact ⟨fun h => eq_of_place hw hk h.1, fun h => ⟨by rw [h], hlt⟩⟩
  · rename_i hk
    have hne : i ≠ j := fun h => hk (by rw [h])
    rw [decide_eq_false hne, Bool.or_false]

theorem test_clearBit (hw : 0 < w) : (s.clearBit i).test j = (s.test j && !decide (i = j)) := by
  have hlt : w - 1 - j % w < w := by omega
  unfold test clearBit
  dsimp only
  split
  · rename_i hk
    rw [getBitMask, getLsbD_and_not_bit]
    congr 2
    rw [decide_eq_decide]
    exact ⟨fun h => eq_of_place hw hk h.1, fun h => ⟨by rw [h], hlt⟩⟩
  · rename_i hk
    have hne : i ≠ j := fun h => hk (by rw [h])
    rw [decide_eq_false hne, Bool.not_false, Bool.and_true]

theorem countLeadingZeroImpl_spec {word : BitVec w} (h : word ≠ 0) :
    countLeadingZeroImpl word < w ∧ word.getLsbD (w - 1 - countLeadingZeroImpl word) = true ∧
      ∀ k, k < countLeadingZeroImpl word → word.getLsbD (w - 1 - k) = false :=
  clz_spec h

section OneWord

variable (h₁ : numWords w n = 1)

include h₁

/-- **CountLeadingZero** finds the first flag. -/
theorem countLeadingZero_spec : (s.countLeadingZero = w ∧ ∀ k < w, s.test k = false) ∨
    (s.countLeadingZero < w ∧ s.test s.countLeadingZero = true ∧
      ∀ k < s.countLeadingZero, s.test k = false) := by
  have htest : ∀ k < w, s.test k = (s.words 0).getLsbD (w - 1 - k) := fun k hk => by
    rw [test, Nat.div_eq_of_lt hk, Nat.mod_eq_of_lt hk]
  unfold countLeadingZero
  rw [h₁, countLeadingZeroFrom]
  split
  · rename_i hword
    obtain ⟨hlt, hset, hbefore⟩ := countLeadingZeroImpl_spec hword
    rw [Nat.mul_zero, Nat.zero_add]
    refine .inr ⟨hlt, by rw [htest _ hlt]; exact hset, fun k hk => ?_⟩
    rw [htest k (Nat.lt_trans hk hlt)]
    exact hbefore k hk
  · rename_i hword
    rw [countLeadingZeroFrom, h₁, Nat.mul_one]
    refine .inl ⟨rfl, fun k hk => ?_⟩
    rw [htest k hk, not_not.mp hword]
    exact getLsbD_zero

/-- **GetNextSet** finds the first flag after `i`. -/
theorem getNextSet_spec (hi : i < w) : (s.getNextSet i = w ∧ ∀ k, i < k → k < w → s.test k = false) ∨
    (i < s.getNextSet i ∧ s.getNextSet i < w ∧ s.test (s.getNextSet i) = true ∧
      ∀ k, i < k → k < s.getNextSet i → s.test k = false) := by
  have htest : ∀ k < w, s.test k = (s.words 0).getLsbD (w - 1 - k) := fun k hk => by
    rw [test, Nat.div_eq_of_lt hk, Nat.mod_eq_of_lt hk]
  unfold getNextSet
  by_cases hlast : i + 1 = w
  · -- the last flag: no word is left
    rw [hlast, Nat.div_self (by omega), h₁, Nat.sub_self, getNextSetFrom, h₁, Nat.mul_one]
    exact .inl ⟨rfl, fun k h₁ h2 => by omega⟩
  have hlt : i + 1 < w := by omega
  have hmask : ∀ k < w, (s.words 0 &&& (getBitMask w (i % w) - 1)).getLsbD (w - 1 - k) =
      (s.test k && decide (i < k)) := fun k hk => by
    have hmask' := @getLsbD_mask w (w - 1 - k) (w - 1 - i) 0 (by omega)
    rw [shiftLeft_zero] at hmask'
    rw [getLsbD_and, getBitMask, Nat.mod_eq_of_lt hi, hmask', htest k hk]
    congr 1
    rw [decide_eq_decide]
    omega
  rw [Nat.div_eq_of_lt hlt, h₁, Nat.sub_zero, getNextSetFrom, Nat.mod_eq_of_lt hlt,
    if_pos (Nat.succ_ne_zero i)]
  split
  · rename_i hword
    obtain ⟨hlt', hset, hbefore⟩ := countLeadingZeroImpl_spec hword
    rw [Nat.mul_zero, Nat.zero_add]
    rw [hmask _ hlt', Bool.and_eq_true, decide_eq_true_eq] at hset
    refine .inr ⟨hset.2, hlt', hset.1, fun k hk1 hk2 => ?_⟩
    have := hbefore k hk2
    rw [hmask k (Nat.lt_trans hk2 hlt'), decide_eq_true hk1, Bool.and_true] at this
    exact this
  · rename_i hword
    rw [getNextSetFrom, h₁, Nat.mul_one]
    refine .inl ⟨rfl, fun k hk1 hk2 => ?_⟩
    have := hmask k hk2
    rw [not_not.mp hword, decide_eq_true hk1, Bool.and_true] at this
    rw [← this]
    exact getLsbD_zero

end OneWord

end BitSet

end Yuzu.Common
