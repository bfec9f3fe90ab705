/-
  File:      Yuzu/Kernel/PageBitmap.lean
  Subject:   KPageBitmap (k_page_bitmap.h): a set of offsets as a tree of 64-bit words.

  The words of depth `k + 1` are the leaves' summary at depth `k`: the bit of a word is set
  exactly if the word is not zero (`Tree`). The random generator draws from an arbitrary stream of
  32-bit values.

  * `Represents` -- the bitmap stands for a finite set of offsets below its size;
  * `Represents.setBit`, `clearBit`, `clearRange`, `findFreeBlock`, `findFreeRange` -- the
    operations in terms of that set.
-/
import Yuzu.Lib.Assert
import Yuzu.Lib.Word
import Mathlib.Order.Interval.Finset.Nat

namespace Yuzu.Kernel

/-! ## 1. Random bits -/

/-- `KPageBitmap::RandomBitGenerator`: `rng` are the values its generator will give, `drawn` how
    many it has given. -/
structure RandomBitGenerator where
  rng : Nat → BitVec 32
  drawn : Nat := 0
  entropy : BitVec 32 := 0
  bitsAvailable : Nat := 0

namespace RandomBitGenerator

/-- The generator that draws zeros. -/
def zeros : RandomBitGenerator := ⟨fun _ => 0, 0, 0, 0⟩

def refreshEntropy (g : RandomBitGenerator) : RandomBitGenerator :=
  { g with drawn := g.drawn + 1, entropy := g.rng g.drawn, bitsAvailable := 32 }

def generateRandomBit (g : RandomBitGenerator) : Bool × RandomBitGenerator :=
  let g := if g.bitsAvailable = 0 then g.refreshEntropy else g
  (g.entropy.getLsbD 0, { g with entropy := g.entropy >>> 1, bitsAvailable := g.bitsAvailable - 1 })

/-- The loop of `GenerateRandomBits`; every iteration takes at least one bit. -/
def generateRandomBitsLoop : Nat → Nat → BitVec 64 → RandomBitGenerator → BitVec 64 × RandomBitGenerator
  | 0, _, result, g => (result, g)
  | fuel + 1, numBits, result, g =>
    if numBits > 0 then
      let g := if g.bitsAvailable = 0 then g.refreshEntropy else g
      let curBits := min numBits g.bitsAvailable
      let mask := 1#64 <<< curBits - 1
      generateRandomBitsLoop fuel (numBits - curBits)
        (result <<< curBits ||| (g.entropy.setWidth 64 &&& mask))
        { g with
          entropy := g.entropy >>> curBits
          bitsAvailable := g.bitsAvailable - curBits }
    else (result, g)

def generateRandomBits (g : RandomBitGenerator) (numBits : Nat) : BitVec 64 × RandomBitGenerator :=
  generateRandomBitsLoop numBits numBits 0 g

/-- The width of a number: 64 less its leading zeros. -/
def bitWidth (n : Nat) : Nat := if n = 0 then 0 else n.log2 + 1

def generateRandom (g : RandomBitGenerator) (max : Nat) : Nat × RandomBitGenerator :=
  let (rnd, g) := g.generateRandomBits (1 + bitWidth max)
  (rnd.toNat - rnd.toNat / max * max, g)

/-- The loop of `SelectRandomBit`, `curNumBits` being the powers of two below `2 ^ e`. -/
def selectRandomBitLoop : Nat → BitVec 64 → Nat → RandomBitGenerator → Nat × RandomBitGenerator
  | 0, _, selected, g => (selected, g)
  | e + 1, bitmap, selected, g =>
    let curNumBits := 2 ^ e
    let high := bitmap >>> curNumBits
    let low := bitmap &&& ~~~(BitVec.allOnes 64 <<< curNumBits)
    if high = 0 then selectRandomBitLoop e low selected g
    else if low = 0 then selectRandomBitLoop e high (selected + curNumBits) g
    else
      let (bit, g) := g.generateRandomBit
      if bit then selectRandomBitLoop e high (selected + curNumBits) g
      else selectRandomBitLoop e low selected g

def selectRandomBit (g : RandomBitGenerator) (bitmap : BitVec 64) : Nat × RandomBitGenerator :=
  selectRandomBitLoop 6 bitmap 0 g

theorem generateRandom_lt (g : RandomBitGenerator) (max : Nat) (h : 0 < max) :
    (g.generateRandom max).1 < max := by
  have e : ∀ r : Nat, r - r / max * max < max := fun r => by
    have := Nat.div_add_mod' r max
    have := Nat.mod_lt r h
    omega
  exact e _

/-- Halving keeps a set bit: whatever half is chosen, it is not empty and its bits are bits of the
    word from `selected` on. -/
theorem selectRandomBitLoop_spec {v : BitVec 64} : ∀ {e : Nat} {bitmap : BitVec 64}
    {selected : Nat} {g : RandomBitGenerator}, bitmap ≠ 0 →
    (∀ j, bitmap.getLsbD j = true → j < 2 ^ e ∧ v.getLsbD (selected + j) = true) →
    v.getLsbD (selectRandomBitLoop e bitmap selected g).1 = true
  | 0, bitmap, selected, g, h0, h => by
    obtain ⟨j, -, hj⟩ := word_ne_zero_iff.mp h0
    obtain ⟨h1, h2⟩ := h j hj
    obtain rfl : j = 0 := by simpa using h1
    exact h2
  | e + 1, bitmap, selected, g, h0, h => by
    have hhigh : ∀ j, (bitmap >>> 2 ^ e).getLsbD j = true →
        j < 2 ^ e ∧ v.getLsbD (selected + 2 ^ e + j) = true := by
      intro j hj
      rw [BitVec.getLsbD_ushiftRight] at hj
      obtain ⟨h1, h2⟩ := h _ hj
      rw [Nat.pow_succ] at h1
      exact ⟨by omega, by rw [Nat.add_assoc]; exact h2⟩
    have hlowBit : ∀ j, (bitmap &&& ~~~(BitVec.allOnes 64 <<< 2 ^ e)).getLsbD j =
        (bitmap.getLsbD j && decide (j < 2 ^ e)) := by
      intro j
      rw [BitVec.getLsbD_and, BitVec.getLsbD_not, BitVec.getLsbD_shiftLeft, BitVec.getLsbD_allOnes]
      by_cases hj : j < 64
      · by_cases hje : j < 2 ^ e
        · simp [hj, hje]
        · simp [hj, hje, Nat.lt_of_le_of_lt (Nat.sub_le j (2 ^ e)) hj]
      · rw [BitVec.getLsbD_of_ge bitmap j (Nat.le_of_not_lt hj)]
        simp
    have hlow : ∀ j, (bitmap &&& ~~~(BitVec.allOnes 64 <<< 2 ^ e)).getLsbD j = true →
        j < 2 ^ e ∧ v.getLsbD (selected + j) = true := by
      intro j hj
      rw [hlowBit, Bool.and_eq_true, decide_eq_true_eq] at hj
      exact ⟨hj.2, (h j hj.1).2⟩
    -- if the high half is empty, the set bit is in the low half
    have hne : bitmap >>> 2 ^ e = 0 → bitmap &&& ~~~(BitVec.allOnes 64 <<< 2 ^ e) ≠ 0 := by
      intro hz
      obtain ⟨j, hj, hb⟩ := word_ne_zero_iff.mp h0
      refine word_ne_zero_iff.mpr ⟨j, hj, ?_⟩
      rw [hlowBit, hb, Bool.true_and, decide_eq_true_eq]
      refine Nat.lt_of_not_le fun hle => ?_
      have e1 := congrArg (·.getLsbD (j - 2 ^ e)) hz
      simp only [BitVec.getLsbD_ushiftRight, BitVec.ofNat_eq_ofNat, BitVec.getLsbD_zero,
        Nat.add_sub_cancel' hle, hb] at e1
      cases e1
    rw [selectRandomBitLoop]
    dsimp only
    split
    · rename_i hz
      exact selectRandomBitLoop_spec (hne hz) hlow
    · rename_i hh
      split
      · exact selectRandomBitLoop_spec hh hhigh
      · rename_i hl
        split
        · exact selectRandomBitLoop_spec hh hhigh
        · exact selectRandomBitLoop_spec hl hlow

theorem selectRandomBit_spec (g : RandomBitGenerator) {v : BitVec 64} (h : v ≠ 0) :
    v.getLsbD (g.selectRandomBit v).1 = true := by
  refine selectRandomBitLoop_spec h fun j hj => ⟨BitVec.lt_of_getLsbD hj, ?_⟩
  rw [Nat.zero_add]
  exact hj

end RandomBitGenerator

/-! ## 2. The bitmap -/

/-- The words of every depth. -/
abbrev BitStorage := Nat → Nat → BitVec 64

namespace BitStorage

/-- `m_bit_storages[depth][ind] = v`. -/
def write (s : BitStorage) (depth ind : Nat) (v : BitVec 64) : BitStorage :=
  fun d i => if d = depth ∧ i = ind then v else s d i

/-- The bit of an offset at a depth. -/
def bit (s : BitStorage) (depth offset : Nat) : Bool :=
  (s depth (offset / 64)).getLsbD (offset % 64)

/-- `SetBit(depth, offset)`, the depths from the given one less one up to the root. -/
def setBit : Nat → Nat → BitStorage → Option BitStorage
  | 0, _, s => some s
  | depth + 1, offset, s => do
    let ind := offset / 64
    let mask := 1#64 <<< (offset % 64)
    let v := s depth ind
    assert (v &&& mask = 0)
    let s := s.write depth ind (v ||| mask)
    if v ≠ 0 then some s else setBit depth ind s

/-- `ClearBit(depth, offset)`. -/
def clearBit : Nat → Nat → BitStorage → Option BitStorage
  | 0, _, s => some s
  | depth + 1, offset, s => do
    let ind := offset / 64
    let mask := 1#64 <<< (offset % 64)
    let v := s depth ind
    assert (v &&& mask ≠ 0)
    let v := v &&& ~~~mask
    let s := s.write depth ind v
    if v ≠ 0 then some s else clearBit depth ind s

/-- Clear the bits of a mask in a word, and its summary if nothing is left of it. -/
def clearMask (depth ind : Nat) (mask : BitVec 64) (s : BitStorage) : Option BitStorage :=
  let v := s depth ind &&& ~~~mask
  let s := s.write depth ind v
  if v = 0 then s.clearBit depth ind else some s

/-- The first loop over whole words of `ClearRange`: all of them are full. -/
def fullWords (s : BitStorage) (depth ind : Nat) : Nat → Bool
  | 0 => true
  | n + 1 => s depth ind == BitVec.allOnes 64 && fullWords s depth (ind + 1) n

/-- The second loop: every word is cleared. -/
def clearWords (depth ind : Nat) : Nat → BitStorage → Option BitStorage
  | 0, s => some s
  | n + 1, s => do clearWords depth (ind + 1) n (← clearBit depth ind (s.write depth ind 0))

end BitStorage

structure KPageBitmap where
  storage : BitStorage
  /-- `m_end_storages[depth] - m_bit_storages[depth]`. -/
  numWords : Nat → Nat
  rng : RandomBitGenerator
  numBits : Nat
  usedDepths : Nat

namespace KPageBitmap

def maxDepth : Nat := 4

def getRequiredDepthLoop : Nat → Nat → Nat
  | 0, _ => 0
  | fuel + 1, regionSize =>
    if regionSize / 64 = 0 then 1 else getRequiredDepthLoop fuel (regionSize / 64) + 1

def getRequiredDepth (regionSize : Nat) : Nat := getRequiredDepthLoop (regionSize.log2 + 1) regionSize

/-- The words of a depth, `n` depths above the leaves: the size divided by 64, rounding up, once
    for each depth. -/
def wordsAbove (size : Nat) : Nat → Nat
  | 0 => (size + 63) / 64
  | n + 1 => (wordsAbove size n + 63) / 64

def calculateManagementOverheadSize (regionSize : Nat) : Nat :=
  ((List.range (getRequiredDepth regionSize)).map (wordsAbove regionSize)).sum * 8

/-- `Initialize(storage, size)` on cleared storage, with the number of words taken. -/
def initializeBitmap (rng : RandomBitGenerator) (size : Nat) : Option (KPageBitmap × Nat) := do
  let usedDepths := getRequiredDepth size
  assert (usedDepths ≤ maxDepth)
  return ({
    storage := fun _ _ => 0
    numWords := fun depth => wordsAbove size (usedDepths - 1 - depth)
    rng := rng
    numBits := 0
    usedDepths := usedDepths }, ((List.range usedDepths).map (wordsAbove size)).sum)

/-- The bit of a word `FindFreeBlock` descends to. -/
def selectBit (random : Bool) (v : BitVec 64) (g : RandomBitGenerator) : Nat × RandomBitGenerator :=
  if random then g.selectRandomBit v else (countrZero 64 v.toNat, g)

/-- The loop of `FindFreeBlock` with `n` depths to go; the inner `none` is the result -1. -/
def findFreeBlockLoop (s : BitStorage) (random : Bool) : Nat → Nat → Nat → RandomBitGenerator →
    Option (Option Nat × RandomBitGenerator)
  | 0, _, offset, g => some (some offset, g)
  | n + 1, depth, offset, g =>
    let v := s depth offset
    if v = 0 then do
      assert (depth = 0)
      return (none, g)
    else
      let (i, g) := selectBit random v g
      findFreeBlockLoop s random n (depth + 1) (offset * 64 + i) g

def findFreeBlock (bm : KPageBitmap) (random : Bool) : Option (Option Nat × KPageBitmap) := do
  let (r, g) ← findFreeBlockLoop bm.storage random bm.usedDepths 0 0 bm.rng
  return (r, { bm with rng := g })

/-- What `FindFreeRange` carries along: the valid options seen, the one chosen, the generator. -/
structure RangeChoice where
  numValidOptions : Nat
  chosenOffset : Option Nat
  rng : RandomBitGenerator

/-- A valid option replaces the one chosen so far with probability one over their number. -/
def RangeChoice.offer (c : RangeChoice) (offset : Nat) : RangeChoice :=
  let numValidOptions := c.numValidOptions + 1
  if numValidOptions = 1 then ⟨numValidOptions, some offset, c.rng⟩
  else
    let (rnd, g) := c.rng.generateRandom numValidOptions
    ⟨numValidOptions, if rnd = 0 then some offset else c.chosenOffset, g⟩

/-- The inner loop of `FindFreeRange` with `n` options of a word to go. -/
def findRangeInWord (count storageIndex : Nat) : Nat → Nat → BitVec 64 → RangeChoice → RangeChoice
  | 0, _, _, c => c
  | n + 1, option, storage, c =>
    let freeMask := 1#64 <<< count - 1
    let c :=
      if storage &&& freeMask = freeMask then c.offer (storageIndex * 64 + option * count) else c
    findRangeInWord count storageIndex n (option + 1) (storage >>> count) c

/-- The outer loop with `n` words to go. -/
def findRangeInWords (count : Nat) (words : Nat → BitVec 64) : Nat → Nat → RangeChoice → RangeChoice
  | 0, _, c => c
  | n + 1, storageIndex, c =>
    findRangeInWords count words n (storageIndex + 1)
      (findRangeInWord count storageIndex (max (64 / count) 1) 0 (words storageIndex) c)

/-- `FindFreeRange`, with the inner `none` for -1. -/
def findFreeRange (bm : KPageBitmap) (count : Nat) : Option (Option Nat × KPageBitmap) :=
  let numEntries := bm.numWords (bm.usedDepths - 1)
  if ¬(0 < numEntries ∧ count ≤ 64) then some (none, bm)
  else do
    -- there is no division by 0, and a 64-bit word cannot be shifted by 64
    assert (0 < count ∧ count < 64)
    let c := findRangeInWords count (bm.storage (bm.usedDepths - 1)) numEntries 0 ⟨0, none, bm.rng⟩
    return (c.chosenOffset, { bm with rng := c.rng })

def setBit (bm : KPageBitmap) (offset : Nat) : Option KPageBitmap := do
  let s ← bm.storage.setBit bm.usedDepths offset
  return { bm with storage := s, numBits := bm.numBits + 1 }

def clearBit (bm : KPageBitmap) (offset : Nat) : Option KPageBitmap := do
  let s ← bm.storage.clearBit bm.usedDepths offset
  return { bm with storage := s, numBits := bm.numBits - 1 }

/-- The words of `ClearRange`: `none` where an `ASSERT` fails, an inner `none` where not all bits
    are set. -/
def clearRangeStorage (s : BitStorage) (depth offset count : Nat) : Option (Option BitStorage) :=
  let bitInd := offset / 64
  if count < 64 then do
    let shift := offset % 64
    assert (shift + count ≤ 64)
    let mask := (1#64 <<< count - 1) <<< shift
    if s depth bitInd &&& mask ≠ mask then some none
    else return some (← s.clearMask depth bitInd mask)
  else do
    assert (offset % 64 = 0)
    assert (count % 64 = 0)
    if !s.fullWords depth bitInd (count / 64) then some none
    else return some (← s.clearWords depth bitInd (count / 64))

def clearRange (bm : KPageBitmap) (offset count : Nat) : Option (Bool × KPageBitmap) := do
  match ← clearRangeStorage bm.storage (bm.usedDepths - 1) offset count with
  | none => return (false, bm)
  | some s => return (true, { bm with storage := s, numBits := bm.numBits - count })

end KPageBitmap

/-! ## 3. The tree of words -/

namespace BitStorage

variable {s s' : BitStorage} {d n i j offset : Nat} {v : BitVec 64}

@[simp] theorem write_same : s.write d i v d i = v := if_pos ⟨rfl, rfl⟩

theorem write_ind (h : j ≠ i) : s.write d i v d j = s d j := if_neg fun e => h e.2

theorem write_depth (h : n ≠ d) : s.write d i v n = s n := funext fun _ => if_neg fun e => h e.1

theorem bit_congr (h : s n = s' n) : s.bit n i = s'.bit n i := by
  rw [bit, bit, h]

theorem word_ne_zero_iff_bit : s d i ≠ 0 ↔ ∃ j, j / 64 = i ∧ s.bit d j = true := by
  rw [word_ne_zero_iff]
  constructor
  · rintro ⟨k, hk, hb⟩
    refine ⟨i * 64 + k, by omega, ?_⟩
    rw [bit, show (i * 64 + k) / 64 = i by omega, show (i * 64 + k) % 64 = k by omega]
    exact hb
  · rintro ⟨j, rfl, hb⟩
    exact ⟨j % 64, Nat.mod_lt _ (by decide), hb⟩

/-- The words of every depth but the first are summarised one depth above. -/
def Tree (s : BitStorage) (n : Nat) : Prop :=
  ∀ k, k + 1 < n → ∀ i, s.bit k i = true ↔ s (k + 1) i ≠ 0

theorem Tree.write (h : s.Tree (d + 1)) (hv : v ≠ 0 ↔ s d i ≠ 0) : (s.write d i v).Tree (d + 1) := by
  intro k hk j
  rw [bit_congr (write_depth (by omega))]
  by_cases hkd : k + 1 = d
  · subst hkd
    by_cases hji : j = i
    · rw [hji, write_same, hv]
      exact h k hk i
    · rw [write_ind hji]
      exact h k hk j
  · rw [write_depth hkd]
    exact h k hk j

theorem Tree.mono (h : s.Tree (n + 1)) : s.Tree n := fun k hk => h k (by omega)

theorem Tree.congr (h : s.Tree n) (hs : ∀ k < n, s' k = s k) : s'.Tree n := by
  intro k hk i
  rw [bit_congr (hs k (by omega)), hs (k + 1) hk]
  exact h k hk i

theorem Tree.succ (h : s.Tree (d + 1)) (hd : ∀ i, s.bit d i = true ↔ s (d + 1) i ≠ 0) : s.Tree (d + 2) := by
  intro k hk
  by_cases hkd : k = d
  · rw [hkd]
    exact hd
  · exact h k (by omega)

theorem bit_write_or : (s.write d (offset / 64) (s d (offset / 64) ||| 1#64 <<< (offset % 64))).bit d i =
      (s.bit d i || decide (offset = i)) := by
  have hlt := Nat.mod_lt i (show 0 < 64 by decide)
  rw [bit, bit]
  by_cases h : i / 64 = offset / 64
  · rw [h, write_same, getLsbD_or_bit]
    congr 2
    simp only [eq_iff_iff]
    omega
  · rw [write_ind h, decide_eq_false (by omega), Bool.or_false]

theorem bit_write_and_not :
    (s.write d (offset / 64) (s d (offset / 64) &&& ~~~(1#64 <<< (offset % 64)))).bit d i =
      (s.bit d i && !decide (offset = i)) := by
  have hlt := Nat.mod_lt i (show 0 < 64 by decide)
  rw [bit, bit]
  by_cases h : i / 64 = offset / 64
  · rw [h, write_same, getLsbD_and_not_bit]
    congr 3
    simp only [eq_iff_iff]
    omega
  · rw [write_ind h, decide_eq_false (by omega), Bool.not_false, Bool.and_true]

/-- **Setting a bit**, by induction from the leaves up: the bit is set at the depth the loop begins
    at, deeper words are not touched, and the words above summarise again. -/
theorem setBit_spec : ∀ {d offset : Nat} {s : BitStorage}, s.Tree (d + 1) →
    s.bit d offset = false → ∃ s', setBit (d + 1) offset s = some s' ∧ s'.Tree (d + 1) ∧
      (∀ i, s'.bit d i = (s.bit d i || decide (offset = i))) ∧ ∀ k, d < k → s' k = s k := by
  intro d
  induction d with
  | zero =>
    intro offset s _ hb
    have hz : s 0 (offset / 64) &&& 1#64 <<< (offset % 64) = 0 :=
      (and_bit_eq_zero (Nat.mod_lt _ (by decide))).mpr hb
    refine ⟨s.write 0 (offset / 64) (s 0 (offset / 64) ||| 1#64 <<< (offset % 64)), ?_,
      fun k hk => absurd hk (by omega), fun _ => bit_write_or, fun k hk => write_depth (by omega)⟩
    rw [setBit, assert_bind_of hz]
    dsimp only
    split <;> rfl
  | succ d ih =>
    intro offset s ht hb
    have hz : s (d + 1) (offset / 64) &&& 1#64 <<< (offset % 64) = 0 :=
      (and_bit_eq_zero (Nat.mod_lt _ (by decide))).mpr hb
    have hpos : s (d + 1) (offset / 64) ||| 1#64 <<< (offset % 64) ≠ 0 := by
      refine word_ne_zero_iff.mpr ⟨offset % 64, Nat.mod_lt _ (by decide), ?_⟩
      rw [getLsbD_or_bit, decide_eq_true ⟨rfl, Nat.mod_lt _ (by decide)⟩, Bool.or_true]
    rw [setBit, assert_bind_of hz]
    dsimp only
    by_cases hv : s (d + 1) (offset / 64) = 0
    · rw [if_neg (not_not.mpr hv)]
      have hsame : ∀ k < d + 1, s.write (d + 1) (offset / 64)
          (s (d + 1) (offset / 64) ||| 1#64 <<< (offset % 64)) k = s k :=
        fun k hk => write_depth (by omega)
      have hb' : (s.write (d + 1) (offset / 64)
          (s (d + 1) (offset / 64) ||| 1#64 <<< (offset % 64))).bit d (offset / 64) = false := by
        rw [bit_congr (hsame d (by omega)), ← Bool.not_eq_true, ht d (by omega)]
        exact not_not.mpr hv
      obtain ⟨s', hs', ht', hbit, hdeep⟩ := ih (ht.mono.congr hsame) hb'
      refine ⟨s', hs', ht'.succ fun i => ?_, fun i => ?_, fun k hk => ?_⟩
      · rw [hbit, hdeep _ (by omega), bit_congr (hsame d (by omega)), Bool.or_eq_true,
          decide_eq_true_eq, ht d (by omega)]
        by_cases hi : i = offset / 64
        · rw [hi, write_same]
          exact iff_of_true (.inr rfl) hpos
        · rw [write_ind hi]
          exact or_iff_left (Ne.symm hi)
      · rw [bit_congr (hdeep _ (by omega))]
        exact bit_write_or
      · rw [hdeep k (by omega), write_depth (by omega)]
    · rw [if_pos hv]
      exact ⟨_, rfl, ht.write (iff_of_true hpos hv), fun _ => bit_write_or,
        fun k hk => write_depth (by omega)⟩

/-- **Clearing a bit**, likewise. -/
theorem clearBit_spec : ∀ {d : Nat} (offset : Nat) {s : BitStorage}, s.Tree (d + 1) →
    s.bit d offset = true → ∃ s', clearBit (d + 1) offset s = some s' ∧ s'.Tree (d + 1) ∧
      (∀ i, s'.bit d i = (s.bit d i && !decide (offset = i))) ∧ ∀ k, d < k → s' k = s k := by
  intro d
  induction d with
  | zero =>
    intro offset s _ hb
    have hz : s 0 (offset / 64) &&& 1#64 <<< (offset % 64) ≠ 0 := fun h => by
      rw [and_bit_eq_zero (Nat.mod_lt _ (by decide))] at h
      exact Bool.false_ne_true (h.symm.trans hb)
    refine ⟨s.write 0 (offset / 64) (s 0 (offset / 64) &&& ~~~(1#64 <<< (offset % 64))), ?_,
      fun k hk => absurd hk (by omega), fun _ => bit_write_and_not,
      fun k hk => write_depth (by omega)⟩
    rw [clearBit, assert_bind_of hz]
    dsimp only
    split <;> rfl
  | succ d ih =>
    intro offset s ht hb
    have hz : s (d + 1) (offset / 64) &&& 1#64 <<< (offset % 64) ≠ 0 := fun h => by
      rw [and_bit_eq_zero (Nat.mod_lt _ (by decide))] at h
      exact Bool.false_ne_true (h.symm.trans hb)
    have hpos : s (d + 1) (offset / 64) ≠ 0 := word_ne_zero_iff_bit.mpr ⟨offset, rfl, hb⟩
    rw [clearBit, assert_bind_of hz]
    dsimp only
    by_cases hv : s (d + 1) (offset / 64) &&& ~~~(1#64 <<< (offset % 64)) = 0
    · rw [if_neg (not_not.mpr hv)]
      have hsame : ∀ k < d + 1, s.write (d + 1) (offset / 64)
          (s (d + 1) (offset / 64) &&& ~~~(1#64 <<< (offset % 64))) k = s k :=
        fun k hk => write_depth (by omega)
      have hb' : (s.write (d + 1) (offset / 64) (s (d + 1) (offset / 64) &&&
          ~~~(1#64 <<< (offset % 64)))).bit d (offset / 64) = true := by
        rw [bit_congr (hsame d (by omega)), ht d (by omega)]
        exact hpos
      obtain ⟨s', hs', ht', hbit, hdeep⟩ := ih _ (ht.mono.congr hsame) hb'
      refine ⟨s', hs', ht'.succ fun i => ?_, fun i => ?_, fun k hk => ?_⟩
      · rw [hbit, hdeep _ (by omega), bit_congr (hsame d (by omega)), Bool.and_eq_true,
          Bool.not_eq_true', decide_eq_false_iff_not, ht d (by omega)]
        by_cases hi : i = offset / 64
        · rw [hi, write_same]
          exact iff_of_false (fun h => h.2 rfl) (not_not.mpr hv)
        · rw [write_ind hi]
          exact and_iff_left (Ne.symm hi)
      · rw [bit_congr (hdeep _ (by omega))]
        exact bit_write_and_not
      · rw [hdeep k (by omega), write_depth (by omega)]
    · rw [if_pos hv]
      exact ⟨_, rfl, ht.write (iff_of_true hv hpos), fun _ => bit_write_and_not,
        fun k hk => write_depth (by omega)⟩

/-- **Clearing bits of a word**, and its summary if the word has become zero. -/
theorem clearMask_spec {d ind : Nat} {s : BitStorage} (mask : BitVec 64) (ht : s.Tree (d + 1))
    (hpos : s d ind ≠ 0) : ∃ s', clearMask d ind mask s = some s' ∧ s'.Tree (d + 1) ∧
      s' d = s.write d ind (s d ind &&& ~~~mask) d := by
  unfold clearMask
  dsimp only
  split
  · rename_i hv
    cases d with
    | zero => exact ⟨_, rfl, fun k hk => absurd hk (by omega), rfl⟩
    | succ d =>
      have hsame : ∀ k < d + 1, s.write (d + 1) ind (s (d + 1) ind &&& ~~~mask) k = s k :=
        fun k hk => write_depth (by omega)
      obtain ⟨s', hs', ht', hbit, hdeep⟩ := clearBit_spec ind (ht.mono.congr hsame)
        (by rw [bit_congr (hsame d (by omega)), ht d (by omega)]; exact hpos)
      refine ⟨s', hs', ht'.succ fun i => ?_, hdeep _ (by omega)⟩
      rw [hbit, hdeep _ (by omega), bit_congr (hsame d (by omega)), Bool.and_eq_true,
        Bool.not_eq_true', decide_eq_false_iff_not, ht d (by omega)]
      by_cases hi : i = ind
      · rw [hi, write_same]
        exact iff_of_false (fun h => h.2 rfl) (not_not.mpr hv)
      · rw [write_ind hi]
        exact and_iff_left (Ne.symm hi)
  · rename_i hv
    exact ⟨_, rfl, ht.write (iff_of_true hv hpos), rfl⟩

end BitStorage

/-! ## 4. The bitmap as a set of offsets -/

namespace BitStorage

theorem Tree.root_ne_zero {s : BitStorage} {n : Nat} (h : s.Tree n) : ∀ {d i : Nat}, d < n →
    s.bit d i = true → s 0 (i / 64 ^ (d + 1)) ≠ 0
  | 0, i, _, hb => word_ne_zero_iff_bit.mpr ⟨i, by rw [Nat.pow_one], hb⟩
  | d + 1, i, hd, hb => by
    have hw : s (d + 1) (i / 64) ≠ 0 := word_ne_zero_iff_bit.mpr ⟨i, rfl, hb⟩
    have ih := h.root_ne_zero (by omega) ((h d hd (i / 64)).mpr hw)
    rwa [Nat.div_div_eq_div_mul, ← Nat.pow_succ'] at ih

end BitStorage

namespace KPageBitmap

theorem selectBit_spec (random : Bool) {v : BitVec 64} (g : RandomBitGenerator) (h : v ≠ 0) :
    (selectBit random v g).1 < 64 ∧ v.getLsbD (selectBit random v g).1 = true := by
  cases random with
  | true =>
    have hb := g.selectRandomBit_spec h
    exact ⟨BitVec.lt_of_getLsbD hb, hb⟩
  | false =>
    have h0 : v.toNat ≠ 0 := fun e => h (BitVec.toNat_inj.mp e)
    exact countrZero_testBit h0 v.isLt

/-- Below a word that is not zero the descent ends at a set leaf. -/
theorem findFreeBlockLoop_spec {s : BitStorage} (random : Bool) : ∀ {n depth offset : Nat}
    (g : RandomBitGenerator), s.Tree (depth + n + 1) → s depth offset ≠ 0 →
    ∃ i g', findFreeBlockLoop s random (n + 1) depth offset g = some (some i, g') ∧
      s.bit (depth + n) i = true := by
  intro n
  induction n with
  | zero =>
    intro depth offset g _ hne
    obtain ⟨h1, h2⟩ := selectBit_spec random g hne
    refine ⟨offset * 64 + (selectBit random (s depth offset) g).1,
      (selectBit random (s depth offset) g).2, ?_, ?_⟩
    · rw [findFreeBlockLoop]
      dsimp only
      rw [if_neg hne]
      rfl
    · rw [Nat.add_zero, BitStorage.bit, Nat.mul_add_mod_of_lt h1,
        show (offset * 64 + (selectBit random (s depth offset) g).1) / 64 = offset by omega]
      exact h2
  | succ n ih =>
    intro depth offset g ht hne
    obtain ⟨h1, h2⟩ := selectBit_spec random g hne
    have hbit : s.bit depth (offset * 64 + (selectBit random (s depth offset) g).1) = true := by
      rw [BitStorage.bit, Nat.mul_add_mod_of_lt h1,
        show (offset * 64 + (selectBit random (s depth offset) g).1) / 64 = offset by omega]
      exact h2
    have e : depth + (n + 1) = depth + 1 + n := by omega
    rw [e] at ht ⊢
    obtain ⟨i, g', hl, hi⟩ := ih (g := (selectBit random (s depth offset) g).2) ht
      ((ht depth (by omega) _).mp hbit)
    refine ⟨i, g', ?_, hi⟩
    rw [findFreeBlockLoop]
    dsimp only
    rw [if_neg hne]
    exact hl

/-- The bitmap stands for the set `S` of offsets below `size`. -/
structure Represents (bm : KPageBitmap) (size : Nat) (S : Finset Nat) : Prop where
  depth_pos : 0 < bm.usedDepths
  size_lt : size < 64 ^ bm.usedDepths
  tree : bm.storage.Tree bm.usedDepths
  mem : ∀ i, bm.storage.bit (bm.usedDepths - 1) i = true ↔ i ∈ S
  lt : ∀ i ∈ S, i < size
  card : bm.numBits = S.card
  words : size ≤ 64 * bm.numWords (bm.usedDepths - 1)

variable {bm : KPageBitmap} {size i : Nat} {S : Finset Nat}

theorem getRequiredDepthLoop_spec : ∀ {fuel n : Nat}, n < 2 ^ fuel → 0 < fuel →
    0 < getRequiredDepthLoop fuel n ∧ n < 64 ^ getRequiredDepthLoop fuel n
  | fuel + 1, n, h, _ => by
    rw [getRequiredDepthLoop]
    split
    · rw [Nat.pow_one]
      omega
    · have hf : fuel ≠ 0 := by
        rintro rfl
        omega
      rw [Nat.pow_succ] at h
      have hn : n / 64 < 2 ^ fuel := by omega
      have ih := getRequiredDepthLoop_spec hn (by omega)
      rw [Nat.pow_succ]
      omega

theorem initializeBitmap_represents {rng : RandomBitGenerator} {words : Nat}
    (h : initializeBitmap rng size = some (bm, words)) : Represents bm size ∅ := by
  simp only [initializeBitmap, assert_bind_eq_some, Option.pure_def, Option.some.injEq, Prod.mk.injEq] at h
  obtain ⟨-, rfl, -⟩ := h
  obtain ⟨h1, h2⟩ := getRequiredDepthLoop_spec (Nat.lt_log2_self (n := size)) (Nat.succ_pos _)
  refine ⟨h1, h2, fun k _ i => ?_, fun i => ?_, fun i hi => absurd hi (Finset.notMem_empty i), rfl, ?_⟩
  · simp [BitStorage.bit]
  · simp [BitStorage.bit]
  · dsimp only
    rw [Nat.sub_self, wordsAbove]
    omega

namespace Represents

theorem depth_succ (h : Represents bm size S) : bm.usedDepths - 1 + 1 = bm.usedDepths := by
  have := h.depth_pos
  omega

theorem setBit (h : Represents bm size S) (hi : i < size) (hn : i ∉ S) :
    ∃ bm', bm.setBit i = some bm' ∧ Represents bm' size (insert i S) := by
  have hb : bm.storage.bit (bm.usedDepths - 1) i = false := by
    rw [← Bool.not_eq_true, h.mem]
    exact hn
  have ht := h.tree
  rw [← h.depth_succ] at ht
  obtain ⟨s', hs', ht', hbit, -⟩ := BitStorage.setBit_spec ht hb
  rw [h.depth_succ] at hs' ht'
  refine ⟨{ bm with storage := s', numBits := bm.numBits + 1 }, ?_, h.depth_pos, h.size_lt, ht',
    fun j => ?_, fun j hj => ?_, ?_, h.words⟩
  · rw [KPageBitmap.setBit, hs']
    rfl
  · rw [hbit, Bool.or_eq_true, h.mem, decide_eq_true_eq, Finset.mem_insert, or_comm, eq_comm]
  · rcases Finset.mem_insert.mp hj with rfl | hj
    · exact hi
    · exact h.lt j hj
  · rw [Finset.card_insert_of_notMem hn, ← h.card]

theorem clearBit (h : Represents bm size S) (hi : i ∈ S) :
    ∃ bm', bm.clearBit i = some bm' ∧ Represents bm' size (S.erase i) := by
  have ht := h.tree
  rw [← h.depth_succ] at ht
  obtain ⟨s', hs', ht', hbit, -⟩ := BitStorage.clearBit_spec i ht ((h.mem i).mpr hi)
  rw [h.depth_succ] at hs' ht'
  refine ⟨{ bm with storage := s', numBits := bm.numBits - 1 }, ?_, h.depth_pos, h.size_lt, ht',
    fun j => ?_, fun j hj => h.lt j (Finset.mem_of_mem_erase hj), ?_, h.words⟩
  · rw [KPageBitmap.clearBit, hs']
    rfl
  · rw [hbit, Bool.and_eq_true, h.mem, Bool.not_eq_true', decide_eq_false_iff_not,
      Finset.mem_erase, and_comm, ne_comm]
  · rw [Finset.card_erase_of_mem hi, ← h.card]

theorem withRng (h : Represents bm size S) (g : RandomBitGenerator) :
    Represents { bm with rng := g } size S :=
  ⟨h.depth_pos, h.size_lt, h.tree, h.mem, h.lt, h.card, h.words⟩

theorem findFreeBlock (h : Represents bm size S) (random : Bool) :
    ∃ r g, bm.findFreeBlock random = some (r, { bm with rng := g }) ∧
      (∀ i ∈ r, i ∈ S) ∧ (r = none → S = ∅) := by
  have hp := h.depth_pos
  by_cases hz : bm.storage 0 0 = 0
  · refine ⟨none, bm.rng, ?_, (fun i hi => by cases hi), fun _ => ?_⟩
    · rw [KPageBitmap.findFreeBlock, ← h.depth_succ, findFreeBlockLoop]
      dsimp only
      rw [if_pos hz, assert_bind_of rfl]
      rfl
    · refine Finset.eq_empty_of_forall_notMem fun i hi => ?_
      have hroot := h.tree.root_ne_zero (by omega) ((h.mem i).mpr hi)
      rw [h.depth_succ, Nat.div_eq_of_lt (Nat.lt_trans (h.lt i hi) h.size_lt)] at hroot
      exact hroot hz
  · have ht : bm.storage.Tree (0 + (bm.usedDepths - 1) + 1) := by
      rw [Nat.zero_add, h.depth_succ]
      exact h.tree
    obtain ⟨i, g', hl, hi⟩ := findFreeBlockLoop_spec random bm.rng ht hz
    rw [h.depth_succ] at hl
    rw [Nat.zero_add] at hi
    refine ⟨some i, g', ?_, fun j hj => ?_, (fun e => by cases e)⟩
    · rw [KPageBitmap.findFreeBlock, hl]
      rfl
    · cases hj
      exact (h.mem i).mp hi

end Represents

theorem bit_write_and_not_mask {s : BitStorage} {d offset count : Nat} (hc : count < 64)
    (hfit : offset % 64 + count ≤ 64) (i : Nat) :
    (s.write d (offset / 64) (s d (offset / 64) &&& ~~~((1#64 <<< count - 1) <<< (offset % 64)))).bit d i =
        (s.bit d i && !decide (offset ≤ i ∧ i < offset + count)) := by
  have hlt := Nat.mod_lt i (show 0 < 64 by decide)
  rw [BitStorage.bit, BitStorage.bit]
  by_cases h : i / 64 = offset / 64
  · rw [h, BitStorage.write_same, getLsbD_and_not_mask hc]
    congr 3
    simp only [eq_iff_iff]
    omega
  · rw [BitStorage.write_ind h, decide_eq_false (by omega), Bool.not_false, Bool.and_true]

/-- **Clearing a range inside one word**: all of it, or nothing if a bit of it is not set. -/
theorem Represents.clearRange {offset count : Nat} (h : Represents bm size S) (hpos : 0 < count)
    (hc : count < 64) (hfit : offset % 64 + count ≤ 64) :
    ∃ bm', bm.clearRange offset count =
        some (decide (∀ j ∈ Finset.Ico offset (offset + count), j ∈ S), bm') ∧
      Represents bm' size (if ∀ j ∈ Finset.Ico offset (offset + count), j ∈ S then
        S \ Finset.Ico offset (offset + count) else S) := by
  -- the mask test is the test on the set
  have htest : bm.storage (bm.usedDepths - 1) (offset / 64) &&&
      (1#64 <<< count - 1) <<< (offset % 64) = (1#64 <<< count - 1) <<< (offset % 64) ↔
        ∀ j ∈ Finset.Ico offset (offset + count), j ∈ S := by
    rw [and_mask_eq_iff hc hfit]
    constructor
    · intro hall j hj
      rw [Finset.mem_Ico] at hj
      rw [← h.mem, BitStorage.bit, show j / 64 = offset / 64 by omega]
      exact hall (j % 64) (by omega) (by omega)
    · intro hall j h1 h2
      have hj := hall (offset / 64 * 64 + j) (Finset.mem_Ico.mpr (by omega))
      rw [← h.mem, BitStorage.bit, show (offset / 64 * 64 + j) / 64 = offset / 64 by omega,
        show (offset / 64 * 64 + j) % 64 = j by omega] at hj
      exact hj
  rw [KPageBitmap.clearRange, clearRangeStorage]
  dsimp only
  rw [if_pos hc, assert_bind_of hfit]
  by_cases hall : ∀ j ∈ Finset.Ico offset (offset + count), j ∈ S
  · rw [if_neg (not_not.mpr (htest.mpr hall)), if_pos hall, decide_eq_true hall]
    have ht := h.tree
    rw [← h.depth_succ] at ht
    have hword : bm.storage (bm.usedDepths - 1) (offset / 64) ≠ 0 :=
      BitStorage.word_ne_zero_iff_bit.mpr ⟨offset, rfl,
        (h.mem offset).mpr (hall offset (Finset.mem_Ico.mpr (by omega)))⟩
    obtain ⟨s', hs', ht', hleaf⟩ :=
      BitStorage.clearMask_spec ((1#64 <<< count - 1) <<< (offset % 64)) ht hword
    rw [h.depth_succ] at ht'
    refine ⟨{ bm with storage := s', numBits := bm.numBits - count }, ?_, h.depth_pos, h.size_lt,
      ht', fun j => ?_, fun j hj => h.lt j (Finset.mem_sdiff.mp hj).1, ?_, h.words⟩
    · rw [hs']
      rfl
    · rw [BitStorage.bit_congr hleaf, bit_write_and_not_mask hc hfit, Bool.and_eq_true, h.mem,
        Bool.not_eq_true', decide_eq_false_iff_not, Finset.mem_sdiff, Finset.mem_Ico]
    · rw [Finset.card_sdiff_of_subset hall, Nat.card_Ico, Nat.add_sub_cancel_left, ← h.card]
  · rw [if_pos (fun e => hall (htest.mp e)), if_neg hall, decide_eq_false hall]
    exact ⟨bm, rfl, h⟩

section Range

variable {count : Nat} (hpos : 0 < count) (hc : count < 64)

/-- The range from an offset on lies in one word, and all its bits are set. -/
def FreeRange (S : Finset Nat) (count offset : Nat) : Prop :=
  offset % 64 + count ≤ 64 ∧ ∀ j ∈ Finset.Ico offset (offset + count), j ∈ S

theorem RangeChoice.offer_spec {P : Nat → Prop} {c : RangeChoice} {offset : Nat}
    (h : ∀ o ∈ c.chosenOffset, P o) (ho : P offset) : ∀ o ∈ (c.offer offset).chosenOffset, P o := by
  unfold offer
  dsimp only
  split
  · intro o e
    cases e
    exact ho
  · dsimp only
    split
    · intro o e
      cases e
      exact ho
    · exact h

include hc in
theorem findRangeInWord_spec {storageIndex : Nat} {word : BitVec 64}
    (hw : ∀ j < 64, word.getLsbD j = true ↔ storageIndex * 64 + j ∈ S) :
    ∀ {n option : Nat} {c : RangeChoice}, (option + n) * count ≤ 64 →
      (∀ o ∈ c.chosenOffset, FreeRange S count o) →
      ∀ o ∈ (findRangeInWord count storageIndex n option (word >>> (option * count)) c).chosenOffset,
        FreeRange S count o
  | 0, option, c, _, h => h
  | n + 1, option, c, hle, h => by
    have hfit : option * count + count ≤ 64 := by
      rw [← Nat.succ_mul]
      exact Nat.le_trans (Nat.mul_le_mul_right _ (by omega)) hle
    have hnext : word >>> (option * count) >>> count = word >>> ((option + 1) * count) := by
      rw [← BitVec.shiftRight_add, Nat.succ_mul]
    have hle' : (option + 1 + n) * count ≤ 64 := by
      rw [Nat.add_assoc, Nat.add_comm 1 n]
      exact hle
    rw [findRangeInWord, hnext]
    split
    · rename_i hm
      refine findRangeInWord_spec hw hle' (RangeChoice.offer_spec h ⟨by omega, fun j hj => ?_⟩)
      have hm0 : word >>> (option * count) &&& (1#64 <<< count - 1) <<< 0 = (1#64 <<< count - 1) <<< 0 := by
        rw [BitVec.shiftLeft_zero]
        exact hm
      have hmask := (and_mask_eq_iff hc (by omega)).mp hm0
      rw [Finset.mem_Ico] at hj
      have hbit := hmask (j - (storageIndex * 64 + option * count)) (Nat.zero_le _) (by omega)
      rw [BitVec.getLsbD_ushiftRight, hw _ (by omega)] at hbit
      have e : storageIndex * 64 + (option * count + (j - (storageIndex * 64 + option * count))) = j := by
        omega
      rwa [e] at hbit
    · exact findRangeInWord_spec hw hle' h

include hpos hc in
theorem findRangeInWords_spec {words : Nat → BitVec 64}
    (hw : ∀ i, ∀ j < 64, (words i).getLsbD j = true ↔ i * 64 + j ∈ S) :
    ∀ {n storageIndex : Nat} {c : RangeChoice}, (∀ o ∈ c.chosenOffset, FreeRange S count o) →
      ∀ o ∈ (findRangeInWords count words n storageIndex c).chosenOffset, FreeRange S count o
  | 0, _, c, h => h
  | n + 1, storageIndex, c, h => by
    have hone : max (64 / count) 1 = 64 / count :=
      Nat.max_eq_left (Nat.div_pos (Nat.le_of_lt hc) hpos)
    have hle : (0 + 64 / count) * count ≤ 64 := by
      rw [Nat.zero_add]
      exact Nat.div_mul_le_self 64 count
    have hword := findRangeInWord_spec hc (hw storageIndex) hle h
    rw [Nat.zero_mul, BitVec.ushiftRight_zero] at hword
    rw [findRangeInWords, hone]
    exact findRangeInWords_spec hw hword

include hpos hc in
/-- **A range that is found is free.** -/
theorem Represents.findFreeRange (h : Represents bm size S) :
    ∃ r g, bm.findFreeRange count = some (r, { bm with rng := g }) ∧ ∀ o ∈ r, FreeRange S count o := by
  rw [KPageBitmap.findFreeRange]
  split
  · exact ⟨none, bm.rng, rfl, fun o e => nomatch e⟩
  · rw [assert_bind_of ⟨hpos, hc⟩]
    refine ⟨_, _, rfl, findRangeInWords_spec hpos hc (fun i j hj => ?_) fun o e => nomatch e⟩
    have hm := h.mem (i * 64 + j)
    rwa [BitStorage.bit, show (i * 64 + j) / 64 = i by omega,
      show (i * 64 + j) % 64 = j by omega] at hm

end Range

end KPageBitmap

end Yuzu.Kernel
