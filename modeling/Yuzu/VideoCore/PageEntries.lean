/-
  File:      Yuzu/VideoCore/PageEntries.lean
  Subject:   What the calls that change the GPU page tables do to the entry of every page.

  A call walks over pages from the one its address lies in, one for each page of its size that is
  begun. `entryOf` is the entry of a page of one of the two tables; the lemmas `entryOf_map`,
  `entryOf_mapSparse` and `entryOf_unmap` are all that the proofs above need of the words.
-/
import Yuzu.VideoCore.MemoryManager

namespace Yuzu.VideoCore.MemoryManager

open Yuzu.Core (DeviceMemory)

/-- The words of the entries of a table. -/
def entryWords (m : MemoryManager) (big : Bool) : Nat → BitVec 64 :=
  if big then m.bigEntries else m.entries

/-- The entry of a page. -/
def entryOf (m : MemoryManager) (big : Bool) (page : Nat) : EntryType :=
  EntryType.ofWord (m.entryWords big (page / 32) >>> (2 * (page % 32)) &&& 3)

/-- The page is one of those that a call walks over. -/
def Walks (m : MemoryManager) (big : Bool) (gpuAddr size page : Nat) : Prop :=
  gpuAddr >>> m.usedPageBits big ≤ page ∧
    page < gpuAddr >>> m.usedPageBits big + rounds size (2 ^ m.usedPageBits big)

instance (m : MemoryManager) (big : Bool) (gpuAddr size page : Nat) :
    Decidable (m.Walks big gpuAddr size page) := inferInstanceAs (Decidable (_ ∧ _))

variable {m : MemoryManager} {d : DeviceMemory} {b big isBig : Bool} {e : EntryType}
  {gpu dev size page pos n base : Nat}

theorem entryOf_init {bits bigBits : Nat} {h1 : pageBits ≤ bigBits} {h2 : bigBits ≤ bits} :
    (init bits bigBits h1 h2).entryOf big page = .free := by
  have hword : (init bits bigBits h1 h2).entryWords big (page / 32) = 0#64 := by cases big <;> rfl
  rw [entryOf, hword, BitVec.zero_ushiftRight]
  rfl

/-! ## 1. One entry -/

theorem getLsbD_three {j : Nat} : (3#64).getLsbD j = decide (j < 2) := Nat.testBit_two_pow_sub_one 2 j

theorem getLsbD_word {j : Nat} (hj : 2 ≤ j) : e.word.getLsbD j = false := by
  have hlt : e.word.toNat < 2 ^ 2 := by cases e <;> decide
  exact Nat.testBit_lt_two_pow (lt_of_lt_of_le hlt (Nat.pow_le_pow_right (by decide) hj))

theorem withEntry_eq {word : BitVec 64} {sub : Nat} :
    withEntry word sub e = setField word 3#64 e.word (2 * sub) := by
  rw [withEntry, setField, Nat.mul_comm sub 2]

theorem ofWord_withEntry_self {word : BitVec 64} {sub : Nat} (hsub : sub < 32) :
    EntryType.ofWord (withEntry word sub e >>> (2 * sub) &&& 3) = e := by
  rw [withEntry_eq, show (3 : BitVec 64) = 3#64 from rfl,
    field_setField_self (fun _ => getLsbD_three) (fun _ => getLsbD_word) (by omega)]
  exact EntryType.ofWord_word e

theorem withEntry_other {word : BitVec 64} {sub other : Nat} (hother : other < 32) (hne : other ≠ sub) :
    withEntry word sub e >>> (2 * other) &&& 3 = word >>> (2 * other) &&& 3 := by
  rw [withEntry_eq]
  exact field_setField_other (fun _ => getLsbD_three) (fun _ => getLsbD_word) (by omega) (by omega)

/-- A new entry is the entry of its page, and no other page's. -/
theorem entryOf_setEntry : (m.setEntry b pos e).entryOf big page =
    if big = b ∧ page = pos >>> m.usedPageBits b then e else m.entryOf big page := by
  have hwords : (m.setEntry b pos e).entryWords big = if big = b then
      Function.update (m.entryWords b) (pos >>> m.usedPageBits b / 32)
        (withEntry (m.entryWords b (pos >>> m.usedPageBits b / 32))
          (pos >>> m.usedPageBits b % 32) e) else m.entryWords big := by
    cases b <;> cases big <;> rfl
  rw [entryOf, hwords]
  by_cases hb : big = b
  · subst hb
    rw [if_pos rfl]
    by_cases hdiv : page / 32 = pos >>> m.usedPageBits big / 32
    · rw [hdiv, Function.update_self]
      by_cases hpage : page = pos >>> m.usedPageBits big
      · rw [if_pos ⟨rfl, hpage⟩, ← hpage, ofWord_withEntry_self (by omega)]
      · have hneg : ¬ (big = big ∧ page = pos >>> m.usedPageBits big) := fun h => hpage h.2
        rw [if_neg hneg, withEntry_other (by omega) (by omega), ← hdiv]
        rfl
    · have hneg : ¬ (big = big ∧ page = pos >>> m.usedPageBits big) := fun h => hdiv (h.2 ▸ rfl)
      rw [Function.update_of_ne hdiv, if_neg hneg]
      rfl
  · have hneg : ¬ (big = b ∧ page = pos >>> m.usedPageBits b) := fun h => hb h.1
    rw [if_neg hb, if_neg hneg]
    rfl

/-! ## 2. The walks -/

/-- A step of a walk over the pages from `base` on: the entry of one page changes. -/
def EntryStep (b : Bool) (e : EntryType) (base k : Nat) (m m' : MemoryManager) : Prop :=
  m'.bigPageBits = m.bigPageBits ∧
    ∀ big page, m'.entryOf big page = if big = b ∧ page = base + k then e else m.entryOf big page

theorem foldl_entryStep {step : MemoryManager → Nat → MemoryManager}
    (hstep : ∀ m' k, m'.bigPageBits = m.bigPageBits → EntryStep b e base k m' (step m' k)) :
    ((List.range n).foldl step m).bigPageBits = m.bigPageBits ∧
      ∀ big page, ((List.range n).foldl step m).entryOf big page =
        if big = b ∧ base ≤ page ∧ page < base + n then e else m.entryOf big page := by
  induction n with
  | zero => exact ⟨rfl, fun big page => (if_neg (by omega)).symm⟩
  | succ n ih =>
    obtain ⟨hbits, hentry⟩ := ih
    obtain ⟨hbits', hentry'⟩ := hstep _ n hbits
    rw [List.range_succ, List.foldl_append]
    refine ⟨hbits'.trans hbits, fun big page => ?_⟩
    rw [List.foldl_cons, List.foldl_nil, hentry', hentry]
    by_cases hlast : big = b ∧ page = base + n
    · rw [if_pos hlast, if_pos ⟨hlast.1, by omega⟩]
    · rw [if_neg hlast]
      by_cases hin : big = b ∧ base ≤ page ∧ page < base + n
      · rw [if_pos hin, if_pos ⟨hin.1, by omega⟩]
      · have hneg : ¬ (big = b ∧ base ≤ page ∧ page < base + (n + 1)) := by
          rintro ⟨hb, hle, hlt⟩
          have hne : page ≠ base + n := fun hp => hlast ⟨hb, hp⟩
          exact hin ⟨hb, hle, by omega⟩
        rw [if_neg hin, if_neg hneg]

theorem shiftRight_add_mul {bits k : Nat} : (gpu + k * 2 ^ bits) >>> bits = gpu >>> bits + k := by
  rw [Nat.shiftRight_eq_div_pow, Nat.shiftRight_eq_div_pow,
    Nat.add_mul_div_right _ _ (Nat.two_pow_pos bits)]

theorem pageTableStep_entryStep {k : Nat} : EntryStep false e (gpu >>> pageBits) k m
    (pageTableStep e (gpu + k * pageSize) dev m) := by
  have hentry : ∀ big page, (m.setEntry false (gpu + k * pageSize) e).entryOf big page =
      if big = false ∧ page = gpu >>> pageBits + k then e else m.entryOf big page :=
    fun big page => by rw [← shiftRight_add_mul]; exact entryOf_setEntry
  rw [pageTableStep]
  split
  · exact ⟨rfl, hentry⟩
  · exact ⟨rfl, hentry⟩

theorem bigPageTableStep_entryStep {k : Nat} : EntryStep true e (gpu >>> m.bigPageBits) k m
    (bigPageTableStep d e (gpu + k * m.bigPageSize) dev m) := by
  have hentry : ∀ big page, (m.setEntry true (gpu + k * m.bigPageSize) e).entryOf big page =
      if big = true ∧ page = gpu >>> m.bigPageBits + k then e else m.entryOf big page :=
    fun big page => by rw [← shiftRight_add_mul]; exact entryOf_setEntry
  rw [bigPageTableStep]
  split
  · exact ⟨rfl, hentry⟩
  · exact ⟨rfl, hentry⟩

theorem pageTableOp_entryOf : (pageTableOp e gpu dev size m).bigPageBits = m.bigPageBits ∧
    ∀ big page, (pageTableOp e gpu dev size m).entryOf big page =
      if big = false ∧ m.Walks false gpu size page then e else m.entryOf big page :=
  foldl_entryStep fun _ _ _ => pageTableStep_entryStep

theorem bigPageTableOp_entryOf : (bigPageTableOp d e gpu dev size m).bigPageBits = m.bigPageBits ∧
    ∀ big page, (bigPageTableOp d e gpu dev size m).entryOf big page =
      if big = true ∧ m.Walks true gpu size page then e else m.entryOf big page := by
  refine foldl_entryStep fun m' k hbits => ?_
  have hsize : m.bigPageSize = m'.bigPageSize := by rw [bigPageSize, bigPageSize, hbits]
  have hbase : gpu >>> m.usedPageBits true = gpu >>> m'.bigPageBits := by rw [hbits]; rfl
  rw [hsize, hbase]
  exact bigPageTableStep_entryStep

/-! ## 3. The calls -/

theorem entryOf_map : (m.map d gpu dev size isBig).bigPageBits = m.bigPageBits ∧
    ∀ big page, (m.map d gpu dev size isBig).entryOf big page =
      if big = isBig ∧ m.Walks isBig gpu size page then .mapped else m.entryOf big page := by
  cases isBig
  · exact pageTableOp_entryOf
  · exact bigPageTableOp_entryOf

theorem entryOf_mapSparse : (m.mapSparse d gpu size isBig).bigPageBits = m.bigPageBits ∧
    ∀ big page, (m.mapSparse d gpu size isBig).entryOf big page =
      if big = isBig ∧ m.Walks isBig gpu size page then .reserved else m.entryOf big page := by
  cases isBig
  · exact pageTableOp_entryOf
  · exact bigPageTableOp_entryOf

theorem usedPageBits_congr {m' : MemoryManager} (h : m'.bigPageBits = m.bigPageBits) :
    m'.usedPageBits big = m.usedPageBits big := by
  rw [usedPageBits, usedPageBits, h]

theorem walks_congr {m' : MemoryManager} (h : m'.bigPageBits = m.bigPageBits) :
    m'.Walks big gpu size page ↔ m.Walks big gpu size page := by
  rw [Walks, Walks, usedPageBits_congr h]

theorem not_walks_zero : ¬ m.Walks big gpu 0 page := by
  rintro ⟨hlow, hhigh⟩
  have hzero : rounds 0 (2 ^ m.usedPageBits big) = 0 :=
    Nat.div_eq_of_lt (by have := Nat.two_pow_pos (m.usedPageBits big); omega)
  omega

theorem entryOf_unmap : (m.unmap d gpu size).bigPageBits = m.bigPageBits ∧
    ∀ big page, (m.unmap d gpu size).entryOf big page =
      if m.Walks big gpu size page then .free else m.entryOf big page := by
  rw [unmap]
  split
  · rename_i hsize
    subst hsize
    exact ⟨rfl, fun big page => (if_neg not_walks_zero).symm⟩
  · obtain ⟨hbits, hentry⟩ := @bigPageTableOp_entryOf m d .free gpu 0 size
    obtain ⟨hbits', hentry'⟩ := @pageTableOp_entryOf (bigPageTableOp d .free gpu 0 size m) .free gpu 0 size
    refine ⟨hbits'.trans hbits, fun big page => ?_⟩
    rw [hentry', hentry]
    cases big <;> simp [walks_congr hbits]

end Yuzu.VideoCore.MemoryManager
