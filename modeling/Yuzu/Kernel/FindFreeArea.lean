/-
  File:      Yuzu/Kernel/FindFreeArea.lean
  Subject:   `KMemoryBlockManager::FindFreeArea` (core/hle/kernel/k_memory_block_manager.cpp) against
             the least address with room in a free block.
-/
import Yuzu.Kernel.MemoryBlockManager
import Yuzu.Common.Alignment
import Mathlib.Algebra.Order.Ring.Int

namespace Yuzu.Kernel.KMemoryBlockManager

open List

open Common (alignDown)

/-! ## 1. The search -/

/-- The area tried in a block: behind the guard pages, then up to the offset in its alignment. -/
def candidateArea (regionStart alignment offset guardPages infoAddress : Nat) : Nat :=
  let area := if infoAddress ≤ regionStart then regionStart else infoAddress
  let area := (area + guardPages * PageSize) % 2 ^ 64
  let offsetArea := (alignDown area alignment + offset) % 2 ^ 64
  if area ≤ offsetArea then offsetArea else (offsetArea + alignment) % 2 ^ 64

/-- The checks on the area tried in a block. -/
def AreaFits (regionLast numPages guardPages : Nat) (b : KMemoryBlock) (area : Nat) : Prop :=
  let areaEnd := (area + numPages * PageSize + guardPages * PageSize) % 2 ^ 64
  let areaLast := (areaEnd + 2 ^ 64 - 1) % 2 ^ 64
  b.address ≤ area ∧ area < areaLast ∧ areaLast ≤ regionLast ∧
    areaLast ≤ (b.endAddress + 2 ^ 64 - 1) % 2 ^ 64

instance (regionLast numPages guardPages : Nat) (b : KMemoryBlock) (area : Nat) :
    Decidable (AreaFits regionLast numPages guardPages b area) :=
  inferInstanceAs (Decidable (_ ∧ _))

/-- The loop of `FindFreeArea` over the blocks from the region's start on. -/
def findFreeLoop (regionStart regionLast numPages alignment offset guardPages : Nat) :
    List KMemoryBlock → Nat
  | [] => 0
  | b :: it =>
    if regionLast < b.address then 0
    else if b.memoryState ≠ KMemoryState.free then
      findFreeLoop regionStart regionLast numPages alignment offset guardPages it
    else
      let area := candidateArea regionStart alignment offset guardPages b.address
      if AreaFits regionLast numPages guardPages b area then area
      else findFreeLoop regionStart regionLast numPages alignment offset guardPages it

def findFreeArea (m : KMemoryBlockManager) (regionStart regionNumPages numPages alignment offset
    guardPages : Nat) : Nat :=
  if 0 < numPages then
    let regionEnd := (regionStart + regionNumPages * PageSize) % 2 ^ 64
    let regionLast := (regionEnd + 2 ^ 64 - 1) % 2 ^ 64
    findFreeLoop regionStart regionLast numPages alignment offset guardPages
      (m.blocks.drop (findIterator m.blocks regionStart))
  else 0

/-! ## 2. Free areas -/

/-- The blocks fill the address space from its start to its end, and none is empty. -/
structure Spans (m : KMemoryBlockManager) : Prop where
  first : ∃ b rest, m.blocks = b :: rest ∧ b.address = m.startAddress
  last : ∃ init b, m.blocks = init ++ [b] ∧ b.endAddress = m.endAddress
  pages : ∀ b ∈ m.blocks, 0 < b.numPages
  bound : m.endAddress ≤ 2 ^ 64

/-- **A free area**: at the offset in its alignment, and with its guard pages inside the region and
inside one free block. -/
def FreeArea (blocks : List KMemoryBlock) (regionStart regionNumPages numPages alignment offset
    guardPages x : Nat) : Prop :=
  x % alignment = offset ∧
  regionStart + guardPages * PageSize ≤ x ∧
  x + numPages * PageSize + guardPages * PageSize ≤ regionStart + regionNumPages * PageSize ∧
  ∃ b ∈ blocks, b.memoryState = KMemoryState.free ∧ b.address + guardPages * PageSize ≤ x ∧
    x + numPages * PageSize + guardPages * PageSize ≤ b.endAddress

/-- The least address from `low` on at the offset in its alignment. -/
def alignedFrom (alignment offset low : Nat) : Nat :=
  if low ≤ low / alignment * alignment + offset then low / alignment * alignment + offset
  else low / alignment * alignment + offset + alignment

/-- No sum exceeds `2 ^ 64`: not the region's end, and in no free block of the region the end of the
area tried. -/
def SumsFit (m : KMemoryBlockManager) (regionStart regionNumPages numPages alignment offset
    guardPages : Nat) : Prop :=
  regionStart + regionNumPages * PageSize ≤ 2 ^ 64 ∧
  ∀ b ∈ m.blocks, b.memoryState = KMemoryState.free → regionStart < b.endAddress →
    b.address < regionStart + regionNumPages * PageSize →
    alignedFrom alignment offset (max regionStart b.address + guardPages * PageSize) +
      numPages * PageSize + guardPages * PageSize ≤ 2 ^ 64

instance (m : KMemoryBlockManager) (regionStart regionNumPages numPages alignment offset
    guardPages : Nat) :
    Decidable (m.SumsFit regionStart regionNumPages numPages alignment offset guardPages) := by
  unfold SumsFit
  infer_instance

variable {m : KMemoryBlockManager} {blocks : List KMemoryBlock} {b : KMemoryBlock}
  {regionStart regionNumPages numPages alignment offset guardPages low x : Nat}

theorem alignedFrom_spec (ho : offset < alignment) :
    low ≤ alignedFrom alignment offset low ∧ alignedFrom alignment offset low % alignment = offset ∧
      ∀ x, low ≤ x → x % alignment = offset → alignedFrom alignment offset low ≤ x := by
  have hpos : 0 < alignment := Nat.lt_of_le_of_lt (Nat.zero_le _) ho
  have hdiv := Nat.div_add_mod low alignment
  have hmod := Nat.mod_lt low hpos
  have hq : low / alignment * alignment = alignment * (low / alignment) := Nat.mul_comm _ _
  rw [alignedFrom, hq]
  have hleast : ∀ x q, low ≤ x → x % alignment = offset → x / alignment = q →
      x = alignment * q + offset := by
    intro x q _ hx hxq
    rw [← hxq, ← hx]
    exact (Nat.div_add_mod x alignment).symm
  split
  · rename_i hle
    refine ⟨hle, ?_, fun x hlow hx => ?_⟩
    · rw [Nat.mul_add_mod, Nat.mod_eq_of_lt ho]
    · rw [hleast x _ hlow hx rfl]
      exact Nat.add_le_add_right (Nat.mul_le_mul_left _ (Nat.div_le_div_right hlow)) _
  · rename_i hgt
    refine ⟨by omega, ?_, fun x hlow hx => ?_⟩
    · rw [Nat.add_mod_right, Nat.mul_add_mod, Nat.mod_eq_of_lt ho]
    · -- in the unit of `low` the offset lies below it
      have hne : x / alignment ≠ low / alignment := by
        intro heq
        have hx' := hleast x _ hlow hx heq
        omega
      have hlt : low / alignment + 1 ≤ x / alignment :=
        Nat.succ_le_of_lt (lt_of_le_of_ne (Nat.div_le_div_right hlow) (Ne.symm hne))
      have hmul := Nat.mul_le_mul_left alignment hlt
      rw [Nat.mul_add, Nat.mul_one] at hmul
      rw [hleast x _ hlow hx rfl]
      omega

/-- Where the area's end fits, the code's area is the least aligned one. -/
theorem candidateArea_eq (ho : offset < alignment) (hn : 0 < numPages) {a : Nat}
    (hfit : alignedFrom alignment offset (max regionStart a + guardPages * PageSize) +
      numPages * PageSize + guardPages * PageSize ≤ 2 ^ 64) :
    candidateArea regionStart alignment offset guardPages a =
      alignedFrom alignment offset (max regionStart a + guardPages * PageSize) := by
  have hstart : (if a ≤ regionStart then regionStart else a) = max regionStart a := by
    split <;> omega
  have hpages : 0 < numPages * PageSize := Nat.mul_pos hn (by decide)
  obtain ⟨hle, -, -⟩ := @alignedFrom_spec alignment offset (max regionStart a + guardPages * PageSize) ho
  generalize hlow : max regionStart a + guardPages * PageSize = low at hfit hle
  have hdown : alignDown low alignment = low / alignment * alignment := by
    have hdiv := Nat.div_add_mod low alignment
    rw [alignDown, Nat.mul_comm]
    omega
  have hlt : low < 2 ^ 64 := by omega
  rw [candidateArea, hstart, hlow]
  rw [Nat.mod_eq_of_lt hlt, hdown]
  rw [alignedFrom] at hfit ⊢
  split at hfit
  · rename_i hcase
    rw [Nat.mod_eq_of_lt (by omega), if_pos hcase, if_pos hcase]
  · rename_i hcase
    rw [Nat.mod_eq_of_lt (by omega), if_neg hcase, if_neg hcase, Nat.mod_eq_of_lt (by omega)]

theorem last_eq {e : Nat} (hpos : 0 < e) (hle : e ≤ 2 ^ 64) :
    (e % 2 ^ 64 + 2 ^ 64 - 1) % 2 ^ 64 = e - 1 := by
  omega

theorem areaFits_iff {area regionEnd : Nat} (hn : 0 < numPages) (haddr : b.address ≤ area)
    (hfit : area + numPages * PageSize + guardPages * PageSize ≤ 2 ^ 64) (hregion : 0 < regionEnd)
    (hpos : 0 < b.endAddress) (hend : b.endAddress ≤ 2 ^ 64) :
    AreaFits (regionEnd - 1) numPages guardPages b area ↔
      area + numPages * PageSize + guardPages * PageSize ≤ regionEnd ∧
        area + numPages * PageSize + guardPages * PageSize ≤ b.endAddress := by
  have hpages : PageSize ≤ numPages * PageSize := Nat.le_mul_of_pos_left _ hn
  have hsize : PageSize = 4096 := rfl
  have hlast : (b.endAddress + 2 ^ 64 - 1) % 2 ^ 64 = b.endAddress - 1 := by omega
  rw [AreaFits]
  rw [last_eq (by omega) hfit, hlast]
  omega

theorem covers_mem_bounds {a z : Nat} (h : Covers a z blocks) (hb : b ∈ blocks) :
    a ≤ b.address ∧ b.address < b.endAddress ∧ b.endAddress ≤ z := by
  induction blocks generalizing a with
  | nil => exact absurd hb not_mem_nil
  | cons c blocks ih =>
    obtain ⟨hc, hlt, hrest⟩ := tiles_cons.mp h
    have hz := hrest.le
    rcases mem_cons.mp hb with rfl | hb
    · omega
    · obtain ⟨h1, h2, h3⟩ := ih hrest hb
      omega

/-! ## 3. The loop -/

theorem freeArea_cons : FreeArea (b :: blocks) regionStart regionNumPages numPages alignment offset
      guardPages x ↔
    (FreeArea [b] regionStart regionNumPages numPages alignment offset guardPages x ∨
      FreeArea blocks regionStart regionNumPages numPages alignment offset guardPages x) := by
  simp only [FreeArea, mem_cons, not_mem_nil, or_false, exists_eq_or_imp, exists_eq_left]
  tauto

/-- In a free block the least aligned address is free, or no address is. -/
theorem freeArea_singleton (ho : offset < alignment) (hfree : b.memoryState = KMemoryState.free) :
    (FreeArea [b] regionStart regionNumPages numPages alignment offset guardPages
        (alignedFrom alignment offset (max regionStart b.address + guardPages * PageSize)) ↔
      alignedFrom alignment offset (max regionStart b.address + guardPages * PageSize) +
          numPages * PageSize + guardPages * PageSize ≤ regionStart + regionNumPages * PageSize ∧
        alignedFrom alignment offset (max regionStart b.address + guardPages * PageSize) +
          numPages * PageSize + guardPages * PageSize ≤ b.endAddress) ∧
    ∀ x, FreeArea [b] regionStart regionNumPages numPages alignment offset guardPages x →
      FreeArea [b] regionStart regionNumPages numPages alignment offset guardPages
          (alignedFrom alignment offset (max regionStart b.address + guardPages * PageSize)) ∧
        alignedFrom alignment offset (max regionStart b.address + guardPages * PageSize) ≤ x := by
  obtain ⟨hle, hmod, hleast⟩ :=
    @alignedFrom_spec alignment offset (max regionStart b.address + guardPages * PageSize) ho
  generalize alignedFrom alignment offset (max regionStart b.address + guardPages * PageSize) = c
    at hle hmod hleast ⊢
  have hiff : FreeArea [b] regionStart regionNumPages numPages alignment offset guardPages c ↔
      c + numPages * PageSize + guardPages * PageSize ≤ regionStart + regionNumPages * PageSize ∧
        c + numPages * PageSize + guardPages * PageSize ≤ b.endAddress := by
    simp only [FreeArea, mem_singleton, exists_eq_left]
    constructor
    · intro h
      exact ⟨h.2.2.1, h.2.2.2.2.2⟩
    · intro h
      exact ⟨hmod, by omega, h.1, hfree, by omega, h.2⟩
  refine ⟨hiff, fun x hx => ?_⟩
  simp only [FreeArea, mem_singleton, exists_eq_left] at hx
  obtain ⟨hxmod, hxstart, hxend, -, hxlow, hxhigh⟩ := hx
  have hcx := hleast x (by omega) hxmod
  exact ⟨hiff.mpr ⟨by omega, by omega⟩, hcx⟩

/-- **The loop returns the least free area of its blocks, or 0 when there is none.** -/
theorem findFreeLoop_spec {a z : Nat} (h : Covers a z blocks) (hz : z ≤ 2 ^ 64)
    (ho : offset < alignment) (hn : 0 < numPages)
    (hregion : 0 < regionStart + regionNumPages * PageSize)
    (hafter : ∀ b ∈ blocks, regionStart < b.endAddress)
    (hfit : ∀ b ∈ blocks, b.memoryState = KMemoryState.free → regionStart < b.endAddress →
      b.address < regionStart + regionNumPages * PageSize →
      alignedFrom alignment offset (max regionStart b.address + guardPages * PageSize) +
        numPages * PageSize + guardPages * PageSize ≤ 2 ^ 64) :
    let area := findFreeLoop regionStart (regionStart + regionNumPages * PageSize - 1) numPages
      alignment offset guardPages blocks
    (FreeArea blocks regionStart regionNumPages numPages alignment offset guardPages area ∧
      ∀ x, FreeArea blocks regionStart regionNumPages numPages alignment offset guardPages x → area ≤ x) ∨
    (area = 0 ∧
      ∀ x, ¬FreeArea blocks regionStart regionNumPages numPages alignment offset guardPages x) := by
  induction blocks generalizing a with
  | nil =>
    refine .inr ⟨rfl, fun x hx => ?_⟩
    obtain ⟨-, -, -, b, hb, -⟩ := hx
    exact absurd hb not_mem_nil
  | cons b blocks ih =>
    obtain ⟨haddr, hlt, hrest⟩ := tiles_cons.mp h
    have hbounds := covers_mem_bounds h mem_cons_self
    have ih := ih hrest (fun c hc => hafter c (mem_cons_of_mem _ hc))
      (fun c hc => hfit c (mem_cons_of_mem _ hc))
    have hpages : 0 < numPages * PageSize := Nat.mul_pos hn (by decide)
    rw [findFreeLoop]
    by_cases hbreak : regionStart + regionNumPages * PageSize - 1 < b.address
    · -- the region ends before the block
      rw [if_pos hbreak]
      refine .inr ⟨rfl, fun x hx => ?_⟩
      obtain ⟨-, -, hxend, c, hc, -, hxlow, -⟩ := hx
      have hc := covers_mem_bounds h hc
      omega
    · rw [if_neg hbreak]
      by_cases hfree : b.memoryState = KMemoryState.free
      · rw [if_neg (not_not.mpr hfree)]
        have hb := hfit b mem_cons_self hfree (hafter b mem_cons_self) (by omega)
        obtain ⟨hiff, hleast⟩ := @freeArea_singleton b regionStart regionNumPages numPages
          alignment offset guardPages ho hfree
        obtain ⟨hlow, -, -⟩ := @alignedFrom_spec alignment offset
          (max regionStart b.address + guardPages * PageSize) ho
        have hchecks := (@areaFits_iff b numPages guardPages _ _ hn (by omega) hb hregion
          (by omega) (by omega)).trans hiff.symm
        dsimp only
        rw [candidateArea_eq ho hn hb]
        by_cases harea : FreeArea [b] regionStart regionNumPages numPages alignment offset
          guardPages (alignedFrom alignment offset (max regionStart b.address + guardPages * PageSize))
        · -- the area fits into this block, and the areas of later blocks lie behind it
          rw [if_pos (hchecks.mpr harea)]
          refine .inl ⟨freeArea_cons.mpr (.inl harea), fun x hx => ?_⟩
          rcases freeArea_cons.mp hx with hx | hx
          · exact (hleast x hx).2
          · obtain ⟨-, -, -, c, hc, -, hxlow, -⟩ := hx
            have hc := covers_mem_bounds hrest hc
            have hend := (hiff.mp harea).2
            omega
        · rw [if_neg (mt hchecks.mp harea)]
          have hskip : ∀ x, FreeArea (b :: blocks) regionStart regionNumPages numPages alignment
              offset guardPages x ↔ FreeArea blocks regionStart regionNumPages numPages
              alignment offset guardPages x := fun x =>
            freeArea_cons.trans (or_iff_right fun hx => harea (hleast x hx).1)
          simp only [hskip]
          exact ih
      · rw [if_pos hfree]
        have hskip : ∀ x, FreeArea (b :: blocks) regionStart regionNumPages numPages alignment
            offset guardPages x ↔ FreeArea blocks regionStart regionNumPages numPages
            alignment offset guardPages x := fun x => by
          refine freeArea_cons.trans (or_iff_right fun hx => ?_)
          obtain ⟨-, -, -, c, hc, hcfree, -⟩ := hx
          exact hfree (mem_singleton.mp hc ▸ hcfree)
        simp only [hskip]
        exact ih

/-! ## 4. The whole search -/

/-- The iterator stands behind the blocks that end before the address, and before the others. -/
theorem findIterator_split {a z p : Nat} (h : Covers a z blocks) (ha : a ≤ p) :
    (∀ b ∈ blocks.take (findIterator blocks p), b.endAddress ≤ p) ∧
    (∀ b ∈ blocks.drop (findIterator blocks p), p < b.endAddress) ∧
    ∃ a', Covers a' z (blocks.drop (findIterator blocks p)) := by
  induction blocks generalizing a with
  | nil => exact ⟨fun b hb => absurd hb not_mem_nil, fun b hb => absurd hb not_mem_nil,
      a, h⟩
  | cons b blocks ih =>
    obtain ⟨haddr, hlt, hrest⟩ := tiles_cons.mp h
    by_cases hin : b.address ≤ p ∧ p < b.endAddress
    · have hzero : findIterator (b :: blocks) p = 0 := by
        simp [findIterator, findIdx_cons, hin]
      rw [hzero]
      refine ⟨fun c hc => absurd hc not_mem_nil, fun c hc => ?_, a, h⟩
      rcases mem_cons.mp hc with rfl | hc
      · exact hin.2
      · have hc := covers_mem_bounds hrest hc
        omega
    · have hend : b.endAddress ≤ p := by omega
      have hsucc : findIterator (b :: blocks) p = findIterator blocks p + 1 := by
        rw [findIterator, findIdx_cons, findIterator]
        have hfalse : (decide (b.address ≤ p) && decide (p < b.endAddress)) = false := by
          simpa using hin
        rw [hfalse]
        rfl
      obtain ⟨htake, hdrop, hcovers⟩ := ih hrest hend
      rw [hsucc]
      refine ⟨fun c hc => ?_, hdrop, hcovers⟩
      rcases mem_cons.mp hc with rfl | hc
      · exact hend
      · exact htake c hc

/-- Blocks that pass `CheckState` and span the address space cover it. -/
theorem Spans.covers (hs : m.Spans) (hcheck : m.checkState = true) :
    Covers m.startAddress m.endAddress m.blocks := by
  obtain ⟨b, rest, hblocks, hstart⟩ := hs.first
  obtain ⟨init, c, hlast, hend⟩ := hs.last
  have hpages := hs.pages
  unfold checkState at hcheck
  rw [← hstart, ← hend]
  have hgo : ∀ (rest : List KMemoryBlock) (b : KMemoryBlock), checkState.go (b :: rest) = true →
      (∀ d ∈ b :: rest, 0 < d.numPages) → ∀ init, b :: rest = init ++ [c] →
      Covers b.address c.endAddress (b :: rest) := by
    intro rest
    induction rest with
    | nil =>
      intro b _ hpos init hinit
      have hb : b = c := by
        have hlast := congrArg List.getLast? hinit
        simpa using hlast
      have hsize : 0 < b.size := Nat.mul_pos (hpos b mem_cons_self) (by decide)
      subst hb
      exact tiles_cons.mpr ⟨rfl, by rw [KMemoryBlock.endAddress]; omega, rfl⟩
    | cons d rest ih =>
      intro b hgo hpos init hinit
      simp only [checkState.go, checkPair, Bool.and_eq_true, beq_iff_eq] at hgo
      obtain ⟨⟨⟨-, hjoin⟩, -⟩, hrest⟩ := hgo
      have hsize : 0 < b.size := Nat.mul_pos (hpos b mem_cons_self) (by decide)
      cases init with
      | nil => simp at hinit
      | cons b' init =>
        have htail := (cons.inj hinit).2
        refine tiles_cons.mpr ⟨rfl, by rw [KMemoryBlock.endAddress]; omega, ?_⟩
        rw [hjoin]
        exact ih d hrest (fun e he => hpos e (mem_cons_of_mem _ he)) init htail
  rw [hblocks] at hcheck hpages hlast ⊢
  exact hgo rest b hcheck hpages init hlast

/-- **`FindFreeArea` is first-fit.** A non-zero answer is the least free area; an answer of zero
means that no pages are asked for, that address 0 is a free area, or that there is none. -/
theorem findFreeArea_firstFit (m : KMemoryBlockManager) (hs : m.Spans) (hcheck : m.checkState = true)
    (regionStart regionNumPages numPages alignment offset guardPages : Nat)
    (hlow : m.startAddress ≤ regionStart)
    (_hhigh : regionStart + regionNumPages * PageSize ≤ m.endAddress)
    (hempty : 0 < regionStart ∨ 0 < regionNumPages)
    (_halign : ∃ k, alignment = 2 ^ k) (ho : offset < alignment)
    (hfit : m.SumsFit regionStart regionNumPages numPages alignment offset guardPages) :
    let area := m.findFreeArea regionStart regionNumPages numPages alignment offset guardPages
    (area ≠ 0 → FreeArea m.blocks regionStart regionNumPages numPages alignment offset guardPages area ∧
      ∀ x, FreeArea m.blocks regionStart regionNumPages numPages alignment offset guardPages x → area ≤ x) ∧
    (area = 0 → numPages = 0 ∨
      FreeArea m.blocks regionStart regionNumPages numPages alignment offset guardPages 0 ∨
      ∀ x, ¬FreeArea m.blocks regionStart regionNumPages numPages alignment offset guardPages x) := by
  intro area
  have hcovers := hs.covers hcheck
  obtain ⟨htake, hdrop, a', hrest⟩ := findIterator_split hcovers hlow
  have hregion : 0 < regionStart + regionNumPages * PageSize := by
    rcases hempty with h | h
    · omega
    · have := Nat.mul_pos h (show 0 < PageSize by decide)
      omega
  by_cases hn : 0 < numPages
  · have hpages : 0 < numPages * PageSize := Nat.mul_pos hn (by decide)
    have harea : area = findFreeLoop regionStart (regionStart + regionNumPages * PageSize - 1)
        numPages alignment offset guardPages
        (m.blocks.drop (findIterator m.blocks regionStart)) := by
      have hlast := last_eq hregion hfit.1
      simp only [area, findFreeArea, if_pos hn, hlast]
    -- the blocks before the iterator end before the region
    have hskip : ∀ x, FreeArea m.blocks regionStart regionNumPages numPages alignment offset
        guardPages x ↔ FreeArea (m.blocks.drop (findIterator m.blocks regionStart)) regionStart
        regionNumPages numPages alignment offset guardPages x := by
      intro x
      constructor
      · intro hx
        obtain ⟨hmod, hxlow, hxhigh, b, hb, hfree, hblow, hbhigh⟩ := hx
        refine ⟨hmod, hxlow, hxhigh, b, ?_, hfree, hblow, hbhigh⟩
        rw [← take_append_drop (findIterator m.blocks regionStart) m.blocks] at hb
        refine (mem_append.mp hb).resolve_left fun hin => ?_
        have hb := htake b hin
        omega
      · intro hx
        obtain ⟨hmod, hxlow, hxhigh, b, hb, hrest⟩ := hx
        exact ⟨hmod, hxlow, hxhigh, b, mem_of_mem_drop hb, hrest⟩
    have hspec := findFreeLoop_spec hrest hs.bound ho hn hregion hdrop
      (fun b hb => hfit.2 b (mem_of_mem_drop hb))
    simp only [hskip]
    rw [← harea] at hspec
    rcases hspec with ⟨hfree, hleast⟩ | ⟨hzero, hnone⟩
    · refine ⟨fun _ => ⟨hfree, hleast⟩, fun hzero => .inr (.inl ?_)⟩
      rwa [hzero] at hfree
    · exact ⟨fun hne => absurd hzero hne, fun _ => .inr (.inr hnone)⟩
  · have hzero : area = 0 := if_neg hn
    exact ⟨fun hne => absurd hzero hne, fun _ => .inl (by omega)⟩

/-- Sixteen pages from an address on, all free. -/
def freePages (start : Nat) : KMemoryBlockManager where
  startAddress := start
  endAddress := start + 16 * PageSize
  blocks := [{
    address := start
    numPages := 16
    memoryState := KMemoryState.free
    permission := KMemoryPermission.none
    attr := KMemoryAttribute.none }]

theorem freePages_spans {start : Nat} (h : start + 16 * PageSize ≤ 2 ^ 64) : (freePages start).Spans where
  first := ⟨_, [], rfl, rfl⟩
  last := ⟨[], _, rfl, rfl⟩
  pages := by
    intro b hb
    rw [mem_singleton.mp hb]
    exact Nat.succ_pos 15
  bound := h

/-- Two pages with one guard page on either side, `0x800` behind a multiple of two pages. -/
theorem findFreeArea_firstFit_guarded :
    (freePages 0x10000).findFreeArea 0x11000 15 2 0x2000 0x800 1 = 0x12800 ∧
    FreeArea (freePages 0x10000).blocks 0x11000 15 2 0x2000 0x800 1 0x12800 ∧
    ∀ x, FreeArea (freePages 0x10000).blocks 0x11000 15 2 0x2000 0x800 1 x → 0x12800 ≤ x := by
  have hspec := findFreeArea_firstFit (freePages 0x10000) (freePages_spans (by decide)) (by decide)
    0x11000 15 2 0x2000 0x800 1 (by decide) (by decide) (by decide) ⟨13, rfl⟩ (by decide)
    (by decide)
  have harea : (freePages 0x10000).findFreeArea 0x11000 15 2 0x2000 0x800 1 = 0x12800 := by decide
  rw [harea] at hspec
  exact ⟨harea, hspec.1 (by decide)⟩

/-- **Answers that are not first-fit.** A free area at address 0 is answered as if there were none,
so is any request for no pages, and the search of an empty region at address 0 leaves the region. -/
theorem findFreeArea_not_firstFit : ((freePages 0).Spans ∧ (freePages 0).checkState = true) ∧
    ((freePages 0).SumsFit 0 16 1 0x1000 0 0 ∧ (freePages 0).findFreeArea 0 16 1 0x1000 0 0 = 0 ∧
      FreeArea (freePages 0).blocks 0 16 1 0x1000 0 0 0) ∧
    ((freePages 0).SumsFit 0x1000 15 0 0x1000 0 0 ∧ (freePages 0).findFreeArea 0x1000 15 0 0x1000 0 0 = 0 ∧
      FreeArea (freePages 0).blocks 0x1000 15 0 0x1000 0 0 0x1000) ∧
    ((freePages 0).SumsFit 0 0 1 0x1000 0 1 ∧ (freePages 0).findFreeArea 0 0 1 0x1000 0 1 = 0x1000 ∧
      ¬FreeArea (freePages 0).blocks 0 0 1 0x1000 0 1 0x1000) := by
  refine ⟨⟨freePages_spans (by decide), by decide⟩, ⟨by decide, by decide, ?_⟩,
    ⟨by decide, by decide, ?_⟩, ⟨by decide, by decide, ?_⟩⟩
  · exact ⟨rfl, by decide, by decide, _, mem_singleton_self _, rfl, by decide, by decide⟩
  · exact ⟨rfl, by decide, by decide, _, mem_singleton_self _, rfl, by decide, by decide⟩
  · intro h
    exact absurd h.2.2.1 (by decide)

end Yuzu.Kernel.KMemoryBlockManager
