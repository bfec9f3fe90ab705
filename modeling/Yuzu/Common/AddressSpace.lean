/-
  File:      Yuzu/Common/AddressSpace.lean
  Subject:   Common::FlatAddressSpaceMap (common/address_space.h, common/address_space.inc): a map of
             virtual to physical ranges kept as a sorted vector of blocks.

  A block holds from its virtual address up to the next block. Iterators are indices into the list
  of blocks; a step off either end of the vector and a failed `ASSERT_MSG` have no result.

  * `WellFormed` -- sorted from 0 on, closed by an unmapped block, unmapped blocks apart;
  * `mapLocked_eq`, `unmapLocked_eq` -- the vector after a call, from the parts of the vector that
    lie before, in and behind the range;
  * `mapLocked_spec` -- what a map does to the translation;
  * `SpaceOp.run_unmap_iff` -- when an unmap does what it is for.
-/
import Mathlib.Data.BitVec
import Mathlib.Data.List.Chain
import Mathlib.Data.List.TakeWhile
import Yuzu.Lib.Assert
import Yuzu.Lib.Breakpoints
import Yuzu.Lib.Positions

set_option linter.unusedSectionVars false

namespace Yuzu.Common

open List Option

/-! ## 1. Blocks -/

/-- `FlatAddressSpaceMap::Block`, with physical addresses of `w` bits. -/
structure Block (w : Nat) (E : Type) where
  virt : Nat
  phys : BitVec w
  extraInfo : E
deriving DecidableEq

/-- `FlatAddressSpaceMap`, its template parameters included. `UnmappedVa` is 0. -/
structure FlatAddressSpaceMap (w : Nat) (E : Type) where
  vaBits : Nat
  unmappedPa : BitVec w
  paContigSplit : Bool
  vaLimit : Nat
  /-- checked by the constructor: the limit is a value of `VaType` -/
  vaLimit_lt : vaLimit < 2 ^ vaBits
  blocks : List (Block w E)
deriving DecidableEq

namespace FlatAddressSpaceMap

variable {w : Nat} {E : Type} [Inhabited E]

/-- A new map has one unmapped block. -/
def make (vaBits : Nat) (unmappedPa : BitVec w) (paContigSplit : Bool) (vaLimit : Nat)
    (h : vaLimit < 2 ^ vaBits) : FlatAddressSpaceMap w E :=
  ⟨vaBits, unmappedPa, paContigSplit, vaLimit, h, [⟨0, unmappedPa, default⟩]⟩

/-- `Block::Unmapped`. -/
def Unmapped (s : FlatAddressSpaceMap w E) (b : Block w E) : Prop := b.phys = s.unmappedPa

/-- `Block::Mapped`. -/
def Mapped (s : FlatAddressSpaceMap w E) (b : Block w E) : Prop := b.phys ≠ s.unmappedPa

instance (s : FlatAddressSpaceMap w E) (b : Block w E) : Decidable (s.Unmapped b) :=
  inferInstanceAs (Decidable (_ = _))

instance (s : FlatAddressSpaceMap w E) (b : Block w E) : Decidable (s.Mapped b) :=
  inferInstanceAs (Decidable (_ ≠ _))

/-- `std::lower_bound(blocks.begin(), blocks.end(), virt)`. -/
def lowerBound (blocks : List (Block w E)) (virt : Nat) : Nat :=
  (blocks.takeWhile fun b => decide (b.virt < virt)).length

/-- The sum of a virtual address and a size, in `VaType`. -/
def virtEnd (s : FlatAddressSpaceMap w E) (virt size : Nat) : Nat := (virt + size) % 2 ^ s.vaBits

/-! ## 2. MapLocked -/

/-- The physical address at which a cut block goes on. -/
def tailPhys (s : FlatAddressSpaceMap w E) (pred : Block w E) (virtEnd : Nat) : BitVec w :=
  if s.paContigSplit = false then pred.phys
  else if s.Unmapped pred then pred.phys
  else pred.phys + BitVec.ofNat w (virtEnd - pred.virt)

/-- The second half of `MapLocked`: the start block, with a block at `virtEnd` behind it. -/
def mapStart (blocks : List (Block w E)) (new : Block w E) (virtEnd endSuccessor : Nat) :
    Option (List (Block w E)) := do
  let before ← walkBack (fun b => decide (b.virt ≥ new.virt)) blocks (endSuccessor - 1)
  let startSuccessor := before + 1
  let b ← blocks[startSuccessor]?
  if b.virt > virtEnd then none
  else if b.virt = virtEnd then some (insertAt blocks startSuccessor [new])
  else
    let blocks :=
      if startSuccessor + 1 ≠ endSuccessor then eraseRange blocks (startSuccessor + 1) endSuccessor
      else blocks
    some (blocks.set startSuccessor new)

/-- `MapLocked` on the blocks. -/
def mapBlocks (s : FlatAddressSpaceMap w E) (virt : Nat) (phys : BitVec w) (size : Nat)
    (extraInfo : E) : Option (List (Block w E)) := do
  let virtEnd := s.virtEnd virt size
  let new : Block w E := ⟨virt, phys, extraInfo⟩
  assert (virtEnd ≤ s.vaLimit)
  let endSuccessor := lowerBound s.blocks virtEnd
  assert (endSuccessor ≠ 0)
  let endPredecessor := endSuccessor - 1
  let pred ← s.blocks[endPredecessor]?
  match s.blocks[endSuccessor]? with
  | some succ =>
    if succ.virt ≠ virtEnd then
      let tailPhys := s.tailPhys pred virtEnd
      if endPredecessor ≠ 0 ∧ pred.virt ≥ virt then
        -- reuse the block as a tail
        mapStart (s.blocks.set endPredecessor ⟨virtEnd, tailPhys, pred.extraInfo⟩) new virtEnd
          endPredecessor
      else some (insertAt s.blocks endSuccessor [new, ⟨virtEnd, tailPhys, pred.extraInfo⟩])
    else mapStart s.blocks new virtEnd endSuccessor
  | none =>
    if endPredecessor ≠ 0 ∧ pred.virt ≥ virt then
      -- move the unmapped block start backwards
      mapStart (s.blocks.set endPredecessor ⟨virtEnd, pred.phys, pred.extraInfo⟩) new virtEnd endPredecessor
    else some (insertAt s.blocks endSuccessor [new, ⟨virtEnd, s.unmappedPa, default⟩])

def mapLocked (s : FlatAddressSpaceMap w E) (virt : Nat) (phys : BitVec w) (size : Nat)
    (extraInfo : E) : Option (FlatAddressSpaceMap w E) :=
  (s.mapBlocks virt phys size extraInfo).map fun blocks => { s with blocks := blocks }

/-! ## 3. UnmapLocked -/

/-- `walk_back_to_predecessor`. -/
def walkBackToPredecessor (blocks : List (Block w E)) (virt : Nat) (iter : Nat) : Option Nat :=
  walkBack (fun b => decide (b.virt ≥ virt)) blocks iter

/-- `erase_blocks_with_end_unmapped`. -/
def eraseBlocksWithEndUnmapped (s : FlatAddressSpaceMap w E) (virt unmappedEnd : Nat) :
    Option (List (Block w E)) := do
  let startPredecessor ← walkBackToPredecessor s.blocks virt unmappedEnd
  let startSuccessor := startPredecessor + 1
  let start ← s.blocks[startPredecessor]?
  let stop ← s.blocks[unmappedEnd]?
  let eraseEnd := if s.Unmapped start then unmappedEnd + 1 else unmappedEnd
  let blocks :=
    if s.Unmapped start then s.blocks
    else s.blocks.set unmappedEnd ⟨virt, stop.phys, stop.extraInfo⟩
  -- two unmapped regions after each other
  assert (¬ (eraseEnd ≠ blocks.length ∧ (eraseEnd = startSuccessor ∨
    (s.Unmapped start ∧ ∃ b ∈ blocks[eraseEnd]?, s.Unmapped b))))
  some (eraseRange blocks startSuccessor eraseEnd)

/-- The second half of `UnmapLocked`: the start of the unmapped range, with a block at `virtEnd`
behind it. -/
def unmapStart (s : FlatAddressSpaceMap w E) (blocks : List (Block w E))
    (virt virtEnd endSuccessor endPredecessor : Nat) : Option (List (Block w E)) := do
  let startPredecessor ← walkBackToPredecessor blocks virt endSuccessor
  let startSuccessor := startPredecessor + 1
  let start ← blocks[startPredecessor]?
  let b ← blocks[startSuccessor]?
  if b.virt > virtEnd then none
  else if b.virt = virtEnd then
    if s.Mapped start then some (insertAt blocks startSuccessor [⟨virt, s.unmappedPa, default⟩])
    else some blocks
  else if s.Unmapped start then some (eraseRange blocks startSuccessor endPredecessor)
  else
    let blocks :=
      if startSuccessor + 1 ≠ endSuccessor then eraseRange blocks (startSuccessor + 1) endSuccessor
      else blocks
    some (blocks.set startSuccessor ⟨virt, s.unmappedPa, b.extraInfo⟩)

/-- `UnmapLocked` on the blocks. The successor is read before it is compared with the end. -/
def unmapBlocks (s : FlatAddressSpaceMap w E) (virt size : Nat) : Option (List (Block w E)) := do
  let virtEnd := s.virtEnd virt size
  assert (virtEnd ≤ s.vaLimit)
  let endSuccessor := lowerBound s.blocks virtEnd
  assert (endSuccessor ≠ 0)
  let endPredecessor := endSuccessor - 1
  let pred ← s.blocks[endPredecessor]?
  if s.Unmapped pred then
    if pred.virt > virt then s.eraseBlocksWithEndUnmapped virt endPredecessor else some s.blocks
  else do
    let succ ← s.blocks[endSuccessor]?
    if succ.virt = virtEnd ∧ s.Unmapped succ then s.eraseBlocksWithEndUnmapped virt endSuccessor
    else if succ.virt ≠ virtEnd then
      let tailPhys :=
        if s.paContigSplit then pred.phys + BitVec.ofNat w (virtEnd - pred.virt) else pred.phys
      if pred.virt ≥ virt then
        -- reuse the block as a tail
        s.unmapStart (s.blocks.set endPredecessor ⟨virtEnd, tailPhys, pred.extraInfo⟩) virt virtEnd
          endPredecessor (endPredecessor - 1)
      else
        some (insertAt s.blocks endSuccessor
          [⟨virt, s.unmappedPa, default⟩, ⟨virtEnd, tailPhys, pred.extraInfo⟩])
    else s.unmapStart s.blocks virt virtEnd endSuccessor endPredecessor

def unmapLocked (s : FlatAddressSpaceMap w E) (virt size : Nat) : Option (FlatAddressSpaceMap w E) :=
  (s.unmapBlocks virt size).map fun blocks => { s with blocks := blocks }

/-! ## 4. Well-formed vectors and their translation -/

/-- Blocks in order from 0 on, an unmapped one at the end, no two unmapped ones in a row. -/
structure WellFormed (s : FlatAddressSpaceMap w E) : Prop where
  sorted : s.blocks.Pairwise (·.virt < ·.virt)
  first : ∃ b l, s.blocks = b :: l ∧ b.virt = 0
  last : ∃ l b, s.blocks = l ++ [b] ∧ s.Unmapped b
  apart : s.blocks.IsChain fun b b' => ¬ (s.Unmapped b ∧ s.Unmapped b')

/-- What a block says about an address: its physical address and the block's information. -/
def read (s : FlatAddressSpaceMap w E) (b : Block w E) (v : Nat) : Option (BitVec w × E) :=
  if s.Unmapped b then none
  else if s.paContigSplit then some (b.phys + BitVec.ofNat w (v - b.virt), b.extraInfo)
  else some (b.phys, b.extraInfo)

/-- The block that an address lies in. -/
def blockAt (s : FlatAddressSpaceMap w E) (v : Nat) : Block w E :=
  entryAt Block.virt ⟨0, s.unmappedPa, default⟩ s.blocks v

/-- **The translation of an address**, none where it is unmapped. -/
def translate (s : FlatAddressSpaceMap w E) (v : Nat) : Option (BitVec w × E) :=
  s.read (s.blockAt v) v

/-- The address is not mapped to the physical address that stands for unmapped memory. -/
def NotSentinel (s : FlatAddressSpaceMap w E) (v : Nat) : Prop :=
  (s.translate v).map Prod.fst ≠ some s.unmappedPa

instance (s : FlatAddressSpaceMap w E) (v : Nat) : Decidable (s.NotSentinel v) :=
  inferInstanceAs (Decidable (_ ≠ _))

/-- The vector cut at the ends of a range: `start` is the last block before it, `inner` are the
blocks that start in it, `behind` the others. -/
structure Parts (s : FlatAddressSpaceMap w E) (virt stop : Nat) (A : List (Block w E))
    (start : Block w E) (inner behind : List (Block w E)) : Prop where
  range : virt ≤ stop
  blocks_eq : s.blocks = A ++ start :: (inner ++ behind)
  before : ∀ b ∈ A, b.virt < virt
  start_lt : start.virt < virt
  inner_le : ∀ b ∈ inner, virt ≤ b.virt
  inner_lt : ∀ b ∈ inner, b.virt < stop
  behind_le : ∀ b ∈ behind, stop ≤ b.virt

/-- The blocks before a range. -/
def before (s : FlatAddressSpaceMap w E) (virt : Nat) : List (Block w E) :=
  s.blocks.takeWhile fun b => decide (b.virt < virt)

/-- The blocks that start in a range. -/
def inner (s : FlatAddressSpaceMap w E) (virt stop : Nat) : List (Block w E) :=
  (s.blocks.dropWhile fun b => decide (b.virt < virt)).takeWhile fun b => decide (b.virt < stop)

/-- The blocks behind a range. -/
def behind (s : FlatAddressSpaceMap w E) (virt stop : Nat) : List (Block w E) :=
  (s.blocks.dropWhile fun b => decide (b.virt < virt)).dropWhile fun b => decide (b.virt < stop)

section Facts

variable {s : FlatAddressSpaceMap w E} {virt stop v : Nat} {A M B T : List (Block w E)}
  {start b d d' : Block w E}

theorem mapped_iff : s.Mapped b ↔ ¬ s.Unmapped b := Iff.rfl

theorem read_unmapped (h : s.Unmapped b) : s.read b v = none := if_pos h

theorem read_mapped (h : s.Mapped b) : ∃ q, s.read b v = some (q, b.extraInfo) := by
  rw [read, if_neg (mapped_iff.mp h)]
  split
  · exact ⟨_, rfl⟩
  · exact ⟨_, rfl⟩

theorem read_ne_none (h : s.Mapped b) : s.read b v ≠ none := by
  obtain ⟨q, hq⟩ := read_mapped (v := v) h
  rw [hq]
  exact some_ne_none _

theorem wellFormed_make {vaBits vaLimit : Nat} {u : BitVec w} {c : Bool}
    {h : vaLimit < 2 ^ vaBits} : (make vaBits u c vaLimit h : FlatAddressSpaceMap w E).WellFormed :=
  ⟨pairwise_singleton _ _, ⟨_, [], rfl, rfl⟩, ⟨[], _, rfl, rfl⟩, isChain_singleton _⟩

theorem translate_make {vaBits vaLimit : Nat} {u : BitVec w} {c : Bool} {h : vaLimit < 2 ^ vaBits} :
    (make vaBits u c vaLimit h : FlatAddressSpaceMap w E).translate v = none := by
  refine read_unmapped ?_
  rw [blockAt, make, entryAt]
  split <;> rfl

/-- A range behind 0 cuts a well-formed vector. -/
theorem WellFormed.parts (h : s.WellFormed) (hvirt : 0 < virt) (hstop : virt ≤ stop) :
    ∃ A start, s.before virt = A ++ [start] ∧
      s.Parts virt stop A start (s.inner virt stop) (s.behind virt stop) := by
  obtain ⟨b, l, hl, hb⟩ := h.first
  have hne : s.before virt ≠ [] := by
    rw [before, hl, takeWhile_cons_of_pos (by simpa [hb] using hvirt)]
    exact cons_ne_nil _ _
  have hlt : ∀ b ∈ s.before virt, b.virt < virt := fun b hb =>
    of_decide_eq_true (mem_takeWhile_imp (p := fun b : Block w E => decide (b.virt < virt)) hb)
  have hrest : s.inner virt stop ++ s.behind virt stop =
      s.blocks.dropWhile fun b => decide (b.virt < virt) := takeWhile_append_dropWhile
  have hsplit : s.before virt ++ (s.inner virt stop ++ s.behind virt stop) = s.blocks := by
    rw [hrest]
    exact takeWhile_append_dropWhile
  have hsorted : (s.blocks.dropWhile fun b => decide (b.virt < virt)).Pairwise
      (Block.virt · < Block.virt ·) := h.sorted.sublist (dropWhile_sublist _)
  have hge : ∀ b ∈ s.inner virt stop ++ s.behind virt stop, virt ≤ b.virt := by
    rw [hrest]
    exact le_of_mem_dropWhile h.sorted
  obtain ⟨A, start, hA⟩ : ∃ A start, s.before virt = A ++ [start] :=
    ⟨_, _, (dropLast_append_getLast hne).symm⟩
  rw [hA] at hlt hsplit
  refine ⟨A, start, hA, hstop, ?_, fun b hb => hlt b (mem_append_left _ hb),
    hlt start (mem_append_right _ mem_cons_self),
    fun b hb => hge b (mem_append_left _ hb), fun b hb => ?_, fun b hb => ?_⟩
  · rw [← hsplit, append_assoc]
    rfl
  · exact of_decide_eq_true (mem_takeWhile_imp (p := fun b : Block w E => decide (b.virt < stop)) hb)
  · exact le_of_mem_dropWhile hsorted b hb

namespace Parts

variable (hp : s.Parts virt stop A start M B)

include hp

theorem lowerBound_eq : lowerBound s.blocks stop = A.length + 1 + M.length := by
  have hblocks : s.blocks = (A ++ start :: M) ++ B := by
    rw [hp.blocks_eq, append_assoc]
    rfl
  have hlt : ∀ b ∈ A ++ start :: M, decide (b.virt < stop) = true := by
    intro b hb
    refine decide_eq_true ?_
    rcases mem_append.mp hb with hb | hb
    · exact lt_of_lt_of_le (hp.before b hb) hp.range
    · rcases mem_cons.mp hb with rfl | hb
      · exact lt_of_lt_of_le hp.start_lt hp.range
      · exact hp.inner_lt b hb
  have htake : B.takeWhile (fun b => decide (b.virt < stop)) = [] := by
    cases B with
    | nil => rfl
    | cons b B =>
      have hb : ¬ b.virt < stop := not_lt.mpr (hp.behind_le b mem_cons_self)
      exact takeWhile_cons_of_neg (by simpa using hb)
  rw [lowerBound, hblocks, takeWhile_append_of_pos hlt, htake, append_nil]
  simp only [length_append, length_cons]
  omega

theorem getElem?_pred : s.blocks[A.length + 1 + M.length - 1]? = some (M.getLastD start) := by
  rw [hp.blocks_eq]
  rcases eq_nil_or_concat M with rfl | ⟨M, b, rfl⟩
  · exact getElem?_append_cons (by simp)
  · have : A ++ start :: (M.concat b ++ B) = (A ++ start :: M) ++ b :: B := by simp
    rw [this, concat_eq_append, getLastD_concat]
    exact getElem?_append_cons (by simp; omega)

theorem getElem?_succ : s.blocks[A.length + 1 + M.length]? = B.head? := by
  have : s.blocks = (A ++ start :: M) ++ B := by
    rw [hp.blocks_eq]
    simp
  rw [this, List.getElem?_append_right (by simp; omega)]
  have hzero : A.length + 1 + M.length - (A ++ start :: M).length = 0 := by
    simp only [length_append, length_cons]
    omega
  rw [hzero, List.head?_eq_getElem?]

end Parts

theorem Parts.set_pred (hp : s.Parts virt stop A start (M ++ [b]) B) :
    s.blocks.set (A.length + 1 + (M ++ [b]).length - 1) d = A ++ start :: (M ++ d :: B) := by
  have : s.blocks = (A ++ start :: M) ++ b :: B := by
    rw [hp.blocks_eq]
    simp
  rw [this, set_append_cons (by simp; omega)]
  simp

theorem Parts.behind_sorted (hp : s.Parts virt stop A start M B) (h : s.WellFormed) :
    B.Pairwise (·.virt < ·.virt) := by
  have hsorted := h.sorted
  rw [hp.blocks_eq] at hsorted
  obtain ⟨-, hrest, -⟩ := pairwise_append.mp hsorted
  exact (pairwise_append.mp (pairwise_cons.mp hrest).2).2.1

theorem Parts.behind_lt (hp : s.Parts virt stop A start M (b :: B)) (h : s.WellFormed)
    (hb : b.virt ≠ stop) : ∀ c ∈ b :: B, stop < c.virt := by
  have hlt : stop < b.virt := lt_of_le_of_ne (hp.behind_le b mem_cons_self) (Ne.symm hb)
  intro c hc
  rcases mem_cons.mp hc with rfl | hc
  · exact hlt
  · exact lt_trans hlt ((pairwise_cons.mp (hp.behind_sorted h)).1 c hc)

/-- A new vector from parts of a well-formed one: blocks `X` for those in the range. -/
theorem WellFormed.splice {X : List (Block w E)} (h : s.WellFormed)
    (hp : s.Parts virt stop A start M B) (hX : X.Pairwise (·.virt < ·.virt))
    (hXle : ∀ b ∈ X, virt ≤ b.virt) (hXlt : ∀ b ∈ X, b.virt < stop) (hT : T.Pairwise (·.virt < ·.virt))
    (hTle : ∀ b ∈ T, stop ≤ b.virt)
    (hlast : ∃ l b, start :: (X ++ T) = l ++ [b] ∧ s.Unmapped b)
    (hapart : (start :: (X ++ T)).IsChain fun b b' => ¬ (s.Unmapped b ∧ s.Unmapped b')) :
    ({ s with blocks := A ++ start :: (X ++ T) } : FlatAddressSpaceMap w E).WellFormed := by
  have hsorted := h.sorted
  have hchain := h.apart
  rw [hp.blocks_eq] at hsorted hchain
  obtain ⟨hA, -, hAs⟩ := pairwise_append.mp hsorted
  refine ⟨?sorted, ?first, ?last, ?apart⟩
  case sorted =>
    refine pairwise_append.mpr ⟨hA, pairwise_cons.mpr ⟨fun b hb => ?_,
      pairwise_append.mpr ⟨hX, hT, fun b hb c hc => ?_⟩⟩, fun b hb c hc => ?_⟩
    · rcases mem_append.mp hb with hb | hb
      · exact lt_of_lt_of_le hp.start_lt (hXle b hb)
      · exact lt_of_lt_of_le hp.start_lt (le_trans hp.range (hTle b hb))
    · exact lt_of_lt_of_le (hXlt b hb) (hTle c hc)
    · have hbv := hp.before b hb
      rcases mem_cons.mp hc with rfl | hc
      · exact hAs b hb c mem_cons_self
      · rcases mem_append.mp hc with hc | hc
        · exact lt_of_lt_of_le hbv (hXle c hc)
        · exact lt_of_lt_of_le hbv (le_trans hp.range (hTle c hc))
  case first =>
    obtain ⟨b, l, hl, hb⟩ := h.first
    rw [hp.blocks_eq] at hl
    cases A with
    | nil =>
      obtain ⟨rfl, -⟩ := cons.inj hl
      exact ⟨_, _, rfl, hb⟩
    | cons a A =>
      obtain ⟨rfl, -⟩ := cons.inj hl
      exact ⟨_, _, rfl, hb⟩
  case last =>
    obtain ⟨l, b, hl, hb⟩ := hlast
    refine ⟨A ++ l, b, ?_, hb⟩
    rw [hl, append_assoc]
  case apart =>
    obtain ⟨hcA, -, hjoin⟩ := isChain_append.mp hchain
    exact isChain_append.mpr ⟨hcA, hapart, hjoin⟩

/-- What a vector holds from `stop` on: what the old one held, cut at `stop`. -/
def Tail (s : FlatAddressSpaceMap w E) (stop : Nat) (pred : Block w E) (B T : List (Block w E)) : Prop :=
  (∃ e B', B = e :: B' ∧ e.virt = stop ∧ T = B) ∨
  ((∀ b ∈ B, stop < b.virt) ∧ ∃ x, T = ⟨stop, s.tailPhys pred stop, x⟩ :: B ∧
    (s.Mapped pred → x = pred.extraInfo))

/-- The blocks behind the first one of a range go. -/
theorem erase_behind {m e : Block w E} {i : Nat} (hi : i = A.length + 1 + (m :: M).length) :
    (if A.length + 1 + 1 ≠ i then eraseRange ((A ++ [start]) ++ m :: (M ++ e :: B)) (A.length + 1 + 1) i
      else (A ++ [start]) ++ m :: (M ++ e :: B)) = (A ++ [start]) ++ m :: e :: B := by
  split
  · have : (A ++ [start]) ++ m :: (M ++ e :: B) = (A ++ [start] ++ [m]) ++ (M ++ e :: B) := by simp
    rw [this, eraseRange_append (by simp) (by simp at hi ⊢; omega)]
    simp
  · have hM : M = [] := eq_nil_of_length_eq_zero (by simp at hi; omega)
    rw [hM]
    rfl

/-- A start block before a block at the end of the range. -/
theorem mapStart_eq {new e : Block w E} {i : Nat} (hs : start.virt < new.virt)
    (hle : ∀ b ∈ M, new.virt ≤ b.virt) (hlt : ∀ b ∈ M, b.virt < stop) (he : e.virt = stop)
    (hi : i = A.length + 1 + M.length) :
    mapStart (A ++ start :: (M ++ e :: B)) new stop i = some (A ++ start :: new :: e :: B) := by
  have hwalk : walkBack (fun b => decide (b.virt ≥ new.virt)) (A ++ start :: (M ++ e :: B)) (i - 1)
      = some A.length :=
    walkBack_append (decide_eq_false (not_le.mpr hs)) (fun b hb => decide_eq_true (hle b hb)) (by omega)
  have hcut : ∀ l, A ++ start :: l = (A ++ [start]) ++ l := fun l => by
    rw [append_assoc]
    rfl
  have hlen : A.length + 1 = (A ++ [start]).length := by
    rw [length_append, length_singleton]
  rw [mapStart, hwalk]
  simp only [bind_eq_bind, bind_some]
  cases M with
  | nil =>
    rw [nil_append, hcut, getElem?_append_cons hlen]
    simp only [bind_some]
    rw [if_neg (by omega), if_pos he, insertAt_append hlen]
    simp
  | cons m M =>
    rw [cons_append, hcut, getElem?_append_cons hlen]
    simp only [bind_some]
    have hm : m.virt < stop := hlt m mem_cons_self
    rw [if_neg (by omega), if_neg (by omega)]
    rw [erase_behind hi, set_append_cons hlen]
    simp

theorem tailPhys_unmapped (h : s.Unmapped b) : s.tailPhys b stop = s.unmappedPa := by
  rw [tailPhys, if_pos h, ite_self]
  exact h

theorem WellFormed.pred_unmapped (h : s.WellFormed) (hp : s.Parts virt stop A start M []) :
    s.Unmapped (M.getLastD start) := by
  obtain ⟨l, b, hl, hb⟩ := h.last
  have hlast : s.blocks.getLast? = some (M.getLastD start) := by
    rw [hp.blocks_eq, append_nil, List.getLast?_append_cons, List.getLast?_cons, getLastD_eq_getLast?]
  rw [hl, List.getLast?_concat] at hlast
  rwa [← some.inj hlast]

/-- **The vector after `MapLocked`**: the new block in the place of those in the range, and behind
it what was there. -/
theorem mapBlocks_eq {phys : BitVec w} {size : Nat} {x : E} (h : s.WellFormed)
    (hp : s.Parts virt stop A start M B) (hstop : s.virtEnd virt size = stop)
    (hlim : stop ≤ s.vaLimit) :
    ∃ T, s.mapBlocks virt phys size x = some (A ++ start :: ⟨virt, phys, x⟩ :: T) ∧
      s.Tail stop (M.getLastD start) B T := by
  have hnz : A.length + 1 + M.length ≠ 0 := by omega
  have hnew : start.virt < (⟨virt, phys, x⟩ : Block w E).virt := hp.start_lt
  rw [mapBlocks, hstop, assert_bind_of hlim, hp.lowerBound_eq, assert_bind_of hnz]
  dsimp only
  rw [hp.getElem?_pred, hp.getElem?_succ]
  simp only [bind_eq_bind, bind_some]
  cases B with
  | nil =>
    have hun := h.pred_unmapped hp
    rw [List.head?_nil]
    dsimp only
    rcases eq_nil_or_concat M with rfl | ⟨M, p, rfl⟩
    · have hlt := hp.start_lt
      rw [if_neg (by rw [getLastD_nil]; omega)]
      refine ⟨_, ?_, .inr ⟨fun b hb => (nomatch hb), default, rfl, fun hm => absurd hun hm⟩⟩
      have hblocks : s.blocks = (A ++ [start]) ++ [] := by
        rw [hp.blocks_eq]
        simp
      rw [hblocks, insertAt_append (by simp), tailPhys_unmapped hun]
      simp
    · rw [concat_eq_append, getLastD_concat] at *
      have hpm : p ∈ M ++ [p] := mem_append_right _ mem_cons_self
      have hle : virt ≤ p.virt := hp.inner_le p hpm
      rw [if_pos ⟨by simp, hle⟩]
      rw [hp.set_pred, mapStart_eq hnew (fun b hb => hp.inner_le b (mem_append_left _ hb))
        (fun b hb => hp.inner_lt b (mem_append_left _ hb)) rfl (by simp)]
      refine ⟨_, rfl, .inr ⟨fun b hb => (nomatch hb), p.extraInfo, ?_, fun _ => rfl⟩⟩
      rw [tailPhys_unmapped hun, show p.phys = s.unmappedPa from hun]
  | cons e B =>
    rw [List.head?_cons]
    dsimp only
    by_cases he : e.virt = stop
    · rw [if_neg (not_not.mpr he), hp.blocks_eq, mapStart_eq hnew hp.inner_le hp.inner_lt he rfl]
      exact ⟨_, rfl, .inl ⟨e, B, rfl, he, rfl⟩⟩
    · rw [if_pos he]
      have hlt := hp.behind_lt h he
      rcases eq_nil_or_concat M with rfl | ⟨M, p, rfl⟩
      · have hst := hp.start_lt
        rw [getLastD_nil, if_neg (by omega)]
        refine ⟨_, ?_, .inr ⟨hlt, start.extraInfo, rfl, fun _ => rfl⟩⟩
        have hblocks : s.blocks = (A ++ [start]) ++ e :: B := by
          rw [hp.blocks_eq]
          simp
        rw [hblocks, insertAt_append (by simp)]
        simp
      · rw [concat_eq_append, getLastD_concat] at *
        have hpm : p ∈ M ++ [p] := mem_append_right _ mem_cons_self
        have hle : virt ≤ p.virt := hp.inner_le p hpm
        rw [if_pos ⟨by simp, hle⟩]
        rw [hp.set_pred, mapStart_eq hnew (fun b hb => hp.inner_le b (mem_append_left _ hb))
          (fun b hb => hp.inner_lt b (mem_append_left _ hb)) rfl (by simp)]
        exact ⟨_, rfl, .inr ⟨hlt, p.extraInfo, rfl, fun _ => rfl⟩⟩

/-! ## 5. Reading the parts -/

theorem Parts.blockAt_before (hp : s.Parts virt stop A start M B) (hT : ∀ b ∈ T, virt ≤ b.virt)
    (hv : v < virt) :
    entryAt Block.virt ⟨0, s.unmappedPa, default⟩ (A ++ start :: T) v = s.blockAt v := by
  have hcut : ∀ l, A ++ start :: l = (A ++ [start]) ++ l := fun l => by
    rw [append_assoc]
    rfl
  have hold : ∀ b ∈ M ++ B, v < b.virt := by
    intro b hb
    rcases mem_append.mp hb with hb | hb
    · exact lt_of_lt_of_le hv (hp.inner_le b hb)
    · exact lt_of_lt_of_le hv (le_trans hp.range (hp.behind_le b hb))
  rw [blockAt, hp.blocks_eq, hcut T, hcut (M ++ B), entryAt_append_left hold,
    entryAt_append_left fun b hb => lt_of_lt_of_le hv (hT b hb)]

theorem Parts.entryAt_from (hp : s.Parts virt stop A start M B) (hv : virt ≤ v) :
    entryAt Block.virt d (A ++ start :: T) v = entryAt Block.virt start T v := by
  have hle : ∀ b ∈ A, b.virt ≤ v := fun b hb => le_trans (le_of_lt (hp.before b hb)) hv
  rw [entryAt_append_right hle, entryAt, if_pos (le_trans (le_of_lt hp.start_lt) hv)]

theorem Parts.blockAt_behind (hp : s.Parts virt stop A start M B) (hv : stop ≤ v) :
    s.blockAt v = entryAt Block.virt (M.getLastD start) B v := by
  rw [blockAt, hp.blocks_eq, hp.entryAt_from (le_trans hp.range hv),
    entryAt_append_right fun b hb => le_trans (le_of_lt (hp.inner_lt b hb)) hv]

theorem Parts.pred_lt (hp : s.Parts virt stop A start M B) : (M.getLastD start).virt ≤ stop := by
  rcases eq_nil_or_concat M with rfl | ⟨M, p, rfl⟩
  · exact le_trans (le_of_lt hp.start_lt) hp.range
  · rw [concat_eq_append, getLastD_concat]
    exact le_of_lt (hp.inner_lt p (by simp))

theorem Parts.tailPhys_ne (hp : s.Parts virt stop A start M B) (hB : ∀ b ∈ B, stop < b.virt)
    (hpred : s.Mapped (M.getLastD start)) :
    s.NotSentinel stop ↔ s.tailPhys (M.getLastD start) stop ≠ s.unmappedPa := by
  rw [NotSentinel, translate, hp.blockAt_behind (le_refl stop), entryAt_of_lt hB, read,
    if_neg (mapped_iff.mp hpred), tailPhys, if_neg (mapped_iff.mp hpred)]
  cases s.paContigSplit with
  | false =>
    refine ⟨fun _ => hpred, fun _ => ?_⟩
    exact fun heq => hpred (some.inj heq)
  | true =>
    exact ⟨fun hne heq => hne (congrArg some heq), fun hne heq => hne (some.inj heq)⟩

/-- **Behind the range** a vector with the old tail reads as before. -/
theorem Tail.read_eq (hp : s.Parts virt stop A start M B) (hT : s.Tail stop (M.getLastD start) B T)
    (hsplit : s.NotSentinel stop) (hv : stop ≤ v) :
    s.read (entryAt Block.virt d T v) v = s.translate v := by
  rw [translate, hp.blockAt_behind hv]
  rcases hT with ⟨e, B', rfl, he, rfl⟩ | ⟨hB, x, rfl, hx⟩
  · rw [entryAt, entryAt, if_pos (he ▸ hv), if_pos (he ▸ hv)]
  · rw [entryAt, if_pos hv]
    refine entryAt_congr (f := fun b => s.read b v) ?_
    by_cases hpred : s.Mapped (M.getLastD start)
    · have hne := (hp.tailPhys_ne hB hpred).mp hsplit
      have hlt := hp.pred_lt
      have htail : ¬ s.Unmapped ⟨stop, s.tailPhys (M.getLastD start) stop, x⟩ := hne
      rw [read, read, if_neg htail, if_neg (mapped_iff.mp hpred), hx hpred, tailPhys,
        if_neg (mapped_iff.mp hpred)]
      by_cases hc : s.paContigSplit = true
      · have hadd : stop - (M.getLastD start).virt + (v - stop) = v - (M.getLastD start).virt := by
          omega
        rw [if_pos hc, if_pos hc, if_neg (by rw [hc]; exact Bool.noConfusion), BitVec.add_assoc,
          ← BitVec.ofNat_add, hadd]
      · rw [if_neg hc, if_neg hc, if_pos (Bool.not_eq_true _ ▸ hc)]
    · have hun : s.Unmapped (M.getLastD start) := not_not.mp hpred
      rw [read_unmapped hun, read_unmapped]
      exact tailPhys_unmapped hun

theorem Parts.pred_apart (hp : s.Parts virt stop A start M B) (h : s.WellFormed) :
    (M.getLastD start :: B).IsChain fun b b' => ¬ (s.Unmapped b ∧ s.Unmapped b') := by
  have hchain := h.apart
  rw [hp.blocks_eq] at hchain
  have hrest := (isChain_append.mp hchain).2.1
  rcases eq_nil_or_concat M with rfl | ⟨M, p, rfl⟩
  · exact hrest
  · rw [concat_eq_append, getLastD_concat]
    rw [concat_eq_append, append_assoc, ← cons_append] at hrest
    exact (isChain_append.mp hrest).2.1

theorem Parts.behind_last (hp : s.Parts virt stop A start M B) (h : s.WellFormed) (hB : B ≠ []) :
    ∃ l b, B = l ++ [b] ∧ s.Unmapped b := by
  obtain ⟨l, b, hl, hb⟩ := h.last
  obtain ⟨l', b', hl'⟩ : ∃ l' b', B = l' ++ [b'] := ⟨_, _, (dropLast_append_getLast hB).symm⟩
  have heq : l ++ [b] = (A ++ start :: (M ++ l')) ++ [b'] := by
    rw [← hl, hp.blocks_eq, hl']
    simp
  refine ⟨l', b', hl', ?_⟩
  rwa [← (append_singleton_inj.mp heq).2]

section Tails

variable (hp : s.Parts virt stop A start M B) (hT : s.Tail stop (M.getLastD start) B T) (h : s.WellFormed)

include hp hT h

theorem Tail.le : ∀ b ∈ T, stop ≤ b.virt := by
  rcases hT with ⟨e, B', rfl, he, rfl⟩ | ⟨hB, x, rfl, hx⟩
  · exact hp.behind_le
  · intro b hb
    rcases mem_cons.mp hb with rfl | hb
    · exact le_rfl
    · exact hp.behind_le b hb

theorem Tail.sorted : T.Pairwise (·.virt < ·.virt) := by
  rcases hT with ⟨e, B', rfl, he, rfl⟩ | ⟨hB, x, rfl, hx⟩
  · exact hp.behind_sorted h
  · exact pairwise_cons.mpr ⟨hB, hp.behind_sorted h⟩

theorem Tail.last : ∃ l b, T = l ++ [b] ∧ s.Unmapped b := by
  rcases hT with ⟨e, B', rfl, he, rfl⟩ | ⟨hB, x, rfl, hx⟩
  · exact hp.behind_last h (cons_ne_nil _ _)
  · cases B with
    | nil => exact ⟨[], _, rfl, tailPhys_unmapped (h.pred_unmapped hp)⟩
    | cons b B =>
      obtain ⟨l, b', hl, hb'⟩ := hp.behind_last h (cons_ne_nil _ _)
      exact ⟨_ :: l, b', by rw [hl]; rfl, hb'⟩

theorem Tail.apart (hsplit : s.NotSentinel stop) :
    T.IsChain fun b b' => ¬ (s.Unmapped b ∧ s.Unmapped b') := by
  have hpred := hp.pred_apart h
  rcases hT with ⟨e, B', rfl, he, rfl⟩ | ⟨hB, x, rfl, hx⟩
  · exact (isChain_cons_cons.mp hpred).2
  · cases B with
    | nil => exact isChain_singleton _
    | cons b B =>
      obtain ⟨hjoin, hchain⟩ := isChain_cons_cons.mp hpred
      refine isChain_cons_cons.mpr ⟨fun hun => ?_, hchain⟩
      by_cases hm : s.Mapped (M.getLastD start)
      · exact (hp.tailPhys_ne hB hm).mp hsplit hun.1
      · exact hjoin ⟨not_not.mp hm, hun.2⟩

end Tails

/-! ## 6. What a map does -/

theorem virtEnd_eq {size : Nat} (hlim : virt + size ≤ s.vaLimit) : s.virtEnd virt size = virt + size :=
  Nat.mod_eq_of_lt (lt_of_le_of_lt hlim s.vaLimit_lt)

theorem WellFormed.mapLocked {phys : BitVec w} {size : Nat} {x : E} (h : s.WellFormed)
    (hvirt : 0 < virt) (hsize : 0 < size) (hlim : virt + size ≤ s.vaLimit)
    (hphys : phys ≠ s.unmappedPa) (hsplit : s.NotSentinel (virt + size)) :
    ∃ bs, s.mapLocked virt phys size x = some { s with blocks := bs } ∧
      ({ s with blocks := bs } : FlatAddressSpaceMap w E).WellFormed ∧
      ∀ v, ({ s with blocks := bs } : FlatAddressSpaceMap w E).translate v =
        if virt ≤ v ∧ v < virt + size then s.read ⟨virt, phys, x⟩ v else s.translate v := by
  obtain ⟨A, start, -, hp⟩ := h.parts hvirt (Nat.le_add_right virt size)
  obtain ⟨T, hmap, hT⟩ := @FlatAddressSpaceMap.mapBlocks_eq _ _ _ _ _ _ _ _ _ _ phys _ x h hp
      (virtEnd_eq hlim) hlim
  have hTle := hT.le hp h
  have hnewm : s.Mapped ⟨virt, phys, x⟩ := hphys
  refine ⟨A ++ start :: ⟨virt, phys, x⟩ :: T, by rw [FlatAddressSpaceMap.mapLocked, hmap]; rfl,
    ?wf, fun v => ?tr⟩
  case wf =>
    refine h.splice (X := [⟨virt, phys, x⟩]) hp (pairwise_singleton _ _) ?_ ?_ (hT.sorted hp h) hTle ?_ ?_
    · intro b hb
      rw [mem_singleton.mp hb]
    · intro b hb
      rw [mem_singleton.mp hb]
      exact Nat.lt_add_of_pos_right hsize
    · obtain ⟨l, b, rfl, hb⟩ := hT.last hp h
      exact ⟨start :: ⟨virt, phys, x⟩ :: l, b, rfl, hb⟩
    · refine isChain_cons_cons.mpr ⟨fun hun => hnewm hun.2, ?_⟩
      refine isChain_append.mpr ⟨isChain_singleton _, hT.apart hp h hsplit, fun b hb c _ hun => ?_⟩
      rw [List.getLast?_singleton, mem_some_iff] at hb
      exact hnewm (hb ▸ hun.1)
  case tr =>
    rw [translate, blockAt]
    by_cases hv : v < virt
    · have hge : ∀ b ∈ (⟨virt, phys, x⟩ : Block w E) :: T, virt ≤ b.virt := by
        intro b hb
        rcases mem_cons.mp hb with rfl | hb
        · exact le_rfl
        · exact le_trans hp.range (hTle b hb)
      rw [if_neg fun hin => absurd hin.1 (not_le.mpr hv)]
      exact congrArg (s.read · v) (hp.blockAt_before hge hv)
    · have hle : virt ≤ v := not_lt.mp hv
      rw [hp.entryAt_from hle, entryAt, if_pos hle]
      by_cases hstop : v < virt + size
      · rw [if_pos ⟨hle, hstop⟩, entryAt_of_lt fun b hb => lt_of_lt_of_le hstop (hTle b hb)]
        rfl
      · rw [if_neg fun hin => hstop hin.2]
        exact hT.read_eq hp hsplit (not_lt.mp hstop)

/-- **`MapLocked` maps its range and nothing else**, if the address behind the range is not mapped
to the physical address that stands for unmapped memory (with `PaContigSplit` a block cut there
would turn unmapped). -/
theorem mapLocked_translates (s : FlatAddressSpaceMap w E) (virt : Nat) (phys : BitVec w)
    (size : Nat) (x : E) (h : s.WellFormed) (hvirt : 0 < virt) (hsize : 0 < size)
    (hlim : virt + size ≤ s.vaLimit) (hphys : phys ≠ s.unmappedPa)
    (hsplit : s.NotSentinel (virt + size)) :
    ∃ s', s.mapLocked virt phys size x = some s' ∧ s'.WellFormed ∧
      (∀ v, virt ≤ v → v < virt + size → s'.translate v =
        some (if s.paContigSplit then phys + BitVec.ofNat w (v - virt) else phys, x)) ∧
      ∀ v, ¬ (virt ≤ v ∧ v < virt + size) → s'.translate v = s.translate v := by
  obtain ⟨bs, hmap, hwf, htr⟩ := h.mapLocked (x := x) hvirt hsize hlim hphys hsplit
  refine ⟨_, hmap, hwf, fun v hle hlt => ?_, fun v hout => ?_⟩
  · have hm : ¬ s.Unmapped ⟨virt, phys, x⟩ := hphys
    rw [htr, if_pos ⟨hle, hlt⟩, read, if_neg hm]
    split <;> rfl
  · rw [htr, if_neg hout]

/-- 32-bit addresses with 0 for unmapped memory and one mapped range, whose physical addresses go
over the top. -/
def wrapped : FlatAddressSpaceMap 32 Unit :=
  ⟨32, 0, true, 0xFFFFFFFF, by decide, [⟨0, 0, ()⟩, ⟨0x1000, 0xFFFFF000, ()⟩, ⟨0x3000, 0, ()⟩]⟩

theorem mapLocked_translates_wrapped : ∃ s', wrapped.mapLocked 0x1800 0x5000 0x400 () = some s' ∧
    s'.translate 0x1804 = some (0x5004, ()) ∧ s'.translate 0x2000 = wrapped.translate 0x2000 := by
  have hwf : wrapped.WellFormed :=
    ⟨by decide, ⟨_, _, rfl, rfl⟩, ⟨[_, _], _, rfl, rfl⟩, by decide⟩
  obtain ⟨s', hs', -, hin, hout⟩ := mapLocked_translates wrapped 0x1800 0x5000 0x400 () hwf
    (by decide) (by decide) (by decide) (by decide) (by decide)
  exact ⟨s', hs', hin 0x1804 (by decide) (by decide), hout 0x2000 (by decide)⟩

/-- A map that cuts the range where its physical address is 0: the tail is lost. -/
theorem mapLocked_cuts_wrapped : wrapped.WellFormed ∧
    (make 32 0 true 0xFFFFFFFF (by decide) : FlatAddressSpaceMap 32 Unit).mapLocked
      0x1000 0xFFFFF000 0x2000 () = some wrapped ∧
    ∃ s', wrapped.mapLocked 0x1000 0x5000 0x1000 () = some s' ∧ ¬ s'.WellFormed ∧
      wrapped.translate 0x2010 = some (0x10, ()) ∧ s'.translate 0x2010 = none := by
  refine ⟨⟨by decide, ⟨_, _, rfl, rfl⟩, ⟨[_, _], _, rfl, rfl⟩, by decide⟩, by decide,
    { wrapped with blocks := [⟨0, 0, ()⟩, ⟨0x1000, 0x5000, ()⟩, ⟨0x2000, 0, ()⟩, ⟨0x3000, 0, ()⟩] },
    by decide, fun h => absurd h.apart (by decide), by decide, by decide⟩

/-! ## 7. The vector after an unmap -/

theorem walkBackToPredecessor_eq {i : Nat} (hs : start.virt < virt) (hM : ∀ b ∈ M, virt ≤ b.virt)
    (hi : i = A.length + M.length) :
    walkBackToPredecessor (A ++ start :: (M ++ B)) virt i = some A.length :=
  walkBack_append (decide_eq_false (not_le.mpr hs)) (fun b hb => decide_eq_true (hM b hb)) hi

/-- Erasing up to an unmapped end block: with an unmapped block before the range all goes; else the
end block is moved to the start of the range, if there is a block in between. -/
theorem eraseBlocksWithEndUnmapped_eq {i : Nat} (hblocks : s.blocks = A ++ start :: (M ++ b :: B))
    (hs : start.virt < virt) (hM : ∀ c ∈ M, virt ≤ c.virt) (hb : virt ≤ b.virt)
    (hB : ∀ c ∈ B.head?, ¬ s.Unmapped c) (hi : i = A.length + 1 + M.length) :
    s.eraseBlocksWithEndUnmapped virt i =
      if s.Unmapped start then some (A ++ start :: B)
      else if M = [] then none
      else some (A ++ start :: ⟨virt, b.phys, b.extraInfo⟩ :: B) := by
  have hwalk : walkBackToPredecessor s.blocks virt i = some A.length := by
    have : s.blocks = A ++ start :: ((M ++ [b]) ++ B) := by
      rw [hblocks]
      simp
    rw [this]
    refine walkBackToPredecessor_eq hs (fun c hc => ?_) (by simp; omega)
    rcases mem_append.mp hc with hc | hc
    · exact hM c hc
    · rw [mem_singleton.mp hc]
      exact hb
  have hstart : s.blocks[A.length]? = some start := by
    rw [hblocks]
    exact getElem?_append_cons rfl
  have hcut : s.blocks = (A ++ start :: M) ++ b :: B := by
    rw [hblocks]
    simp
  have hstop : s.blocks[i]? = some b := by
    rw [hcut]
    exact getElem?_append_cons (by simp; omega)
  rw [eraseBlocksWithEndUnmapped, hwalk]
  simp only [bind_eq_bind, bind_some, hstart, hstop]
  by_cases hun : s.Unmapped start
  · have hnext : s.blocks[i + 1]? = B.head? := by
      have : s.blocks = (A ++ start :: (M ++ [b])) ++ B := by
        rw [hblocks]
        simp
      rw [this, List.getElem?_append_right (by simp; omega), List.head?_eq_getElem?]
      congr 1
      simp
      omega
    have hassert : ¬ (i + 1 ≠ s.blocks.length ∧ (i + 1 = A.length + 1 ∨
        (s.Unmapped start ∧ ∃ b ∈ s.blocks[i + 1]?, s.Unmapped b))) := by
      rintro ⟨-, heq | ⟨-, c, hc, hcu⟩⟩
      · omega
      · exact hB c (hnext ▸ hc) hcu
    simp only [if_pos hun]
    rw [← bind_eq_bind, assert_bind_of hassert]
    have : s.blocks = (A ++ [start]) ++ ((M ++ [b]) ++ B) := by
      rw [hblocks]
      simp
    rw [this, eraseRange_append (by simp) (by simp; omega)]
    simp
  · simp only [if_neg hun]
    rw [← bind_eq_bind, hcut, set_append_cons (by simp; omega)]
    cases M with
    | nil =>
      rw [if_pos rfl, assert, if_neg]
      · rfl
      · refine not_not.mpr ⟨?_, .inl (by simpa using hi)⟩
        simp
        simp at hi
        omega
    | cons m M =>
      have hassert : ¬ (i ≠ ((A ++ start :: m :: M) ++ (⟨virt, b.phys, b.extraInfo⟩ :: B)).length ∧
          (i = A.length + 1 ∨ (s.Unmapped start ∧ ∃ c ∈
            ((A ++ start :: m :: M) ++ (⟨virt, b.phys, b.extraInfo⟩ :: B))[i]?, s.Unmapped c))) := by
        rintro ⟨-, heq | ⟨hst, -⟩⟩
        · simp at hi
          omega
        · exact hun hst
      rw [assert_bind_of hassert, if_neg (cons_ne_nil _ _)]
      have : (A ++ start :: m :: M) ++ (⟨virt, b.phys, b.extraInfo⟩ :: B) =
          (A ++ [start]) ++ ((m :: M) ++ (⟨virt, b.phys, b.extraInfo⟩ :: B)) := by
        simp
      rw [this, eraseRange_append (by simp) (by simp at hi ⊢; omega)]
      simp

section Start

variable {e : Block w E} {i : Nat} (hs : start.virt < virt) (hM : ∀ c ∈ M, virt ≤ c.virt)
  (hlt : ∀ c ∈ M, c.virt < stop) (he : e.virt = stop) (hvs : virt ≤ stop)
  (hi : i = A.length + 1 + M.length)

include hs hM he hvs hi

theorem unmapStart_walk : walkBackToPredecessor (A ++ start :: (M ++ e :: B)) virt i =
    some A.length := by
  have : A ++ start :: (M ++ e :: B) = A ++ start :: ((M ++ [e]) ++ B) := by simp
  rw [this]
  refine walkBackToPredecessor_eq hs (fun c hc => ?_) (by simp; omega)
  rcases mem_append.mp hc with hc | hc
  · exact hM c hc
  · rw [mem_singleton.mp hc, he]
    exact hvs

theorem unmapStart_nil {j : Nat} (hnil : M = []) :
    s.unmapStart (A ++ start :: (M ++ e :: B)) virt stop i j =
      some (A ++ start :: ((if s.Mapped start then [⟨virt, s.unmappedPa, default⟩] else []) ++
        e :: B)) := by
  subst hnil
  have hcut : A ++ start :: ([] ++ e :: B) = (A ++ [start]) ++ e :: B := by simp
  rw [unmapStart, unmapStart_walk hs hM he hvs hi]
  simp only [bind_eq_bind, bind_some, getElem?_append_cons rfl]
  rw [hcut, getElem?_append_cons (by simp)]
  simp only [bind_some]
  rw [if_neg (by omega), if_pos he]
  split
  · rw [insertAt_append (by simp)]
    simp
  · simp

include hlt

/-- Behind a mapped block the first block of the range becomes the unmapped one. -/
theorem unmapStart_mapped {j : Nat} (hne : M ≠ []) (hm : s.Mapped start) :
    ∃ x, s.unmapStart (A ++ start :: (M ++ e :: B)) virt stop i j =
      some (A ++ start :: ⟨virt, s.unmappedPa, x⟩ :: e :: B) := by
  obtain ⟨m, M, rfl⟩ := exists_cons_of_ne_nil hne
  have hcut : A ++ start :: (m :: M ++ e :: B) = (A ++ [start]) ++ m :: (M ++ e :: B) := by simp
  have hmlt : m.virt < stop := hlt m mem_cons_self
  refine ⟨m.extraInfo, ?_⟩
  rw [unmapStart, unmapStart_walk hs hM he hvs hi]
  simp only [bind_eq_bind, bind_some, getElem?_append_cons rfl]
  rw [hcut, getElem?_append_cons (by simp)]
  simp only [bind_some]
  rw [if_neg (by omega), if_neg (by omega), if_neg (mapped_iff.mp hm)]
  rw [erase_behind hi, set_append_cons (by simp)]
  simp

theorem unmapStart_unmapped (hM' : M = T ++ [b]) (hu : s.Unmapped start) :
    s.unmapStart (A ++ start :: (M ++ e :: B)) virt stop i (i - 1) =
      some (A ++ start :: b :: e :: B) := by
  obtain ⟨m, M', hm⟩ : ∃ m M', M = m :: M' :=
    exists_cons_of_ne_nil (by rw [hM']; simp)
  have hcut : A ++ start :: (M ++ e :: B) = (A ++ [start]) ++ m :: (M' ++ e :: B) := by simp [hm]
  have hmlt : m.virt < stop := hlt m (hm ▸ mem_cons_self)
  rw [unmapStart, unmapStart_walk hs hM he hvs hi]
  simp only [bind_eq_bind, bind_some, getElem?_append_cons rfl]
  rw [hcut, getElem?_append_cons (by simp)]
  simp only [bind_some]
  rw [if_neg (by omega), if_neg (by omega), if_pos hu, ← hcut, hM']
  have : A ++ start :: (T ++ [b] ++ e :: B) = (A ++ [start]) ++ (T ++ b :: e :: B) := by simp
  rw [this, eraseRange_append (by simp) (by simp [hM'] at hi ⊢; omega)]
  simp

end Start

/-- **The condition on the blocks around the range.** Behind a mapped block the unmapped end of the
range must not follow at once; behind an unmapped one either the range ends unmapped, or a single
block is cut. -/
def Joins (s : FlatAddressSpaceMap w E) (virt stop : Nat) (start : Block w E)
    (inner behind : List (Block w E)) : Prop :=
  (s.Mapped start → (inner.length = 1 → ∀ b ∈ inner.head?, ¬ (s.Unmapped b ∧ virt < b.virt)) ∧
    (inner.length = 0 → ∀ n ∈ behind.head?, ¬ (n.virt = stop ∧ s.Unmapped n))) ∧
  (s.Unmapped start → ∀ b ∈ inner.getLast?, s.Mapped b → ∀ n ∈ behind.head?,
    if n.virt = stop then s.Unmapped n else inner.length = 1)

instance (s : FlatAddressSpaceMap w E) (virt stop : Nat) (start : Block w E)
    (inner behind : List (Block w E)) : Decidable (s.Joins virt stop start inner behind) :=
  inferInstanceAs (Decidable (_ ∧ _))

/-- The unmapped start of the range, where the block before it does not do. -/
def Head (s : FlatAddressSpaceMap w E) (virt : Nat) (start : Block w E) (U : List (Block w E)) :
    Prop :=
  (s.Unmapped start ∧ U = []) ∨ (s.Mapped start ∧ ∃ x, U = [⟨virt, s.unmappedPa, x⟩])

/-- What is behind the range, without an unmapped block at its start. -/
def Rest (s : FlatAddressSpaceMap w E) (stop : Nat) (pred : Block w E) (B T : List (Block w E)) :
    Prop :=
  (s.Unmapped pred ∧ T = B) ∨
  (s.Mapped pred ∧ ∃ e, B = e :: T ∧ e.virt = stop ∧ s.Unmapped e) ∨
  (s.Mapped pred ∧ s.Tail stop pred B T ∧ ∀ e ∈ B.head?, e.virt = stop → s.Mapped e)

/-- What an unmap comes to. -/
inductive Outcome (s : FlatAddressSpaceMap w E) (virt stop : Nat) (A : List (Block w E))
    (start : Block w E) (M B : List (Block w E)) : Option (List (Block w E)) → Prop
  | done (U T : List (Block w E)) (hj : s.Joins virt stop start M B) (hU : s.Head virt start U)
      (hT : s.Rest stop (M.getLastD start) B T) : Outcome s virt stop A start M B
        (some (A ++ start :: (U ++ T)))
  | failed (hj : ¬ s.Joins virt stop start M B) : Outcome s virt stop A start M B none
  | left (p : Block w E) (T : List (Block w E)) (hj : ¬ s.Joins virt stop start M B)
      (hs : s.Unmapped start) (hle : virt ≤ p.virt) (hlt : p.virt < stop)
      (hT : ∀ b ∈ T, stop ≤ b.virt) : Outcome s virt stop A start M B (some (A ++ start :: p :: T))

theorem joins_of_mapped (hm : s.Mapped start)
    (h1 : M.length = 1 → ∀ b ∈ M.head?, ¬ (s.Unmapped b ∧ virt < b.virt))
    (h0 : M.length = 0 → ∀ n ∈ B.head?, ¬ (n.virt = stop ∧ s.Unmapped n)) :
    s.Joins virt stop start M B :=
  ⟨fun _ => ⟨h1, h0⟩, fun hu => absurd hu hm⟩

theorem joins_of_unmapped (hu : s.Unmapped start) (h : ∀ b ∈ M.getLast?, s.Mapped b → ∀ n ∈ B.head?,
      if n.virt = stop then s.Unmapped n else M.length = 1) : s.Joins virt stop start M B :=
  ⟨fun hm => absurd hu hm, fun _ => h⟩

section Cases

variable {size : Nat} (h : s.WellFormed) (hp : s.Parts virt stop A start M B)
  (hstop : s.virtEnd virt size = stop) (hlim : stop ≤ s.vaLimit) (hvs : virt < stop)

include hp hstop hlim

theorem unmapBlocks_unfold : s.unmapBlocks virt size =
    if s.Unmapped (M.getLastD start) then
      if (M.getLastD start).virt > virt then
        s.eraseBlocksWithEndUnmapped virt (A.length + 1 + M.length - 1)
      else some s.blocks
    else B.head?.bind fun succ =>
      if succ.virt = stop ∧ s.Unmapped succ then
        s.eraseBlocksWithEndUnmapped virt (A.length + 1 + M.length)
      else if succ.virt ≠ stop then
        if (M.getLastD start).virt ≥ virt then
          s.unmapStart (s.blocks.set (A.length + 1 + M.length - 1)
              ⟨stop, s.tailPhys (M.getLastD start) stop, (M.getLastD start).extraInfo⟩) virt stop
            (A.length + 1 + M.length - 1) (A.length + 1 + M.length - 1 - 1)
        else
          some (insertAt s.blocks (A.length + 1 + M.length) [⟨virt, s.unmappedPa, default⟩,
            ⟨stop, s.tailPhys (M.getLastD start) stop, (M.getLastD start).extraInfo⟩])
      else s.unmapStart s.blocks virt stop (A.length + 1 + M.length) (A.length + 1 + M.length - 1) := by
  have hnz : A.length + 1 + M.length ≠ 0 := by omega
  rw [unmapBlocks, hstop, assert_bind_of hlim, hp.lowerBound_eq, assert_bind_of hnz]
  dsimp only
  rw [hp.getElem?_pred, hp.getElem?_succ]
  simp only [bind_eq_bind, bind_some]
  split
  · rfl
  · rename_i hm
    have htail : (if s.paContigSplit = true then (M.getLastD start).phys +
        BitVec.ofNat w (stop - (M.getLastD start).virt) else (M.getLastD start).phys) =
        s.tailPhys (M.getLastD start) stop := by
      rw [tailPhys, if_neg hm]
      cases s.paContigSplit <;> rfl
    rw [htail]

include h

/-- The end predecessor is unmapped. -/
theorem unmapBlocks_pred_unmapped (hu : s.Unmapped (M.getLastD start)) :
    s.Outcome virt stop A start M B (s.unmapBlocks virt size) := by
  have hapart := hp.pred_apart h
  rw [unmapBlocks_unfold hp hstop hlim, if_pos hu]
  rcases eq_nil_or_concat M with rfl | ⟨M, p, rfl⟩
  · have hst := hp.start_lt
    rw [getLastD_nil] at hu ⊢
    rw [if_neg (by omega), hp.blocks_eq]
    exact .done [] B (joins_of_unmapped hu fun b hb => nomatch hb) (.inl ⟨hu, rfl⟩) (.inl ⟨hu, rfl⟩)
  · rw [concat_eq_append] at *
    rw [getLastD_concat] at *
    have hple : virt ≤ p.virt := hp.inner_le p (by simp)
    split
    · rename_i hgt
      have hblocks : s.blocks = A ++ start :: (M ++ p :: B) := by
        rw [hp.blocks_eq]
        simp
      have hB : ∀ c ∈ B.head?, ¬ s.Unmapped c := by
        intro c hc hcu
        cases B with
        | nil => exact nomatch hc
        | cons b B =>
          rw [List.head?_cons, mem_some_iff] at hc
          exact (isChain_cons_cons.mp hapart).1 ⟨hu, hc ▸ hcu⟩
      rw [eraseBlocksWithEndUnmapped_eq hblocks hp.start_lt
        (fun c hc => hp.inner_le c (mem_append_left _ hc)) hple hB (by simp)]
      split
      · rename_i hs
        refine .done [] B (joins_of_unmapped hs fun b hb hm => ?_) (.inl ⟨hs, rfl⟩)
          (.inl ⟨by rwa [getLastD_concat], rfl⟩)
        rw [List.getLast?_concat, mem_some_iff] at hb
        exact absurd (hb ▸ hu) hm
      · rename_i hs
        split
        · rename_i hM
          subst hM
          exact .failed fun hj => (hj.1 (mapped_iff.mpr hs)).1 rfl p rfl ⟨hu, hgt⟩
        · rename_i hM
          obtain ⟨m, M, rfl⟩ := exists_cons_of_ne_nil hM
          refine .done [⟨virt, p.phys, p.extraInfo⟩] B
            (joins_of_mapped (mapped_iff.mpr hs) (fun h1 => ?_) fun h0 => ?_)
            (.inr ⟨mapped_iff.mpr hs, p.extraInfo, ?_⟩) (.inl ⟨by rwa [getLastD_concat], rfl⟩)
          · simp at h1
          · simp at h0
          · rw [show p.phys = s.unmappedPa from hu]
    · rename_i hgt
      have hpv : p.virt = virt := by omega
      -- it starts with the range, so it is alone and the block before it is mapped
      have hsorted := h.sorted
      rw [hp.blocks_eq] at hsorted
      have hMp := (pairwise_append.mp (pairwise_append.mp (pairwise_cons.mp
        (pairwise_append.mp hsorted).2.1).2).1).2.2
      have hM : M = [] := eq_nil_iff_forall_not_mem.mpr fun c hc => by
        have hcp := hMp c hc p mem_cons_self
        have hcv := hp.inner_le c (mem_append_left _ hc)
        omega
      subst hM
      have hs : s.Mapped start := fun hs => by
        have hchain := h.apart
        rw [hp.blocks_eq] at hchain
        exact (isChain_cons_cons.mp (isChain_append.mp hchain).2.1).1 ⟨hs, hu⟩
      rw [hp.blocks_eq]
      refine .done [p] B (joins_of_mapped hs (fun _ b hb hun => ?_) fun h0 => nomatch h0)
        (.inr ⟨hs, p.extraInfo, ?_⟩) (.inl ⟨hu, rfl⟩)
      · rw [nil_append, List.head?_cons, mem_some_iff] at hb
        subst hb
        omega
      · rw [← show p.phys = s.unmappedPa from hu, ← hpv]

include hvs

variable {B' : List (Block w E)}

/-- The end predecessor is mapped, and an unmapped block starts at the end of the range. -/
theorem unmapBlocks_end_unmapped {e : Block w E} (hB : B = e :: B')
    (hm : s.Mapped (M.getLastD start)) (he : e.virt = stop) (heu : s.Unmapped e) :
    s.Outcome virt stop A start M B (s.unmapBlocks virt size) := by
  subst hB
  have hapart := (isChain_cons_cons.mp (hp.pred_apart h)).2
  have hB' : ∀ c ∈ B'.head?, ¬ s.Unmapped c := by
    intro c hc hcu
    cases B' with
    | nil => exact nomatch hc
    | cons b B' =>
      rw [List.head?_cons, mem_some_iff] at hc
      exact (isChain_cons_cons.mp hapart).1 ⟨heu, hc ▸ hcu⟩
  have hrest : s.Rest stop (M.getLastD start) (e :: B') B' := .inr (.inl ⟨hm, e, rfl, he, heu⟩)
  rw [unmapBlocks_unfold hp hstop hlim, if_neg (mapped_iff.mp hm), List.head?_cons,
    bind_some, if_pos ⟨he, heu⟩, eraseBlocksWithEndUnmapped_eq hp.blocks_eq hp.start_lt
      hp.inner_le (by omega) hB' rfl]
  split
  · rename_i hs
    refine .done [] B' (joins_of_unmapped hs fun b _ _ n hn => ?_) (.inl ⟨hs, rfl⟩) hrest
    rw [List.head?_cons, mem_some_iff] at hn
    rw [← hn, if_pos he]
    exact heu
  · rename_i hs
    split
    · rename_i hM
      subst hM
      exact .failed fun hj => (hj.1 (mapped_iff.mpr hs)).2 rfl e rfl ⟨he, heu⟩
    · rename_i hM
      refine .done [⟨virt, e.phys, e.extraInfo⟩] B' (joins_of_mapped (mapped_iff.mpr hs)
        (fun h1 b hb hun => ?_) fun h0 => absurd (eq_nil_of_length_eq_zero h0) hM)
        (.inr ⟨mapped_iff.mpr hs, e.extraInfo, ?_⟩) hrest
      · obtain ⟨c, rfl⟩ := length_eq_one_iff.mp h1
        rw [List.head?_cons, mem_some_iff] at hb
        exact hm (hb ▸ hun.1)
      · rw [show e.phys = s.unmappedPa from heu]

/-- The end predecessor is mapped and is cut at the end of the range. -/
theorem unmapBlocks_cut {e : Block w E} (hB : B = e :: B')
    (hm : s.Mapped (M.getLastD start)) (he : e.virt ≠ stop) :
    s.Outcome virt stop A start M B (s.unmapBlocks virt size) := by
  subst hB
  have hlt := hp.behind_lt h he
  have hne : ∀ n ∈ (e :: B').head?, n.virt ≠ stop := by
    intro n hn
    rw [List.head?_cons, mem_some_iff] at hn
    exact hn ▸ he
  have hrest : s.Rest stop (M.getLastD start) (e :: B')
      (⟨stop, s.tailPhys (M.getLastD start) stop, (M.getLastD start).extraInfo⟩ :: e :: B') :=
    .inr (.inr ⟨hm, .inr ⟨hlt, _, rfl, fun _ => rfl⟩, fun n hn hns => absurd hns (hne n hn)⟩)
  rw [unmapBlocks_unfold hp hstop hlim, if_neg (mapped_iff.mp hm), List.head?_cons,
    bind_some, if_neg fun hes => he hes.1, if_pos he]
  rcases eq_nil_or_concat M with rfl | ⟨M, p, rfl⟩
  · have hst := hp.start_lt
    rw [getLastD_nil] at *
    have hblocks : s.blocks = (A ++ [start]) ++ e :: B' := by
      rw [hp.blocks_eq]
      simp
    rw [if_neg (by omega), hblocks, insertAt_append (by simp)]
    have := Outcome.done (A := A) (M := []) [⟨virt, s.unmappedPa, default⟩] _
      (joins_of_mapped hm (fun h1 => by simp at h1) fun _ n hn hns => hne n hn hns.1)
      (.inr ⟨hm, _, rfl⟩) hrest
    simpa using this
  · rw [concat_eq_append, getLastD_concat] at *
    have hple : virt ≤ p.virt := hp.inner_le p (by simp)
    have hle : ∀ b ∈ M, virt ≤ b.virt := fun b hb => hp.inner_le b (mem_append_left _ hb)
    have hMlt : ∀ b ∈ M, b.virt < stop := fun b hb => hp.inner_lt b (mem_append_left _ hb)
    have hlen : A.length + 1 + (M ++ [p]).length - 1 = A.length + 1 + M.length := by
      rw [length_append, length_singleton]
      omega
    rw [if_pos hple, hp.set_pred]
    rcases eq_nil_or_concat M with rfl | ⟨N, q, rfl⟩
    · rw [unmapStart_nil hp.start_lt hle rfl (le_of_lt hvs) hlen rfl]
      by_cases hs : s.Mapped start
      · rw [if_pos hs]
        refine .done _ _ (joins_of_mapped hs (fun _ b hb hun => ?_) fun h0 => nomatch h0)
          (.inr ⟨hs, _, rfl⟩) hrest
        rw [nil_append, List.head?_cons, mem_some_iff] at hb
        exact hm (hb ▸ hun.1)
      · rw [if_neg hs]
        refine .done _ _ (joins_of_unmapped (not_not.mp hs) fun b _ _ n hn => ?_)
          (.inl ⟨not_not.mp hs, rfl⟩) hrest
        rw [if_neg (hne n hn)]
        rfl
    · rw [concat_eq_append] at *
      by_cases hs : s.Mapped start
      · obtain ⟨x, hx⟩ := unmapStart_mapped (s := s) (B := e :: B')
          (e := ⟨stop, s.tailPhys p stop, p.extraInfo⟩) (j := A.length + 1 + (N ++ [q]).length - 1)
          hp.start_lt hle hMlt rfl (le_of_lt hvs) hlen (by simp) hs
        rw [hlen] at hx ⊢
        rw [hx]
        exact .done [⟨virt, s.unmappedPa, x⟩] _ (joins_of_mapped hs (fun h1 => by simp at h1)
          fun h0 => by simp at h0) (.inr ⟨hs, x, rfl⟩) (by rwa [getLastD_concat])
      · rw [unmapStart_unmapped hp.start_lt hle hMlt rfl (le_of_lt hvs) hlen rfl (not_not.mp hs)]
        refine .left q _ (fun hj => ?_) (not_not.mp hs) (hle q (by simp)) (hMlt q (by simp)) ?_
        · have := hj.2 (not_not.mp hs) p List.getLast?_concat hm e rfl
          rw [if_neg he] at this
          simp at this
        · intro b hb
          rcases mem_cons.mp hb with rfl | hb
          · exact le_rfl
          · exact le_of_lt (hlt b hb)

/-- The end predecessor is mapped, and a mapped block starts at the end of the range. -/
theorem unmapBlocks_end_mapped {e : Block w E} (hB : B = e :: B')
    (hm : s.Mapped (M.getLastD start)) (he : e.virt = stop) (hem : s.Mapped e) :
    s.Outcome virt stop A start M B (s.unmapBlocks virt size) := by
  subst hB
  have hhead : ∀ n ∈ (e :: B').head?, n = e := fun n hn => by
    rw [List.head?_cons, mem_some_iff] at hn
    exact hn.symm
  have hrest : s.Rest stop (M.getLastD start) (e :: B') (e :: B') :=
    .inr (.inr ⟨hm, .inl ⟨e, B', rfl, he, rfl⟩, fun n hn _ => hhead n hn ▸ hem⟩)
  rw [unmapBlocks_unfold hp hstop hlim, if_neg (mapped_iff.mp hm), List.head?_cons,
    bind_some, if_neg fun hes => hem hes.2, if_neg (not_not.mpr he), hp.blocks_eq]
  rcases eq_nil_or_concat M with rfl | ⟨N, q, rfl⟩
  · rw [getLastD_nil] at *
    rw [unmapStart_nil hp.start_lt hp.inner_le he (le_of_lt hvs) rfl rfl, if_pos hm]
    exact .done _ _ (joins_of_mapped hm (fun h1 => nomatch h1) fun _ n hn hns =>
      hem (hhead n hn ▸ hns.2)) (.inr ⟨hm, _, rfl⟩) hrest
  · rw [concat_eq_append, getLastD_concat] at *
    by_cases hs : s.Mapped start
    · obtain ⟨x, hx⟩ := unmapStart_mapped (s := s) (B := B')
        (j := A.length + 1 + (N ++ [q]).length - 1) hp.start_lt hp.inner_le hp.inner_lt he
        (le_of_lt hvs) rfl (by simp) hs
      rw [hx]
      refine .done [⟨virt, s.unmappedPa, x⟩] _ (joins_of_mapped hs (fun h1 b hb hun => ?_)
        fun h0 => by simp at h0) (.inr ⟨hs, x, rfl⟩) (by rwa [getLastD_concat])
      have hN : N = [] := eq_nil_of_length_eq_zero (by simpa using h1)
      subst hN
      rw [nil_append, List.head?_cons, mem_some_iff] at hb
      exact hm (hb ▸ hun.1)
    · rw [unmapStart_unmapped hp.start_lt hp.inner_le hp.inner_lt he (le_of_lt hvs) rfl rfl (not_not.mp hs)]
      refine .left q _ (fun hj => ?_) (not_not.mp hs) (hp.inner_le q (by simp))
        (hp.inner_lt q (by simp)) hp.behind_le
      have := hj.2 (not_not.mp hs) q List.getLast?_concat hm e rfl
      rw [if_pos he] at this
      exact hem this

/-- **What an unmap comes to**, in each of its cases. -/
theorem unmapBlocks_outcome : s.Outcome virt stop A start M B (s.unmapBlocks virt size) := by
  by_cases hm : s.Mapped (M.getLastD start)
  · cases hB : B with
    | nil =>
      subst hB
      exact absurd (h.pred_unmapped hp) hm
    | cons e B' =>
      rw [← hB]
      by_cases he : e.virt = stop
      · by_cases heu : s.Unmapped e
        · exact unmapBlocks_end_unmapped h hp hstop hlim hvs hB hm he heu
        · exact unmapBlocks_end_mapped h hp hstop hlim hvs hB hm he heu
      · exact unmapBlocks_cut h hp hstop hlim hvs hB hm he
  · exact unmapBlocks_pred_unmapped h hp hstop hlim (not_not.mp hm)

end Cases

/-! ## 8. When an unmap does what it is for -/

/-- **What an unmap is for**: no assertion fails, the vector stays well formed, the range is
unmapped and every other address translates as before. -/
def UnmapCorrect (s : FlatAddressSpaceMap w E) (virt size : Nat) : Prop :=
  ∃ s', s.unmapLocked virt size = some s' ∧ s'.WellFormed ∧
    (∀ v, virt ≤ v → v < virt + size → s'.translate v = none) ∧
    ∀ v, ¬ (virt ≤ v ∧ v < virt + size) → s'.translate v = s.translate v

/-- **The condition of an unmap**, on the vector before the call. -/
def UnmapSafe (s : FlatAddressSpaceMap w E) (virt size : Nat) : Prop :=
  s.Joins virt (virt + size) ((s.before virt).getLastD ⟨0, s.unmappedPa, default⟩)
    (s.inner virt (virt + size)) (s.behind virt (virt + size)) ∧
  s.NotSentinel (virt + size)

instance (s : FlatAddressSpaceMap w E) (virt size : Nat) : Decidable (s.UnmapSafe virt size) :=
  inferInstanceAs (Decidable (_ ∧ _))

variable {U : List (Block w E)}

theorem Head.last_unmapped (hU : s.Head virt start U) : s.Unmapped (U.getLastD start) := by
  rcases hU with ⟨hs, rfl⟩ | ⟨-, x, rfl⟩
  · exact hs
  · rfl

theorem Head.virt_eq (hU : s.Head virt start U) : ∀ b ∈ U, b.virt = virt := by
  rcases hU with ⟨-, rfl⟩ | ⟨-, x, rfl⟩
  · exact fun b hb => nomatch hb
  · intro b hb
    rw [mem_singleton.mp hb]

theorem read_start : (s.read b b.virt).map Prod.fst ≠ some s.unmappedPa := by
  rw [read]
  split
  · exact nofun
  · rename_i hm
    rw [Nat.sub_self, BitVec.add_zero, ite_self]
    exact fun heq => hm (some.inj heq)

theorem notSentinel_of_not_split (hc : s.paContigSplit = false) : s.NotSentinel v := by
  rw [NotSentinel, translate, read]
  split
  · exact nofun
  · rename_i hm
    rw [hc, if_neg Bool.false_ne_true]
    exact fun heq => hm (some.inj heq)

theorem Parts.notSentinel_or (hp : s.Parts virt stop A start M B) (h : s.WellFormed) :
    s.NotSentinel stop ∨ ((∀ b ∈ B, stop < b.virt) ∧ s.Mapped (M.getLastD start)) := by
  refine or_iff_not_imp_left.mpr fun hsent => ?_
  have hcut : ∀ b ∈ B, stop < b.virt := by
    cases B with
    | nil => exact fun b hb => absurd hb not_mem_nil
    | cons e B =>
      by_cases he : e.virt = stop
      · refine absurd ?_ hsent
        have hlt : ∀ b ∈ B, stop < b.virt := fun b hb =>
          he ▸ (pairwise_cons.mp (hp.behind_sorted h)).1 b hb
        rw [NotSentinel, translate, hp.blockAt_behind (le_refl stop), entryAt,
          if_pos (le_of_eq he), entryAt_of_lt hlt, ← he]
        exact read_start
      · exact hp.behind_lt h he
  refine ⟨hcut, fun hu => hsent ?_⟩
  rw [NotSentinel, translate, hp.blockAt_behind (le_refl stop), entryAt_of_lt hcut, read_unmapped hu]
  exact (some_ne_none _).symm

section RestFacts

variable (hp : s.Parts virt stop A start M B) (hT : s.Rest stop (M.getLastD start) B T) (h : s.WellFormed)

include hp hT h

theorem Rest.le : ∀ b ∈ T, stop ≤ b.virt := by
  rcases hT with ⟨-, rfl⟩ | ⟨-, e, rfl, -⟩ | ⟨-, hT, -⟩
  · exact hp.behind_le
  · exact fun b hb => hp.behind_le b (mem_cons_of_mem _ hb)
  · exact hT.le hp h

theorem Rest.sorted : T.Pairwise (·.virt < ·.virt) := by
  rcases hT with ⟨-, rfl⟩ | ⟨-, e, rfl, -⟩ | ⟨-, hT, -⟩
  · exact hp.behind_sorted h
  · exact (pairwise_cons.mp (hp.behind_sorted h)).2
  · exact hT.sorted hp h

theorem Rest.last : T = [] ∨ ∃ l b, T = l ++ [b] ∧ s.Unmapped b := by
  rcases hT with ⟨-, rfl⟩ | ⟨-, e, rfl, -⟩ | ⟨-, hT, -⟩
  · exact or_iff_not_imp_left.mpr fun hne => hp.behind_last h hne
  · refine or_iff_not_imp_left.mpr fun hne => ?_
    obtain ⟨l, b, hl, hb⟩ := hp.behind_last h (cons_ne_nil _ _)
    cases l with
    | nil => exact absurd (cons.inj hl).2 hne
    | cons c l => exact ⟨l, b, (cons.inj hl).2, hb⟩
  · exact .inr (hT.last hp h)

theorem Rest.apart (hsplit : s.NotSentinel stop) :
    T.IsChain fun b b' => ¬ (s.Unmapped b ∧ s.Unmapped b') := by
  have hpred := hp.pred_apart h
  rcases hT with ⟨-, rfl⟩ | ⟨-, e, rfl, -⟩ | ⟨-, hT, -⟩
  · exact hpred.tail
  · exact hpred.tail.tail
  · exact hT.apart hp h hsplit

theorem Rest.head_mapped (hsplit : s.NotSentinel stop) : ∀ b ∈ T.head?, s.Mapped b := by
  have hpred := hp.pred_apart h
  rcases hT with ⟨hu, rfl⟩ | ⟨-, e, rfl, -, heu⟩ | ⟨hm, hT, hB⟩
  · intro b hb hbu
    exact (isChain_cons.mp hpred).1 b hb ⟨hu, hbu⟩
  · intro b hb hbu
    exact (isChain_cons.mp hpred.tail).1 b hb ⟨heu, hbu⟩
  · rcases hT with ⟨e, B', rfl, he, rfl⟩ | ⟨hlt, x, rfl, hx⟩
    · intro b hb
      refine hB b hb ?_
      rw [List.head?_cons, mem_some_iff] at hb
      exact hb ▸ he
    · intro b hb
      rw [List.head?_cons, mem_some_iff] at hb
      rw [← hb]
      exact (hp.tailPhys_ne hlt hm).mp hsplit

theorem Rest.read_eq (hsplit : s.NotSentinel stop) (hd : s.Unmapped d) (hv : stop ≤ v) :
    s.read (entryAt Block.virt d T v) v = s.translate v := by
  rcases hT with ⟨hu, rfl⟩ | ⟨-, e, rfl, he, heu⟩ | ⟨hm, hT, -⟩
  · rw [translate, hp.blockAt_behind hv]
    refine entryAt_congr (f := fun b => s.read b v) ?_
    exact (read_unmapped hd).trans (read_unmapped hu).symm
  · rw [translate, hp.blockAt_behind hv, entryAt, if_pos (he ▸ hv)]
    refine entryAt_congr (f := fun b => s.read b v) ?_
    exact (read_unmapped hd).trans (read_unmapped heu).symm
  · exact hT.read_eq hp hsplit hv

end RestFacts

/-- The vector after an unmap that meets its condition. -/
theorem WellFormed.unmapped (h : s.WellFormed) (hp : s.Parts virt stop A start M B)
    (hvs : virt < stop) (hsplit : s.NotSentinel stop) (hU : s.Head virt start U)
    (hT : s.Rest stop (M.getLastD start) B T) :
    ({ s with blocks := A ++ start :: (U ++ T) } : FlatAddressSpaceMap w E).WellFormed ∧
    ∀ v, ({ s with blocks := A ++ start :: (U ++ T) } : FlatAddressSpaceMap w E).translate v =
      if virt ≤ v ∧ v < stop then none else s.translate v := by
  have hTle := hT.le hp h
  have hUv := hU.virt_eq
  have hlastU := hU.last_unmapped
  refine ⟨h.splice hp ?_ (fun b hb => le_of_eq (hUv b hb).symm) (fun b hb => hUv b hb ▸ hvs)
    (hT.sorted hp h) hTle ?_ ?_, fun v => ?_⟩
  · rcases hU with ⟨-, rfl⟩ | ⟨-, x, rfl⟩
    · exact List.Pairwise.nil
    · exact pairwise_singleton _ _
  · rcases hT.last hp h with rfl | ⟨l, b, rfl, hb⟩
    · rcases hU with ⟨hs, rfl⟩ | ⟨-, x, rfl⟩
      · exact ⟨[], start, rfl, hs⟩
      · exact ⟨[start], _, rfl, rfl⟩
    · exact ⟨start :: (U ++ l), b, by simp, hb⟩
  · have hchain := hT.apart hp h hsplit
    have hhead := hT.head_mapped hp h hsplit
    rcases hU with ⟨hs, rfl⟩ | ⟨hs, x, rfl⟩
    · exact isChain_cons.mpr ⟨fun b hb hun => hhead b hb hun.2, hchain⟩
    · refine isChain_cons_cons.mpr ⟨fun hun => hs hun.1, ?_⟩
      exact isChain_cons.mpr ⟨fun b hb hun => hhead b hb hun.2, hchain⟩
  · rw [translate, blockAt]
    by_cases hv : v < virt
    · have hge : ∀ b ∈ U ++ T, virt ≤ b.virt := by
        intro b hb
        rcases mem_append.mp hb with hb | hb
        · exact le_of_eq (hUv b hb).symm
        · exact le_trans hp.range (hTle b hb)
      rw [if_neg fun hin => absurd hin.1 (not_le.mpr hv)]
      exact congrArg (s.read · v) (hp.blockAt_before hge hv)
    · have hle : virt ≤ v := not_lt.mp hv
      rw [hp.entryAt_from hle, entryAt_append_right fun b hb => (hUv b hb).le.trans hle]
      by_cases hvstop : v < stop
      · rw [if_pos ⟨hle, hvstop⟩, entryAt_of_lt fun b hb => lt_of_lt_of_le hvstop (hTle b hb)]
        exact read_unmapped (s := s) hlastU
      · rw [if_neg fun hin => hvstop hin.2]
        exact hT.read_eq hp h hsplit hlastU (not_lt.mp hvstop)

theorem WellFormed.not_unmapped (h : s.WellFormed) (hp : s.Parts virt stop A start M B)
    (hsplit : ¬ s.NotSentinel stop) (hU : s.Head virt start U)
    (hT : s.Rest stop (M.getLastD start) B T) :
    ¬ ({ s with blocks := A ++ start :: (U ++ T) } : FlatAddressSpaceMap w E).WellFormed := by
  intro hwf
  obtain ⟨hcut, hm⟩ := (hp.notSentinel_or h).resolve_left hsplit
  have hchain := (isChain_append.mp hwf.apart).2.1
  have hun : s.tailPhys (M.getLastD start) stop = s.unmappedPa :=
    not_not.mp ((hp.tailPhys_ne hcut hm).not.mp hsplit)
  rcases hT with ⟨hu, -⟩ | ⟨-, e, rfl, he, -⟩ | ⟨-, ⟨e, B', rfl, he, -⟩ | ⟨-, x, rfl, -⟩, -⟩
  · exact hm hu
  · exact absurd he (ne_of_gt (hcut e mem_cons_self))
  · exact absurd he (ne_of_gt (hcut e mem_cons_self))
  · rcases hU with ⟨hs, rfl⟩ | ⟨-, y, rfl⟩
    · exact (isChain_cons_cons.mp hchain).1 ⟨hs, hun⟩
    · exact (isChain_cons_cons.mp (isChain_cons_cons.mp hchain).2).1 ⟨rfl, hun⟩

/-- **An unmap of a well-formed vector does what it is for exactly under its condition.** -/
theorem WellFormed.unmapCorrect_iff {size : Nat} (h : s.WellFormed) (hvirt : 0 < virt)
    (hsize : 0 < size) (hlim : virt + size ≤ s.vaLimit) :
    s.UnmapCorrect virt size ↔ s.UnmapSafe virt size := by
  obtain ⟨A, start, hA, hp⟩ := h.parts hvirt (Nat.le_add_right virt size)
  have hvs : virt < virt + size := Nat.lt_add_of_pos_right hsize
  have hout := unmapBlocks_outcome h hp (virtEnd_eq hlim) hlim hvs
  have hstart : (s.before virt).getLastD ⟨0, s.unmappedPa, default⟩ = start := by
    rw [hA, getLastD_concat]
  rw [UnmapSafe, hstart, UnmapCorrect, unmapLocked]
  generalize s.unmapBlocks virt size = o at hout
  cases hout with
  | done U T hj hU hT =>
    constructor
    · rintro ⟨s', hs', hwf, -, -⟩
      refine ⟨hj, not_not.mp fun hsplit => ?_⟩
      rw [← some.inj hs'] at hwf
      exact h.not_unmapped hp hsplit hU hT hwf
    · rintro ⟨-, hsplit⟩
      obtain ⟨hwf, htr⟩ := h.unmapped hp hvs hsplit hU hT
      refine ⟨_, rfl, hwf, fun v hle hlt => ?_, fun v hv => ?_⟩
      · rw [htr, if_pos ⟨hle, hlt⟩]
      · rw [htr, if_neg hv]
  | failed hj => exact ⟨fun ⟨s', hs', _⟩ => (nomatch hs'), fun hsafe => absurd hsafe.1 hj⟩
  | left p T hj hs hle hlt hT =>
    refine ⟨fun ⟨s', hs', hwf, hin, _⟩ => ?_, fun hsafe => absurd hsafe.1 hj⟩
    -- the block left over is unmapped, next to another one, or still mapped
    rw [← some.inj hs'] at hwf hin
    have hchain := (isChain_append.mp hwf.apart).2.1
    have hpm : s.Mapped p := fun hpu => (isChain_cons_cons.mp hchain).1 ⟨hs, hpu⟩
    have hnone := hin p.virt hle hlt
    rw [translate, blockAt, hp.entryAt_from hle, entryAt, if_pos (le_refl p.virt),
      entryAt_of_lt fun b hb => lt_of_lt_of_le hlt (hT b hb)] at hnone
    exact absurd hnone (read_ne_none (s := s) hpm)

theorem WellFormed.blockAt_eq (h : s.WellFormed) (hb : s.blocks = A ++ b :: B) (hle : b.virt ≤ v)
    (hB : ∀ c ∈ B.head?, v < c.virt) : s.blockAt v = b := by
  have hsorted := h.sorted
  rw [hb] at hsorted
  obtain ⟨-, hbB, hAb⟩ := pairwise_append.mp hsorted
  obtain ⟨-, hBs⟩ := pairwise_cons.mp hbB
  rw [blockAt, hb]
  refine entryAt_cut (fun c hc => ?_) hle ?_
  · exact le_trans (le_of_lt (hAb c hc b mem_cons_self)) hle
  · cases B with
    | nil => exact fun c hc => nomatch hc
    | cons e B =>
      have he : v < e.virt := hB e rfl
      intro c hc
      rcases mem_cons.mp hc with rfl | hc
      · exact he
      · exact lt_trans he ((pairwise_cons.mp hBs).1 c hc)

theorem WellFormed.translate_virt (h : s.WellFormed) (hb : b ∈ s.blocks) (hm : s.Mapped b) :
    s.translate b.virt ≠ none := by
  obtain ⟨A, B, hAB⟩ := append_of_mem hb
  have hsorted := h.sorted
  rw [hAB] at hsorted
  have hbB := (pairwise_cons.mp (pairwise_append.mp hsorted).2.1).1
  rw [translate, h.blockAt_eq hAB le_rfl fun c hc => hbB c (mem_of_mem_head? hc)]
  exact read_ne_none hm

end Facts

end FlatAddressSpaceMap

/-! ## 9. Runs -/

/-- A call of `Map` or `Unmap`. -/
inductive SpaceOp (w : Nat) (E : Type) where
  | map (virt : Nat) (phys : BitVec w) (size : Nat) (extraInfo : E)
  | unmap (virt size : Nat)

namespace SpaceOp

variable {w : Nat} {E : Type} [Inhabited E]

/-- A nonempty range behind 0 and inside the address space, mapped to mapped memory. -/
def Legal (s : FlatAddressSpaceMap w E) : SpaceOp w E → Prop
  | map virt phys size _ =>
    0 < virt ∧ 0 < size ∧ virt + size ≤ s.vaLimit ∧ phys ≠ s.unmappedPa
  | unmap virt size => 0 < virt ∧ 0 < size ∧ virt + size ≤ s.vaLimit

/-- The condition of a call. -/
def Safe (s : FlatAddressSpaceMap w E) : SpaceOp w E → Prop
  | map virt _ size _ => s.NotSentinel (virt + size)
  | unmap virt size => s.UnmapSafe virt size

def step (s : FlatAddressSpaceMap w E) : SpaceOp w E → Option (FlatAddressSpaceMap w E)
  | map virt phys size x => s.mapLocked virt phys size x
  | unmap virt size => s.unmapLocked virt size

/-- The calls one after another, up to a failed assertion. -/
def run : FlatAddressSpaceMap w E → List (SpaceOp w E) → Option (FlatAddressSpaceMap w E)
  | s, [] => some s
  | s, op :: ops => (step s op).bind fun s => run s ops

/-- Every call is legal and meets its condition where it is made. -/
def SafeRun : FlatAddressSpaceMap w E → List (SpaceOp w E) → Prop
  | _, [] => True
  | s, op :: ops => Legal s op ∧ Safe s op ∧ ∀ s', step s op = some s' → SafeRun s' ops

variable {s : FlatAddressSpaceMap w E} {op : SpaceOp w E} {ops : List (SpaceOp w E)}

theorem step_wellFormed (h : s.WellFormed) (hl : Legal s op) (hs : Safe s op) :
    ∃ s', step s op = some s' ∧ s'.WellFormed ∧ s'.vaLimit = s.vaLimit := by
  cases op with
  | map virt phys size x =>
    obtain ⟨hvirt, hsize, hlim, hphys⟩ := hl
    obtain ⟨bs, hmap, hwf, -⟩ := h.mapLocked (x := x) hvirt hsize hlim hphys hs
    exact ⟨_, hmap, hwf, rfl⟩
  | unmap virt size =>
    obtain ⟨hvirt, hsize, hlim⟩ := hl
    obtain ⟨s', hs', hwf, -⟩ := (h.unmapCorrect_iff hvirt hsize hlim).mpr hs
    refine ⟨s', hs', hwf, ?_⟩
    obtain ⟨bs, -, rfl⟩ := map_eq_some_iff.mp hs'
    rfl

theorem run_wellFormed (h : s.WellFormed) (hrun : SafeRun s ops) :
    ∃ s', run s ops = some s' ∧ s'.WellFormed ∧ s'.vaLimit = s.vaLimit := by
  induction ops generalizing s with
  | nil => exact ⟨s, rfl, h, rfl⟩
  | cons op ops ih =>
    obtain ⟨hl, hs, hrest⟩ := hrun
    obtain ⟨s', hstep, hwf, hlim⟩ := step_wellFormed h hl hs
    obtain ⟨s'', hrun, hwf', hlim'⟩ := ih hwf (hrest s' hstep)
    refine ⟨s'', ?_, hwf', hlim'.trans hlim⟩
    rw [run, hstep, bind_some, hrun]

/-- **Unmapping over runs.** After every run of calls that meet their conditions the vector is well
formed, and the next unmap does what it is for exactly if it meets its condition. -/
theorem run_unmap_iff (vaBits : Nat) (unmappedPa : BitVec w) (paContigSplit : Bool) (vaLimit : Nat)
    (hlimit : vaLimit < 2 ^ vaBits) (ops : List (SpaceOp w E))
    (hrun : SafeRun (.make vaBits unmappedPa paContigSplit vaLimit hlimit) ops) :
    ∃ s : FlatAddressSpaceMap w E,
      run (.make vaBits unmappedPa paContigSplit vaLimit hlimit) ops = some s ∧ s.WellFormed ∧
      ∀ virt size, 0 < virt → 0 < size → virt + size ≤ vaLimit →
        (s.UnmapCorrect virt size ↔ s.UnmapSafe virt size) := by
  obtain ⟨s, hs, hwf, hlim⟩ := run_wellFormed FlatAddressSpaceMap.wellFormed_make hrun
  refine ⟨s, hs, hwf, fun virt size hvirt hsize hle => ?_⟩
  exact hwf.unmapCorrect_iff hvirt hsize (by rw [hlim]; exact hle)

/-- Unmapping all of a mapped range. -/
theorem run_unmap_iff_whole : ∃ s : FlatAddressSpaceMap 1 Unit,
    run (.make 32 0 false 0xFFFFFFFF (by decide)) [.map 0x1000 1 0x2000 ()] = some s ∧
      s.UnmapCorrect 0x1000 0x2000 := by
  obtain ⟨s, hs, -, hiff⟩ := run_unmap_iff 32 (0 : BitVec 1) false 0xFFFFFFFF (by decide)
    [.map 0x1000 1 0x2000 ()]
    ⟨⟨by decide, by decide, by decide, by decide⟩, by unfold Safe; decide, fun _ _ => trivial⟩
  refine ⟨s, hs, (hiff 0x1000 0x2000 (by decide) (by decide) (by decide)).mpr ?_⟩
  rw [← some.inj hs]
  decide

/-- Two unmaps of mapped ranges that miss: the second half of a range trips an assertion, and the
first of two ranges stays mapped. -/
theorem unmap_misses : (∃ s : FlatAddressSpaceMap 1 Unit,
      run (.make 32 0 false 0xFFFFFFFF (by decide)) [.map 0x1000 1 0x2000 ()] = some s ∧
      s.unmapLocked 0x2000 0x1000 = none ∧ ¬ s.UnmapCorrect 0x2000 0x1000) ∧
    ∃ s : FlatAddressSpaceMap 1 Unit, run (.make 32 0 false 0xFFFFFFFF (by decide))
        [.map 0x1000 1 0x1000 (), .map 0x2000 1 0x1000 ()] = some s ∧
      s.unmapLocked 0x1000 0x1000 = some s ∧ s.translate 0x1000 = some (1, ()) ∧
      ¬ s.UnmapCorrect 0x1000 0x1000 := by
  refine ⟨⟨⟨32, 0, false, 0xFFFFFFFF, by decide,
    [⟨0, 0, ()⟩, ⟨0x1000, 1, ()⟩, ⟨0x3000, 0, ()⟩]⟩, by decide, by decide, ?_⟩,
    ⟨32, 0, false, 0xFFFFFFFF, by decide,
      [⟨0, 0, ()⟩, ⟨0x1000, 1, ()⟩, ⟨0x2000, 1, ()⟩, ⟨0x3000, 0, ()⟩]⟩, by decide, by decide,
    by decide, ?_⟩
  · have hnone : (⟨32, 0, false, 0xFFFFFFFF, by decide, [⟨0, 0, ()⟩, ⟨0x1000, 1, ()⟩,
        ⟨0x3000, 0, ()⟩]⟩ : FlatAddressSpaceMap 1 Unit).unmapLocked 0x2000 0x1000 = none := by
      decide
    rintro ⟨s', hs', -⟩
    exact nomatch hs'
  · rintro ⟨s', hs', -, hin, -⟩
    have hsame := hin 0x1000 (by decide) (by decide)
    rw [← some.inj hs'] at hsame
    exact absurd hsame (by decide)

end SpaceOp

end Yuzu.Common
