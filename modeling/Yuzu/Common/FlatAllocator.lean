/-
  File:      Yuzu/Common/FlatAllocator.lean
  Subject:   Common::FlatAllocator (common/address_space.h, common/address_space.inc): an allocator of
             ranges over a flat address space map.

  The base map has `bool` for physical addresses, here one bit: mapped is allocated. Ranges are
  handed out behind the last one; when that overflows, the gaps between blocks are searched.

  * `Inv` -- the map is well formed and nothing is allocated outside the allocator's range;
  * `AllocCorrect`, `AllocSafe` -- what an allocation is for, and when it does it;
  * `AllocOp.run_allocate_iff` -- over every run whose calls meet their conditions.
-/
import Yuzu.Common.AddressSpace

namespace Yuzu.Common

open FlatAddressSpaceMap List Option

/-- `FlatAllocator`. -/
structure FlatAllocator where
  space : FlatAddressSpaceMap 1 Unit
  virtStart : Nat
  currentLinearAllocEnd : Nat
deriving DecidableEq

namespace FlatAllocator

def make (vaBits virtStart vaLimit : Nat) (h : vaLimit < 2 ^ vaBits) : FlatAllocator :=
  ⟨.make vaBits 0 false vaLimit h, virtStart, virtStart⟩

/-! ## 1. The operations -/

/-- The loop that skips over fixed mappings: the end predecessor, and the blocks from the end
successor on. -/
def skipFixed (s : FlatAddressSpaceMap 1 Unit) (size : Nat) : Block 1 Unit → List (Block 1 Unit) → Nat
  | _, [] => 0
  | pred, succ :: rest =>
    if succ.virt - pred.virt < size ∨ s.Mapped pred then pred.virt
    else match rest with
      | [] =>
        -- the final block has no successor
        let allocEnd := s.virtEnd succ.virt size
        if allocEnd ≥ succ.virt ∧ allocEnd ≤ s.vaLimit then succ.virt else 0
      | next :: rest => skipFixed s size succ (next :: rest)

/-- The linear pass of `Allocate`: where it starts, 0 if it found nothing. -/
def linearStart (s : FlatAllocator) (size : Nat) : Option Nat := do
  let allocEnd := s.space.virtEnd s.currentLinearAllocEnd size
  if allocEnd ≥ s.currentLinearAllocEnd ∧ allocEnd ≤ s.space.vaLimit then do
    let endSuccessor := lowerBound s.space.blocks allocEnd
    assert (endSuccessor ≠ 0)
    let pred ← s.space.blocks[endSuccessor - 1]?
    if pred.virt ≤ s.currentLinearAllocEnd then some s.currentLinearAllocEnd
    else some (skipFixed s.space size pred (s.space.blocks.drop endSuccessor))
  else some 0

/-- The search for a gap: the search predecessor, and the blocks from its successor on. -/
def searchGap (s : FlatAddressSpaceMap 1 Unit) (size : Nat) :
    Block 1 Unit → List (Block 1 Unit) → Option Nat
  | _, [] => none
  | pred, succ :: rest =>
    if succ.virt - pred.virt < size ∨ s.Mapped pred then searchGap s size succ rest
    else some pred.virt

/-- The slow pass of `Allocate`. -/
def findGap (s : FlatAllocator) (size : Nat) : Option (Nat × FlatAllocator) :=
  match s.space.blocks with
  | _ :: p :: q :: rest =>
    match searchGap s.space size p (q :: rest) with
    | some allocStart =>
      (s.space.mapLocked allocStart 1 size ()).map fun space =>
        (allocStart, { s with space := space })
    | none => some (0, s)
  | _ => none

def allocate (s : FlatAllocator) (size : Nat) : Option (Nat × FlatAllocator) := do
  let allocStart ← s.linearStart size
  if allocStart ≠ 0 then
    (s.space.mapLocked allocStart 1 size ()).map fun space =>
      (allocStart, { s with
        space := space
        currentLinearAllocEnd := s.space.virtEnd allocStart size })
  else s.findGap size

def allocateFixed (s : FlatAllocator) (virt size : Nat) : Option FlatAllocator :=
  (s.space.mapLocked virt 1 size ()).map fun space => { s with space := space }

def free (s : FlatAllocator) (virt size : Nat) : Option FlatAllocator :=
  (s.space.unmapLocked virt size).map fun space => { s with space := space }

/-! ## 2. What an allocation is for -/

/-- The address is part of an allocated range. -/
def Allocated (s : FlatAllocator) (v : Nat) : Prop := s.space.translate v ≠ none

/-- A result is a range of the allocator that was free, and then is the only new allocation; no
result means that there is no gap of that size. -/
def Handed (s : FlatAllocator) (size a : Nat) (s' : FlatAllocator) : Prop :=
  (a ≠ 0 → s.virtStart ≤ a ∧ a + size ≤ s.space.vaLimit ∧ (∀ v, a ≤ v → v < a + size → ¬ s.Allocated v) ∧
    ∀ v, s'.Allocated v ↔ (a ≤ v ∧ v < a + size) ∨ s.Allocated v) ∧
  (a = 0 → ∀ g, s.virtStart ≤ g → g + size ≤ s.space.vaLimit → ∃ v, g ≤ v ∧ v < g + size ∧ s.Allocated v)

/-- **What an allocation is for.** -/
def AllocCorrect (s : FlatAllocator) (size : Nat) : Prop :=
  ∃ a s', s.allocate size = some (a, s') ∧ s.Handed size a s'

/-- A gap between two blocks, neither the first nor the last. -/
def InnerGap (s : FlatAddressSpaceMap 1 Unit) (size : Nat) (l : List (Block 1 Unit)) : Prop :=
  ∃ g ∈ l.zip l.tail, s.Unmapped g.1 ∧ g.1.virt + size ≤ g.2.virt

/-- The condition of the slow pass: something is allocated, and there is a gap behind the first
allocation that is not the last one, or no gap at all. -/
def GapSafe (s : FlatAllocator) (size : Nat) : Prop :=
  3 ≤ s.space.blocks.length ∧ (InnerGap s.space size s.space.blocks.tail ∨
    ((∀ b ∈ s.space.blocks.tail.head?, b.virt < s.virtStart + size) ∧
      ∀ b ∈ s.space.blocks.getLast?, s.space.vaLimit < b.virt + size))

/-- **The condition of an allocation**, on the blocks before the call. Where the range fits behind
the last one, it lies in a single unmapped block, or it reaches into the last block. -/
def AllocSafe (s : FlatAllocator) (size : Nat) : Prop :=
  let stop := s.currentLinearAllocEnd + size
  if stop ≤ s.space.vaLimit then
    if (s.space.blockAt (stop - 1)).virt ≤ s.currentLinearAllocEnd then
      s.space.Unmapped (s.space.blockAt (stop - 1))
    else (∀ b ∈ s.space.blocks, b.virt < stop) ∧ s.GapSafe size
  else s.GapSafe size

instance (s : FlatAddressSpaceMap 1 Unit) (size : Nat) (l : List (Block 1 Unit)) :
    Decidable (InnerGap s size l) := inferInstanceAs (Decidable (∃ g ∈ _, _))

instance (s : FlatAllocator) (size : Nat) : Decidable (s.GapSafe size) :=
  inferInstanceAs (Decidable (_ ∧ _))

instance (s : FlatAllocator) (size : Nat) : Decidable (s.AllocSafe size) :=
  inferInstanceAs (Decidable (ite _ _ _))

/-! ## 3. The invariant -/

/-- The map is well formed, what is allocated lies in the allocator's range, and the linear pass
goes on inside it. -/
structure Inv (s : FlatAllocator) : Prop where
  wf : s.space.WellFormed
  unmappedPa : s.space.unmappedPa = 0
  paContigSplit : s.space.paContigSplit = false
  start_pos : 0 < s.virtStart
  inside : ∀ v, s.Allocated v → s.virtStart ≤ v ∧ v < s.space.vaLimit
  start_le : s.virtStart ≤ s.currentLinearAllocEnd
  cur_lt : s.currentLinearAllocEnd < 2 ^ s.space.vaBits

variable {s : FlatAllocator} {size v : Nat} {A B : List (Block 1 Unit)} {b c : Block 1 Unit}

theorem not_allocated (h : s.space.WellFormed) (hb : s.space.blocks = A ++ b :: B)
    (hu : s.space.Unmapped b) (hle : b.virt ≤ v) (hB : ∀ c ∈ B.head?, v < c.virt) :
    ¬ s.Allocated v := by
  rw [Allocated, FlatAddressSpaceMap.translate, h.blockAt_eq hb hle hB]
  exact not_not.mpr (read_unmapped hu)

theorem Inv.allocated_virt (h : s.Inv) (hb : b ∈ s.space.blocks) (hm : s.space.Mapped b) :
    s.Allocated b.virt := h.wf.translate_virt hb hm

theorem Inv.first_unmapped (h : s.Inv) (hb : s.space.blocks = b :: B) : s.space.Unmapped b := by
  obtain ⟨f, l, hf, hzero⟩ := h.wf.first
  obtain ⟨rfl, -⟩ := cons.inj (hb.symm.trans hf)
  by_contra hm
  have hin := h.inside b.virt (h.allocated_virt (hb ▸ mem_cons_self) hm)
  have := h.start_pos
  omega

theorem Inv.next_mapped (h : s.Inv) (hb : s.space.blocks = A ++ b :: c :: B)
    (hu : s.space.Unmapped b) : s.space.Mapped c := fun hc => by
  have hchain := h.wf.apart
  rw [hb] at hchain
  exact (isChain_cons_cons.mp (isChain_append.mp hchain).2.1).1 ⟨hu, hc⟩

theorem Inv.virt_lt (h : s.Inv) (hb : s.space.blocks = A ++ b :: c :: B) : b.virt < c.virt := by
  have hsorted := h.wf.sorted
  rw [hb] at hsorted
  exact (pairwise_cons.mp (pairwise_append.mp hsorted).2.1).1 c mem_cons_self

theorem Inv.bounds (h : s.Inv) (hb : s.space.blocks = A ++ b :: c :: B) :
    s.virtStart ≤ c.virt ∧ c.virt ≤ s.space.vaLimit := by
  have hlt := h.virt_lt hb
  by_cases hc : s.space.Mapped c
  · have hin := h.inside c.virt (h.allocated_virt (hb ▸ by simp) hc)
    omega
  · -- the block before an unmapped one is mapped up to its start
    have hbm : s.space.Mapped b := fun hu => h.next_mapped hb hu (not_not.mp hc)
    have hall : s.Allocated (c.virt - 1) := by
      rw [Allocated, FlatAddressSpaceMap.translate, h.wf.blockAt_eq hb (by omega)]
      · exact read_ne_none hbm
      · intro e he
        rw [List.head?_cons, mem_some_iff] at he
        subst he
        omega
    have hin := h.inside _ hall
    omega

theorem Inv.mapLocked (h : s.Inv) {a : Nat} (ha : s.virtStart ≤ a) (hsize : 0 < size)
    (hlim : a + size ≤ s.space.vaLimit) :
    ∃ bs, s.space.mapLocked a 1 size () = some { s.space with blocks := bs } ∧
      ({ s.space with blocks := bs } : FlatAddressSpaceMap 1 Unit).WellFormed ∧
      ∀ v, ({ s.space with blocks := bs } : FlatAddressSpaceMap 1 Unit).translate v ≠ none ↔
        (a ≤ v ∧ v < a + size) ∨ s.Allocated v := by
  have hone : (1 : BitVec 1) ≠ s.space.unmappedPa := by
    rw [h.unmappedPa]
    decide
  obtain ⟨bs, hmap, hwf, htr⟩ := h.wf.mapLocked (x := ()) (lt_of_lt_of_le h.start_pos ha) hsize
    hlim hone (notSentinel_of_not_split h.paContigSplit)
  refine ⟨bs, hmap, hwf, fun v => ?_⟩
  rw [htr]
  by_cases hv : a ≤ v ∧ v < a + size
  · rw [if_pos hv]
    exact ⟨fun _ => .inl hv, fun _ => read_ne_none hone⟩
  · rw [if_neg hv]
    exact ⟨fun hv => .inr hv, fun hor => hor.resolve_left hv⟩

/-! ## 4. The slow pass -/

theorem mem_zip_tail {l : List (Block 1 Unit)} : (b, c) ∈ l.zip l.tail ↔ ∃ X Y, l = X ++ b :: c :: Y := by
  induction l with
  | nil => exact ⟨nofun, fun ⟨X, Y, hl⟩ => by simp at hl⟩
  | cons a l ih =>
    cases l with
    | nil =>
      refine ⟨nofun, fun ⟨X, Y, hl⟩ => ?_⟩
      have := congrArg List.length hl
      simp at this
      omega
    | cons e l =>
      rw [tail_cons, zip_cons_cons, mem_cons]
      constructor
      · rintro (heq | hmem)
        · obtain ⟨rfl, rfl⟩ := Prod.mk.inj heq
          exact ⟨[], l, rfl⟩
        · obtain ⟨X, Y, hl⟩ := ih.mp hmem
          exact ⟨a :: X, Y, by rw [hl]; rfl⟩
      · rintro ⟨X, Y, hl⟩
        cases X with
        | nil =>
          simp only [nil_append, List.cons.injEq] at hl
          exact .inl (by rw [hl.1, hl.2.1])
        | cons x X => exact .inr (ih.mpr ⟨X, Y, (cons.inj hl).2⟩)

/-- The search finds a gap between two blocks, if there is one. -/
theorem searchGap_spec {sp : FlatAddressSpaceMap 1 Unit} {l : List (Block 1 Unit)} (hsize : 0 < size) :
    (∃ X g c Y, searchGap sp size b l = some g.virt ∧ b :: l = X ++ g :: c :: Y ∧
      sp.Unmapped g ∧ g.virt + size ≤ c.virt) ∨
    (searchGap sp size b l = none ∧ ¬ InnerGap sp size (b :: l)) := by
  induction l generalizing b with
  | nil => exact .inr ⟨rfl, fun ⟨g, hg, _⟩ => nomatch hg⟩
  | cons e l ih =>
    rw [searchGap]
    split
    · rename_i hskip
      rcases ih (b := e) with ⟨X, g, c, Y, hs, hl, hu, hgap⟩ | ⟨hs, hno⟩
      · exact .inl ⟨b :: X, g, c, Y, hs, by rw [hl]; rfl, hu, hgap⟩
      · refine .inr ⟨hs, fun ⟨g, hg, hu, hgap⟩ => ?_⟩
        rw [tail_cons, zip_cons_cons, mem_cons] at hg
        rcases hg with rfl | hg
        · rcases hskip with hsmall | hm
          · dsimp only at hgap
            omega
          · exact hm hu
        · exact hno ⟨g, hg, hu, hgap⟩
    · rename_i hstop
      obtain ⟨hbig, hu⟩ := not_or.mp hstop
      exact .inl ⟨[], b, e, l, rfl, rfl, not_not.mp hu, by omega⟩

theorem Inv.free_gap (h : s.Inv) (hb : s.space.blocks = A ++ b :: B) (hu : s.space.Unmapped b)
    {g : Nat} (hle : b.virt ≤ g) (hB : ∀ c ∈ B.head?, g + size ≤ c.virt) :
    ∀ v, g ≤ v → v < g + size → ¬ s.Allocated v := fun _ hgv hv =>
  not_allocated h.wf hb hu (le_trans hle hgv) fun c hc => lt_of_lt_of_le hv (hB c hc)

theorem Inv.handed (h : s.Inv) (hsize : 0 < size) {a : Nat} (ha : s.virtStart ≤ a)
    (hlim : a + size ≤ s.space.vaLimit) (hfree : ∀ v, a ≤ v → v < a + size → ¬ s.Allocated v) :
    ∃ bs, s.space.mapLocked a 1 size () = some { s.space with blocks := bs } ∧
      ∀ cur, s.Handed size a ⟨{ s.space with blocks := bs }, s.virtStart, cur⟩ := by
  obtain ⟨bs, hmap, -, htr⟩ := h.mapLocked ha hsize hlim
  refine ⟨bs, hmap, fun cur => ⟨fun _ => ⟨ha, hlim, hfree, htr⟩, fun hzero => ?_⟩⟩
  have := h.start_pos
  omega

/-- No gap at all: a range would have to start in some block and reach the next one. -/
theorem Inv.no_gap (h : s.Inv) (hsize : 0 < size) {f p : Block 1 Unit} {l : List (Block 1 Unit)}
    (hblocks : s.space.blocks = f :: p :: l) (hinner : ¬ InnerGap s.space size (p :: l))
    (hfirst : p.virt < s.virtStart + size)
    (hlast : ∀ b ∈ s.space.blocks.getLast?, s.space.vaLimit < b.virt + size) {g : Nat}
    (hg : s.virtStart ≤ g) (hlim : g + size ≤ s.space.vaLimit) :
    ∃ v, g ≤ v ∧ v < g + size ∧ s.Allocated v := by
  by_contra hno
  have hfree : ∀ v, g ≤ v → v < g + size → ¬ s.Allocated v := fun v hgv hv hall =>
    hno ⟨v, hgv, hv, hall⟩
  -- the block that holds `g`, and what follows it
  obtain ⟨X, b, Y, hX, hbg, hY⟩ : ∃ X b Y, s.space.blocks = X ++ b :: Y ∧ b.virt ≤ g ∧
      ∀ c ∈ Y.head?, g < c.virt := by
    obtain ⟨X, b, hbefore, hp⟩ := @FlatAddressSpaceMap.WellFormed.parts _ _ _ _ (g + 1) (g + 1)
        h.wf (by omega) le_rfl
    refine ⟨X, b, _, hp.blocks_eq, Nat.le_of_lt_succ hp.start_lt, fun c hc => ?_⟩
    rcases mem_append.mp (mem_of_mem_head? hc) with hc | hc
    · exact hp.inner_le c hc
    · exact hp.behind_le c hc
  have hu : s.space.Unmapped b := by
    by_contra hm
    refine hfree g le_rfl (by omega) ?_
    rw [Allocated, FlatAddressSpaceMap.translate, h.wf.blockAt_eq hX hbg hY]
    exact read_ne_none hm
  cases Y with
  | nil =>
    have := hlast b (by rw [hX, List.getLast?_concat]; rfl)
    omega
  | cons c Y =>
    have hgc : g < c.virt := hY c rfl
    have hcm := h.next_mapped hX hu
    refine hfree c.virt (le_of_lt hgc) ?_ (h.allocated_virt (hX ▸ by simp) hcm)
    cases X with
    | nil =>
      rw [hblocks, nil_append] at hX
      have hpc : p = c := (cons.inj (cons.inj hX).2).1
      rw [← hpc]
      omega
    | cons x X =>
      rw [hblocks] at hX
      have hsplit : p :: l = X ++ b :: c :: Y := (cons.inj hX).2
      have hsmall : ¬ b.virt + size ≤ c.virt := fun hgap =>
        hinner ⟨(b, c), mem_zip_tail.mpr ⟨X, Y, hsplit⟩, hu, hgap⟩
      omega

/-- **The slow pass** hands out a gap, or finds none, exactly under its condition. -/
theorem Inv.findGap_iff (h : s.Inv) (hsize : 0 < size) :
    (∃ a s', s.findGap size = some (a, s') ∧ s.Handed size a s') ↔ s.GapSafe size := by
  rw [findGap, GapSafe]
  split
  case h_2 hshort =>
    refine ⟨fun ⟨a, s', hs', _⟩ => (nomatch hs'), fun ⟨hlen, _⟩ => ?_⟩
    match hblocks : s.space.blocks with
    | [] => rw [hblocks] at hlen; exact absurd hlen (by decide)
    | [_] => rw [hblocks] at hlen; exact absurd hlen (by simp)
    | [_, _] => rw [hblocks] at hlen; exact absurd hlen (by simp)
    | f :: p :: q :: rest => exact absurd hblocks (hshort f p q rest)
  case h_1 f p q rest hblocks =>
    have hlen : 3 ≤ s.space.blocks.length := by
      rw [hblocks]
      simp
    have htail : s.space.blocks.tail = p :: q :: rest := by rw [hblocks]; rfl
    rw [htail]
    rcases @FlatAllocator.searchGap_spec _ p s.space (q :: rest) hsize with
      ⟨X, g, c, Y, hs, hl, hu, hgap⟩ | ⟨hs, hno⟩
    · -- a gap between two blocks
      rw [hs]
      have hX : s.space.blocks = (f :: X) ++ g :: c :: Y := by rw [hblocks, hl]; rfl
      have hin : InnerGap s.space size (p :: q :: rest) :=
        ⟨(g, c), mem_zip_tail.mpr ⟨X, Y, hl⟩, hu, hgap⟩
      refine ⟨fun _ => ⟨hlen, .inl hin⟩, fun _ => ?_⟩
      have hgs : s.virtStart ≤ g.virt := by
        cases X with
        | nil => exact (h.bounds (A := []) hX).1
        | cons x X =>
          obtain ⟨Z, z, hz⟩ : ∃ Z z, f :: x :: X = Z ++ [z] :=
            ⟨_, _, (dropLast_append_getLast (cons_ne_nil f (x :: X))).symm⟩
          rw [hz, append_assoc] at hX
          exact (h.bounds hX).1
      have hcl := (h.bounds hX).2
      obtain ⟨bs, hmap, hhand⟩ := h.handed hsize hgs (by omega) (h.free_gap hX hu le_rfl fun e he => by
          rw [List.head?_cons, mem_some_iff] at he
          exact he ▸ hgap)
      dsimp only
      rw [hmap]
      exact ⟨_, _, rfl, hhand _⟩
    · rw [hs]
      constructor
      · rintro ⟨a, s', heq, -, hnull⟩
        obtain ⟨rfl, rfl⟩ := Prod.mk.inj (some.inj heq)
        refine ⟨hlen, .inr ⟨fun b hb => ?_, fun b hb => ?_⟩⟩
        · -- else the first gap is free
          rw [List.head?_cons, mem_some_iff] at hb
          subst hb
          by_contra hge
          have hbound := h.bounds (A := []) hblocks
          obtain ⟨v, hgv, hv, hall⟩ := hnull rfl s.virtStart le_rfl (by omega)
          have hzero : f.virt = 0 := by
            obtain ⟨f', l, hf, hzero⟩ := h.wf.first
            rw [(cons.inj (hblocks.symm.trans hf)).1]
            exact hzero
          refine h.free_gap (A := []) hblocks (h.first_unmapped hblocks) (by omega)
            (fun e he => ?_) v hgv hv hall
          rw [List.head?_cons, mem_some_iff] at he
          subst he
          omega
        · -- else the last one is
          by_contra hge
          obtain ⟨l, b', hl, hu⟩ := h.wf.last
          rw [hl, List.getLast?_concat, mem_some_iff] at hb
          subst hb
          have hbound : s.virtStart ≤ b'.virt := by
            rcases eq_nil_or_concat l with rfl | ⟨l, z, rfl⟩
            · rw [hl] at hlen
              exact absurd hlen (by simp)
            · rw [concat_eq_append, append_assoc] at hl
              exact (h.bounds hl).1
          obtain ⟨v, hgv, hv, hall⟩ := hnull rfl b'.virt hbound (by omega)
          exact h.free_gap hl hu le_rfl (fun e he => nomatch he) v hgv hv hall
      · rintro ⟨-, hin | ⟨hfirst, hlast⟩⟩
        · exact absurd hin hno
        · refine ⟨0, s, rfl, fun hne => absurd rfl hne, fun _ g hg hlim => ?_⟩
          exact h.no_gap hsize hblocks hno (hfirst p rfl) hlast hg hlim

/-! ## 5. The linear pass -/

theorem skipFixed_stop {sp : FlatAddressSpaceMap 1 Unit}
    (h : c.virt - b.virt < size ∨ sp.Mapped b) : skipFixed sp size b (c :: B) = b.virt := by
  rw [skipFixed.eq_def]
  exact if_pos h

/-- The skip loop stops at a block that the range then overlaps. -/
theorem Inv.skipFixed_overlaps (h : s.Inv) (hsize : 0 < size)
    (hb : s.space.blocks = A ++ b :: c :: B) (hpos : 0 < b.virt) :
    skipFixed s.space size b (c :: B) ≠ 0 ∧ ∃ v, skipFixed s.space size b (c :: B) ≤ v ∧
        v < skipFixed s.space size b (c :: B) + size ∧ s.Allocated v := by
  have hlt := h.virt_lt hb
  have hbmem : b ∈ s.space.blocks := hb ▸ by simp
  have hcmem : c ∈ s.space.blocks := hb ▸ by simp
  by_cases hm : s.space.Mapped b
  · rw [skipFixed_stop (.inr hm)]
    exact ⟨by omega, b.virt, le_rfl, by omega, h.allocated_virt hbmem hm⟩
  · have hcm := h.next_mapped hb (not_not.mp hm)
    by_cases hsmall : c.virt - b.virt < size
    · rw [skipFixed_stop (.inl hsmall)]
      exact ⟨by omega, c.virt, by omega, by omega, h.allocated_virt hcmem hcm⟩
    · -- a gap that would do is passed over, and the block behind it is taken
      cases B with
      | nil =>
        obtain ⟨l, e, hl, hu⟩ := h.wf.last
        have heq : (A ++ [b]) ++ [c] = l ++ [e] := by
          rw [← hl, hb]
          simp
        rw [← (append_singleton_inj.mp heq).2] at hu
        exact absurd hu hcm
      | cons d B =>
        have hgo : skipFixed s.space size b (c :: d :: B) = skipFixed s.space size c (d :: B) := by
          rw [skipFixed.eq_def]
          exact if_neg (not_or.mpr ⟨hsmall, hm⟩)
        rw [hgo, skipFixed_stop (.inr hcm)]
        exact ⟨by omega, c.virt, le_rfl, by omega, h.allocated_virt hcmem hcm⟩

theorem exists_end (h : s.space.WellFormed) {stop : Nat} (hstop : 0 < stop) :
    ∃ A pred R, s.space.blocks = A ++ pred :: R ∧
      lowerBound s.space.blocks stop = A.length + 1 ∧ pred.virt < stop ∧
      ∀ c ∈ R, stop ≤ c.virt := by
  obtain ⟨A, pred, -, hp⟩ := h.parts hstop (le_refl stop)
  have hinner : s.space.inner stop stop = [] := eq_nil_iff_forall_not_mem.mpr fun c hc =>
    absurd (hp.inner_le c hc) (not_le.mpr (hp.inner_lt c hc))
  refine ⟨A, pred, s.space.behind stop stop, ?_, ?_, hp.start_lt, hp.behind_le⟩
  · rw [hp.blocks_eq, hinner, nil_append]
  · rw [hp.lowerBound_eq, hinner, length_nil, Nat.add_zero]

theorem linearStart_eq (hfit : s.currentLinearAllocEnd + size ≤ s.space.vaLimit)
    {pred : Block 1 Unit} (hb : s.space.blocks = A ++ pred :: B)
    (hlow : lowerBound s.space.blocks (s.currentLinearAllocEnd + size) = A.length + 1) :
    s.linearStart size = some (if pred.virt ≤ s.currentLinearAllocEnd then s.currentLinearAllocEnd
      else skipFixed s.space size pred B) := by
  have hget : s.space.blocks[A.length + 1 - 1]? = some pred := by
    rw [hb]
    exact getElem?_append_cons rfl
  have hdrop : s.space.blocks.drop (A.length + 1) = B := by
    rw [hb, ← drop_drop, drop_left]
    rfl
  rw [linearStart, virtEnd_eq hfit, if_pos ⟨Nat.le_add_right _ _, hfit⟩, hlow,
    assert_bind_of (by omega), hget, hdrop]
  simp only [bind_eq_bind, bind_some]
  split <;> rfl

theorem linearStart_overflow (hcur : s.currentLinearAllocEnd < 2 ^ s.space.vaBits)
    (hsize : size < 2 ^ s.space.vaBits)
    (hfit : ¬ s.currentLinearAllocEnd + size ≤ s.space.vaLimit) :
    s.linearStart size = some 0 := by
  have hlim := s.space.vaLimit_lt
  rw [linearStart]
  refine if_neg fun hc => ?_
  obtain ⟨hge, hle⟩ := hc
  rw [virtEnd] at hge hle
  by_cases hwrap : s.currentLinearAllocEnd + size < 2 ^ s.space.vaBits
  · rw [Nat.mod_eq_of_lt hwrap] at hle
    exact hfit hle
  · rw [Nat.mod_eq_sub_mod (not_lt.mp hwrap), Nat.mod_eq_of_lt (by omega)] at hge
    omega

/-- **An allocation does what it is for exactly under its condition.** -/
theorem Inv.allocCorrect_iff (h : s.Inv) (hpos : 0 < size) (hsize : size < 2 ^ s.space.vaBits) :
    s.AllocCorrect size ↔ s.AllocSafe size := by
  have hcur : 0 < s.currentLinearAllocEnd := lt_of_lt_of_le h.start_pos h.start_le
  rw [AllocCorrect, AllocSafe, allocate]
  split
  case isFalse hfit =>
    rw [linearStart_overflow h.cur_lt hsize hfit]
    exact h.findGap_iff hpos
  case isTrue hfit =>
    obtain ⟨A, pred, R, hb, hlow, hpred, hR⟩ := exists_end h.wf
      (lt_of_lt_of_le hcur (Nat.le_add_right _ size))
    have hat : ∀ v, pred.virt ≤ v → v < s.currentLinearAllocEnd + size →
        s.space.blockAt v = pred := fun v hle hlt =>
      h.wf.blockAt_eq hb hle fun c hc => lt_of_lt_of_le hlt (hR c (mem_of_mem_head? hc))
    rw [linearStart_eq hfit hb hlow, hat _ (by omega) (by omega)]
    simp only [bind_eq_bind, bind_some]
    by_cases hle : pred.virt ≤ s.currentLinearAllocEnd
    · -- the range lies in one block
      rw [if_pos hle, if_pos hle, if_pos (by omega)]
      constructor
      · rintro ⟨a, s', hs', hhand, -⟩
        obtain ⟨sp, -, heq⟩ := map_eq_some_iff.mp hs'
        obtain ⟨rfl, -⟩ := Prod.mk.inj heq
        by_contra hm
        refine (hhand (by omega)).2.2.1 s.currentLinearAllocEnd le_rfl (by omega) ?_
        rw [Allocated, FlatAddressSpaceMap.translate, hat _ hle (by omega)]
        exact read_ne_none hm
      · intro hu
        obtain ⟨bs, hmap, hhand⟩ := h.handed hpos h.start_le hfit
          (h.free_gap hb hu hle fun c hc => hR c (mem_of_mem_head? hc))
        rw [hmap]
        exact ⟨_, _, rfl, hhand _⟩
    · rw [if_neg hle, if_neg hle]
      cases R with
      | nil =>
        -- the loop over fixed mappings is not entered
        have hall : ∀ b ∈ s.space.blocks, b.virt < s.currentLinearAllocEnd + size := by
          have hsorted := h.wf.sorted
          rw [hb] at hsorted
          intro b hbm
          rw [hb] at hbm
          rcases mem_append.mp hbm with hbm | hbm
          · exact lt_trans ((pairwise_append.mp hsorted).2.2 b hbm pred mem_cons_self) hpred
          · rw [mem_singleton.mp hbm]
            exact hpred
        rw [skipFixed, if_neg (not_not.mpr rfl)]
        exact (h.findGap_iff hpos).trans ⟨fun hg => ⟨hall, hg⟩, fun hg => hg.2⟩
      | cons c R =>
        obtain ⟨hne, v, hv, hvlt, hall⟩ := h.skipFixed_overlaps hpos hb (by omega)
        rw [if_pos hne]
        refine ⟨fun hcorrect => ?_, fun hsafe => ?_⟩
        · obtain ⟨a, s', hs', hhand, -⟩ := hcorrect
          obtain ⟨sp, -, heq⟩ := map_eq_some_iff.mp hs'
          obtain ⟨rfl, -⟩ := Prod.mk.inj heq
          exact absurd hall ((hhand hne).2.2.1 v hv hvlt)
        · have := hsafe.1 c (hb ▸ by simp)
          have := hR c mem_cons_self
          omega

/-! ## 6. Steps keep the invariant -/

theorem inv_make {vaBits virtStart vaLimit : Nat} {hlimit : vaLimit < 2 ^ vaBits}
    (hstart : 0 < virtStart) (hbits : virtStart < 2 ^ vaBits) :
    (make vaBits virtStart vaLimit hlimit).Inv := by
  refine ⟨wellFormed_make, rfl, rfl, hstart, fun v hv => absurd ?_ hv, le_rfl, hbits⟩
  exact translate_make

theorem Inv.of_mapLocked (h : s.Inv) {a cur : Nat} {sp : FlatAddressSpaceMap 1 Unit}
    (ha : s.virtStart ≤ a) (hsize : 0 < size) (hlim : a + size ≤ s.space.vaLimit)
    (hmap : s.space.mapLocked a 1 size () = some sp) (hstart : s.virtStart ≤ cur)
    (hcur : cur < 2 ^ s.space.vaBits) :
    Inv ⟨sp, s.virtStart, cur⟩ ∧ sp.vaLimit = s.space.vaLimit ∧ sp.vaBits = s.space.vaBits := by
  obtain ⟨bs, hmap', hwf, htr⟩ := h.mapLocked ha hsize hlim
  obtain rfl := some.inj (hmap'.symm.trans hmap)
  refine ⟨⟨hwf, h.unmappedPa, h.paContigSplit, h.start_pos, fun v hv => ?_, hstart, hcur⟩, rfl, rfl⟩
  rcases (htr v).mp hv with hin | hv
  · dsimp only
    omega
  · exact h.inside v hv

/-- An allocation leaves the allocator, or maps its result. -/
theorem Inv.allocate_cases (h : s.Inv) (hsize : 0 < size) {a : Nat} {s' : FlatAllocator}
    (hs : s.allocate size = some (a, s')) :
    s' = s ∨ (a ≠ 0 ∧ ∃ sp cur, s.space.mapLocked a 1 size () = some sp ∧ s' = ⟨sp, s.virtStart, cur⟩ ∧
      (cur = s.currentLinearAllocEnd ∨ cur = s.space.virtEnd a size)) := by
  rw [allocate] at hs
  obtain ⟨start, -, hs⟩ := bind_eq_some_iff.mp hs
  split at hs
  · rename_i hne
    obtain ⟨sp, hmap, heq⟩ := map_eq_some_iff.mp hs
    obtain ⟨rfl, rfl⟩ := Prod.mk.inj heq
    exact .inr ⟨hne, sp, _, hmap, rfl, .inr rfl⟩
  · rw [findGap] at hs
    split at hs
    · rename_i f p q rest hblocks
      rcases @FlatAllocator.searchGap_spec _ p s.space (q :: rest) hsize with
        ⟨X, g, c, Y, hsearch, hl, -⟩ | ⟨hsearch, -⟩
      · rw [hsearch] at hs
        obtain ⟨sp, hmap, heq⟩ := map_eq_some_iff.mp hs
        obtain ⟨rfl, rfl⟩ := Prod.mk.inj heq
        refine .inr ⟨?_, sp, _, hmap, rfl, .inl rfl⟩
        have hsorted := h.wf.sorted
        rw [hblocks, hl] at hsorted
        have := (pairwise_cons.mp hsorted).1 g (by simp)
        omega
      · rw [hsearch] at hs
        exact .inl (Prod.mk.inj (some.inj hs)).2.symm
    · exact nomatch hs

end FlatAllocator

/-! ## 7. Runs -/

/-- A call of the allocator. -/
inductive AllocOp where
  | allocate (size : Nat)
  | allocateFixed (virt size : Nat)
  | free (virt size : Nat)
deriving DecidableEq

namespace AllocOp

/-- Sizes are values of `VaType` and not 0, ranges lie in the allocator's range. -/
def Legal (s : FlatAllocator) : AllocOp → Prop
  | allocate size => 0 < size ∧ size < 2 ^ s.space.vaBits
  | allocateFixed virt size => s.virtStart ≤ virt ∧ 0 < size ∧ virt + size ≤ s.space.vaLimit
  | free virt size => s.virtStart ≤ virt ∧ 0 < size ∧ virt + size ≤ s.space.vaLimit

/-- The condition of a call. -/
def Safe (s : FlatAllocator) : AllocOp → Prop
  | allocate size => s.AllocSafe size
  | allocateFixed _ _ => True
  | free virt size => s.space.UnmapSafe virt size

def step (s : FlatAllocator) : AllocOp → Option FlatAllocator
  | allocate size => (s.allocate size).map Prod.snd
  | allocateFixed virt size => s.allocateFixed virt size
  | free virt size => s.free virt size

/-- The calls one after another, up to a failed assertion. -/
def run : FlatAllocator → List AllocOp → Option FlatAllocator
  | s, [] => some s
  | s, op :: ops => (step s op).bind fun s => run s ops

/-- Every call is legal and meets its condition where it is made. -/
def SafeRun : FlatAllocator → List AllocOp → Prop
  | _, [] => True
  | s, op :: ops => Legal s op ∧ Safe s op ∧ ∀ s', step s op = some s' → SafeRun s' ops

variable {s : FlatAllocator} {op : AllocOp} {ops : List AllocOp}

/-- A legal call that meets its condition has a result and keeps the invariant. -/
theorem step_inv (h : s.Inv) (hl : Legal s op) (hs : Safe s op) :
    ∃ s', step s op = some s' ∧ s'.Inv ∧ s'.space.vaBits = s.space.vaBits := by
  cases op with
  | allocate size =>
    obtain ⟨hpos, hsize⟩ := hl
    obtain ⟨a, s', halloc, hhand, -⟩ := (h.allocCorrect_iff hpos hsize).mpr hs
    refine ⟨s', by rw [step, halloc]; rfl, ?_⟩
    rcases h.allocate_cases hpos halloc with rfl | ⟨hne, sp, cur, hmap, rfl, hcur⟩
    · exact ⟨h, rfl⟩
    · obtain ⟨hstart, hlim, -⟩ := hhand hne
      have hend := FlatAddressSpaceMap.virtEnd_eq hlim
      have hlt := s.space.vaLimit_lt
      have hle := h.start_le
      have hclt := h.cur_lt
      obtain ⟨hinv, -, hbits⟩ := @FlatAllocator.Inv.of_mapLocked _ _ h _ cur _ hstart hpos
          hlim hmap (by rcases hcur with rfl | rfl <;> omega)
          (by rcases hcur with rfl | rfl <;> omega)
      exact ⟨hinv, hbits⟩
  | allocateFixed virt size =>
    obtain ⟨hstart, hpos, hlim⟩ := hl
    obtain ⟨bs, hmap, -⟩ := h.mapLocked hstart hpos hlim
    obtain ⟨hinv, -, hbits⟩ := h.of_mapLocked hstart hpos hlim hmap h.start_le h.cur_lt
    exact ⟨_, by rw [step, FlatAllocator.allocateFixed, hmap]; rfl, hinv, hbits⟩
  | free virt size =>
    obtain ⟨hstart, hpos, hlim⟩ := hl
    obtain ⟨sp, hsp, hwf, hin, hout⟩ := (h.wf.unmapCorrect_iff
      (lt_of_lt_of_le h.start_pos hstart) hpos hlim).mpr hs
    refine ⟨{ s with space := sp }, by rw [step, FlatAllocator.free, hsp]; rfl, ?_⟩
    obtain ⟨bs, -, rfl⟩ := map_eq_some_iff.mp hsp
    refine ⟨⟨hwf, h.unmappedPa, h.paContigSplit, h.start_pos, fun v hv => ?_, h.start_le, h.cur_lt⟩, rfl⟩
    by_cases hv' : virt ≤ v ∧ v < virt + size
    · exact absurd (hin v hv'.1 hv'.2) hv
    · exact h.inside v fun hnone => hv ((hout v hv').trans hnone)

theorem run_inv (h : s.Inv) (hrun : SafeRun s ops) :
    ∃ s', run s ops = some s' ∧ s'.Inv ∧ s'.space.vaBits = s.space.vaBits := by
  induction ops generalizing s with
  | nil => exact ⟨s, rfl, h, rfl⟩
  | cons op ops ih =>
    obtain ⟨hl, hs, hrest⟩ := hrun
    obtain ⟨s', hstep, hinv, hbits⟩ := step_inv h hl hs
    obtain ⟨s'', hrun, hinv', hbits'⟩ := ih hinv (hrest s' hstep)
    refine ⟨s'', ?_, hinv', hbits'.trans hbits⟩
    rw [run, hstep, bind_some, hrun]

/-- **Allocating over runs.** After every run of calls that meet their conditions an allocation
does what it is for exactly if it meets its condition. -/
theorem run_allocate_iff (vaBits virtStart vaLimit : Nat) (hlimit : vaLimit < 2 ^ vaBits)
    (hstart : 0 < virtStart) (hbits : virtStart < 2 ^ vaBits) (ops : List AllocOp)
    (hrun : SafeRun (.make vaBits virtStart vaLimit hlimit) ops) :
    ∃ s, run (.make vaBits virtStart vaLimit hlimit) ops = some s ∧
      ∀ size, 0 < size → size < 2 ^ vaBits → (s.AllocCorrect size ↔ s.AllocSafe size) := by
  obtain ⟨s, hs, hinv, hb⟩ := run_inv (FlatAllocator.inv_make hstart hbits) hrun
  refine ⟨s, hs, fun size hpos hsize => hinv.allocCorrect_iff hpos ?_⟩
  rw [hb]
  exact hsize

/-- A fixed range behind two linear ones: the next range is free and starts behind them. -/
theorem run_allocate_iff_fixed : ∃ s, run (.make 32 0x1000 0xFFFFFFFF (by decide))
    [.allocate 0x1000, .allocate 0x2000, .allocateFixed 0x8000 0x1000] = some s ∧ s.AllocCorrect 0x800 := by
  obtain ⟨s, hs, hiff⟩ := run_allocate_iff 32 0x1000 0xFFFFFFFF (by decide) (by decide) (by decide)
    [.allocate 0x1000, .allocate 0x2000, .allocateFixed 0x8000 0x1000] (by
      refine ⟨⟨by decide, by decide⟩, by unfold Safe; decide, fun s₁ hs₁ => ?_⟩
      have h₁ : step (.make 32 0x1000 0xFFFFFFFF (by decide)) (.allocate 0x1000) =
        some ⟨⟨32, 0, false, 0xFFFFFFFF, by decide,
          [⟨0, 0, ()⟩, ⟨0x1000, 1, ()⟩, ⟨0x2000, 0, ()⟩]⟩, 0x1000, 0x2000⟩ := by decide
      obtain rfl := some.inj (h₁.symm.trans hs₁)
      refine ⟨⟨by decide, by decide⟩, by unfold Safe; decide, fun s₂ hs₂ => ?_⟩
      have h₂ : step ⟨⟨32, 0, false, 0xFFFFFFFF, by decide,
          [⟨0, 0, ()⟩, ⟨0x1000, 1, ()⟩, ⟨0x2000, 0, ()⟩]⟩, 0x1000, 0x2000⟩ (.allocate 0x2000) =
        some ⟨⟨32, 0, false, 0xFFFFFFFF, by decide, [⟨0, 0, ()⟩, ⟨0x1000, 1, ()⟩,
          ⟨0x2000, 1, ()⟩, ⟨0x4000, 0, ()⟩]⟩, 0x1000, 0x4000⟩ := by decide
      obtain rfl := some.inj (h₂.symm.trans hs₂)
      exact ⟨⟨by decide, by decide, by decide⟩, trivial, fun _ _ => trivial⟩)
  refine ⟨s, hs, (hiff 0x800 (by decide) (by decide)).mpr ?_⟩
  have hrun : run (.make 32 0x1000 0xFFFFFFFF (by decide))
      [.allocate 0x1000, .allocate 0x2000, .allocateFixed 0x8000 0x1000] =
    some ⟨⟨32, 0, false, 0xFFFFFFFF, by decide, [⟨0, 0, ()⟩, ⟨0x1000, 1, ()⟩, ⟨0x2000, 1, ()⟩,
      ⟨0x4000, 0, ()⟩, ⟨0x8000, 1, ()⟩, ⟨0x9000, 0, ()⟩]⟩, 0x1000, 0x4000⟩ := by decide
  obtain rfl := some.inj (hrun.symm.trans hs)
  decide

/-- Two allocations that overlap a fixed range: the linear pass starts inside it, and the loop that
should skip it stops at it. -/
theorem allocate_overlaps_fixed :
    (∃ s s', run (.make 32 0x1000 0xFFFFFFFF (by decide)) [.allocateFixed 0x1000 0x1000] = some s ∧
      s.allocate 0x800 = some (0x1000, s') ∧ s.Allocated 0x1000 ∧ ¬ s.AllocCorrect 0x800) ∧
    ∃ s s', run (.make 32 0x1000 0xFFFFFFFF (by decide)) [.allocateFixed 0x2000 0x1000] = some s ∧
      s.allocate 0x1800 = some (0x2000, s') ∧ s.Allocated 0x2000 ∧ ¬ s.AllocCorrect 0x1800 := by
  have hwrong : ∀ {s : FlatAllocator} {size : Nat} (s' : FlatAllocator) (a : Nat), s.allocate size = some (a, s') → a ≠ 0 →
      0 < size → s.Allocated a → ¬ s.AllocCorrect size := by
    rintro s size s' a halloc hne hpos hall ⟨a', s'', halloc', hhand, -⟩
    obtain ⟨rfl, rfl⟩ := Prod.mk.inj (some.inj (halloc.symm.trans halloc'))
    exact (hhand hne).2.2.1 a le_rfl (Nat.lt_add_of_pos_right hpos) hall
  refine ⟨⟨⟨⟨32, 0, false, 0xFFFFFFFF, by decide,
      [⟨0, 0, ()⟩, ⟨0x1000, 1, ()⟩, ⟨0x2000, 0, ()⟩]⟩, 0x1000, 0x1000⟩,
    ⟨⟨32, 0, false, 0xFFFFFFFF, by decide,
      [⟨0, 0, ()⟩, ⟨0x1000, 1, ()⟩, ⟨0x1800, 1, ()⟩, ⟨0x2000, 0, ()⟩]⟩, 0x1000, 0x1800⟩,
    by decide, by decide, by unfold FlatAllocator.Allocated; decide, ?_⟩,
    ⟨⟨32, 0, false, 0xFFFFFFFF, by decide, [⟨0, 0, ()⟩, ⟨0x2000, 1, ()⟩, ⟨0x3000, 0, ()⟩]⟩, 0x1000, 0x1000⟩,
    ⟨⟨32, 0, false, 0xFFFFFFFF, by decide, [⟨0, 0, ()⟩, ⟨0x2000, 1, ()⟩, ⟨0x3800, 0, ()⟩]⟩, 0x1000, 0x3800⟩,
    by decide, by decide, by unfold FlatAllocator.Allocated; decide, ?_⟩
  · exact hwrong ⟨⟨32, 0, false, 0xFFFFFFFF, by decide,
      [⟨0, 0, ()⟩, ⟨0x1000, 1, ()⟩, ⟨0x1800, 1, ()⟩, ⟨0x2000, 0, ()⟩]⟩, 0x1000, 0x1800⟩ 0x1000
      (by decide) (by decide) (by decide) (by unfold FlatAllocator.Allocated; decide)
  · exact hwrong ⟨⟨32, 0, false, 0xFFFFFFFF, by decide,
      [⟨0, 0, ()⟩, ⟨0x2000, 1, ()⟩, ⟨0x3800, 0, ()⟩]⟩, 0x1000, 0x3800⟩ 0x2000
      (by decide) (by decide) (by decide) (by unfold FlatAllocator.Allocated; decide)

end AllocOp

/-! ## 8. Ranges anywhere in the map -/

namespace FlatAllocator

/-- What of the invariant stays when ranges from `low` on are taken, wherever the allocator
starts. -/
structure Sound (s : FlatAllocator) (low : Nat) : Prop where
  wf : s.space.WellFormed
  unmappedPa : s.space.unmappedPa = 0
  paContigSplit : s.space.paContigSplit = false
  inside : ∀ v, s.Allocated v → low ≤ v ∧ v < s.space.vaLimit
  low_le : low ≤ s.currentLinearAllocEnd
  cur_lt : s.currentLinearAllocEnd < 2 ^ s.space.vaBits

/-- The range is handed out: it is in the map, and allocated on top of what was. -/
structure Grants (s : FlatAllocator) (low a size : Nat) (s' : FlatAllocator) : Prop where
  sound : s'.Sound low
  vaLimit : s'.space.vaLimit = s.space.vaLimit
  vaBits : s'.space.vaBits = s.space.vaBits
  virtStart : s'.virtStart = s.virtStart
  low_le : low ≤ a
  fits : a + size ≤ s.space.vaLimit
  allocated : ∀ v, s'.Allocated v ↔ (a ≤ v ∧ v < a + size) ∨ s.Allocated v

/-- The range is taken back, and nothing else. -/
structure Takes (s : FlatAllocator) (low a size : Nat) (s' : FlatAllocator) : Prop where
  sound : s'.Sound low
  vaLimit : s'.space.vaLimit = s.space.vaLimit
  vaBits : s'.space.vaBits = s.space.vaBits
  virtStart : s'.virtStart = s.virtStart
  allocated : ∀ v, s'.Allocated v ↔ s.Allocated v ∧ ¬ (a ≤ v ∧ v < a + size)

variable {s s' : FlatAllocator} {size a low : Nat}

theorem sound_make {vaBits virtStart vaLimit : Nat} {hlimit : vaLimit < 2 ^ vaBits}
    (hbits : virtStart < 2 ^ vaBits) (hlow : low ≤ virtStart) :
    (make vaBits virtStart vaLimit hlimit).Sound low :=
  ⟨wellFormed_make, rfl, rfl, fun _ hv => absurd translate_make hv, hlow, hbits⟩

theorem not_allocated_make {vaBits virtStart vaLimit v : Nat} {hlimit : vaLimit < 2 ^ vaBits} :
    ¬ (make vaBits virtStart vaLimit hlimit).Allocated v := not_not.mpr translate_make

/-- A map of a range in the address space. -/
theorem Sound.grants (h : s.Sound low) {sp : FlatAddressSpaceMap 1 Unit} {cur : Nat} (ha : 0 < a)
    (hsize : 0 < size) (hlim : a + size ≤ s.space.vaLimit)
    (hmap : s.space.mapLocked a 1 size () = some sp) (hcur : cur < 2 ^ s.space.vaBits)
    (hlow : low ≤ a) (hlowcur : low ≤ cur) : s.Grants low a size ⟨sp, s.virtStart, cur⟩ := by
  have hone : (1 : BitVec 1) ≠ s.space.unmappedPa := by
    rw [h.unmappedPa]
    decide
  obtain ⟨bs, hmap', hwf, htr⟩ := h.wf.mapLocked (x := ()) ha hsize hlim hone
    (notSentinel_of_not_split h.paContigSplit)
  obtain rfl := some.inj (hmap'.symm.trans hmap)
  have hiff : ∀ v, ({ s.space with blocks := bs } : FlatAddressSpaceMap 1 Unit).translate v ≠ none ↔
      (a ≤ v ∧ v < a + size) ∨ s.Allocated v := fun v => by
    rw [htr]
    by_cases hv : a ≤ v ∧ v < a + size
    · rw [if_pos hv]
      exact ⟨fun _ => .inl hv, fun _ => read_ne_none hone⟩
    · rw [if_neg hv]
      exact ⟨fun hv => .inr hv, fun hor => hor.resolve_left hv⟩
  refine ⟨⟨hwf, h.unmappedPa, h.paContigSplit, fun v hv => ?_, hlowcur, hcur⟩, rfl, rfl, rfl,
    hlow, hlim, hiff⟩
  rcases (hiff v).mp hv with hin | hold
  · exact ⟨le_trans hlow hin.1, lt_of_lt_of_le hin.2 hlim⟩
  · exact h.inside v hold

theorem Sound.allocateFixed (h : s.Sound low) (ha : 0 < a) (hlow : low ≤ a) (hsize : 0 < size)
    (hlim : a + size ≤ s.space.vaLimit) (hs : s.allocateFixed a size = some s') :
    s.Grants low a size s' := by
  obtain ⟨sp, hmap, rfl⟩ := map_eq_some_iff.mp hs
  exact h.grants ha hsize hlim hmap h.cur_lt hlow h.low_le

theorem Sound.low_le_gap (h : s.Sound low) {f g : Block 1 Unit} {X Y : List (Block 1 Unit)}
    (hb : s.space.blocks = (f :: X) ++ g :: Y) (hu : s.space.Unmapped g) : low ≤ g.virt := by
  obtain ⟨Z, e, hZ⟩ : ∃ Z e, f :: X = Z ++ [e] :=
    ⟨_, _, (dropLast_append_getLast (cons_ne_nil f X)).symm⟩
  rw [hZ, append_assoc] at hb
  have hchain := h.wf.apart
  have hsorted := h.wf.sorted
  rw [hb] at hchain hsorted
  have he : s.space.Mapped e := fun he =>
    (isChain_cons_cons.mp (isChain_append.mp hchain).2.1).1 ⟨he, hu⟩
  have hlt : e.virt < g.virt :=
    (pairwise_cons.mp (pairwise_append.mp hsorted).2.1).1 g mem_cons_self
  have hlow := (h.inside e.virt (h.wf.translate_virt (hb ▸ by simp) he)).1
  omega

/-- The slow pass hands out a gap between two blocks. -/
theorem Sound.findGap (h : s.Sound low) (hsize : 0 < size) (hs : s.findGap size = some (a, s'))
    (ha : a ≠ 0) : (∀ v, a ≤ v → v < a + size → ¬ s.Allocated v) ∧ s.Grants low a size s' := by
  rw [FlatAllocator.findGap] at hs
  split at hs
  · rename_i f p q rest hblocks
    rcases @FlatAllocator.searchGap_spec _ p s.space (q :: rest) hsize with
      ⟨X, g, c, Y, hsearch, hl, hu, hgap⟩ | ⟨hsearch, -⟩
    · rw [hsearch] at hs
      obtain ⟨sp, hmap, heq⟩ := map_eq_some_iff.mp hs
      obtain ⟨rfl, rfl⟩ := Prod.mk.inj heq
      have hb : s.space.blocks = (f :: X) ++ g :: c :: Y := by rw [hblocks, hl]; rfl
      have hchain := h.wf.apart
      rw [hb] at hchain
      -- the block behind the gap is allocated, so that the gap ends below the limit
      have hc : s.space.Mapped c := fun hc =>
        (isChain_cons_cons.mp (isChain_append.mp hchain).2.1).1 ⟨hu, hc⟩
      have hlim := (h.inside c.virt (h.wf.translate_virt (hb ▸ by simp) hc)).2
      refine ⟨fun v hle hlt => not_allocated h.wf hb hu hle fun e he => ?_,
        h.grants (Nat.pos_of_ne_zero ha) hsize (by omega) hmap h.cur_lt (h.low_le_gap hb hu) h.low_le⟩
      obtain rfl : c = e := by simpa using he
      omega
    · rw [hsearch] at hs
      exact absurd (Prod.mk.inj (some.inj hs)).1.symm ha
  · exact nomatch hs

/-- **What an allocation under its condition hands out** was free, and then is allocated. -/
theorem Sound.allocate (h : s.Sound low) (hpos : 0 < size) (hsize : size < 2 ^ s.space.vaBits)
    (hsafe : s.AllocSafe size) (hs : s.allocate size = some (a, s')) (ha : a ≠ 0) :
    (∀ v, a ≤ v → v < a + size → ¬ s.Allocated v) ∧ s.Grants low a size s' := by
  rw [AllocSafe] at hsafe
  rw [FlatAllocator.allocate] at hs
  split at hsafe
  case isFalse hfit =>
    rw [linearStart_overflow h.cur_lt hsize hfit] at hs
    exact h.findGap hpos hs ha
  case isTrue hfit =>
    obtain ⟨A, pred, R, hb, hlow, hpred, hR⟩ := exists_end h.wf
      (show 0 < s.currentLinearAllocEnd + size by omega)
    rw [linearStart_eq hfit hb hlow] at hs
    simp only [bind_eq_bind, bind_some] at hs
    have hat : s.space.blockAt (s.currentLinearAllocEnd + size - 1) = pred :=
      h.wf.blockAt_eq hb (by omega) fun c hc => by
        have := hR c (mem_of_mem_head? hc)
        omega
    rw [hat] at hsafe
    split at hsafe
    case isTrue hle =>
      rw [if_pos hle] at hs
      split at hs
      · obtain ⟨sp, hmap, heq⟩ := map_eq_some_iff.mp hs
        obtain ⟨rfl, rfl⟩ := Prod.mk.inj heq
        have hlimit := s.space.vaLimit_lt
        refine ⟨fun v hv hlt => not_allocated h.wf hb hsafe (le_trans hle hv) fun c hc =>
            lt_of_lt_of_le hlt (hR c (mem_of_mem_head? hc)),
          h.grants (Nat.pos_of_ne_zero ha) hpos hfit hmap ?_ h.low_le ?_⟩
        · rw [virtEnd_eq hfit]
          omega
        · rw [virtEnd_eq hfit]
          exact le_trans h.low_le (Nat.le_add_right _ _)
      · exact h.findGap hpos hs ha
    case isFalse hle =>
      -- nothing starts behind the range, so the loop over fixed mappings is not entered
      obtain rfl : R = [] := eq_nil_iff_forall_not_mem.mpr fun c hc => by
        have hlt := hsafe.1 c (hb ▸ by simp [hc])
        have hge := hR c hc
        omega
      rw [if_neg hle, skipFixed, if_neg (not_not.mpr rfl)] at hs
      exact h.findGap hpos hs ha

theorem Sound.free (h : s.Sound low) (ha : 0 < a) (hsize : 0 < size)
    (hlim : a + size ≤ s.space.vaLimit) (hsafe : s.space.UnmapSafe a size)
    (hs : s.free a size = some s') : s.Takes low a size s' := by
  obtain ⟨sp, hsp, hwf, hin, hout⟩ := (h.wf.unmapCorrect_iff ha hsize hlim).mpr hsafe
  rw [FlatAllocator.free, hsp] at hs
  obtain rfl := some.inj hs
  obtain ⟨bs, -, rfl⟩ := map_eq_some_iff.mp hsp
  have hiff : ∀ v, ({ s.space with blocks := bs } : FlatAddressSpaceMap 1 Unit).translate v ≠ none ↔
      s.Allocated v ∧ ¬ (a ≤ v ∧ v < a + size) := fun v => by
    by_cases hv : a ≤ v ∧ v < a + size
    · rw [hin v hv.1 hv.2]
      exact ⟨fun hne => absurd rfl hne, fun hboth => absurd hv hboth.2⟩
    · rw [hout v hv]
      exact ⟨fun hne => ⟨hne, hv⟩, fun hboth => hboth.1⟩
  exact ⟨⟨hwf, h.unmappedPa, h.paContigSplit, fun v hv => h.inside v ((hiff v).mp hv).1,
    h.low_le, h.cur_lt⟩, rfl, rfl, rfl, hiff⟩

theorem Sound.free_empty (h : s.Sound low) (ha : 0 < a) (hlt : a < 2 ^ s.space.vaBits)
    (hfree : ¬ s.Allocated (a - 1)) (hs : s.free a 0 = some s') : s' = s := by
  obtain ⟨sp, hsp, rfl⟩ := map_eq_some_iff.mp hs
  obtain ⟨blocks, hblocks, rfl⟩ := map_eq_some_iff.mp hsp
  obtain ⟨A, pred, R, hb, hlow, hpred, hR⟩ := exists_end h.wf ha
  have hat : s.space.blockAt (a - 1) = pred := h.wf.blockAt_eq hb (by omega) fun c hc => by
    have := hR c (mem_of_mem_head? hc)
    omega
  have hu : s.space.Unmapped pred := by
    by_contra hm
    rw [Allocated, FlatAddressSpaceMap.translate, hat] at hfree
    exact hfree (read_ne_none hm)
  have hend : s.space.virtEnd a 0 = a := Nat.mod_eq_of_lt hlt
  have hget : s.space.blocks[A.length + 1 - 1]? = some pred := by
    rw [hb]
    exact getElem?_append_cons rfl
  rw [unmapBlocks, hend, assert_bind_eq_some, hlow, assert_bind_eq_some] at hblocks
  simp only [hget, bind_eq_bind, bind_some] at hblocks
  rw [if_pos hu, if_neg (by omega)] at hblocks
  rw [← some.inj hblocks.2.2]

end FlatAllocator

end Yuzu.Common
