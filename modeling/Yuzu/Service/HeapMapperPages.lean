/-
  File:      Yuzu/Service/HeapMapperPages.lean
  Subject:   Heap mappings are counted per page: in every run of `HeapMapper`'s users a page of the
             area is mapped exactly while a mapping covers it.

  * `Writes`: what the callbacks do with the pages of one segment, and from it what a whole list of
    disjoint segments does (`Writes.foldl_entry`, `Writes.foldl_clean`).
  * `Books`: the counted ranges are the number of mappings that cover an address, and the page table
    follows them.
-/
import Yuzu.Service.HeapMapper

namespace Yuzu.Service.HeapMapping

open List Function

open Yuzu.Common (alignUp alignUp_of_dvd)
open Yuzu.Service.NvCore (HeapMapper InInterval yuzuPageSize)

variable {h : Heap} {d : DevicePages} {seg : Segment} {segs : List Segment} {k n p pageD vaddress : Nat}

/-! ## 1. Page loops -/

namespace DevicePages

theorem mapPages_entry : (d.mapPages pageD vaddress n).entry p =
    if pageD ≤ p ∧ p < pageD + n then some (vaddress + (p - pageD) * yuzuPageSize) else d.entry p := by
  induction n with
  | zero => exact (if_neg (by omega)).symm
  | succ n ih =>
    rw [mapPages, mapPage]
    show Function.update _ _ _ p = _
    by_cases hp : p = pageD + n
    · subst hp
      rw [update_self, if_pos (by omega), Nat.add_sub_cancel_left]
    · rw [update_of_ne hp, ih]
      have : (pageD ≤ p ∧ p < pageD + n) ↔ (pageD ≤ p ∧ p < pageD + (n + 1)) := by omega
      simp only [this]

theorem unmapPages_entry : (d.unmapPages pageD n).entry p =
    if pageD ≤ p ∧ p < pageD + n then none else d.entry p := by
  induction n with
  | zero => exact (if_neg (by omega)).symm
  | succ n ih =>
    rw [unmapPages, unmapPage]
    show Function.update _ _ _ p = _
    by_cases hp : p = pageD + n
    · subst hp
      rw [update_self, if_pos (by omega)]
    · rw [update_of_ne hp, ih]
      have : (pageD ≤ p ∧ p < pageD + n) ↔ (pageD ≤ p ∧ p < pageD + (n + 1)) := by omega
      simp only [this]

theorem mapPages_clean (hd : d.clean = true) (hnone : ∀ p, pageD ≤ p → p < pageD + n → d.entry p = none) :
    (d.mapPages pageD vaddress n).clean = true := by
  induction n with
  | zero => exact hd
  | succ n ih =>
    have hentry : (d.mapPages pageD vaddress n).entry (pageD + n) = none := by
      rw [mapPages_entry, if_neg (by omega)]
      exact hnone _ (by omega) (by omega)
    rw [mapPages, mapPage]
    show (_ && _) = true
    rw [ih fun p h1 h2 => hnone p h1 (by omega), hentry]
    rfl

theorem unmapPages_clean (hd : d.clean = true)
    (hsome : ∀ p, pageD ≤ p → p < pageD + n → (d.entry p).isSome = true) :
    (d.unmapPages pageD n).clean = true := by
  induction n with
  | zero => exact hd
  | succ n ih =>
    have hentry : (d.unmapPages pageD n).entry (pageD + n) = d.entry (pageD + n) := by
      rw [unmapPages_entry, if_neg (by omega)]
    rw [unmapPages, unmapPage]
    show (_ && _) = true
    rw [ih fun p h1 h2 => hsome p h1 (by omega), hentry, hsome _ (by omega) (by omega)]
    rfl

end DevicePages

/-! ## 2. Segments of the heap -/

namespace Heap

/-- The process address of a page of the heap. -/
def pageAddress (h : Heap) (k : Nat) : Nat := h.vaddress + k * yuzuPageSize

/-- The device page of a page of the heap. -/
def devicePage (h : Heap) (k : Nat) : Nat := h.daddress / yuzuPageSize + k

/-- The number of pages of the heap. -/
def pages (h : Heap) : Nat := h.size / yuzuPageSize

/-- A segment of whole pages of the heap. -/
structure Contains (h : Heap) (seg : Segment) : Prop where
  nonempty : seg.start < seg.stop
  start_aligned : yuzuPageSize ∣ seg.start
  stop_aligned : yuzuPageSize ∣ seg.stop
  start_le : h.vaddress ≤ seg.start
  stop_le : seg.stop ≤ h.vaddress + h.size

/-- **A segment by its pages**: `count` pages from page `first` on. -/
theorem Contains.pages (hs : h.Contains seg) : ∃ first count,
    h.deviceAddress seg.start / yuzuPageSize = h.devicePage first ∧
    h.vaddress + (seg.start - h.vaddress) = h.pageAddress first ∧
    alignUp (seg.stop - seg.start) yuzuPageSize / yuzuPageSize = count ∧
    first + count ≤ h.pages ∧
    ∀ k, seg.Has (h.pageAddress k) ↔ first ≤ k ∧ k < first + count := by
  obtain ⟨v, hv⟩ := h.vaddress_aligned
  obtain ⟨e, he⟩ := h.daddress_aligned
  obtain ⟨z, hz⟩ := h.size_aligned
  obtain ⟨a, ha⟩ := hs.start_aligned
  obtain ⟨b, hb⟩ := hs.stop_aligned
  have hlt := h.daddress_lt
  have hne := hs.nonempty
  have hle := hs.start_le
  have hle' := hs.stop_le
  have hsize : alignUp (seg.stop - seg.start) yuzuPageSize = seg.stop - seg.start :=
    alignUp_of_dvd (Nat.dvd_sub hs.stop_aligned hs.start_aligned)
  unfold deviceAddress pageAddress devicePage Heap.pages Segment.Has
  rw [hsize]
  simp only [yuzuPageSize] at *
  rw [Nat.mod_eq_of_lt (by omega)]
  refine ⟨a - v, b - a, by omega, by omega, by omega, by omega, fun k => by omega⟩

/-- What the callback of a loop does with the pages of a segment: they get this entry, and where they
all meet the precondition nothing goes wrong. -/
structure Writes (h : Heap) (op : DevicePages → Segment → DevicePages) (value : Nat → Option Nat)
    (pre : Option Nat → Prop) : Prop where
  entry : ∀ d seg k, h.Contains seg → (op d seg).entry (h.devicePage k) =
    if seg.Has (h.pageAddress k) then value k else d.entry (h.devicePage k)
  clean : ∀ d seg, h.Contains seg → d.clean = true →
    (∀ k, k < h.pages → seg.Has (h.pageAddress k) → pre (d.entry (h.devicePage k))) →
    (op d seg).clean = true

theorem writes_mapSegment (h : Heap) :
    h.Writes h.mapSegment (fun k => some (h.pageAddress k)) (· = none) where
  entry d seg k hs := by
    obtain ⟨first, count, hpage, hvaddr, hcount, -, hhas⟩ := hs.pages
    rw [mapSegment, DevicePages.map, DevicePages.mapPages_entry, hpage, hcount, hvaddr]
    have hiff : (h.devicePage first ≤ h.devicePage k ∧ h.devicePage k < h.devicePage first + count) ↔
        seg.Has (h.pageAddress k) := by
      rw [hhas k]
      unfold devicePage
      omega
    simp only [hiff]
    split
    · next hk =>
        have hfirst := ((hhas k).mp hk).1
        unfold pageAddress devicePage yuzuPageSize
        congr 1
        omega
    · rfl
  clean d seg hs hd hpre := by
    obtain ⟨first, count, hpage, hvaddr, hcount, hle, hhas⟩ := hs.pages
    rw [mapSegment, DevicePages.map, hpage, hcount]
    refine DevicePages.mapPages_clean hd fun p h1 h2 => ?_
    unfold devicePage at h1 h2
    have hk := hpre (p - h.daddress / yuzuPageSize) (by omega) ((hhas _).mpr (by omega))
    unfold devicePage at hk
    rwa [Nat.add_sub_of_le (by omega)] at hk

theorem writes_unmapSegment (h : Heap) : h.Writes h.unmapSegment (fun _ => none) (·.isSome = true) where
  entry d seg k hs := by
    obtain ⟨first, count, hpage, hvaddr, hcount, -, hhas⟩ := hs.pages
    rw [unmapSegment, DevicePages.unmap, DevicePages.unmapPages_entry, hpage, hcount]
    have hiff : (h.devicePage first ≤ h.devicePage k ∧ h.devicePage k < h.devicePage first + count) ↔
        seg.Has (h.pageAddress k) := by
      rw [hhas k]
      unfold devicePage
      omega
    simp only [hiff]
  clean d seg hs hd hpre := by
    obtain ⟨first, count, hpage, hvaddr, hcount, hle, hhas⟩ := hs.pages
    rw [unmapSegment, DevicePages.unmap, hpage, hcount]
    refine DevicePages.unmapPages_clean hd fun p h1 h2 => ?_
    unfold devicePage at h1 h2
    have hk := hpre (p - h.daddress / yuzuPageSize) (by omega) ((hhas _).mpr (by omega))
    unfold devicePage at hk
    rwa [Nat.add_sub_of_le (by omega)] at hk

section Loops

variable {op : DevicePages → Segment → DevicePages} {value : Nat → Option Nat} {pre : Option Nat → Prop}

theorem Writes.foldl_entry_of_not (hw : h.Writes op value pre) (hs : ∀ seg ∈ segs, h.Contains seg)
    (hk : ¬∃ seg ∈ segs, seg.Has (h.pageAddress k)) :
    (segs.foldl op d).entry (h.devicePage k) = d.entry (h.devicePage k) := by
  induction segs generalizing d with
  | nil => rfl
  | cons seg segs ih =>
    rw [foldl_cons, ih (fun x hx => hs x (mem_cons_of_mem _ hx))
      (fun ⟨x, hx, hhas⟩ => hk ⟨x, mem_cons_of_mem _ hx, hhas⟩),
      hw.entry d seg k (hs seg mem_cons_self),
      if_neg fun hhas => hk ⟨seg, mem_cons_self, hhas⟩]

theorem Writes.foldl_entry (hw : h.Writes op value pre) (hs : ∀ seg ∈ segs, h.Contains seg)
    (hk : ∃ seg ∈ segs, seg.Has (h.pageAddress k)) :
    (segs.foldl op d).entry (h.devicePage k) = value k := by
  induction segs generalizing d with
  | nil =>
    obtain ⟨x, hx, -⟩ := hk
    cases hx
  | cons seg segs ih =>
    have hs' : ∀ x ∈ segs, h.Contains x := fun x hx => hs x (mem_cons_of_mem _ hx)
    rw [foldl_cons]
    by_cases hlater : ∃ x ∈ segs, x.Has (h.pageAddress k)
    · exact ih hs' hlater
    · obtain ⟨x, hx, hhas⟩ := hk
      rcases mem_cons.mp hx with rfl | hx
      · rw [hw.foldl_entry_of_not hs' hlater, hw.entry d x k (hs x mem_cons_self), if_pos hhas]
      · exact absurd ⟨x, hx, hhas⟩ hlater

/-- **A loop over disjoint segments** whose pages all meet the precondition goes wrong nowhere. -/
theorem Writes.foldl_clean (hw : h.Writes op value pre) (hs : ∀ seg ∈ segs, h.Contains seg)
    (hord : segs.Pairwise (fun x y => x.stop ≤ y.start)) (hd : d.clean = true)
    (hpre : ∀ k, k < h.pages → (∃ seg ∈ segs, seg.Has (h.pageAddress k)) → pre (d.entry (h.devicePage k))) :
    (segs.foldl op d).clean = true := by
  induction segs generalizing d with
  | nil => exact hd
  | cons seg segs ih =>
    obtain ⟨hfirst, hord⟩ := pairwise_cons.mp hord
    have hseg := hs seg mem_cons_self
    refine ih (fun x hx => hs x (mem_cons_of_mem _ hx)) hord ?_ ?_
    · exact hw.clean d seg hseg hd fun k hk hhas => hpre k hk ⟨seg, mem_cons_self, hhas⟩
    · rintro k hk ⟨x, hx, hhas⟩
      -- a later segment lies behind this one
      have hnot : ¬seg.Has (h.pageAddress k) := by
        have hle := hfirst x hx
        unfold Segment.Has at hhas ⊢
        omega
      rw [hw.entry d seg k hseg, if_neg hnot]
      exact hpre k hk ⟨x, mem_cons_of_mem _ hx, hhas⟩

end Loops

end Heap

/-! ## 3. The sets of a call -/

variable {s : State} {start size a i : Nat} {set : Nat → Prop} {m : Mapping}

theorem inInterval_iff (hlt : start + size < 2 ^ 64) :
    InInterval start size a ↔ start ≤ a ∧ a < start + size := by
  rw [InInterval, Nat.mod_eq_of_lt hlt]

theorem MakeUp.contains (hm : MakeUp segs set)
    (hset : ∀ a, set a → h.vaddress ≤ a ∧ a < h.vaddress + h.size) : ∀ seg ∈ segs, h.Contains seg := by
  intro seg hseg
  have hne := hm.nonempty seg hseg
  have hfirst := hset seg.start ((hm.mem_iff _).mpr ⟨seg, hseg, Nat.le_refl _, hne⟩)
  have hlast := hset (seg.stop - 1) ((hm.mem_iff _).mpr ⟨seg, hseg, by omega, by omega⟩)
  exact ⟨hne, (hm.aligned seg hseg).1, (hm.aligned seg hseg).2, hfirst.1, by omega⟩

theorem foldl_subtractRange {set : Nat → Bool} (hs : ∀ seg ∈ segs, h.Contains seg) :
    segs.foldl (fun set seg => subtractRange set seg.start (seg.stop - seg.start)) set a = true ↔
      set a = true ∧ ¬∃ seg ∈ segs, seg.Has a := by
  induction segs generalizing set with
  | nil => simp
  | cons seg segs ih =>
    have hseg := hs seg mem_cons_self
    have hne := hseg.nonempty
    have hstop := hseg.stop_le
    have hlt := h.vaddress_lt
    have hiff : InInterval seg.start (seg.stop - seg.start) a ↔ seg.Has a := by
      rw [inInterval_iff (by omega), Segment.Has, Nat.add_sub_of_le (Nat.le_of_lt hne)]
    rw [foldl_cons, ih fun x hx => hs x (mem_cons_of_mem _ hx), exists_mem_cons_iff,
      subtractRange, Bool.and_eq_true, Bool.not_eq_true', decide_eq_false_iff_not, hiff, not_or, and_assoc]

/-- **What is left in the temporary set**: the addresses of the range that no mapping covers. -/
theorem unmappedPart_iff (hs : ∀ seg ∈ segs, h.Contains seg) :
    Heap.unmappedPart start size segs a = true ↔ InInterval start size a ∧ ¬∃ seg ∈ segs, seg.Has a := by
  rw [Heap.unmappedPart, foldl_subtractRange hs, addRange, Bool.false_or, decide_eq_true_iff]

/-! ## 4. The books -/

/-- Whether a mapping covers an address, as a number. -/
def Mapping.covers (a : Nat) (m : Mapping) : Int := if InInterval m.start m.size a then 1 else 0

theorem covers_nonneg (l : List Mapping) : ∀ m ∈ l, 0 ≤ m.covers a := by
  intro m _
  unfold Mapping.covers
  split <;> omega

theorem total_covers_pos {l : List Mapping} :
    0 < total (Mapping.covers a) l ↔ ∃ m ∈ l, InInterval m.start m.size a := by
  induction l with
  | nil => simp
  | cons m l ih =>
    have hl := total_nonneg (covers_nonneg (a := a) l)
    rw [total_cons, exists_mem_cons_iff, ← ih, Mapping.covers]
    split
    · next hm => exact ⟨fun _ => .inl hm, fun _ => by omega⟩
    · next hm => simp [hm]

/-- A mapping of whole pages of the heap, at the address that belongs to it. -/
structure Heap.Holds (h : Heap) (m : Mapping) : Prop where
  start_aligned : yuzuPageSize ∣ m.start
  size_aligned : yuzuPageSize ∣ m.size
  start_le : h.vaddress ≤ m.start
  stop_le : m.start + m.size ≤ h.vaddress + h.size
  dAddress_eq : m.dAddress = h.daddress + (m.start - h.vaddress)

theorem Heap.Holds.inInterval (hm : h.Holds m) :
    InInterval m.start m.size a ↔ m.start ≤ a ∧ a < m.start + m.size := by
  have := hm.stop_le
  have := h.vaddress_lt
  exact inInterval_iff (by omega)

/-- **The books of the heap mapper.** -/
structure Books (h : Heap) (s : State) : Prop where
  ranges_eq : s.alive = true → ∀ a, s.mappedRanges a = total (Mapping.covers a) s.outstanding
  holds : ∀ m ∈ s.outstanding, h.Holds m
  entry : ∀ k, k < h.pages → s.device.entry (h.devicePage k) =
    if 0 < total (Mapping.covers (h.pageAddress k)) s.outstanding then some (h.pageAddress k) else none
  clean : s.device.clean = true

theorem Books.in_heap (hb : Books h s) (ha : s.alive = true) (hpos : 0 < s.mappedRanges a) :
    h.vaddress ≤ a ∧ a < h.vaddress + h.size := by
  rw [hb.ranges_eq ha, total_covers_pos] at hpos
  obtain ⟨m, hm, hin⟩ := hpos
  have hh := hb.holds m hm
  rw [hh.inInterval] at hin
  have := hh.start_le
  have := hh.stop_le
  omega

/-- **`Map`** maps the pages of the range that no mapping covers, and no other. -/
theorem Books.map (hb : Books h s) {mapped unmapped : List Segment}
    (ha : h.Allowed s (.map start size mapped unmapped)) :
    Books h (h.step s (.map start size mapped unmapped)).2 := by
  obtain ⟨halive, hbounds, hlt, hstart, hsize, hmapped, hunmapped⟩ := ha
  simp only [NvCore.HeapMapper.isInBounds, Nat.mod_eq_of_lt hlt, Bool.and_eq_true, decide_eq_true_eq] at hbounds
  have hin : ∀ a, InInterval start size a → h.vaddress ≤ a ∧ a < h.vaddress + h.size := by
    intro a hin
    rw [inInterval_iff hlt] at hin
    omega
  have hmc : ∀ seg ∈ mapped, h.Contains seg := hmapped.contains fun a hset => hin a hset.1
  have hleft : ∀ a, (∃ seg ∈ unmapped, seg.Has a) ↔ InInterval start size a ∧ ¬0 < s.mappedRanges a := by
    intro a
    rw [← hunmapped.mem_iff, unmappedPart_iff hmc, ← hmapped.mem_iff]
    tauto
  have huc : ∀ seg ∈ unmapped, h.Contains seg := hunmapped.contains fun a hset =>
    hin a ((unmappedPart_iff hmc).mp hset).1
  have hdaddr : h.deviceAddress start = h.daddress + (start - h.vaddress) :=
    Nat.mod_eq_of_lt (by have := h.daddress_lt; omega)
  have hwrites := h.writes_mapSegment
  refine ⟨fun _ a => ?_, ?_, fun k hk => ?_, ?_⟩
  · show addCount s.mappedRanges start size 1 a = total _ (s.outstanding ++ [_])
    rw [total_append_singleton, ← hb.ranges_eq halive, addCount, Mapping.covers]
    split <;> omega
  · intro m hm
    rcases mem_append.mp hm with hm | hm
    · exact hb.holds m hm
    · rw [mem_singleton.mp hm]
      exact ⟨hstart, hsize, hbounds.1, hbounds.2, hdaddr⟩
  · show (unmapped.foldl h.mapSegment s.device).entry (h.devicePage k) =
      if 0 < total _ (s.outstanding ++ [_]) then _ else _
    have hold := hb.entry k hk
    rw [← hb.ranges_eq halive] at hold
    have hcount : 0 < total (Mapping.covers (h.pageAddress k))
        (s.outstanding ++ [⟨start, size, h.deviceAddress start⟩]) ↔
        0 < s.mappedRanges (h.pageAddress k) ∨ InInterval start size (h.pageAddress k) := by
      rw [total_covers_pos, hb.ranges_eq halive, total_covers_pos]
      simp only [mem_append, mem_singleton, or_and_right, exists_or, exists_eq_left]
    simp only [hcount]
    by_cases hnew : ∃ seg ∈ unmapped, seg.Has (h.pageAddress k)
    · rw [hwrites.foldl_entry huc hnew, if_pos (.inr ((hleft _).mp hnew).1)]
    · rw [hwrites.foldl_entry_of_not huc hnew, hold]
      have hiff : 0 < s.mappedRanges (h.pageAddress k) ↔
          0 < s.mappedRanges (h.pageAddress k) ∨ InInterval start size (h.pageAddress k) := by
        refine ⟨.inl, fun hor => ?_⟩
        by_contra hnot
        exact hnew ((hleft _).mpr ⟨hor.resolve_left hnot, hnot⟩)
      simp only [← hiff]
  · refine hwrites.foldl_clean huc hunmapped.ordered hb.clean fun k hk hnew => ?_
    have hnot := ((hleft _).mp hnew).2
    rw [hb.entry k hk, ← hb.ranges_eq halive, if_neg hnot]

/-- **`Unmap`** unmaps the pages of the range that no other mapping covers. -/
theorem Books.unmap (hb : Books h s) {deleted : List Segment} (ha : h.Allowed s (.unmap i deleted)) :
    Books h (h.step s (.unmap i deleted)).2 := by
  obtain ⟨halive, m, hi, hdeleted⟩ := ha
  have hh := hb.holds m (mem_of_getElem? hi)
  have hone : ∀ a, InInterval m.start m.size a → 1 ≤ s.mappedRanges a := by
    intro a hin
    rw [hb.ranges_eq halive]
    exact total_covers_pos.mpr ⟨m, mem_of_getElem? hi, hin⟩
  have htotal : ∀ a, total (Mapping.covers a) (s.outstanding.eraseIdx i) =
      if InInterval m.start m.size a then s.mappedRanges a - 1 else s.mappedRanges a := by
    intro a
    rw [total_eraseIdx hi, ← hb.ranges_eq halive, Mapping.covers]
    split <;> omega
  have hspent : ∀ a, (∃ seg ∈ deleted, seg.Has a) ↔ InInterval m.start m.size a ∧ s.mappedRanges a = 1 := by
    intro a
    rw [← hdeleted.mem_iff, addCount]
    refine and_congr_right fun hin => ?_
    rw [if_pos hin]
    omega
  have hcontains : ∀ seg ∈ deleted, h.Contains seg := hdeleted.contains fun a hset => by
    have hin := hh.inInterval.mp hset.1
    have := hh.start_le
    have := hh.stop_le
    omega
  have hwrites := h.writes_unmapSegment
  have hstep : (h.step s (.unmap i deleted)).2 =
      { h.unmap s m.start m.size deleted with outstanding := s.outstanding.eraseIdx i } := by
    simp only [Heap.step, hi]
  rw [hstep]
  refine ⟨fun _ a => ?_, fun m hm => hb.holds m (mem_of_mem_eraseIdx hm), fun k hk => ?_, ?_⟩
  · show eraseSpent (addCount s.mappedRanges m.start m.size (-1)) m.start m.size a = _
    rw [htotal, eraseSpent, addCount]
    by_cases hin : InInterval m.start m.size a
    · have := hone a hin
      simp only [if_pos hin]
      split <;> omega
    · simp [hin]
  · show (deleted.foldl h.unmapSegment s.device).entry (h.devicePage k) =
      if 0 < total _ (s.outstanding.eraseIdx i) then _ else _
    have hold := hb.entry k hk
    rw [← hb.ranges_eq halive] at hold
    rw [htotal]
    by_cases hgone : ∃ seg ∈ deleted, seg.Has (h.pageAddress k)
    · obtain ⟨hin, hcount⟩ := (hspent _).mp hgone
      rw [hwrites.foldl_entry hcontains hgone, if_pos hin, if_neg (by omega)]
    · rw [hwrites.foldl_entry_of_not hcontains hgone, hold]
      have hkeep := fun hin hcount => hgone ((hspent _).mpr ⟨hin, hcount⟩)
      by_cases hin : InInterval m.start m.size (h.pageAddress k)
      · have := hone _ hin
        have hne : s.mappedRanges (h.pageAddress k) ≠ 1 := hkeep hin
        rw [if_pos hin, if_pos (by omega), if_pos (by omega)]
      · rw [if_neg hin]
  · refine hwrites.foldl_clean hcontains hdeleted.ordered hb.clean fun k hk hgone => ?_
    have hcount := ((hspent _).mp hgone).2
    rw [hb.entry k hk, ← hb.ranges_eq halive, if_pos (by omega)]
    rfl

/-- **The destructor** unmaps what is still mapped. -/
theorem Books.destroy (hb : Books h s) {all : List Segment} (ha : h.Allowed s (.destroy all)) :
    Books h (h.step s (.destroy all)).2 := by
  obtain ⟨halive, hall⟩ := ha
  have hcontains : ∀ seg ∈ all, h.Contains seg := hall.contains fun a hset => hb.in_heap halive hset
  have hwrites := h.writes_unmapSegment
  refine ⟨fun hdead => Bool.noConfusion hdead, fun _ hm => absurd hm not_mem_nil, fun k hk => ?_, ?_⟩
  · show (all.foldl h.unmapSegment s.device).entry (h.devicePage k) = none
    by_cases hin : ∃ seg ∈ all, seg.Has (h.pageAddress k)
    · exact hwrites.foldl_entry hcontains hin
    · rw [hwrites.foldl_entry_of_not hcontains hin, hb.entry k hk, ← hb.ranges_eq halive,
        if_neg fun hpos => hin ((hall.mem_iff _).mp hpos)]
  · refine hwrites.foldl_clean hcontains hall.ordered hb.clean fun k hk hin => ?_
    rw [hb.entry k hk, ← hb.ranges_eq halive, if_pos ((hall.mem_iff _).mpr hin)]
    rfl

/-! ## 5. Every run -/

/-- **What the mapper guarantees** in one state. -/
structure Counted (h : Heap) (s : State) : Prop where
  /-- A page of the area is mapped exactly while a mapping covers its address in the heap. -/
  mapped_iff : ∀ k, k < h.pages → ((s.device.entry (h.devicePage k)).isSome = true ↔
    ∃ m ∈ s.outstanding, InInterval m.start m.size (h.pageAddress k))
  /-- `Map` returned the address that belongs to the range. -/
  dAddress_eq : ∀ m ∈ s.outstanding, m.dAddress = h.daddress + (m.start - h.vaddress)
  /-- From there on, every byte of the range is where it belongs. -/
  translate : ∀ m ∈ s.outstanding, ∀ j, j < m.size →
    s.device.translate (m.dAddress + j) = some (m.start + j)
  /-- No page was mapped twice, and none unmapped that was not mapped. -/
  clean : s.device.clean = true

theorem Books.counted (hb : Books h s) : Counted h s where
  mapped_iff k hk := by
    rw [hb.entry k hk, ← total_covers_pos]
    split
    · next hpos => exact ⟨fun _ => hpos, fun _ => rfl⟩
    · next hpos => exact ⟨Bool.noConfusion, fun h => absurd h hpos⟩
  dAddress_eq m hm := (hb.holds m hm).dAddress_eq
  translate m hm j hj := by
    have hh := hb.holds m hm
    obtain ⟨v, hv⟩ := h.vaddress_aligned
    obtain ⟨e, he⟩ := h.daddress_aligned
    obtain ⟨z, hz⟩ := h.size_aligned
    obtain ⟨a, ha⟩ := hh.start_aligned
    obtain ⟨b, hb'⟩ := hh.size_aligned
    have hle := hh.start_le
    have hle' := hh.stop_le
    -- the page of the heap that the byte is in
    have hpage : (m.dAddress + j) / yuzuPageSize = h.devicePage (a - v + j / yuzuPageSize) := by
      rw [hh.dAddress_eq]
      unfold Heap.devicePage
      simp only [yuzuPageSize] at *
      omega
    have hk : a - v + j / yuzuPageSize < h.pages := by
      unfold Heap.pages
      simp only [yuzuPageSize] at *
      omega
    have hcovered : 0 < total (Mapping.covers (h.pageAddress (a - v + j / yuzuPageSize))) s.outstanding := by
      refine total_covers_pos.mpr ⟨m, hm, hh.inInterval.mpr ?_⟩
      unfold Heap.pageAddress
      simp only [yuzuPageSize] at *
      omega
    rw [DevicePages.translate, hpage, hb.entry _ hk, if_pos hcovered, Option.map_some, hh.dAddress_eq]
    unfold Heap.pageAddress
    simp only [yuzuPageSize] at *
    congr 1
    omega
  clean := hb.clean

theorem Books.step (hb : Books h s) {c : Call} (ha : h.Allowed s c) : Books h (h.step s c).2 := by
  cases c with
  | map start size mapped unmapped => exact hb.map ha
  | unmap i deleted => exact hb.unmap ha
  | destroy all => exact hb.destroy ha

/-- A heap of two pages. -/
def twoPages : Heap where
  vaddress := 8192
  daddress := 4096
  size := 8192
  daddress_ne_zero := by decide
  vaddress_lt := by decide
  daddress_lt := by decide
  vaddress_aligned := by decide
  daddress_aligned := by decide
  size_aligned := by decide

end Yuzu.Service.HeapMapping
