/-
  File:      Yuzu/VideoCore/MemoryTracker.lean
  Subject:   VideoCommon::MemoryTrackerBase (video_core/buffer_cache/memory_tracker_base.h): which
             pages the CPU and the GPU have modified, and which the rasterizer counts.

  The tracker has a manager for each region of 4 MiB that was asked for with
  `create_region_on_fail`. `IteratePages` is the list of the triples of region, offset and size that
  its function gets. The updates are the calls of `UpdatePagesCachedCount` in order.

  A page of a region without a manager counts as modified by the CPU and untracked. The order in
  which `FlushCachedWrites` goes over the set of cached regions is a parameter.
-/
import Mathlib.Data.Finset.Sort
import Yuzu.VideoCore.WordManager

namespace Yuzu.VideoCore

open Function

/-! ## 1. The tracker -/

/-- `MemoryTrackerBase`. -/
structure MemoryTracker where
  topTier : Nat → Option WordManager
  cachedPages : Finset Nat
  updates : List Update

/-- The order in which a loop over a set goes. -/
structure SetOrder where
  toList : Finset Nat → List Nat
  mem_toList : ∀ s id, id ∈ toList s ↔ id ∈ s

namespace MemoryTracker

def init : MemoryTracker := ⟨fun _ => none, ∅, []⟩

/-- `HIGHER_PAGE_BITS`. -/
def higherPageBits : Nat := 22

/-- `CreateRegion`: the pool hands out managers that are new. -/
def createRegion (pageIndex : Nat) (t : MemoryTracker) : MemoryTracker :=
  { t with
    topTier := Function.update t.topTier pageIndex
      (some (WordManager.new (pageIndex <<< higherPageBits))) }

/-- The loop of `IteratePages` and of `IteratePairs`. -/
def iteratePagesLoop : Nat → Nat → Nat → Nat → List (Nat × Nat × Nat)
  | 0, _, _, _ => []
  | fuel + 1, remainingSize, pageIndex, pageOffset =>
    if remainingSize = 0 then []
    else
      let copyAmount := min (higherPageSize - pageOffset) remainingSize
      (pageIndex, pageOffset, copyAmount) ::
        iteratePagesLoop fuel (remainingSize - copyAmount) (pageIndex + 1) 0

/-- `IteratePages`: each round takes a byte at least. -/
def iteratePages (cpuAddress size : Nat) : List (Nat × Nat × Nat) :=
  iteratePagesLoop size size (cpuAddress >>> higherPageBits) (cpuAddress &&& (higherPageSize - 1))

/-- The tracker with a manager at an index, if it is to be created. -/
def ensureRegion (createRegionOnFail : Bool) (pageIndex : Nat) (t : MemoryTracker) :
    MemoryTracker :=
  if (t.topTier pageIndex).isNone ∧ createRegionOnFail then t.createRegion pageIndex else t

/-- What a function does with a manager: the manager after it, the calls of the rasterizer and of
    the function given by the caller, and the regions put into the set. -/
structure Effect where
  manager : WordManager
  updates : List Update
  ranges : List (Nat × Nat) := []
  cachedPages : Finset Nat := ∅

/-- One round of `IteratePages`. The second component are the calls of the caller's function. -/
def visit (createRegionOnFail : Bool) (func : WordManager → Nat → Nat → Effect)
    (s : MemoryTracker × List (Nat × Nat)) (c : Nat × Nat × Nat) :
    MemoryTracker × List (Nat × Nat) :=
  let t := s.1.ensureRegion createRegionOnFail c.1
  match t.topTier c.1 with
  | none => (t, s.2)
  | some manager =>
    let e := func manager c.2.1 c.2.2
    (⟨Function.update t.topTier c.1 (some e.manager), t.cachedPages ∪ e.cachedPages,
      t.updates ++ e.updates⟩, s.2 ++ e.ranges)

/-- A function over the regions of a range. -/
def overRegions (createRegionOnFail : Bool) (func : WordManager → Nat → Nat → Effect)
    (cpuAddress size : Nat) (t : MemoryTracker) : MemoryTracker × List (Nat × Nat) :=
  (iteratePages cpuAddress size).foldl (visit createRegionOnFail func) (t, [])

/-- The function that changes the states of a range. -/
def changeStates (type : StateType) (enable : Bool) (manager : WordManager) (offset size : Nat) :
    Effect :=
  let r := manager.changeRegionState type enable offset size
  { manager := r.1, updates := r.2 }

/-- The function that passes on the modified ranges. -/
def passRanges (type : StateType) (clear : Bool) (manager : WordManager) (offset size : Nat) :
    Effect :=
  let r := manager.forEachModifiedRange type clear offset size
  { manager := r.1, updates := r.2.1, ranges := r.2.2 }

/-- `MarkRegionAsCpuModified`. -/
def markRegionAsCpuModified (addr size : Nat) (t : MemoryTracker) : MemoryTracker :=
  (t.overRegions true (changeStates .cpu true) addr size).1

/-- `UnmarkRegionAsCpuModified`. -/
def unmarkRegionAsCpuModified (addr size : Nat) (t : MemoryTracker) : MemoryTracker :=
  (t.overRegions true (changeStates .cpu false) addr size).1

/-- `MarkRegionAsGpuModified`. -/
def markRegionAsGpuModified (addr size : Nat) (t : MemoryTracker) : MemoryTracker :=
  (t.overRegions true (changeStates .gpu true) addr size).1

/-- `UnmarkRegionAsGpuModified`. -/
def unmarkRegionAsGpuModified (addr size : Nat) (t : MemoryTracker) : MemoryTracker :=
  (t.overRegions true (changeStates .gpu false) addr size).1

/-- `MarkRegionAsPreflushable`. -/
def markRegionAsPreflushable (addr size : Nat) (t : MemoryTracker) : MemoryTracker :=
  (t.overRegions true (changeStates .preflushable true) addr size).1

/-- `UnmarkRegionAsPreflushable`. -/
def unmarkRegionAsPreflushable (addr size : Nat) (t : MemoryTracker) : MemoryTracker :=
  (t.overRegions true (changeStates .preflushable false) addr size).1

/-- The function of `CachedCpuWrite`. -/
def cacheWrite (manager : WordManager) (offset size : Nat) : Effect :=
  { changeStates .cachedCpu true manager offset size with
    cachedPages := {(manager.cpuAddr + offset) >>> higherPageBits} }

/-- `CachedCpuWrite`. -/
def cachedCpuWrite (addr size : Nat) (t : MemoryTracker) : MemoryTracker :=
  (t.overRegions true cacheWrite addr size).1

/-- The function of `FlushCachedWrites` with a range. -/
def flushManager (manager : WordManager) (_offset _size : Nat) : Effect :=
  let r := manager.flushCachedWrites
  { manager := r.1, updates := r.2 }

/-- `FlushCachedWrites` with a range. -/
def flushCachedWritesIn (addr size : Nat) (t : MemoryTracker) : MemoryTracker :=
  (t.overRegions false flushManager addr size).1

/-- `FlushCachedWrites`, over the set of regions in the given order. -/
def flushCachedWrites (order : SetOrder) (t : MemoryTracker) : MemoryTracker :=
  let flushed := (order.toList t.cachedPages).foldl (fun t id =>
    (visit false flushManager (t, []) (id, 0, 0)).1) t
  { flushed with cachedPages := ∅ }

/-- `ForEachUploadRange`. -/
def forEachUploadRange (addr size : Nat) (t : MemoryTracker) : MemoryTracker × List (Nat × Nat) :=
  t.overRegions true (passRanges .cpu true) addr size

/-- `ForEachDownloadRange`; with `clear` it is `ForEachDownloadRangeAndClear`. -/
def forEachDownloadRange (addr size : Nat) (clear : Bool) (t : MemoryTracker) :
    MemoryTracker × List (Nat × Nat) :=
  t.overRegions false (passRanges .gpu clear) addr size

/-- `IteratePages` with a function that may end it. -/
def anyRegion (createRegionOnFail : Bool) (func : WordManager → Nat → Nat → Bool) :
    List (Nat × Nat × Nat) → MemoryTracker → MemoryTracker × Bool
  | [], t => (t, false)
  | c :: calls, t =>
    let t := t.ensureRegion createRegionOnFail c.1
    match t.topTier c.1 with
    | none => anyRegion createRegionOnFail func calls t
    | some manager =>
      if func manager c.2.1 c.2.2 then (t, true)
      else anyRegion createRegionOnFail func calls t

/-- `IsRegionCpuModified`. -/
def isRegionCpuModified (addr size : Nat) (t : MemoryTracker) : MemoryTracker × Bool :=
  anyRegion true (fun manager offset size => manager.isRegionModified .cpu offset size)
    (iteratePages addr size) t

/-- `IsRegionGpuModified`. -/
def isRegionGpuModified (addr size : Nat) (t : MemoryTracker) : MemoryTracker × Bool :=
  anyRegion false (fun manager offset size => manager.isRegionModified .gpu offset size)
    (iteratePages addr size) t

/-- One round of `IteratePairs`. The pair is `begin` and `end`. -/
def pairRound (createRegionOnFail : Bool) (func : WordManager → Nat → Nat → Nat × Nat)
    (s : MemoryTracker × (Nat × Nat)) (c : Nat × Nat × Nat) : MemoryTracker × (Nat × Nat) :=
  let t := s.1.ensureRegion createRegionOnFail c.1
  match t.topTier c.1 with
  | none => (t, s.2)
  | some manager =>
    let new := func manager c.2.1 c.2.2
    if new.1 ≠ 0 ∨ new.2 ≠ 0 then
      let baseAddress := c.1 <<< higherPageBits
      (t, min (new.1 + baseAddress) s.2.1, max (new.2 + baseAddress) s.2.2)
    else (t, s.2)

/-- `IteratePairs`. -/
def iteratePairs (createRegionOnFail : Bool) (func : WordManager → Nat → Nat → Nat × Nat)
    (cpuAddress size : Nat) (t : MemoryTracker) : MemoryTracker × (Nat × Nat) :=
  let r := (iteratePages cpuAddress size).foldl (pairRound createRegionOnFail func) (t, (2 ^ 64 - 1, 0))
  (r.1, if r.2.1 < r.2.2 then r.2 else (0, 0))

/-- `ModifiedCpuRegion`. -/
def modifiedCpuRegion (addr size : Nat) (t : MemoryTracker) : MemoryTracker × (Nat × Nat) :=
  t.iteratePairs true (fun manager offset size => manager.modifiedRegion .cpu offset size) addr size

/-- `ModifiedGpuRegion`. -/
def modifiedGpuRegion (addr size : Nat) (t : MemoryTracker) : MemoryTracker × (Nat × Nat) :=
  t.iteratePairs false (fun manager offset size => manager.modifiedRegion .gpu offset size) addr size

/-! ## 2. Pages -/

end MemoryTracker

/-- The bits of a page of a new manager. -/
def PageBits.fresh : PageBits := ⟨true, false, false, true, false⟩

theorem WordManager.new_bits {a p : Nat} : (WordManager.new a).bits p = .fresh := by
  have h : p % 64 < 64 := Nat.mod_lt p (by decide)
  have hones : (BitVec.allOnes 64).getLsbD (p % 64) = true := by
    rw [BitVec.getLsbD_allOnes, decide_eq_true h]
  have hzeros : (0 : BitVec 64).getLsbD (p % 64) = false := BitVec.getLsbD_zero
  rw [WordManager.bits, PageWord.bits, WordManager.new]
  rw [hones, hzeros]
  rfl

namespace MemoryTracker

/-- The bits of a page; a region without manager stands for a new one. -/
def bits (t : MemoryTracker) (page : Nat) : PageBits :=
  match t.topTier (page / 1024) with
  | none => .fresh
  | some m => m.bits (page % 1024)

variable {t : MemoryTracker} {create : Bool} {func : WordManager → Nat → Nat → Effect}
  {m : WordManager} {c : Nat × Nat × Nat} {page r : Nat} {out : List (Nat × Nat)}
  {ok : Nat → Nat → Prop} {sel : Nat → Nat → Nat → Prop} {f : PageBits → PageBits}

theorem bits_of_some (h : t.topTier (page / 1024) = some m) : t.bits page = m.bits (page % 1024) := by
  rw [bits, h]

theorem bits_congr {t' : MemoryTracker} (h : t'.topTier (page / 1024) = t.topTier (page / 1024)) :
    t'.bits page = t.bits page := by
  rw [bits, bits, h]

theorem createRegion_topTier {r' : Nat} : (t.createRegion r).topTier r' =
    if r' = r then some (WordManager.new (r <<< higherPageBits)) else t.topTier r' := by
  exact update_apply _ _ _ _

theorem ensureRegion_updates : (t.ensureRegion create r).updates = t.updates := by
  rw [ensureRegion]
  split <;> rfl

theorem ensureRegion_cachedPages : (t.ensureRegion create r).cachedPages = t.cachedPages := by
  rw [ensureRegion]
  split <;> rfl

theorem ensureRegion_bits (create : Bool) (r : Nat) : (t.ensureRegion create r).bits page = t.bits page := by
  rw [ensureRegion]
  split
  · rename_i h
    by_cases hr : page / 1024 = r
    · have hnone : t.topTier (page / 1024) = none := hr ▸ Option.isNone_iff_eq_none.mp h.1
      have hsome : (t.createRegion r).topTier (page / 1024) =
          some (WordManager.new (r <<< higherPageBits)) := by
        rw [createRegion_topTier, if_pos hr]
      rw [bits_of_some hsome, WordManager.new_bits, bits, hnone]
    · refine bits_congr ?_
      rw [createRegion_topTier, if_neg hr]
  · rfl

/-- Each manager knows its address. -/
def Placed (t : MemoryTracker) : Prop :=
  ∀ r m, t.topTier r = some m → m.cpuAddr = r * 1024 * bytesPerPage

theorem ensureRegion_placed (h : t.Placed) : (t.ensureRegion create r).Placed := by
  rw [ensureRegion]
  split
  · intro r' m' hm'
    rw [createRegion_topTier] at hm'
    by_cases hr : r' = r
    · subst hr
      rw [if_pos rfl] at hm'
      rw [← Option.some.inj hm', WordManager.new, Nat.shiftLeft_eq, Nat.mul_assoc]
      rfl
    · rw [if_neg hr] at hm'
      exact h r' m' hm'
  · exact h

/-- A function acts on the pages of a region that it selects, and keeps the counts. -/
structure Acts (func : WordManager → Nat → Nat → Effect) (ok : Nat → Nat → Prop)
    (sel : Nat → Nat → Nat → Prop) (f : PageBits → PageBits) : Prop where
  inside : ∀ m offset size p, ok offset size → p < 1024 → sel offset size p →
    (func m offset size).manager.bits p = f (m.bits p)
  outside : ∀ m offset size p, ok offset size → p < 1024 → ¬sel offset size p →
    (func m offset size).manager.bits p = m.bits p
  cpuAddr : ∀ m offset size, (func m offset size).manager.cpuAddr = m.cpuAddr
  counted : ∀ m offset size base untracked updates, ok offset size →
    m.cpuAddr = base * bytesPerPage → Counted updates (untrackedWith m.words base untracked) →
    Counted (updates ++ (func m offset size).updates)
      (untrackedWith (func m offset size).manager.words base untracked)
  caches : ∀ m offset size r, ok offset size → m.cpuAddr = r * 1024 * bytesPerPage →
    (∀ b, (f b).cachedCpu = true → b.cachedCpu = true) ∨ r ∈ (func m offset size).cachedPages

theorem visit_cases (t : MemoryTracker) (create : Bool) (func : WordManager → Nat → Nat → Effect)
    (out : List (Nat × Nat)) (c : Nat × Nat × Nat) :
    ((t.ensureRegion create c.1).topTier c.1 = none ∧
      visit create func (t, out) c = (t.ensureRegion create c.1, out)) ∨
    ∃ m, (t.ensureRegion create c.1).topTier c.1 = some m ∧ visit create func (t, out) c =
      (⟨Function.update (t.ensureRegion create c.1).topTier c.1 (some (func m c.2.1 c.2.2).manager),
        t.cachedPages ∪ (func m c.2.1 c.2.2).cachedPages,
        t.updates ++ (func m c.2.1 c.2.2).updates⟩, out ++ (func m c.2.1 c.2.2).ranges) := by
  rw [visit]
  cases h : (t.ensureRegion create c.1).topTier c.1 with
  | none => exact .inl ⟨rfl, rfl⟩
  | some m =>
    refine .inr ⟨m, rfl, ?_⟩
    rw [ensureRegion_cachedPages, ensureRegion_updates]

theorem create_false_of_none (h : (t.ensureRegion create r).topTier r = none) : create = false := by
  rw [ensureRegion] at h
  split at h
  · rw [createRegion_topTier, if_pos rfl] at h
    cases h
  · rename_i hcond
    rw [h] at hcond
    simpa using hcond

theorem visit_bits (t : MemoryTracker) (out : List (Nat × Nat)) (page : Nat)
    (hf : Acts func ok sel f) (hc : ok c.2.1 c.2.2)
    (hfresh : create = true ∨ f .fresh = .fresh) :
    (page / 1024 = c.1 ∧ sel c.2.1 c.2.2 (page % 1024) →
      (visit create func (t, out) c).1.bits page = f (t.bits page)) ∧
    (¬(page / 1024 = c.1 ∧ sel c.2.1 c.2.2 (page % 1024)) →
      (visit create func (t, out) c).1.bits page = t.bits page) := by
  have hp : page % 1024 < 1024 := Nat.mod_lt _ (by decide)
  rcases visit_cases t create func out c with ⟨hnone, hv⟩ | ⟨m, hsome, hv⟩
  · rw [hv]
    refine ⟨fun h => ?_, fun _ => ensureRegion_bits create c.1⟩
    have hf' := hfresh.resolve_left (by rw [create_false_of_none hnone]; exact Bool.false_ne_true)
    have hbits : t.bits page = .fresh := by
      rw [← ensureRegion_bits create c.1, bits, h.1, hnone]
    rw [ensureRegion_bits, hbits, hf']
  · rw [hv]
    by_cases hr : page / 1024 = c.1
    · have hold : t.bits page = m.bits (page % 1024) := by
        rw [← ensureRegion_bits create c.1, bits, hr, hsome]
      have hnew : (MemoryTracker.mk (Function.update (t.ensureRegion create c.1).topTier c.1
          (some (func m c.2.1 c.2.2).manager)) (t.cachedPages ∪ (func m c.2.1 c.2.2).cachedPages)
          (t.updates ++ (func m c.2.1 c.2.2).updates)).bits page =
          (func m c.2.1 c.2.2).manager.bits (page % 1024) := by
        refine bits_of_some ?_
        dsimp only
        rw [hr, update_self]
      rw [hnew, hold]
      exact ⟨fun h => hf.inside m _ _ _ hc hp h.2, fun h => hf.outside m _ _ _ hc hp fun hs => h ⟨hr, hs⟩⟩
    · refine ⟨fun h => absurd h.1 hr, fun _ => ?_⟩
      refine Eq.trans (bits_congr ?_) (ensureRegion_bits create c.1)
      dsimp only
      rw [update_of_ne hr]

/-- **What holds of every tracker:** the managers know their addresses, the counts are right, and
    the set holds the regions that have cached writes. -/
structure Sound (t : MemoryTracker) : Prop where
  placed : t.Placed
  counted : Counted t.updates fun page => (t.bits page).untracked
  cached : ∀ page, (t.bits page).cachedCpu = true → page / 1024 ∈ t.cachedPages

theorem init_sound : init.Sound where
  placed := fun _ _ h => nomatch h
  counted := fun page => ⟨rfl, fun before h => by
    rw [List.prefix_nil.mp h]
    exact .inl rfl⟩
  cached := fun page h => nomatch h

theorem untracked_eq {t' : MemoryTracker} {m' : WordManager} (hm' : t'.topTier r = some m')
    (hother : ∀ page, page / 1024 ≠ r → t'.bits page = t.bits page) :
    (fun page => (t'.bits page).untracked) =
      untrackedWith m'.words (r * 1024) fun page => (t.bits page).untracked := by
  funext page
  rw [untrackedWith]
  by_cases hpage : r * 1024 ≤ page ∧ page < r * 1024 + 1024
  · have hdiv : page / 1024 = r := by omega
    have hmod : page % 1024 = page - r * 1024 := by omega
    rw [if_pos hpage, bits_of_some (hdiv ▸ hm'), hmod]
    rfl
  · rw [if_neg hpage, hother page (by omega)]

theorem ensureRegion_sound (h : t.Sound) : (t.ensureRegion create r).Sound where
  placed := ensureRegion_placed h.placed
  counted := by
    have hbits : (fun page => ((t.ensureRegion create r).bits page).untracked) =
        fun page => (t.bits page).untracked := funext fun page => by rw [ensureRegion_bits]
    rw [ensureRegion_updates, hbits]
    exact h.counted
  cached := fun page hpage => by
    rw [ensureRegion_bits] at hpage
    rw [ensureRegion_cachedPages]
    exact h.cached page hpage

theorem visit_sound (hf : Acts func ok sel f) (hc : ok c.2.1 c.2.2)
    (hfresh : create = true ∨ f .fresh = .fresh) (h : t.Sound) :
    (visit create func (t, out) c).1.Sound := by
  have hbits := fun page => visit_bits t out page hf hc hfresh
  have hens : (t.ensureRegion create c.1).Sound := ensureRegion_sound h
  rcases visit_cases t create func out c with ⟨-, hv⟩ | ⟨m, hsome, hv⟩
  · rw [hv]
    exact hens
  · rw [hv] at hbits ⊢
    have hm := hens.placed c.1 m hsome
    constructor
    · intro r' m' hm'
      dsimp only at hm'
      by_cases hr : r' = c.1
      · subst hr
        rw [update_self] at hm'
        rw [← Option.some.inj hm', hf.cpuAddr]
        exact hm
      · rw [update_of_ne hr] at hm'
        exact hens.placed r' m' hm'
    · have hcount := hens.counted
      rw [untracked_eq hsome fun _ _ => rfl, ensureRegion_updates] at hcount
      have hcount := hf.counted m _ _ _ _ _ hc hm hcount
      rw [untracked_eq (t := t.ensureRegion create c.1) (r := c.1) ?_ fun page hpage => ?_]
      · exact hcount
      · exact update_self _ _ _
      · rw [(hbits page).2 fun hin => hpage hin.1, ensureRegion_bits]
    · intro page hpage
      rw [Finset.mem_union]
      by_cases hin : page / 1024 = c.1 ∧ sel c.2.1 c.2.2 (page % 1024)
      · rw [(hbits page).1 hin] at hpage
        rcases hf.caches m c.2.1 c.2.2 c.1 hc hm with hmono | hmem
        · exact .inl (h.cached page (hmono _ hpage))
        · exact .inr (hin.1 ▸ hmem)
      · rw [(hbits page).2 hin] at hpage
        exact .inl (h.cached page hpage)

/-! ## 3. Ranges of regions -/

/-- A page lies in a byte range, of which it may be a part only. -/
def InQuery (addr size page : Nat) : Prop :=
  0 < size ∧ addr / bytesPerPage ≤ page ∧ page < (addr + size + bytesPerPage - 1) / bytesPerPage

instance {addr size : Nat} : Decidable (InQuery addr size page) :=
  inferInstanceAs (Decidable (_ ∧ _ ∧ _))

/-- The part of a range that a function gets is inside its region. -/
def InRegion (offset size : Nat) : Prop := 0 < size ∧ offset + size ≤ higherPageSize

theorem iteratePagesLoop_spec (fuel rem index offset : Nat) (hfuel : rem ≤ fuel)
    (hoffset : offset < higherPageSize) :
    (∀ c ∈ iteratePagesLoop fuel rem index offset, index ≤ c.1 ∧ InRegion c.2.1 c.2.2) ∧
    (iteratePagesLoop fuel rem index offset).Pairwise (fun c d => c.1 < d.1) ∧
    (∀ page, InQuery (index * higherPageSize + offset) rem page ↔
      ∃ c ∈ iteratePagesLoop fuel rem index offset, page / 1024 = c.1 ∧ InChunk c.2.1 c.2.2 (page % 1024)) ∧
    ∀ r, (0 < rem ∧ index ≤ r ∧ r * higherPageSize < index * higherPageSize + offset + rem) ↔
      ∃ c ∈ iteratePagesLoop fuel rem index offset, r = c.1 := by
  induction fuel generalizing rem index offset with
  | zero =>
    obtain rfl : rem = 0 := Nat.le_zero.mp hfuel
    refine ⟨fun c hc => (nomatch hc), List.Pairwise.nil, fun page => ?_, fun r => ?_⟩
    · exact iff_of_false (fun h => absurd h.1 (Nat.lt_irrefl 0)) fun ⟨c, hc, _⟩ => nomatch hc
    · exact iff_of_false (fun h => absurd h.1 (Nat.lt_irrefl 0)) fun ⟨c, hc, _⟩ => nomatch hc
  | succ fuel ih =>
    rw [iteratePagesLoop]
    split
    · rename_i hzero
      subst hzero
      refine ⟨fun c hc => (nomatch hc), List.Pairwise.nil, fun page => ?_, fun r => ?_⟩
      · exact iff_of_false (fun h => absurd h.1 (Nat.lt_irrefl 0)) fun ⟨c, hc, _⟩ => nomatch hc
      · exact iff_of_false (fun h => absurd h.1 (Nat.lt_irrefl 0)) fun ⟨c, hc, _⟩ => nomatch hc
    · rename_i hne
      obtain ⟨n, hn⟩ : ∃ n, n = min (higherPageSize - offset) rem := ⟨_, rfl⟩
      have hregion : InRegion offset n := by
        unfold InRegion
        omega
      obtain ⟨h1, h2, h3, h4⟩ := ih (rem - n) (index + 1) 0
        (by unfold InRegion at hregion; omega) (by decide)
      rw [← hn]
      refine ⟨fun c hc => ?_, List.pairwise_cons.mpr ⟨fun c hc => ?_, h2⟩, fun page => ?_,
        fun r => ?_⟩
      · rcases List.mem_cons.mp hc with rfl | hc
        · exact ⟨Nat.le_refl _, hregion⟩
        · exact ⟨by have := (h1 c hc).1; omega, (h1 c hc).2⟩
      · exact (h1 c hc).1
      · have hsplit : InQuery (index * higherPageSize + offset) rem page ↔
            (page / 1024 = index ∧ InChunk offset n (page % 1024)) ∨
              InQuery ((index + 1) * higherPageSize + 0) (rem - n) page := by
          unfold InQuery InChunk bytesPerPage higherPageSize at *
          omega
        rw [hsplit, h3, List.exists_mem_cons_iff]
      · rw [List.exists_mem_cons_iff, ← h4]
        unfold higherPageSize at *
        omega

/-- The region of a page is touched by a byte range. -/
def InRegions (addr size page : Nat) : Prop :=
  0 < size ∧ addr / higherPageSize ≤ page / 1024 ∧ page / 1024 * higherPageSize < addr + size

instance {addr size : Nat} : Decidable (InRegions addr size page) :=
  inferInstanceAs (Decidable (_ ∧ _ ∧ _))

/-- **The parts of a range:** one a region, inside it, and together the range. -/
theorem iteratePages_spec (addr size : Nat) : (∀ c ∈ iteratePages addr size, InRegion c.2.1 c.2.2) ∧
    (iteratePages addr size).Pairwise (fun c d => c.1 < d.1) ∧
    (∀ page, InQuery addr size page ↔ ∃ c ∈ iteratePages addr size, page / 1024 = c.1 ∧
      InChunk c.2.1 c.2.2 (page % 1024)) ∧
    ∀ page, InRegions addr size page ↔ ∃ c ∈ iteratePages addr size, page / 1024 = c.1 := by
  have hindex : addr >>> higherPageBits = addr / higherPageSize := Nat.shiftRight_eq_div_pow _ _
  have hoffset : addr &&& (higherPageSize - 1) = addr % higherPageSize := by
    rw [higherPageSize, Nat.and_two_pow_sub_one_eq_mod]
  obtain ⟨h1, h2, h3, h4⟩ := iteratePagesLoop_spec size size (addr / higherPageSize)
    (addr % higherPageSize) (Nat.le_refl size) (Nat.mod_lt _ (by decide))
  rw [Nat.div_add_mod'] at h3 h4
  rw [iteratePages, hindex, hoffset]
  exact ⟨fun c hc => (h1 c hc).2, h2, h3, fun page => h4 (page / 1024)⟩

variable {calls : List (Nat × Nat × Nat)}

theorem foldl_visit_sound (hf : Acts func ok sel f)
    (hcalls : ∀ c ∈ calls, ok c.2.1 c.2.2) (hfresh : create = true ∨ f .fresh = .fresh)
    (h : t.Sound) : (calls.foldl (visit create func) (t, out)).1.Sound := by
  induction calls generalizing t out with
  | nil => exact h
  | cons c calls ih =>
    exact ih (fun d hd => hcalls d (List.mem_cons_of_mem _ hd))
      (visit_sound hf (hcalls c List.mem_cons_self) hfresh h)

/-- What a function over calls does to a page, which is in one region at most. -/
theorem foldl_visit_bits (t : MemoryTracker) (out : List (Nat × Nat)) (page : Nat) (hf : Acts func ok sel f)
    (hcalls : ∀ c ∈ calls, ok c.2.1 c.2.2) (hfresh : create = true ∨ f .fresh = .fresh)
    (hpair : calls.Pairwise fun c d => c.1 < d.1) :
    ((∃ c ∈ calls, page / 1024 = c.1 ∧ sel c.2.1 c.2.2 (page % 1024)) →
      (calls.foldl (visit create func) (t, out)).1.bits page = f (t.bits page)) ∧
    ((¬∃ c ∈ calls, page / 1024 = c.1 ∧ sel c.2.1 c.2.2 (page % 1024)) →
      (calls.foldl (visit create func) (t, out)).1.bits page = t.bits page) := by
  induction calls generalizing t out with
  | nil => exact ⟨fun ⟨c, hc, _⟩ => (nomatch hc), fun _ => rfl⟩
  | cons c calls ih =>
    obtain ⟨hfirst, hrest⟩ := List.pairwise_cons.mp hpair
    obtain ⟨hin, hout⟩ := @ih (visit create func (t, out) c).1 (visit create func (t, out) c).2
      (fun d hd => hcalls d (List.mem_cons_of_mem _ hd)) hrest
    obtain ⟨hsel, hnot⟩ := visit_bits t out page hf (hcalls c List.mem_cons_self) hfresh
    constructor
    · rintro ⟨d, hd, hd'⟩
      rcases List.mem_cons.mp hd with rfl | hd
      · refine (hout ?_).trans (hsel hd')
        rintro ⟨e, he, he', -⟩
        have := hfirst e he
        omega
      · refine (hin ⟨d, hd, hd'⟩).trans (congrArg f (hnot ?_))
        rintro ⟨hc, -⟩
        have := hfirst d hd
        omega
    · intro hnone
      refine (hout ?_).trans (hnot fun hc => hnone ⟨c, List.mem_cons_self, hc⟩)
      exact fun ⟨d, hd, hd'⟩ => hnone ⟨d, List.mem_cons_of_mem _ hd, hd'⟩

/-! ## 4. The operations on pages -/

variable {type : StateType} {enable clear : Bool} {addr size : Nat}

theorem changeStates_acts (htype : type ≠ .cachedCpu) :
    Acts (changeStates type enable) InRegion InChunk (PageBits.change type enable) where
  inside := fun _ _ _ _ hok _ hsel => by
    rw [changeStates, WordManager.changeRegionState_bits hok.1 hok.2, if_pos hsel]
  outside := fun _ _ _ _ hok _ hsel => by
    rw [changeStates, WordManager.changeRegionState_bits hok.1 hok.2, if_neg hsel]
  cpuAddr := fun _ _ _ => rfl
  counted := fun _ _ _ _ _ _ hok hm h =>
    WordManager.changeRegionState_counted hm hok.1 hok.2 h
  caches := fun _ _ _ _ _ _ => .inl fun b hb => by
    cases type with
    | cpu =>
      cases enable
      · exact (Bool.and_eq_true _ _ ▸ hb).1
      · cases hb
    | cachedCpu => exact absurd rfl htype
    | gpu => exact hb
    | preflushable => exact hb

theorem cacheWrite_acts : Acts cacheWrite InRegion InChunk (PageBits.change .cachedCpu true) where
  inside := fun _ _ _ _ hok _ hsel => by
    rw [cacheWrite, changeStates, WordManager.changeRegionState_bits hok.1 hok.2, if_pos hsel]
  outside := fun _ _ _ _ hok _ hsel => by
    rw [cacheWrite, changeStates, WordManager.changeRegionState_bits hok.1 hok.2, if_neg hsel]
  cpuAddr := fun _ _ _ => rfl
  counted := fun _ _ _ _ _ _ hok hm h =>
    WordManager.changeRegionState_counted hm hok.1 hok.2 h
  caches := fun m offset size r hok hm => .inr <| by
    have hindex : (m.cpuAddr + offset) >>> higherPageBits = r := by
      unfold InRegion higherPageSize at hok
      rw [hm, Nat.shiftRight_eq_div_pow, higherPageBits, bytesPerPage]
      omega
    rw [cacheWrite, hindex]
    exact Finset.mem_singleton_self r

theorem passRanges_clear_acts (htype : type ≠ .cachedCpu) :
    Acts (passRanges type true) InRegion InChunk (PageBits.clear type) where
  inside := fun _ _ _ _ hok _ hsel => by
    rw [passRanges, WordManager.forEachModifiedRange_bits hok.1 hok.2, if_pos hsel]
  outside := fun _ _ _ _ hok _ hsel => by
    rw [passRanges, WordManager.forEachModifiedRange_bits hok.1 hok.2, if_neg hsel]
  cpuAddr := fun _ _ _ => rfl
  counted := fun _ _ _ _ _ _ hok hm h =>
    WordManager.forEachModifiedRange_counted hm hok.1 hok.2 h
  caches := fun _ _ _ _ _ _ => .inl fun b hb => by
    cases type with
    | cpu => exact (Bool.and_eq_true _ _ ▸ hb).1
    | cachedCpu => exact absurd rfl htype
    | gpu => exact hb
    | preflushable => exact hb

theorem passRanges_keep_acts : Acts (passRanges type false) InRegion InChunk id where
  inside := fun _ _ _ _ _ _ _ => by
    rw [passRanges, WordManager.forEachModifiedRange_keeps]
    rfl
  outside := fun _ _ _ _ _ _ _ => by
    rw [passRanges, WordManager.forEachModifiedRange_keeps]
  cpuAddr := fun _ _ _ => rfl
  counted := fun _ _ _ _ _ _ hok hm h =>
    WordManager.forEachModifiedRange_counted hm hok.1 hok.2 h
  caches := fun _ _ _ _ _ _ => .inl fun _ hb => hb

theorem flushManager_acts : Acts flushManager (fun _ _ => True) (fun _ _ _ => True) PageBits.flush where
  inside := fun _ _ _ _ _ hp _ => WordManager.flushCachedWrites_bits hp
  outside := fun _ _ _ _ _ _ hsel => absurd trivial hsel
  cpuAddr := fun _ _ _ => rfl
  counted := fun _ _ _ _ _ _ _ hm h =>
    WordManager.flushCachedWrites_counted hm h
  caches := fun _ _ _ _ _ _ => .inl fun _ hb => nomatch hb

theorem overRegions_bits (hf : Acts func InRegion InChunk f) (hfresh : create = true ∨ f .fresh = .fresh) :
    (t.overRegions create func addr size).1.bits page =
      if InQuery addr size page then f (t.bits page) else t.bits page := by
  obtain ⟨hcalls, hpair, hquery, -⟩ := iteratePages_spec addr size
  obtain ⟨hin, hout⟩ := foldl_visit_bits t [] page hf hcalls hfresh hpair
  split
  · rename_i h
    exact hin ((hquery page).mp h)
  · rename_i h
    exact hout fun hc => h ((hquery page).mpr hc)

theorem overRegions_spec (addr size : Nat) (hf : Acts func InRegion InChunk f)
    (hfresh : create = true ∨ f .fresh = .fresh) (h : t.Sound) :
    (t.overRegions create func addr size).1.Sound ∧
      ∀ page, (t.overRegions create func addr size).1.bits page =
        if InQuery addr size page then f (t.bits page) else t.bits page :=
  ⟨foldl_visit_sound hf (iteratePages_spec addr size).1 hfresh h,
    fun _ => overRegions_bits hf hfresh⟩

theorem flush_fresh : PageBits.flush .fresh = .fresh := rfl

theorem flush_flush {b : PageBits} : b.flush.flush = b.flush := by
  simp [PageBits.flush]

theorem flush_of_not_cached {b : PageBits} (h : b.cachedCpu = false) : b.flush = b := by
  cases b
  simp_all [PageBits.flush]

theorem flushCachedWritesIn_bits : (t.flushCachedWritesIn addr size).bits page =
    if InRegions addr size page then (t.bits page).flush else t.bits page := by
  obtain ⟨-, hpair, -, hregions⟩ := iteratePages_spec addr size
  obtain ⟨hin, hout⟩ := foldl_visit_bits t [] page flushManager_acts
    (fun c _ => trivial) (Or.inr flush_fresh : false = true ∨ _) hpair
  split
  · rename_i h
    obtain ⟨c, hc, hpage⟩ := (hregions page).mp h
    exact hin ⟨c, hc, hpage, trivial⟩
  · rename_i h
    exact hout fun ⟨c, hc, hpage, _⟩ => h ((hregions page).mpr ⟨c, hc, hpage⟩)

theorem flushCachedWritesIn_sound (h : t.Sound) : (t.flushCachedWritesIn addr size).Sound :=
  foldl_visit_sound flushManager_acts (fun _ _ => trivial) (.inr flush_fresh) h

theorem foldl_flush (ids : List Nat) (h : t.Sound) :
    (ids.foldl (fun t id => (visit false flushManager (t, []) (id, 0, 0)).1) t).Sound ∧
    ∀ page, (ids.foldl (fun t id => (visit false flushManager (t, []) (id, 0, 0)).1) t).bits page =
      if page / 1024 ∈ ids then (t.bits page).flush else t.bits page := by
  induction ids generalizing t with
  | nil => exact ⟨h, fun page => (if_neg List.not_mem_nil).symm⟩
  | cons id ids ih =>
    have hstep : (visit false flushManager (t, []) (id, 0, 0)).1.Sound :=
      visit_sound flushManager_acts trivial (.inr flush_fresh) h
    obtain ⟨hsound, hbits⟩ := ih hstep
    refine ⟨hsound, fun page => ?_⟩
    obtain ⟨hin, hout⟩ := visit_bits t [] page (c := (id, 0, 0)) flushManager_acts trivial
      (Or.inr flush_fresh : false = true ∨ _)
    rw [List.foldl_cons, hbits]
    by_cases hid : page / 1024 = id
    · rw [hin ⟨hid, trivial⟩, flush_flush, ite_self, if_pos (List.mem_cons.mpr (.inl hid))]
    · have hmem : page / 1024 ∈ id :: ids ↔ page / 1024 ∈ ids := by
        rw [List.mem_cons]
        exact ⟨fun h => h.resolve_left hid, .inr⟩
      rw [hout fun h => hid h.1]
      simp only [hmem]

/-- **`FlushCachedWrites`** flushes every page: only regions of the set have cached writes. -/
theorem flushCachedWrites_bits (order : SetOrder) (h : t.Sound) :
    (t.flushCachedWrites order).bits page = (t.bits page).flush := by
  obtain ⟨-, hbits⟩ := foldl_flush (order.toList t.cachedPages) h
  have heq : (t.flushCachedWrites order).bits page = _ := hbits page
  rw [heq]
  split
  · rfl
  · rename_i hnot
    refine (flush_of_not_cached (Bool.eq_false_iff.mpr fun hcached => hnot ?_)).symm
    exact (order.mem_toList _ _).mpr (h.cached page hcached)

theorem flushCachedWrites_sound (order : SetOrder) (h : t.Sound) : (t.flushCachedWrites order).Sound := by
  obtain ⟨hsound, -⟩ := foldl_flush (order.toList t.cachedPages) h
  refine ⟨hsound.placed, hsound.counted, fun page hpage => ?_⟩
  rw [flushCachedWrites_bits order h] at hpage
  cases hpage

theorem anyRegion_keeps {func : WordManager → Nat → Nat → Bool}
    (h : t.Sound) : (anyRegion create func calls t).1.Sound ∧
      ∀ page, (anyRegion create func calls t).1.bits page = t.bits page := by
  induction calls generalizing t with
  | nil => exact ⟨h, fun _ => rfl⟩
  | cons c calls ih =>
    have hens : (t.ensureRegion create c.1).Sound := ensureRegion_sound h
    obtain ⟨hsound, hbits⟩ := ih hens
    have hrest : ∀ page, (anyRegion create func calls (t.ensureRegion create c.1)).1.bits page =
        t.bits page := fun page => (hbits page).trans (ensureRegion_bits create c.1)
    rw [anyRegion]
    split
    · exact ⟨hsound, hrest⟩
    · split
      · exact ⟨hens, fun _ => ensureRegion_bits create c.1⟩
      · exact ⟨hsound, hrest⟩

variable {hull : Nat × Nat}

theorem pairRound_fst {func : WordManager → Nat → Nat → Nat × Nat} :
    (pairRound create func (t, hull) c).1 = t.ensureRegion create c.1 := by
  rw [pairRound]
  dsimp only
  split
  · rfl
  · split <;> rfl

theorem iteratePairs_keeps {func : WordManager → Nat → Nat → Nat × Nat} (h : t.Sound) :
    (t.iteratePairs create func addr size).1.Sound ∧
      ∀ page, (t.iteratePairs create func addr size).1.bits page = t.bits page := by
  refine List.foldlRecOn (motive := fun s : MemoryTracker × (Nat × Nat) =>
    s.1.Sound ∧ ∀ page, s.1.bits page = t.bits page) _ _ ⟨h, fun _ => rfl⟩ fun s hs c _ => ?_
  rw [pairRound_fst]
  exact ⟨ensureRegion_sound hs.1, fun page => (ensureRegion_bits create c.1).trans (hs.2 page)⟩

end MemoryTracker

/-! ## 5. Runs -/

/-- The operations. -/
inductive TrackerOp where
  | markRegionAsCpuModified (addr size : Nat)
  | unmarkRegionAsCpuModified (addr size : Nat)
  | markRegionAsGpuModified (addr size : Nat)
  | unmarkRegionAsGpuModified (addr size : Nat)
  | markRegionAsPreflushable (addr size : Nat)
  | unmarkRegionAsPreflushable (addr size : Nat)
  | cachedCpuWrite (addr size : Nat)
  | flushCachedWritesIn (addr size : Nat)
  | flushCachedWrites
  | forEachUploadRange (addr size : Nat)
  | forEachDownloadRange (addr size : Nat) (clear : Bool)
  | isRegionCpuModified (addr size : Nat)
  | isRegionGpuModified (addr size : Nat)
  | modifiedCpuRegion (addr size : Nat)
  | modifiedGpuRegion (addr size : Nat)
  deriving DecidableEq

namespace TrackerOp

open MemoryTracker (InQuery InRegions)

def apply (order : SetOrder) : TrackerOp → MemoryTracker → MemoryTracker
  | markRegionAsCpuModified addr size, t => t.markRegionAsCpuModified addr size
  | unmarkRegionAsCpuModified addr size, t => t.unmarkRegionAsCpuModified addr size
  | markRegionAsGpuModified addr size, t => t.markRegionAsGpuModified addr size
  | unmarkRegionAsGpuModified addr size, t => t.unmarkRegionAsGpuModified addr size
  | markRegionAsPreflushable addr size, t => t.markRegionAsPreflushable addr size
  | unmarkRegionAsPreflushable addr size, t => t.unmarkRegionAsPreflushable addr size
  | cachedCpuWrite addr size, t => t.cachedCpuWrite addr size
  | flushCachedWritesIn addr size, t => t.flushCachedWritesIn addr size
  | flushCachedWrites, t => t.flushCachedWrites order
  | forEachUploadRange addr size, t => (t.forEachUploadRange addr size).1
  | forEachDownloadRange addr size clear, t => (t.forEachDownloadRange addr size clear).1
  | isRegionCpuModified addr size, t => (t.isRegionCpuModified addr size).1
  | isRegionGpuModified addr size, t => (t.isRegionGpuModified addr size).1
  | modifiedCpuRegion addr size, t => (t.modifiedCpuRegion addr size).1
  | modifiedGpuRegion addr size, t => (t.modifiedGpuRegion addr size).1

/-- What an operation is to a page: the modified sets page by page. -/
def onPage (page : Nat) (b : PageBits) : TrackerOp → PageBits
  | markRegionAsCpuModified addr size => if InQuery addr size page then b.change .cpu true else b
  | unmarkRegionAsCpuModified addr size => if InQuery addr size page then b.change .cpu false else b
  | markRegionAsGpuModified addr size => if InQuery addr size page then b.change .gpu true else b
  | unmarkRegionAsGpuModified addr size => if InQuery addr size page then b.change .gpu false else b
  | markRegionAsPreflushable addr size =>
    if InQuery addr size page then b.change .preflushable true else b
  | unmarkRegionAsPreflushable addr size =>
    if InQuery addr size page then b.change .preflushable false else b
  | cachedCpuWrite addr size => if InQuery addr size page then b.change .cachedCpu true else b
  | flushCachedWritesIn addr size => if InRegions addr size page then b.flush else b
  | flushCachedWrites => b.flush
  | forEachUploadRange addr size => if InQuery addr size page then b.clear .cpu else b
  | forEachDownloadRange addr size clear =>
    if InQuery addr size page ∧ clear then b.clear .gpu else b
  | isRegionCpuModified _ _ => b
  | isRegionGpuModified _ _ => b
  | modifiedCpuRegion _ _ => b
  | modifiedGpuRegion _ _ => b

variable {t : MemoryTracker} {op : TrackerOp} {page : Nat}

/-- **Each operation is what it is to the pages,** and keeps what holds of every tracker. -/
theorem apply_spec (order : SetOrder) (h : t.Sound) : (op.apply order t).Sound ∧
    ∀ page, (op.apply order t).bits page = op.onPage page (t.bits page) := by
  have hgpu : StateType.gpu ≠ .cachedCpu := by decide
  have hcpu : StateType.cpu ≠ .cachedCpu := by decide
  have hpre : StateType.preflushable ≠ .cachedCpu := by decide
  cases op with
  | markRegionAsCpuModified addr size =>
    exact MemoryTracker.overRegions_spec addr size (MemoryTracker.changeStates_acts hcpu) (.inl rfl) h
  | unmarkRegionAsCpuModified addr size =>
    exact MemoryTracker.overRegions_spec addr size (MemoryTracker.changeStates_acts hcpu) (.inl rfl) h
  | markRegionAsGpuModified addr size =>
    exact MemoryTracker.overRegions_spec addr size (MemoryTracker.changeStates_acts hgpu) (.inl rfl) h
  | unmarkRegionAsGpuModified addr size =>
    exact MemoryTracker.overRegions_spec addr size (MemoryTracker.changeStates_acts hgpu) (.inl rfl) h
  | markRegionAsPreflushable addr size =>
    exact MemoryTracker.overRegions_spec addr size (MemoryTracker.changeStates_acts hpre) (.inl rfl) h
  | unmarkRegionAsPreflushable addr size =>
    exact MemoryTracker.overRegions_spec addr size (MemoryTracker.changeStates_acts hpre) (.inl rfl) h
  | cachedCpuWrite addr size =>
    exact MemoryTracker.overRegions_spec addr size MemoryTracker.cacheWrite_acts (.inl rfl) h
  | flushCachedWritesIn addr size =>
    exact ⟨MemoryTracker.flushCachedWritesIn_sound h,
      fun page => MemoryTracker.flushCachedWritesIn_bits⟩
  | flushCachedWrites =>
    exact ⟨MemoryTracker.flushCachedWrites_sound order h,
      fun page => MemoryTracker.flushCachedWrites_bits order h⟩
  | forEachUploadRange addr size =>
    exact MemoryTracker.overRegions_spec addr size (MemoryTracker.passRanges_clear_acts hcpu) (.inl rfl) h
  | forEachDownloadRange addr size clear =>
    cases clear with
    | false =>
      obtain ⟨hsound, hbits⟩ := MemoryTracker.overRegions_spec addr size
        MemoryTracker.passRanges_keep_acts (.inr rfl) h
      refine ⟨hsound, fun page => (hbits page).trans ?_⟩
      exact (ite_self _).trans (if_neg fun h => Bool.false_ne_true h.2).symm
    | true =>
      obtain ⟨hsound, hbits⟩ := MemoryTracker.overRegions_spec addr size
        (MemoryTracker.passRanges_clear_acts hgpu) (.inr rfl) h
      refine ⟨hsound, fun page => (hbits page).trans ?_⟩
      rw [onPage]
      simp only [and_true]
  | isRegionCpuModified addr size => exact MemoryTracker.anyRegion_keeps h
  | isRegionGpuModified addr size => exact MemoryTracker.anyRegion_keeps h
  | modifiedCpuRegion addr size => exact MemoryTracker.iteratePairs_keeps h
  | modifiedGpuRegion addr size => exact MemoryTracker.iteratePairs_keeps h

/-- The tracker after operations, from a new one. -/
def run (order : SetOrder) (ops : List TrackerOp) : MemoryTracker :=
  ops.foldl (fun t op => op.apply order t) .init

/-- A page after operations, by itself. -/
def runPage (ops : List TrackerOp) (page : Nat) : PageBits :=
  ops.foldl (fun b op => op.onPage page b) .fresh

theorem foldl_apply_spec (order : SetOrder) (ops : List TrackerOp) (h : t.Sound) :
    (ops.foldl (fun t op => op.apply order t) t).Sound ∧
      ∀ page, (ops.foldl (fun t op => op.apply order t) t).bits page =
        ops.foldl (fun b op => op.onPage page b) (t.bits page) := by
  induction ops generalizing t with
  | nil => exact ⟨h, fun _ => rfl⟩
  | cons op ops ih =>
    obtain ⟨hsound, hbits⟩ := @TrackerOp.apply_spec _ op order h
    obtain ⟨hsound', hbits'⟩ := ih hsound
    refine ⟨hsound', fun page => ?_⟩
    rw [List.foldl_cons, hbits', hbits, List.foldl_cons]

theorem run_sound (order : SetOrder) (ops : List TrackerOp) : (run order ops).Sound :=
  (foldl_apply_spec order ops MemoryTracker.init_sound).1

/-- **The tracker refines the pages:** after every run, the bits of a page are what the operations
    make of it alone. -/
theorem run_bits (order : SetOrder) (ops : List TrackerOp) (page : Nat) :
    (run order ops).bits page = runPage ops page :=
  (foldl_apply_spec order ops MemoryTracker.init_sound).2 page

/-- **Page counting.** After every run of operations, the net of the deltas for a page is 0 or 1, it
    is 1 exactly if the page's region was created and its untracked bit is clear, and it was 0 or 1
    after every single call of `UpdatePagesCachedCount` before. -/
theorem run_page_counts (order : SetOrder) (ops : List TrackerOp) (page : Nat) :
    (netCount (run order ops).updates page = 1 ↔ ∃ m, (run order ops).topTier (page / 1024) = some m ∧
      (m.words (page % 1024 / 64)).untracked.getLsbD (page % 64) = false) ∧
    ∀ before, before <+: (run order ops).updates → netCount before page = 0 ∨ netCount before page = 1 := by
  obtain ⟨hnet, hbefore⟩ := (run_sound order ops).counted page
  refine ⟨?_, hbefore⟩
  have hnet : netCount (run order ops).updates page =
      if ((run order ops).bits page).untracked then 0 else 1 := hnet
  rw [hnet]
  cases htop : (run order ops).topTier (page / 1024) with
  | none =>
    have hfresh : (run order ops).bits page = .fresh := by rw [MemoryTracker.bits, htop]
    rw [hfresh]
    exact iff_of_false (by decide) fun ⟨_, h, _⟩ => nomatch h
  | some m =>
    have hmod : page % 1024 % 64 = page % 64 := Nat.mod_mod_of_dvd _ (by decide)
    have hbit : (m.bits (page % 1024)).untracked =
        (m.words (page % 1024 / 64)).untracked.getLsbD (page % 64) := hmod ▸ rfl
    rw [MemoryTracker.bits_of_some htop, hbit]
    constructor
    · intro h
      refine ⟨m, rfl, Bool.eq_false_iff.mpr fun htrue => ?_⟩
      rw [htrue] at h
      cases h
    · rintro ⟨m', hm', h⟩
      rw [Option.some.inj hm', h]
      rfl

end TrackerOp

/-! ## 6. Queries -/

namespace MemoryTracker

variable {t : MemoryTracker} {create clear : Bool} {c : Nat × Nat × Nat} {page addr size : Nat}
  {type : StateType} {calls : List (Nat × Nat × Nat)} {out : List (Nat × Nat)}

/-- The page is in the part of a range, and modified. -/
def InPart (t : MemoryTracker) (type : StateType) (c : Nat × Nat × Nat) (page : Nat) : Prop :=
  page / 1024 = c.1 ∧ InChunk c.2.1 c.2.2 (page % 1024) ∧ (t.bits page).modified type = true

theorem lt_of_inChunk {offset size p : Nat} (hc : InRegion offset size)
    (h : InChunk offset size p) : p < 1024 := by
  unfold InRegion higherPageSize at hc
  unfold InChunk bytesPerPage at h
  omega

theorem inPart_iff {m : WordManager} {p : Nat}
    (hm : (t.ensureRegion create c.1).topTier c.1 = some m) (hp : p < 1024) :
    t.InPart type c (c.1 * 1024 + p) ↔ InChunk c.2.1 c.2.2 p ∧ (m.bits p).modified type = true := by
  have hdiv : (c.1 * 1024 + p) / 1024 = c.1 := by omega
  have hmod : (c.1 * 1024 + p) % 1024 = p := by omega
  have hbits : t.bits (c.1 * 1024 + p) = m.bits p := by
    rw [← ensureRegion_bits create c.1, bits, hdiv, hm, hmod]
  rw [InPart, hdiv, hmod, hbits]
  exact ⟨fun h => h.2, fun h => ⟨rfl, h⟩⟩

theorem not_inPart_of_none (hnone : (t.ensureRegion create c.1).topTier c.1 = none)
    (hfresh : create = true ∨ PageBits.fresh.modified type = false) :
    ¬t.InPart type c page := by
  rintro ⟨hpage, -, hmod⟩
  have hbits : t.bits page = .fresh := by
    rw [← ensureRegion_bits create c.1, bits, hpage, hnone]
  have hcreate := create_false_of_none hnone
  rw [hbits, hfresh.resolve_left (by rw [hcreate]; exact Bool.false_ne_true)] at hmod
  cases hmod

/-- Ranges of bytes from runs of pages. -/
def toBytes (rs : List (Nat × Nat)) : List (Nat × Nat) :=
  rs.map fun r => (r.1 * bytesPerPage, r.2 * bytesPerPage)

theorem toBytes_append {rs rs' : List (Nat × Nat)} :
    toBytes (rs ++ rs') = toBytes rs ++ toBytes rs' := List.map_append

/-- The ranges of one part. -/
theorem visit_ranges (clear : Bool) (out : List (Nat × Nat)) (ht : t.Placed) (hc : InRegion c.2.1 c.2.2)
    (hfresh : create = true ∨ PageBits.fresh.modified type = false) :
    ∃ rs, (visit create (passRanges type clear) (t, out) c).2 = out ++ toBytes rs ∧
      OrderedRuns rs ∧ (∀ r ∈ rs, 0 < r.2) ∧ ∀ page, InRuns rs page ↔ t.InPart type c page := by
  rcases visit_cases t create (passRanges type clear) out c with ⟨hnone, hv⟩ | ⟨m, hsome, hv⟩
  · refine ⟨[], by rw [hv, toBytes, List.map_nil, List.append_nil], List.Pairwise.nil,
      fun r hr => (nomatch hr), fun page => ?_⟩
    exact iff_of_false inRuns_nil (not_inPart_of_none hnone hfresh)
  · obtain ⟨rs, hrs, hordered, hpos, hruns⟩ :=
      m.forEachModifiedRange_ranges type clear hc.1 hc.2
    have hm := ensureRegion_placed ht c.1 m hsome
    refine ⟨rs.map fun r => (c.1 * 1024 + r.1, r.2), ?_, ?_, ?_, fun page => ?_⟩
    · rw [hv, passRanges, hrs, hm, toBytes, List.map_map]
      refine congrArg (out ++ ·) (List.map_congr_left fun r _ => ?_)
      dsimp only [Function.comp]
      rw [← Nat.add_mul]
    · refine List.pairwise_map.mpr (hordered.imp fun h => ?_)
      omega
    · intro r hr
      obtain ⟨r', hr', rfl⟩ := List.mem_map.mp hr
      exact hpos r' hr'
    · constructor
      · rintro ⟨s, hs, hin⟩
        obtain ⟨r, hr, rfl⟩ := List.mem_map.mp hs
        have hchunk := (hruns (page - c.1 * 1024)).mp ⟨r, hr, by omega, by omega⟩
        have hpart := (inPart_iff hsome (lt_of_inChunk hc hchunk.1)).mpr hchunk
        rwa [Nat.add_sub_cancel' (by omega)] at hpart
      · intro hpart
        have hsplit : page = c.1 * 1024 + page % 1024 := by
          have := hpart.1
          omega
        rw [hsplit] at hpart
        have hchunk := (inPart_iff hsome (Nat.mod_lt _ (by decide))).mp hpart
        obtain ⟨r, hr, hin⟩ := (hruns _).mpr hchunk
        refine ⟨_, List.mem_map.mpr ⟨r, hr, rfl⟩, ?_⟩
        omega

theorem inPart_visit {d : Nat × Nat × Nat} (hc : InRegion c.2.1 c.2.2) (hcd : c.1 < d.1)
    {func : WordManager → Nat → Nat → Effect} {f : PageBits → PageBits}
    (hf : Acts func InRegion InChunk f) (hfresh : create = true ∨ f .fresh = .fresh) :
    (visit create func (t, out) c).1.InPart type d page ↔ t.InPart type d page := by
  refine and_congr_right fun hpage => ?_
  rw [(visit_bits t out page hf hc hfresh).2 fun h => by omega]

/-- **The ranges of an upload or a download** are apart and hold the modified pages. -/
theorem foldl_visit_ranges {f : PageBits → PageBits} (ht : t.Sound)
    (hf : Acts (passRanges type clear) InRegion InChunk f)
    (hfresh : create = true ∨ f .fresh = .fresh)
    (hmodified : create = true ∨ PageBits.fresh.modified type = false)
    (hcalls : ∀ c ∈ calls, InRegion c.2.1 c.2.2) (hpair : calls.Pairwise fun c d => c.1 < d.1) :
    ∃ rs, (calls.foldl (visit create (passRanges type clear)) (t, out)).2 = out ++ toBytes rs ∧
      OrderedRuns rs ∧ (∀ r ∈ rs, 0 < r.2) ∧
      ∀ page, InRuns rs page ↔ ∃ c ∈ calls, t.InPart type c page := by
  induction calls generalizing t out with
  | nil =>
    refine ⟨[], (List.append_nil out).symm, List.Pairwise.nil, fun r hr => (nomatch hr), fun page => ?_⟩
    exact iff_of_false inRuns_nil fun ⟨_, hc, _⟩ => nomatch hc
  | cons c calls ih =>
    obtain ⟨hfirst, hrest⟩ := List.pairwise_cons.mp hpair
    have hc := hcalls c List.mem_cons_self
    obtain ⟨rs, hrs, hordered, hpos, hruns⟩ :=
      visit_ranges clear out ht.placed hc hmodified
    obtain ⟨rs', hrs', hordered', hpos', hruns'⟩ :=
      @ih (visit create (passRanges type clear) (t, out) c).1
        (visit create (passRanges type clear) (t, out) c).2
        (visit_sound hf hc hfresh ht) (fun d hd => hcalls d (List.mem_cons_of_mem _ hd)) hrest
    have hparts : ∀ page, InRuns rs' page ↔ ∃ d ∈ calls, t.InPart type d page := fun page => by
      rw [hruns']
      exact exists_congr fun d => and_congr_right fun hd => inPart_visit hc (hfirst d hd) hf hfresh
    refine ⟨rs ++ rs', ?_, List.pairwise_append.mpr ⟨hordered, hordered', fun r hr s hs => ?_⟩,
      fun r hr => ?_, fun page => ?_⟩
    · rw [List.foldl_cons, hrs', hrs, toBytes_append, List.append_assoc]
    · -- the last page of the first run and the first of the second are in different regions
      have hr0 := hpos r hr
      have hs0 := hpos' s hs
      have hlast := ((hruns (r.1 + r.2 - 1)).mp ⟨r, hr, by omega, by omega⟩).1
      obtain ⟨d, hd, hstart⟩ := (hparts s.1).mp ⟨s, hs, by omega, by omega⟩
      have := hstart.1
      have := hfirst d hd
      omega
    · exact (List.mem_append.mp hr).elim (hpos r) (hpos' r)
    · rw [inRuns_append, hruns, hparts, List.exists_mem_cons_iff]

theorem inPart_ensureRegion {r : Nat} {d : Nat × Nat × Nat} :
    (t.ensureRegion create r).InPart type d page ↔ t.InPart type d page := by
  rw [InPart, InPart, ensureRegion_bits]

/-- A query finds a modified page if there is one. -/
theorem anyRegion_iff (hfresh : create = true ∨ PageBits.fresh.modified type = false)
    (hcalls : ∀ c ∈ calls, InRegion c.2.1 c.2.2) :
    (anyRegion create (fun manager offset size => manager.isRegionModified type offset size)
      calls t).2 = true ↔ ∃ page, ∃ c ∈ calls, t.InPart type c page := by
  induction calls generalizing t with
  | nil => exact iff_of_false Bool.false_ne_true fun ⟨_, _, hc, _⟩ => nomatch hc
  | cons c calls ih =>
    have hc := hcalls c List.mem_cons_self
    have hrest := @ih (t.ensureRegion create c.1) fun d hd => hcalls d (List.mem_cons_of_mem _ hd)
    simp only [inPart_ensureRegion] at hrest
    simp only [List.exists_mem_cons_iff, exists_or]
    rw [anyRegion]
    cases hm : (t.ensureRegion create c.1).topTier c.1 with
    | none =>
      rw [hrest]
      exact ⟨.inr, fun h => h.resolve_left fun ⟨page, hpart⟩ =>
        not_inPart_of_none hm hfresh hpart⟩
    | some m =>
      have hiff : m.isRegionModified type c.2.1 c.2.2 = true ↔ ∃ page, t.InPart type c page := by
        rw [WordManager.isRegionModified_iff hc.1 hc.2]
        constructor
        · rintro ⟨p, hp⟩
          exact ⟨_, (inPart_iff hm (lt_of_inChunk hc hp.1)).mpr hp⟩
        · rintro ⟨page, hpart⟩
          have hsplit : page = c.1 * 1024 + page % 1024 := by
            have := hpart.1
            omega
          rw [hsplit] at hpart
          exact ⟨_, (inPart_iff hm (Nat.mod_lt _ (by decide))).mp hpart⟩
      dsimp only
      split
      · rename_i hyes
        exact iff_of_true rfl (.inl (hiff.mp hyes))
      · rename_i hno
        rw [hrest]
        exact ⟨.inr, fun h => h.resolve_left fun hpart => hno (hiff.mpr hpart)⟩

/-- One round of `IteratePairs` extends the hull by the modified pages of its part. -/
theorem pairRound_hull {S : Nat → Prop} (hc : InRegion c.2.1 c.2.2)
    (hlt : c.1 < 4096) (hfresh : create = true ∨ PageBits.fresh.modified type = false)
    (h : HullOf (2 ^ 64 - 1, 0) S bytesPerPage hull) :
    HullOf (2 ^ 64 - 1, 0) (fun page => S page ∨ t.InPart type c page) bytesPerPage
      (pairRound create (fun manager offset size => manager.modifiedRegion type offset size)
        (t, hull) c).2 := by
  rw [pairRound]
  cases hm : (t.ensureRegion create c.1).topTier c.1 with
  | none =>
    refine h.congr fun page => ⟨.inl, fun h => h.resolve_right ?_⟩
    exact not_inPart_of_none hm hfresh
  | some m =>
    dsimp only
    rcases m.modifiedRegion_hull type hc.1 hc.2 with ⟨hempty, hnone⟩ | ⟨lo, hi, hlo, hhi, hall, hpair⟩
    · rw [hempty]
      refine h.congr fun page => ⟨.inl, fun h => h.resolve_right fun hpart => ?_⟩
      have hsplit : page = c.1 * 1024 + page % 1024 := by
        have := hpart.1
        omega
      rw [hsplit] at hpart
      exact hnone _ ((inPart_iff hm (Nat.mod_lt _ (by decide))).mp hpart)
    · have hlo' := lt_of_inChunk hc hlo.1
      have hunion := h.union (T := t.InPart type c) ((inPart_iff hm hlo').mpr hlo)
        ((inPart_iff hm (lt_of_inChunk hc hhi.1)).mpr hhi) (fun page hpart => ?_)
        (by unfold bytesPerPage; omega)
      · have hbase : c.1 <<< higherPageBits = c.1 * 1024 * bytesPerPage := by
          rw [Nat.shiftLeft_eq, Nat.mul_assoc]
          rfl
        have hne : lo * bytesPerPage ≠ 0 ∨ (hi + 1) * bytesPerPage ≠ 0 := by
          unfold bytesPerPage
          omega
        have hends : (min (lo * bytesPerPage + c.1 * 1024 * bytesPerPage) hull.1,
            max ((hi + 1) * bytesPerPage + c.1 * 1024 * bytesPerPage) hull.2) =
            (min hull.1 ((c.1 * 1024 + lo) * bytesPerPage),
              max hull.2 ((c.1 * 1024 + hi + 1) * bytesPerPage)) := by
          unfold bytesPerPage
          refine Prod.ext ?_ ?_
          · dsimp only
            omega
          · dsimp only
            omega
        rw [hpair, if_pos hne, hbase]
        rw [hends]
        exact hunion
      · have hsplit : page = c.1 * 1024 + page % 1024 := by
          have := hpart.1
          omega
        rw [hsplit] at hpart
        have := hall _ ((inPart_iff hm (Nat.mod_lt _ (by decide))).mp hpart)
        omega

theorem foldl_pairRound_hull {S : Nat → Prop} (hcalls : ∀ c ∈ calls, InRegion c.2.1 c.2.2 ∧ c.1 < 4096)
    (hfresh : create = true ∨ PageBits.fresh.modified type = false)
    (h : HullOf (2 ^ 64 - 1, 0) S bytesPerPage hull) :
    HullOf (2 ^ 64 - 1, 0) (fun page => S page ∨ ∃ c ∈ calls, t.InPart type c page) bytesPerPage
      (calls.foldl (pairRound create fun manager offset size =>
        manager.modifiedRegion type offset size) (t, hull)).2 := by
  induction calls generalizing t hull S with
  | nil => exact h.congr fun page => ⟨.inl, fun h => h.resolve_right fun ⟨_, hc, _⟩ => nomatch hc⟩
  | cons c calls ih =>
    obtain ⟨hc, hlt⟩ := hcalls c List.mem_cons_self
    have hround := pairRound_hull (t := t) hc hlt hfresh h
    have hrest := @ih (t.ensureRegion create c.1) _ _
      (fun d hd => hcalls d (List.mem_cons_of_mem _ hd)) hround
    have hpair : pairRound create (fun manager offset size =>
        manager.modifiedRegion type offset size) (t, hull) c = (t.ensureRegion create c.1,
        (pairRound create (fun manager offset size =>
          manager.modifiedRegion type offset size) (t, hull) c).2) :=
      Prod.ext pairRound_fst rfl
    simp only [inPart_ensureRegion] at hrest
    rw [List.foldl_cons, hpair]
    refine hrest.congr fun page => ?_
    rw [List.exists_mem_cons_iff, or_assoc]

theorem inQuery_iff : (InQuery addr size page ∧ (t.bits page).modified type = true) ↔
    ∃ c ∈ iteratePages addr size, t.InPart type c page := by
  rw [(iteratePages_spec addr size).2.2.1]
  constructor
  · rintro ⟨⟨c, hc, hpage, hin⟩, hmod⟩
    exact ⟨c, hc, hpage, hin, hmod⟩
  · rintro ⟨c, hc, hpage, hin, hmod⟩
    exact ⟨⟨c, hc, hpage, hin⟩, hmod⟩

/-- The page is modified by the CPU. -/
def CpuModified (t : MemoryTracker) (page : Nat) : Prop := (t.bits page).cpu = true

/-- **`ForEachUploadRange`:** page-aligned ranges in order, inside the range rounded to pages, that
    hold its modified pages. -/
theorem forEachUploadRange_ranges (addr size : Nat) (h : t.Sound) :
    (∀ call ∈ (t.forEachUploadRange addr size).2, bytesPerPage ∣ call.1 ∧ bytesPerPage ∣ call.2 ∧
      addr / bytesPerPage * bytesPerPage ≤ call.1 ∧
      call.1 + call.2 ≤ (addr + size + bytesPerPage - 1) / bytesPerPage * bytesPerPage) ∧
    (t.forEachUploadRange addr size).2.Pairwise (fun c d => c.1 + c.2 ≤ d.1) ∧
    ∀ page, (∃ call ∈ (t.forEachUploadRange addr size).2,
      call.1 ≤ page * bytesPerPage ∧ page * bytesPerPage < call.1 + call.2) ↔
        InQuery addr size page ∧ t.CpuModified page := by
  obtain ⟨hcalls, hpair, -, -⟩ := iteratePages_spec addr size
  obtain ⟨rs, hrs, hordered, hpos, hruns⟩ := @MemoryTracker.foldl_visit_ranges _ true _ _ _
      [] _ h (@passRanges_clear_acts .cpu (by decide)) (.inl rfl) (.inl rfl) hcalls
      hpair
  have hranges : (t.forEachUploadRange addr size).2 = toBytes rs := hrs
  have hquery : ∀ page, InRuns rs page ↔ InQuery addr size page ∧ t.CpuModified page :=
    fun page => (hruns page).trans inQuery_iff.symm
  rw [hranges, toBytes]
  refine ⟨fun call hcall => ?_, List.pairwise_map.mpr (hordered.imp fun h => ?_), fun page => ?_⟩
  · obtain ⟨r, hr, rfl⟩ := List.mem_map.mp hcall
    have hr0 := hpos r hr
    obtain ⟨⟨-, hfirst, -⟩, -⟩ := (hquery r.1).mp ⟨r, hr, by omega, by omega⟩
    obtain ⟨⟨-, -, hlast⟩, -⟩ := (hquery (r.1 + r.2 - 1)).mp ⟨r, hr, by omega, by omega⟩
    refine ⟨Nat.dvd_mul_left _ _, Nat.dvd_mul_left _ _, Nat.mul_le_mul_right _ hfirst, ?_⟩
    rw [← Nat.add_mul]
    exact Nat.mul_le_mul_right _ (by omega)
  · dsimp only
    rw [← Nat.add_mul]
    exact Nat.mul_le_mul_right _ h
  · rw [← hquery]
    constructor
    · rintro ⟨call, hcall, hin⟩
      obtain ⟨r, hr, rfl⟩ := List.mem_map.mp hcall
      dsimp only [bytesPerPage] at hin
      exact ⟨r, hr, by omega, by omega⟩
    · rintro ⟨r, hr, hin⟩
      refine ⟨_, List.mem_map.mpr ⟨r, hr, rfl⟩, ?_⟩
      dsimp only [bytesPerPage]
      omega

theorem modifiedCpuRegion_hull (hrange : addr + size ≤ 2 ^ 34) :
    HullOf (0, 0) (fun page => InQuery addr size page ∧ t.CpuModified page) bytesPerPage
      (t.modifiedCpuRegion addr size).2 := by
  obtain ⟨hcalls, -, -, hregions⟩ := iteratePages_spec addr size
  have hlt : ∀ c ∈ iteratePages addr size, InRegion c.2.1 c.2.2 ∧ c.1 < 4096 := fun c hc => by
    refine ⟨hcalls c hc, ?_⟩
    have hregion := (hregions (c.1 * 1024)).mpr ⟨c, hc, Nat.mul_div_cancel _ (by decide)⟩
    unfold InRegions higherPageSize at hregion
    omega
  have hnone : HullOf (2 ^ 64 - 1, 0) (fun _ => False) bytesPerPage (2 ^ 64 - 1, 0) :=
    .inl ⟨rfl, fun _ h => h⟩
  have hfold := @MemoryTracker.foldl_pairRound_hull t true .cpu _ _ _ hlt (.inl rfl) hnone
  refine HullOf.congr (hfold.select (by decide)) fun page => ?_
  rw [false_or]
  exact inQuery_iff.symm

theorem isRegionCpuModified_iff : (t.isRegionCpuModified addr size).2 = true ↔
    ∃ page, InQuery addr size page ∧ t.CpuModified page := by
  rw [isRegionCpuModified, anyRegion_iff (.inl rfl) (iteratePages_spec addr size).1]
  exact exists_congr fun page => inQuery_iff.symm

end MemoryTracker

/-! ## 7. Cached writes -/

namespace TrackerOp

open MemoryTracker (InQuery InRegions)

/-- The operation uploads or unmarks the page. -/
def Takes (page : Nat) : TrackerOp → Prop
  | unmarkRegionAsCpuModified addr size => InQuery addr size page
  | forEachUploadRange addr size => InQuery addr size page
  | _ => False

/-- The operation flushes the page. -/
def Flushes (page : Nat) : TrackerOp → Prop
  | flushCachedWrites => True
  | flushCachedWritesIn addr size => InRegions addr size page
  | _ => False

variable {op : TrackerOp} {page : Nat} {b : PageBits}

/-- A page stays modified or has a cached write, if it is not taken while modified. -/
theorem onPage_keeps (h : b.cpu = true ∨ b.cachedCpu = true) (hop : ¬(op.Takes page ∧ b.cpu = true)) :
    (op.onPage page b).cpu = true ∨ (op.onPage page b).cachedCpu = true := by
  cases op with
  | unmarkRegionAsCpuModified addr size =>
    rw [onPage]
    split
    · rename_i hin
      have hcpu : b.cpu = false := Bool.eq_false_iff.mpr fun hcpu => hop ⟨hin, hcpu⟩
      refine .inr (Bool.and_eq_true_iff.mpr ⟨h.resolve_left fun h => ?_, by rw [hcpu]; rfl⟩)
      rw [hcpu] at h
      cases h
    · exact h
  | forEachUploadRange addr size =>
    rw [onPage]
    split
    · rename_i hin
      have hcpu : b.cpu = false := Bool.eq_false_iff.mpr fun hcpu => hop ⟨hin, hcpu⟩
      refine .inr (Bool.and_eq_true_iff.mpr ⟨h.resolve_left fun h => ?_, by rw [hcpu]; rfl⟩)
      rw [hcpu] at h
      cases h
    · exact h
  | markRegionAsCpuModified addr size =>
    rw [onPage]
    split
    · exact .inl rfl
    · exact h
  | cachedCpuWrite addr size =>
    rw [onPage]
    split
    · exact .inr rfl
    · exact h
  | flushCachedWritesIn addr size =>
    rw [onPage]
    split
    · exact .inl (Bool.or_eq_true_iff.mpr h)
    · exact h
  | flushCachedWrites => exact .inl (Bool.or_eq_true_iff.mpr h)
  | forEachDownloadRange addr size clear =>
    rw [onPage]
    split <;> exact h
  | markRegionAsGpuModified addr size =>
    rw [onPage]
    split <;> exact h
  | unmarkRegionAsGpuModified addr size =>
    rw [onPage]
    split <;> exact h
  | markRegionAsPreflushable addr size =>
    rw [onPage]
    split <;> exact h
  | unmarkRegionAsPreflushable addr size =>
    rw [onPage]
    split <;> exact h
  | isRegionCpuModified addr size => exact h
  | isRegionGpuModified addr size => exact h
  | modifiedCpuRegion addr size => exact h
  | modifiedGpuRegion addr size => exact h

theorem foldl_onPage_keeps (later : List TrackerOp) (h : b.cpu = true ∨ b.cachedCpu = true) :
    ((later.foldl (fun b op => op.onPage page b) b).cpu = true ∨
      (later.foldl (fun b op => op.onPage page b) b).cachedCpu = true) ∨
    ∃ before op after, later = before ++ op :: after ∧ op.Takes page ∧
      (before.foldl (fun b op => op.onPage page b) b).cpu = true := by
  induction later generalizing b with
  | nil => exact .inl h
  | cons op later ih =>
    by_cases hop : op.Takes page ∧ b.cpu = true
    · exact .inr ⟨[], op, later, rfl, hop⟩
    · refine (ih (onPage_keeps h hop)).imp_right ?_
      rintro ⟨before, op', after, rfl, htakes, hcpu⟩
      exact ⟨op :: before, op', after, rfl, htakes, hcpu⟩

theorem flush_onPage (hflush : op.Flushes page) (h : b.cpu = true ∨ b.cachedCpu = true) :
    (op.onPage page b).cpu = true := by
  cases op with
  | flushCachedWrites => exact Bool.or_eq_true_iff.mpr h
  | flushCachedWritesIn addr size =>
    have hin : InRegions addr size page := hflush
    rw [onPage, if_pos hin]
    exact Bool.or_eq_true_iff.mpr h
  | _ => exact absurd hflush id

theorem runPage_append {ops ops' : List TrackerOp} : runPage (ops ++ ops') page =
    ops'.foldl (fun b op => op.onPage page b) (runPage ops page) := List.foldl_append

/-- **The modified sets.** After every run of operations, for every range:
    each page is what the operations make of it alone;
    an upload gets page-aligned ranges apart from each other, inside the range rounded to pages,
    that hold its modified pages, and clears these;
    `ModifiedCpuRegion` is the hull of the modified pages of the range, `IsRegionCpuModified` says
    whether there are any;
    and a page written with `CachedCpuWrite` is modified after a flush that reaches it, unless it
    was uploaded or unmarked in between while it was modified. -/
theorem run_modified_sets (order : SetOrder) (ops : List TrackerOp) (addr size : Nat)
    (hrange : addr + size ≤ 2 ^ 34) :
    (∀ page, (run order ops).bits page = runPage ops page) ∧
    (∀ call ∈ ((run order ops).forEachUploadRange addr size).2,
      bytesPerPage ∣ call.1 ∧ bytesPerPage ∣ call.2 ∧
      addr / bytesPerPage * bytesPerPage ≤ call.1 ∧
      call.1 + call.2 ≤ (addr + size + bytesPerPage - 1) / bytesPerPage * bytesPerPage) ∧
    ((run order ops).forEachUploadRange addr size).2.Pairwise (fun c d => c.1 + c.2 ≤ d.1) ∧
    (∀ page, (∃ call ∈ ((run order ops).forEachUploadRange addr size).2,
      call.1 ≤ page * bytesPerPage ∧ page * bytesPerPage < call.1 + call.2) ↔
        InQuery addr size page ∧ (run order ops).CpuModified page) ∧
    (∀ page, ((run order ops).forEachUploadRange addr size).1.CpuModified page ↔
      (run order ops).CpuModified page ∧ ¬InQuery addr size page) ∧
    HullOf (0, 0) (fun page => InQuery addr size page ∧ (run order ops).CpuModified page)
      bytesPerPage ((run order ops).modifiedCpuRegion addr size).2 ∧
    (((run order ops).isRegionCpuModified addr size).2 = true ↔
      ∃ page, InQuery addr size page ∧ (run order ops).CpuModified page) ∧
    ∀ (later : List TrackerOp) (flush : TrackerOp) (page : Nat), InQuery addr size page →
      flush.Flushes page →
      (run order (ops ++ cachedCpuWrite addr size :: (later ++ [flush]))).CpuModified page ∨
      ∃ before op after, later = before ++ op :: after ∧ op.Takes page ∧
        (run order (ops ++ cachedCpuWrite addr size :: before)).CpuModified page := by
  have hsound := run_sound order ops
  obtain ⟨hinside, hpairwise, hunion⟩ :=
    MemoryTracker.forEachUploadRange_ranges addr size hsound
  refine ⟨run_bits order ops, hinside, hpairwise, hunion, fun page => ?_,
    MemoryTracker.modifiedCpuRegion_hull hrange, MemoryTracker.isRegionCpuModified_iff,
    fun later flush page hpage hflush => ?_⟩
  · have hbits := (@TrackerOp.apply_spec _ (forEachUploadRange addr size) order hsound).2 page
    rw [apply, onPage] at hbits
    rw [MemoryTracker.CpuModified, hbits, MemoryTracker.CpuModified]
    split
    · rename_i hin
      exact iff_of_false Bool.false_ne_true fun h => h.2 hin
    · rename_i hin
      exact ⟨fun h => ⟨h, hin⟩, fun h => h.1⟩
  · have hwritten : (runPage (ops ++ [cachedCpuWrite addr size]) page).cpu = true ∨
        (runPage (ops ++ [cachedCpuWrite addr size]) page).cachedCpu = true := by
      rw [runPage_append, List.foldl_cons, List.foldl_nil, onPage, if_pos hpage]
      exact .inr rfl
    have hlist : ∀ l, ops ++ cachedCpuWrite addr size :: l =
        (ops ++ [cachedCpuWrite addr size]) ++ l := fun l => by
      rw [List.append_assoc]
      rfl
    rw [MemoryTracker.CpuModified, run_bits, hlist, runPage_append, List.foldl_append]
    rcases foldl_onPage_keeps later hwritten with hkept | ⟨before, op, after, hlater, htakes, hcpu⟩
    · exact .inl (flush_onPage hflush hkept)
    · refine .inr ⟨before, op, after, hlater, htakes, ?_⟩
      rw [MemoryTracker.CpuModified, run_bits, hlist, runPage_append]
      exact hcpu

/-- The regions by their numbers. -/
def sortedOrder : SetOrder where
  toList := fun s => s.sort (· ≤ ·)
  mem_toList := fun _ _ => Finset.mem_sort _

theorem run_modified_sets_two_pages : 0 + 8192 ≤ 2 ^ 34 ∧
    (((run sortedOrder [unmarkRegionAsCpuModified 0 4096]).isRegionCpuModified 0 8192).2 = true ↔
      ∃ page, InQuery 0 8192 page ∧
        (run sortedOrder [unmarkRegionAsCpuModified 0 4096]).CpuModified page) :=
  ⟨by decide, (run_modified_sets sortedOrder [unmarkRegionAsCpuModified 0 4096] 0 8192
    (by decide)).2.2.2.2.2.2.1⟩

/-- A cached write to a page that is not modified is gone after the page was marked and unmarked:
    the mark takes the cached write over. -/
theorem cached_write_lost : ¬∀ (ops later : List TrackerOp) (addr size page : Nat),
    addr + size ≤ 2 ^ 34 → InQuery addr size page → (∀ op ∈ later, ¬op.Flushes page) →
    ¬((run sortedOrder ops).CpuModified page ∧ ∃ op ∈ later, op.Takes page) →
    (run sortedOrder (ops ++ cachedCpuWrite addr size ::
      (later ++ [flushCachedWrites]))).CpuModified page := by
  intro h
  have hlost := h [unmarkRegionAsCpuModified 0 4096]
    [markRegionAsCpuModified 0 4096, unmarkRegionAsCpuModified 0 4096] 0 4096 0 (by decide)
    (by decide) (fun op hop hflush => ?_) fun hmod => ?_
  · rw [MemoryTracker.CpuModified, run_bits] at hlost
    exact absurd hlost (by decide)
  · simp only [List.mem_cons, List.not_mem_nil, or_false] at hop
    rcases hop with rfl | rfl <;> exact hflush
  · rw [MemoryTracker.CpuModified, run_bits] at hmod
    exact absurd hmod.1 (by decide)

end TrackerOp

end Yuzu.VideoCore
