/-
  File:      Yuzu/VideoCore/WordManager.lean
  Subject:   VideoCommon::WordManager (video_core/buffer_cache/word_manager.h): the states of the
             pages of one region, packed into words.

  A region has 16 words of 64 pages. Each page has five bits (modified by the CPU, by the GPU, by a
  cached CPU write, untracked, preflushable); a word here is the five words of an index together.
  `IterateWords` is the list of the pairs of index and mask that its function gets, `IteratePages`
  the list of the pairs of offset and size. What a function does to the word at its index (`upd`)
  and to the rest of the state (`emit`) is kept apart; `emit` sees the word before the change.

  Every manager of the tracker has `HIGHER_PAGE_SIZE` bytes.
-/
import Yuzu.Lib.Word
import Yuzu.Lib.Runs

namespace Yuzu.VideoCore

open List Function BitVec

/-! ## 1. Words -/

/-- `PAGES_PER_WORD`. -/
def pagesPerWord : Nat := 64

/-- `BYTES_PER_PAGE`. -/
def bytesPerPage : Nat := 4096

/-- `BYTES_PER_WORD`. -/
def bytesPerWord : Nat := pagesPerWord * bytesPerPage

/-- `HIGHER_PAGE_SIZE`, the size of a manager. -/
def higherPageSize : Nat := 2 ^ 22

/-- The words of a manager. -/
def numWords : Nat := higherPageSize / bytesPerWord

/-- The five words of an index. -/
structure PageWord where
  cpu : BitVec 64
  gpu : BitVec 64
  cachedCpu : BitVec 64
  untracked : BitVec 64
  preflushable : BitVec 64

/-- `Type`, less `Untracked`. -/
inductive StateType where
  | cpu
  | gpu
  | cachedCpu
  | preflushable
  deriving DecidableEq

/-- A call of `UpdatePagesCachedCount`. -/
structure Update where
  addr : Nat
  size : Nat
  delta : Int

/-- `WordManager`. -/
structure WordManager where
  cpuAddr : Nat
  words : Nat → PageWord

/-- A new manager: every page is modified by the CPU and untracked. -/
def WordManager.new (cpuAddr : Nat) : WordManager where
  cpuAddr := cpuAddr
  words := fun _ => ⟨BitVec.allOnes 64, 0, 0, BitVec.allOnes 64, 0⟩

/-- `ExtractBits`. -/
def extractBits (word : BitVec 64) (pageStart pageEnd : Nat) : BitVec 64 :=
  let limitPageEnd := 64 - min pageEnd 64
  let bits := word >>> pageStart <<< pageStart
  bits <<< limitPageEnd >>> limitPageEnd

/-- `GetWordPage`. -/
def getWordPage (address : Nat) : Nat × Nat :=
  (address / bytesPerWord, address % bytesPerWord / bytesPerPage)

/-- The loop of `IterateWords`. The last `end_page` may go below 0, and is not read any more. -/
def iterateWordsLoop : Nat → Nat → Nat → Nat → List (Nat × BitVec 64)
  | 0, _, _, _ => []
  | n + 1, wordIndex, startPage, endPage =>
    (wordIndex, extractBits (BitVec.allOnes 64) startPage endPage) ::
      iterateWordsLoop n (wordIndex + 1) 0 (endPage - pagesPerWord)

/-- `IterateWords`. -/
def iterateWords (offset size : Nat) : List (Nat × BitVec 64) :=
  let start := offset
  let stop := offset + size
  if higherPageSize ≤ start ∨ stop ≤ start then []
  else
    let (startWord, startPage) := getWordPage start
    let (endWord, endPage) := getWordPage (stop + bytesPerPage - 1)
    let startWord := min startWord numWords
    let endWord := min endWord numWords
    let diff := endWord - startWord
    let endWord := min (endWord + (endPage + pagesPerWord - 1) / pagesPerWord) numWords
    let endPage := endPage + diff * pagesPerWord
    iterateWordsLoop (endWord - startWord) startWord startPage endPage

/-- The loop of `IteratePages`. -/
def iteratePagesLoop : Nat → BitVec 64 → Nat → List (Nat × Nat)
  | 0, _, _ => []
  | fuel + 1, mask, offset =>
    if mask = 0 then []
    else
      let emptyBits := countrZero 64 mask.toNat
      let offset := offset + emptyBits
      let mask := mask >>> emptyBits
      let continuousBits := countrZero 64 (~~~mask).toNat
      (offset, continuousBits) :: iteratePagesLoop fuel
        (if continuousBits < pagesPerWord then mask >>> continuousBits else 0)
        (offset + continuousBits)

/-- `IteratePages`: each round takes a bit at least. -/
def iteratePages (mask : BitVec 64) : List (Nat × Nat) := iteratePagesLoop 64 mask 0

/-! ## 2. Operations -/

variable {σ : Type}

/-- A function called on words one after another. -/
def overWords (upd : BitVec 64 → PageWord → PageWord)
    (emit : Nat → BitVec 64 → PageWord → σ → σ) (calls : List (Nat × BitVec 64))
    (s : (Nat → PageWord) × σ) : (Nat → PageWord) × σ :=
  calls.foldl (fun s c =>
    (Function.update s.1 c.1 (upd c.2 (s.1 c.1)), emit c.1 c.2 (s.1 c.1) s.2)) s

/-- `NotifyRasterizer`. -/
def notifyRasterizer (addToTracker : Bool) (cpuAddr wordIndex : Nat)
    (currentBits newBits : BitVec 64) : List Update :=
  let changedBits := (if addToTracker then currentBits else ~~~currentBits) &&& newBits
  let addr := cpuAddr + wordIndex * bytesPerWord
  (iteratePages changedBits).map fun r =>
    ⟨addr + r.1 * bytesPerPage, r.2 * bytesPerPage, if addToTracker then 1 else -1⟩

/-- What `ChangeRegionState` does to a word. -/
def changeWord (type : StateType) (enable : Bool) (mask : BitVec 64) (w : PageWord) : PageWord :=
  match type, enable with
  | .cpu, true => { w with
      cpu := w.cpu ||| mask
      untracked := w.untracked ||| mask
      cachedCpu := w.cachedCpu &&& ~~~mask }
  | .cpu, false => { w with
      cachedCpu := w.cachedCpu &&& ~~~(w.cpu &&& mask)
      cpu := w.cpu &&& ~~~mask
      untracked := w.untracked &&& ~~~mask }
  | .gpu, true => { w with gpu := w.gpu ||| mask }
  | .gpu, false => { w with gpu := w.gpu &&& ~~~mask }
  | .cachedCpu, true => { w with
      cachedCpu := w.cachedCpu ||| mask
      untracked := w.untracked ||| mask }
  | .cachedCpu, false => { w with
      cachedCpu := w.cachedCpu &&& ~~~mask
      untracked := w.untracked &&& ~~~mask }
  | .preflushable, true => { w with preflushable := w.preflushable ||| mask }
  | .preflushable, false => { w with preflushable := w.preflushable &&& ~~~mask }

/-- What `ChangeRegionState` tells the rasterizer. -/
def changeUpdates (type : StateType) (enable : Bool) (cpuAddr index : Nat) (mask : BitVec 64)
    (w : PageWord) : List Update :=
  match type with
  | .cpu | .cachedCpu => notifyRasterizer (!enable) cpuAddr index w.untracked mask
  | .gpu | .preflushable => []

/-- What `ForEachModifiedRange` looks at in a word: the bits of the type, of the GPU's those that
    are tracked. -/
def modifiedBits (type : StateType) (mask : BitVec 64) (w : PageWord) : BitVec 64 :=
  match type with
  | .cpu => w.cpu &&& mask
  | .gpu => w.gpu &&& (mask &&& ~~~w.untracked)
  | .cachedCpu => w.cachedCpu &&& mask
  | .preflushable => w.preflushable &&& mask

/-- What `ForEachModifiedRange` clears in a word. -/
def clearWord (type : StateType) (mask : BitVec 64) (w : PageWord) : PageWord :=
  match type with
  | .cpu => { w with
      cpu := w.cpu &&& ~~~mask
      untracked := w.untracked &&& ~~~mask
      cachedCpu := w.cachedCpu &&& ~~~(w.cpu &&& mask) }
  | .gpu => { w with gpu := w.gpu &&& ~~~(mask &&& ~~~w.untracked) }
  | .cachedCpu => { w with
      cachedCpu := w.cachedCpu &&& ~~~mask
      untracked := w.untracked &&& ~~~mask }
  | .preflushable => { w with preflushable := w.preflushable &&& ~~~mask }

def clearUpdates (type : StateType) (cpuAddr index : Nat) (mask : BitVec 64) (w : PageWord) : List Update :=
  match type with
  | .cpu | .cachedCpu => notifyRasterizer true cpuAddr index w.untracked mask
  | .gpu | .preflushable => []

/-- The range that `ForEachModifiedRange` has not yet passed on, from `pending_offset` to
    `pending_pointer`, and the ranges it has. -/
structure Pending where
  pending : Option (Nat × Nat)
  released : List (Nat × Nat)

/-- The function given to `IteratePages`. -/
def Pending.addRun (p : Pending) (run : Nat × Nat) : Pending :=
  match p.pending with
  | none => { p with pending := some (run.1, run.1 + run.2) }
  | some (offset, pointer) =>
    if pointer = run.1 then { p with pending := some (offset, pointer + run.2) }
    else ⟨some (run.1, run.1 + run.2), p.released ++ [(offset, pointer)]⟩

/-- The release behind the loop. -/
def Pending.finish (p : Pending) : List (Nat × Nat) :=
  match p.pending with
  | none => p.released
  | some range => p.released ++ [range]

namespace WordManager

/-- `ChangeRegionState`, with the offset from the address of the manager. -/
def changeRegionState (type : StateType) (enable : Bool) (offset size : Nat) (m : WordManager) :
    WordManager × List Update :=
  let r := overWords (changeWord type enable)
    (fun index mask w updates => updates ++ changeUpdates type enable m.cpuAddr index mask w)
    (iterateWords offset size) (m.words, [])
  ({ m with words := r.1 }, r.2)

/-- `ForEachModifiedRange`, with the offset from the address of the manager. The last component are
    the ranges that the function gets. -/
def forEachModifiedRange (type : StateType) (clear : Bool) (offset size : Nat) (m : WordManager) :
    WordManager × List Update × List (Nat × Nat) :=
  let r := overWords (fun mask w => if clear then clearWord type mask w else w)
    (fun index mask w (s : List Update × Pending) =>
      (s.1 ++ (if clear then clearUpdates type m.cpuAddr index mask w else []),
        (iteratePages (modifiedBits type mask w)).foldl
          (fun p run => p.addRun (index * pagesPerWord + run.1, run.2)) s.2))
    (iterateWords offset size) (m.words, [], ⟨none, []⟩)
  ({ m with words := r.1 }, r.2.1, r.2.2.finish.map fun range =>
    (m.cpuAddr + range.1 * bytesPerPage, (range.2 - range.1) * bytesPerPage))

/-- `IsRegionModified`. -/
def isRegionModified (type : StateType) (offset size : Nat) (m : WordManager) : Bool :=
  (iterateWords offset size).any fun c => modifiedBits type c.2 (m.words c.1) ≠ 0

/-- `ModifiedRegion`. -/
def modifiedRegion (type : StateType) (offset size : Nat) (m : WordManager) : Nat × Nat :=
  let r := (iterateWords offset size).foldl (fun (s : Nat × Nat) c =>
    let word := modifiedBits type c.2 (m.words c.1)
    if word = 0 then s
    else
      let localPageBegin := countrZero 64 word.toNat
      let localPageEnd := pagesPerWord - word.clz.toNat
      let pageIndex := c.1 * pagesPerWord
      (min s.1 (pageIndex + localPageBegin), pageIndex + localPageEnd)) (2 ^ 64 - 1, 0)
  if r.1 < r.2 then (r.1 * bytesPerPage, r.2 * bytesPerPage) else (0, 0)

/-- `FlushCachedWrites`. -/
def flushCachedWrites (m : WordManager) : WordManager × List Update :=
  let r := overWords (fun _ w => { w with
      untracked := w.untracked ||| w.cachedCpu
      cpu := w.cpu ||| w.cachedCpu
      cachedCpu := 0 })
    (fun index _ w updates =>
      updates ++ notifyRasterizer false m.cpuAddr index w.untracked w.cachedCpu)
    ((List.range numWords).map fun index => (index, 0)) (m.words, [])
  ({ m with words := r.1 }, r.2)

end WordManager

/-! ## 3. Masks -/

variable {offset size start stop i j k n : Nat}

theorem getLsbD_extractBits : (extractBits (BitVec.allOnes 64) start stop).getLsbD j =
    decide (start ≤ j ∧ j < stop ∧ j < 64) := by
  rw [extractBits]
  simp only [getLsbD_ushiftRight, getLsbD_shiftLeft, getLsbD_allOnes]
  by_cases h : start ≤ j ∧ j < stop ∧ j < 64
  · rw [decide_eq_true h]
    simp
    omega
  · rw [decide_eq_false h]
    simp
    omega

/-- The mask of the pages of a byte range in the word of an index. -/
def pageMask (offset size index : Nat) : BitVec 64 :=
  extractBits (BitVec.allOnes 64) (offset / bytesPerPage - pagesPerWord * index)
    ((offset + size + bytesPerPage - 1) / bytesPerPage - pagesPerWord * index)

/-- A page of a region lies in a byte range of it, of which it may be a part only. -/
def InChunk (offset size p : Nat) : Prop :=
  offset / bytesPerPage ≤ p ∧ p < (offset + size + bytesPerPage - 1) / bytesPerPage

instance {p : Nat} : Decidable (InChunk offset size p) := inferInstanceAs (Decidable (_ ∧ _))

theorem getLsbD_pageMask (hj : j < 64) :
    (pageMask offset size i).getLsbD j = decide (InChunk offset size (64 * i + j)) := by
  rw [pageMask, getLsbD_extractBits]
  refine decide_eq_decide.mpr ?_
  unfold InChunk pagesPerWord
  omega

theorem iterateWordsLoop_eq (h : start < 64 * (i + 1)) :
    iterateWordsLoop n i (start - 64 * i) (stop - 64 * i) = (List.range' i n).map fun w =>
      (w, extractBits (BitVec.allOnes 64) (start - 64 * w) (stop - 64 * w)) := by
  induction n generalizing i with
  | zero => rfl
  | succ n ih =>
    rw [iterateWordsLoop, range'_succ, map_cons]
    have hstart : start - 64 * (i + 1) = 0 := by omega
    have hstop : stop - 64 * i - pagesPerWord = stop - 64 * (i + 1) := by
      unfold pagesPerWord
      omega
    have hnext := ih (i := i + 1) (by omega)
    rw [hstart] at hnext
    rw [hstop, hnext]

/-- **The words of a range:** each once, with the mask of its pages. -/
theorem iterateWords_eq (hsize : 0 < size) (hend : offset + size ≤ higherPageSize) :
    ∃ first count, iterateWords offset size =
        (List.range' first count).map (fun w => (w, pageMask offset size w)) ∧
      first + count ≤ numWords ∧
      ∀ p, InChunk offset size p → first ≤ p / 64 ∧ p / 64 < first + count := by
  have hlt : offset < 4194304 := by
    unfold higherPageSize at hend
    omega
  have hstop : offset + size ≤ 4194304 := hend
  obtain ⟨pages, hpages⟩ : ∃ e, e = (offset + size + 4096 - 1) / 4096 := ⟨_, rfl⟩
  refine ⟨offset / 262144, (pages + 63) / 64 - offset / 262144, ?_, ?_, fun p hp => ?_⟩
  · have hcond : ¬ (higherPageSize ≤ offset ∨ offset + size ≤ offset) := by
      unfold higherPageSize
      omega
    have hfirst : min (offset / 262144) 16 = offset / 262144 := by omega
    have hlast : min ((offset + size + 4096 - 1) / 262144) 16 =
        (offset + size + 4096 - 1) / 262144 := by omega
    have hcount : min ((offset + size + 4096 - 1) / 262144 +
        ((offset + size + 4096 - 1) % 262144 / 4096 + 64 - 1) / 64) 16 = (pages + 63) / 64 := by
      omega
    have hstartPage : offset % 262144 / 4096 = offset / 4096 - 64 * (offset / 262144) := by omega
    have hendPage : (offset + size + 4096 - 1) % 262144 / 4096 +
        ((offset + size + 4096 - 1) / 262144 - offset / 262144) * 64 =
        pages - 64 * (offset / 262144) := by omega
    rw [iterateWords, if_neg hcond]
    simp only [getWordPage, show bytesPerWord = 262144 from rfl, show bytesPerPage = 4096 from rfl,
      show numWords = 16 from rfl, show pagesPerWord = 64 from rfl]
    rw [hfirst, hlast, hcount, hstartPage, hendPage, iterateWordsLoop_eq (by omega), hpages]
    rfl
  · rw [show numWords = 16 from rfl]
    omega
  · obtain ⟨h1, h2⟩ : offset / 4096 ≤ p ∧ p < (offset + size + 4096 - 1) / 4096 := hp
    omega

/-! ## 4. A function over words -/

section Over

variable {upd : BitVec 64 → PageWord → PageWord} {emit : Nat → BitVec 64 → PageWord → σ → σ}
  {words : Nat → PageWord} {s : σ} {mask : Nat → BitVec 64} {first count : Nat}

/-- Over words that are apart, each call sees its word as it was. -/
theorem overWords_range :
    overWords upd emit ((List.range' first count).map fun w => (w, mask w)) (words, s) =
      (fun w => if first ≤ w ∧ w < first + count then upd (mask w) (words w) else words w,
        (List.range' first count).foldl (fun s w => emit w (mask w) (words w) s) s) := by
  induction count generalizing first words s with
  | zero =>
    refine Prod.ext (funext fun w => ?_) rfl
    dsimp only
    rw [if_neg (by omega)]
    rfl
  | succ count ih =>
    rw [range'_succ, map_cons, overWords, foldl_cons, ← overWords, ih, foldl_cons]
    refine Prod.ext (funext fun w => ?_) ?_
    · dsimp only
      by_cases hw : w = first
      · subst hw
        rw [if_neg (by omega), if_pos (by omega), update_self]
      · rw [update_of_ne hw]
        by_cases hin : first + 1 ≤ w ∧ w < first + 1 + count
        · rw [if_pos hin, if_pos (by omega)]
        · rw [if_neg hin, if_neg (by omega)]
    · refine foldl_ext _ _ _ fun s w hw => ?_
      have hne : w ≠ first := by
        rw [mem_range'_1] at hw
        omega
      rw [update_of_ne hne]

theorem overWords_inv {I : (Nat → PageWord) → σ → Prop} {calls : List (Nat × BitVec 64)} (h : I words s)
    (hstep : ∀ words s, ∀ c ∈ calls, I words s →
      I (Function.update words c.1 (upd c.2 (words c.1))) (emit c.1 c.2 (words c.1) s)) :
    I (overWords upd emit calls (words, s)).1 (overWords upd emit calls (words, s)).2 := by
  induction calls generalizing words s with
  | nil => exact h
  | cons c calls ih =>
    rw [overWords, foldl_cons, ← overWords]
    exact ih (hstep words s c mem_cons_self h)
      fun words s c' hc' => hstep words s c' (mem_cons_of_mem _ hc')

end Over

/-! ## 5. Pages -/

/-- The bits of one page. -/
structure PageBits where
  cpu : Bool
  gpu : Bool
  cachedCpu : Bool
  untracked : Bool
  preflushable : Bool
  deriving DecidableEq

/-- The bits of the page at a position of a word. -/
def PageWord.bits (w : PageWord) (j : Nat) : PageBits where
  cpu := w.cpu.getLsbD j
  gpu := w.gpu.getLsbD j
  cachedCpu := w.cachedCpu.getLsbD j
  untracked := w.untracked.getLsbD j
  preflushable := w.preflushable.getLsbD j

/-- `ChangeRegionState` on a page of the range. -/
def PageBits.change (type : StateType) (enable : Bool) (b : PageBits) : PageBits :=
  match type, enable with
  | .cpu, true => { b with cpu := true, untracked := true, cachedCpu := false }
  | .cpu, false =>
    { b with cpu := false, untracked := false, cachedCpu := b.cachedCpu && !b.cpu }
  | .gpu, enable => { b with gpu := enable }
  | .cachedCpu, enable => { b with cachedCpu := enable, untracked := enable }
  | .preflushable, enable => { b with preflushable := enable }

/-- `ForEachModifiedRange` with `clear` on a page of the range. -/
def PageBits.clear (type : StateType) (b : PageBits) : PageBits :=
  match type with
  | .cpu => { b with cpu := false, untracked := false, cachedCpu := b.cachedCpu && !b.cpu }
  | .gpu => { b with gpu := b.gpu && b.untracked }
  | .cachedCpu => { b with cachedCpu := false, untracked := false }
  | .preflushable => { b with preflushable := false }

/-- `FlushCachedWrites` on a page. -/
def PageBits.flush (b : PageBits) : PageBits :=
  { b with untracked := b.untracked || b.cachedCpu, cpu := b.cpu || b.cachedCpu, cachedCpu := false }

variable {type : StateType} {enable clear : Bool} {mask : BitVec 64} {w : PageWord}

theorem changeWord_bits (hj : j < 64) : (changeWord type enable mask w).bits j =
    if mask.getLsbD j then (w.bits j).change type enable else w.bits j := by
  cases type <;> cases enable <;> cases h : mask.getLsbD j <;>
    simp [-getLsbD_eq_getElem, changeWord, PageWord.bits, PageBits.change, h, hj]

theorem clearWord_bits (hj : j < 64) : (clearWord type mask w).bits j =
    if mask.getLsbD j then (w.bits j).clear type else w.bits j := by
  cases type <;> cases h : mask.getLsbD j <;>
    simp [-getLsbD_eq_getElem, clearWord, PageWord.bits, PageBits.clear, h, hj]

/-- The bits of a page of a region. -/
def WordManager.bits (m : WordManager) (p : Nat) : PageBits := (m.words (p / 64)).bits (p % 64)

theorem pageMask_bit {p : Nat} :
    (pageMask offset size (p / 64)).getLsbD (p % 64) = decide (InChunk offset size p) := by
  rw [getLsbD_pageMask (Nat.mod_lt p (by decide)), Nat.div_add_mod]

theorem overWords_bits {upd : BitVec 64 → PageWord → PageWord}
    {emit : Nat → BitVec 64 → PageWord → σ → σ} {words : Nat → PageWord} {s : σ} {p : Nat}
    {f : PageBits → PageBits}
    (hupd : ∀ mask w j, j < 64 → (upd mask w).bits j =
      if mask.getLsbD j then f (w.bits j) else w.bits j)
    (hsize : 0 < size) (hend : offset + size ≤ higherPageSize) :
    ((overWords upd emit (iterateWords offset size) (words, s)).1 (p / 64)).bits (p % 64) =
      if InChunk offset size p then f ((words (p / 64)).bits (p % 64))
      else (words (p / 64)).bits (p % 64) := by
  obtain ⟨first, count, hcalls, -, hin⟩ := iterateWords_eq hsize hend
  rw [hcalls, overWords_range]
  dsimp only
  by_cases hp : InChunk offset size p
  · rw [if_pos (hin p hp), hupd _ _ _ (Nat.mod_lt p (by decide)), pageMask_bit, decide_eq_true hp,
      if_pos rfl, if_pos hp]
  · rw [if_neg hp]
    split
    · rw [hupd _ _ _ (Nat.mod_lt p (by decide)), pageMask_bit, decide_eq_false hp,
        if_neg Bool.false_ne_true]
    · rfl

namespace WordManager

variable {m : WordManager} {p : Nat}

theorem changeRegionState_bits (hsize : 0 < size) (hend : offset + size ≤ higherPageSize) :
    (m.changeRegionState type enable offset size).1.bits p =
      if InChunk offset size p then (m.bits p).change type enable else m.bits p :=
  overWords_bits (fun _ _ _ hj => changeWord_bits hj) hsize hend

theorem forEachModifiedRange_bits (hsize : 0 < size) (hend : offset + size ≤ higherPageSize) :
    (m.forEachModifiedRange type true offset size).1.bits p =
      if InChunk offset size p then (m.bits p).clear type else m.bits p :=
  overWords_bits (fun _ _ _ hj => clearWord_bits hj) hsize hend

theorem forEachModifiedRange_keeps : (m.forEachModifiedRange type false offset size).1 = m := by
  rw [forEachModifiedRange]
  refine congrArg (WordManager.mk m.cpuAddr) ?_
  refine overWords_inv (I := fun words _ => words = m.words) rfl fun words s c _ h => ?_
  exact (update_eq_self c.1 words).trans h

theorem flushCachedWrites_bits (hp : p < 1024) : (m.flushCachedWrites).1.bits p = (m.bits p).flush := by
  rw [bits, flushCachedWrites]
  rw [range_eq_range', @overWords_range _ _ _ _ _ (fun _ => 0)]
  dsimp only
  rw [if_pos (by rw [show numWords = 16 from rfl]; omega)]
  simp [PageWord.bits, PageBits.flush, bits]

end WordManager

/-! ## 6. Runs of pages -/

/-- The trailing ones of what is left of a word from a set bit on. -/
theorem countrOne_bits {v : BitVec 64} {o c : Nat} (hc : c = countrZero 64 (~~~(v >>> o)).toNat)
    (ho : o < 64) (hone : v.getLsbD o = true) :
    0 < c ∧ o + c ≤ 64 ∧ (∀ j < c, v.getLsbD (o + j) = true) ∧
      (o + c < 64 → v.getLsbD (o + c) = false) := by
  obtain ⟨hones, hstop⟩ := countrZero_bits (~~~(v >>> o))
  rw [← hc] at hones hstop
  have hrun : ∀ j < c, j < 64 → v.getLsbD (o + j) = true := by
    intro j hj hj'
    have h := hones j hj
    rw [getLsbD_not, getLsbD_ushiftRight, decide_eq_true hj', Bool.true_and] at h
    simpa using h
  by_cases hzero : ~~~(v >>> o) = 0
  · -- all 64 bits are set, so nothing was shifted out
    have hbit : v.getLsbD (o + 63) = true := by
      have h : (~~~(v >>> o)).getLsbD 63 = (0 : BitVec 64).getLsbD 63 := by rw [hzero]
      rw [getLsbD_not, getLsbD_ushiftRight] at h
      simpa using h
    obtain rfl : o = 0 := by
      by_contra hne
      rw [getLsbD_of_ge v _ (by omega)] at hbit
      cases hbit
    obtain rfl : c = 64 := by
      rw [hc, hzero]
      decide
    exact ⟨by decide, by decide, fun j hj => hrun j hj hj, fun h => by omega⟩
  · obtain ⟨hlt, hbit⟩ := hstop hzero
    rw [getLsbD_not, getLsbD_ushiftRight, decide_eq_true hlt, Bool.true_and, Bool.not_eq_true'] at hbit
    have hpos : 0 < c := by
      rcases Nat.eq_zero_or_pos c with rfl | hpos
      · rw [Nat.add_zero, hone] at hbit
        cases hbit
      · exact hpos
    have hlast := hrun (c - 1) (by omega) (by omega)
    refine ⟨hpos, ?_, fun j hj => hrun j hj (by omega), fun _ => hbit⟩
    by_contra hgt
    rw [getLsbD_of_ge v _ (by omega)] at hlast
    cases hlast

theorem iteratePagesLoop_runs {v : BitVec 64} {fuel : Nat} (hoff : offset ≤ 64)
    (hfuel : 64 - offset ≤ fuel) :
    MaximalRuns (fun i => v.getLsbD i = true) offset 64 (iteratePagesLoop fuel (v >>> offset) offset) := by
  induction fuel generalizing offset with
  | zero => exact .of_none fun j h1 h2 => by omega
  | succ fuel ih =>
    rw [iteratePagesLoop]
    split
    · rename_i hzero
      refine .of_none fun j h1 h2 hj => ?_
      have hbit : (v >>> offset).getLsbD (j - offset) = (0 : BitVec 64).getLsbD (j - offset) := by
        rw [hzero]
      rw [getLsbD_ushiftRight, Nat.add_sub_cancel' h1, hj] at hbit
      simp at hbit
    · rename_i hne
      obtain ⟨hzeros, hfirst⟩ := countrZero_bits (v >>> offset)
      obtain ⟨-, hone⟩ := hfirst hne
      generalize countrZero 64 (v >>> offset).toNat = e at *
      rw [getLsbD_ushiftRight] at hone
      have hin : offset + e < 64 := by
        by_contra hge
        rw [getLsbD_of_ge v _ (Nat.le_of_not_lt hge)] at hone
        cases hone
      dsimp only
      rw [← shiftRight_add]
      obtain ⟨c, hc⟩ : ∃ c, c = countrZero 64 (~~~(v >>> (offset + e))).toNat := ⟨_, rfl⟩
      obtain ⟨hpos, hle, hrun, hend⟩ := countrOne_bits hc hin hone
      have hmask : (if c < pagesPerWord then v >>> (offset + e) >>> c else 0) = v >>> (offset + e + c) := by
        split
        · exact (shiftRight_add _ _ _).symm
        · rename_i hge
          unfold pagesPerWord at hge
          exact (ushiftRight_eq_zero (by omega)).symm
      rw [← hc, hmask]
      refine .cons (ih hle (by omega)) (Nat.le_add_right _ _) hpos hle (fun j h1 h2 hj => ?_)
        (fun j h1 h2 => ?_) fun h => by rw [hend h]; exact Bool.false_ne_true
      · have hz := hzeros (j - offset) (by omega)
        rw [getLsbD_ushiftRight, Nat.add_sub_cancel' h1, hj] at hz
        cases hz
      · have h := hrun (j - (offset + e)) (by omega)
        rwa [Nat.add_sub_cancel' h1] at h

/-- **The runs of pages** are the maximal runs of the set bits. -/
theorem iteratePages_runs (v : BitVec 64) :
    MaximalRuns (fun i => v.getLsbD i = true) 0 64 (iteratePages v) := by
  have h := @iteratePagesLoop_runs 0 v _ (Nat.zero_le 64) (Nat.le_refl 64)
  rwa [ushiftRight_zero] at h

/-! ## 7. Counts -/

/-- A call counts the pages from that of its address up to its end. -/
def Update.Covers (u : Update) (page : Nat) : Prop :=
  u.addr / bytesPerPage ≤ page ∧ page < (u.addr + u.size + bytesPerPage - 1) / bytesPerPage

instance {u : Update} {page : Nat} : Decidable (u.Covers page) :=
  inferInstanceAs (Decidable (_ ∧ _))

/-- The net of the deltas for a page. -/
def netCount (updates : List Update) (page : Nat) : Int :=
  (updates.map fun u => if u.Covers page then u.delta else 0).sum

/-- The net of the calls is 0 for the untracked pages and 1 for the others, and was 0 or 1 after
    each call. -/
def Counted (updates : List Update) (untracked : Nat → Bool) : Prop :=
  ∀ page, netCount updates page = (if untracked page then 0 else 1) ∧
    ∀ before, before <+: updates → netCount before page = 0 ∨ netCount before page = 1

theorem netCount_append {us us' : List Update} {page : Nat} :
    netCount (us ++ us') page = netCount us page + netCount us' page := by
  rw [netCount, map_append, sum_append]
  rfl

/-- The net of a list of runs from a page on. -/
theorem netCount_runs {rs : List (Nat × Nat)} {base page : Nat} {δ : Int} (h : OrderedRuns rs) :
    netCount (rs.map fun r => ⟨(base + r.1) * bytesPerPage, r.2 * bytesPerPage, δ⟩) page =
      if base ≤ page ∧ InRuns rs (page - base) then δ else 0 := by
  rw [netCount, map_map]
  have hcovers : ∀ r : Nat × Nat,
      (Update.mk ((base + r.1) * bytesPerPage) (r.2 * bytesPerPage) δ).Covers page ↔
        base ≤ page ∧ r.1 ≤ page - base ∧ page - base < r.1 + r.2 := by
    intro r
    unfold Update.Covers bytesPerPage
    dsimp only
    omega
  have hfun : ((fun u : Update => if u.Covers page then u.delta else 0) ∘
      fun r : Nat × Nat => Update.mk ((base + r.1) * bytesPerPage) (r.2 * bytesPerPage) δ) =
      fun r => if base ≤ page ∧ r.1 ≤ page - base ∧ page - base < r.1 + r.2 then δ else 0 := by
    funext r
    dsimp only [Function.comp]
    simp only [hcovers]
  rw [hfun]
  by_cases hbase : base ≤ page
  · simp only [hbase, true_and]
    exact sum_ordered_runs h
  · simp [hbase]

theorem notifyRasterizer_eq {addToTracker : Bool} {cur new : BitVec 64} {base index : Nat} :
    notifyRasterizer addToTracker (base * bytesPerPage) index cur new =
      (iteratePages ((if addToTracker then cur else ~~~cur) &&& new)).map fun r =>
        ⟨(base + index * 64 + r.1) * bytesPerPage, r.2 * bytesPerPage,
          if addToTracker then 1 else -1⟩ := by
  rw [notifyRasterizer]
  refine map_congr_left fun r _ => ?_
  have haddr : base * bytesPerPage + index * bytesPerWord + r.1 * bytesPerPage =
      (base + index * 64 + r.1) * bytesPerPage := by
    unfold bytesPerWord bytesPerPage pagesPerWord
    omega
  rw [haddr]

/-- **A notification keeps the counts:** the pages of the new bits change their side. -/
theorem Counted.notify {updates : List Update} {untracked untracked' : Nat → Bool}
    {addToTracker : Bool} {cur new : BitVec 64} {base index : Nat} (h : Counted updates untracked)
    (hcur : ∀ j < 64, untracked (base + index * 64 + j) = cur.getLsbD j)
    (hafter : ∀ page, untracked' page =
      if base + index * 64 ≤ page ∧ new.getLsbD (page - (base + index * 64)) then !addToTracker
      else untracked page) :
    Counted (updates ++ notifyRasterizer addToTracker (base * bytesPerPage) index cur new)
      untracked' := by
  intro page
  obtain ⟨hnet, hbefore⟩ := h page
  rw [notifyRasterizer_eq]
  have hruns := iteratePages_runs ((if addToTracker then cur else ~~~cur) &&& new)
  generalize hrs : iteratePages ((if addToTracker then cur else ~~~cur) &&& new) = rs at hruns ⊢
  generalize base + index * 64 = first at *
  generalize hδ : (if addToTracker then 1 else -1 : Int) = δ
  have hnets : ∀ rs', rs' <+: rs → netCount (rs'.map fun r =>
      ⟨(first + r.1) * bytesPerPage, r.2 * bytesPerPage, δ⟩) page =
        if first ≤ page ∧ InRuns rs' (page - first) then δ else 0 :=
    fun rs' hrs' => netCount_runs (hruns.ordered.sublist hrs'.sublist)
  -- a page in a run is one whose bit changes
  have hbit : ∀ rs', rs' <+: rs → first ≤ page → InRuns rs' (page - first) → page - first < 64 ∧
      new.getLsbD (page - first) = true ∧ untracked page = addToTracker := by
    rintro rs' hrs' hfirst ⟨r, hr, hin⟩
    have hlt : page - first < 64 := by
      have := (hruns.inside r (hrs'.subset hr)).2.2
      omega
    have hset := (hruns.covers (page - first) (Nat.zero_le _) hlt).mpr ⟨r, hrs'.subset hr, hin⟩
    have hpage := hcur (page - first) hlt
    rw [Nat.add_sub_cancel' hfirst] at hpage
    rw [getLsbD_and, Bool.and_eq_true] at hset
    refine ⟨hlt, hset.2, ?_⟩
    rw [hpage]
    cases addToTracker
    · simpa [hlt] using hset.1
    · exact hset.1
  have hpart : ∀ rs', rs' <+: rs → netCount updates page + netCount (rs'.map fun r =>
      ⟨(first + r.1) * bytesPerPage, r.2 * bytesPerPage, δ⟩) page = 0 ∨
      netCount updates page + netCount (rs'.map fun r =>
      ⟨(first + r.1) * bytesPerPage, r.2 * bytesPerPage, δ⟩) page = 1 := by
    intro rs' hrs'
    rw [hnets rs' hrs', hnet]
    by_cases hin : first ≤ page ∧ InRuns rs' (page - first)
    · rw [if_pos hin, (hbit rs' hrs' hin.1 hin.2).2.2, ← hδ]
      cases addToTracker
      · exact .inl rfl
      · exact .inr rfl
    · rw [if_neg hin]
      cases untracked page
      · exact .inr rfl
      · exact .inl rfl
  refine ⟨?_, fun before hprefix => ?_⟩
  · rw [netCount_append, hnets rs prefix_rfl, hnet]
    by_cases hin : first ≤ page ∧ InRuns rs (page - first)
    · obtain ⟨-, hnew, hside⟩ := hbit rs prefix_rfl hin.1 hin.2
      have hside' : untracked' page = !addToTracker := (hafter page).trans (if_pos ⟨hin.1, hnew⟩)
      rw [if_pos hin, hside, hside', ← hδ]
      cases addToTracker <;> rfl
    · have hsame : untracked' page = untracked page := by
        rw [hafter]
        split
        · rename_i hnew
          have hlt : page - first < 64 := lt_of_getLsbD hnew.2
          have hpage := hcur (page - first) hlt
          rw [Nat.add_sub_cancel' hnew.1] at hpage
          have hset := fun h => hin ⟨hnew.1, (hruns.covers (page - first) (Nat.zero_le _) hlt).mp h⟩
          rw [getLsbD_and, hnew.2, Bool.and_true] at hset
          rw [hpage]
          cases addToTracker
          · simpa [hlt] using hset
          · simpa using hset
        · rfl
      rw [if_neg hin, Int.add_zero, hsame]
  · rcases prefix_or_prefix_of_prefix hprefix (prefix_append updates _) with hp | ⟨us, rfl⟩
    · exact hbefore before hp
    · obtain ⟨rs', hrs', rfl⟩ := prefix_map_iff.mp ((prefix_append_right_inj _).mp hprefix)
      rw [netCount_append]
      exact hpart rs' hrs'

/-- The untracked pages, those of the region at a page given by its words. -/
def untrackedWith (words : Nat → PageWord) (base : Nat) (untracked : Nat → Bool) (page : Nat) : Bool :=
  if base ≤ page ∧ page < base + 1024 then
    (words ((page - base) / 64)).untracked.getLsbD ((page - base) % 64)
  else untracked page

section Counting

variable {words : Nat → PageWord} {base index page : Nat} {untracked : Nat → Bool} {w' : PageWord}
  {updates : List Update} {addToTracker : Bool} {new : BitVec 64}

theorem untrackedWith_update (hindex : index < 16) :
    untrackedWith (Function.update words index w') base untracked page =
      if base + index * 64 ≤ page ∧ page < base + index * 64 + 64 then
        w'.untracked.getLsbD (page - (base + index * 64))
      else untrackedWith words base untracked page := by
  unfold untrackedWith
  by_cases hin : base + index * 64 ≤ page ∧ page < base + index * 64 + 64
  · have hdiv : (page - base) / 64 = index := by omega
    have hmod : (page - base) % 64 = page - (base + index * 64) := by omega
    rw [if_pos hin, if_pos (by omega), hdiv, hmod, update_self]
  · rw [if_neg hin]
    by_cases hregion : base ≤ page ∧ page < base + 1024
    · have hdiv : (page - base) / 64 ≠ index := by omega
      rw [if_pos hregion, if_pos hregion, update_of_ne hdiv]
    · rw [if_neg hregion, if_neg hregion]

/-- A word changes with its notification. -/
theorem Counted.update (h : Counted updates (untrackedWith words base untracked)) (hindex : index < 16)
    (hw' : ∀ j < 64, w'.untracked.getLsbD j =
      if new.getLsbD j then !addToTracker else (words index).untracked.getLsbD j) :
    Counted (updates ++ notifyRasterizer addToTracker (base * bytesPerPage) index
      (words index).untracked new)
      (untrackedWith (Function.update words index w') base untracked) := by
  have hword : ∀ page, base + index * 64 ≤ page ∧ page < base + index * 64 + 64 →
      untrackedWith words base untracked page =
        (words index).untracked.getLsbD (page - (base + index * 64)) := by
    intro page hin
    have hself := @untrackedWith_update words base _ page untracked (words index) hindex
    rwa [update_eq_self, if_pos hin] at hself
  refine h.notify (fun j hj => ?_) fun page => ?_
  · rw [hword _ (by omega), Nat.add_sub_cancel_left]
  · rw [untrackedWith_update hindex]
    by_cases hin : base + index * 64 ≤ page ∧ page < base + index * 64 + 64
    · rw [if_pos hin, hw' _ (by omega), hword page hin]
      simp only [hin.1, true_and]
    · rw [if_neg hin]
      split
      · rename_i hnew
        have := lt_of_getLsbD hnew.2
        omega
      · rfl

theorem Counted.keep (h : Counted updates (untrackedWith words base untracked))
    (hindex : index < 16) (hw' : w'.untracked = (words index).untracked) :
    Counted updates (untrackedWith (Function.update words index w') base untracked) := by
  have hsame : untrackedWith (Function.update words index w') base untracked =
      untrackedWith words base untracked := by
    funext page
    have hself := @untrackedWith_update words base _ page untracked (words index) hindex
    rw [update_eq_self] at hself
    rw [untrackedWith_update hindex, hw', ← hself]
  rwa [hsame]

end Counting

namespace WordManager

variable {m : WordManager} {base : Nat} {untracked : Nat → Bool} {updates : List Update}

theorem iterateWords_index {c : Nat × BitVec 64} (hsize : 0 < size)
    (hend : offset + size ≤ higherPageSize) (hc : c ∈ iterateWords offset size) : c.1 < 16 := by
  obtain ⟨first, count, hcalls, hle, -⟩ := iterateWords_eq hsize hend
  rw [hcalls] at hc
  obtain ⟨w, hw, rfl⟩ := mem_map.mp hc
  rw [mem_range'_1] at hw
  exact lt_of_lt_of_le hw.2 hle

theorem changeWord_untracked (htype : type = .cpu ∨ type = .cachedCpu) (hj : j < 64) :
    (changeWord type enable mask w).untracked.getLsbD j =
      if mask.getLsbD j then !(!enable) else w.untracked.getLsbD j := by
  rcases htype with rfl | rfl <;> cases enable <;> cases h : mask.getLsbD j <;>
    simp [-getLsbD_eq_getElem, changeWord, h, hj]

theorem clearWord_untracked (htype : type = .cpu ∨ type = .cachedCpu) (hj : j < 64) :
    (clearWord type mask w).untracked.getLsbD j =
      if mask.getLsbD j then !true else w.untracked.getLsbD j := by
  rcases htype with rfl | rfl <;> cases h : mask.getLsbD j <;>
    simp [-getLsbD_eq_getElem, clearWord, h, hj]

/-- **`ChangeRegionState` keeps the counts.** -/
theorem changeRegionState_counted (hm : m.cpuAddr = base * bytesPerPage) (hsize : 0 < size)
    (hend : offset + size ≤ higherPageSize)
    (h : Counted updates (untrackedWith m.words base untracked)) :
    Counted (updates ++ (m.changeRegionState type enable offset size).2)
      (untrackedWith (m.changeRegionState type enable offset size).1.words base untracked) := by
  refine overWords_inv (I := fun words us =>
    Counted (updates ++ us) (untrackedWith words base untracked))
    (by rwa [List.append_nil]) fun words us c hc h => ?_
  have hindex := iterateWords_index hsize hend hc
  rw [hm, ← List.append_assoc]
  cases type with
  | cpu => exact h.update hindex fun j hj => changeWord_untracked (.inl rfl) hj
  | cachedCpu => exact h.update hindex fun j hj => changeWord_untracked (.inr rfl) hj
  | gpu =>
    rw [changeUpdates, List.append_nil]
    exact h.keep hindex (by cases enable <;> rfl)
  | preflushable =>
    rw [changeUpdates, List.append_nil]
    exact h.keep hindex (by cases enable <;> rfl)

/-- **`ForEachModifiedRange` keeps the counts.** -/
theorem forEachModifiedRange_counted (hm : m.cpuAddr = base * bytesPerPage) (hsize : 0 < size)
    (hend : offset + size ≤ higherPageSize)
    (h : Counted updates (untrackedWith m.words base untracked)) :
    Counted (updates ++ (m.forEachModifiedRange type clear offset size).2.1)
      (untrackedWith (m.forEachModifiedRange type clear offset size).1.words base untracked) := by
  refine overWords_inv (I := fun words (s : List Update × Pending) =>
    Counted (updates ++ s.1) (untrackedWith words base untracked))
    (by rwa [List.append_nil]) fun words s c hc h => ?_
  have hindex := iterateWords_index hsize hend hc
  dsimp only
  rw [hm, ← List.append_assoc]
  cases clear with
  | false =>
    rw [if_neg Bool.false_ne_true, List.append_nil]
    exact h.keep hindex rfl
  | true =>
    rw [if_pos rfl]
    cases type with
    | cpu => exact h.update hindex fun j hj => clearWord_untracked (.inl rfl) hj
    | cachedCpu => exact h.update hindex fun j hj => clearWord_untracked (.inr rfl) hj
    | gpu =>
      rw [clearUpdates, List.append_nil]
      exact h.keep hindex rfl
    | preflushable =>
      rw [clearUpdates, List.append_nil]
      exact h.keep hindex rfl

/-- **`FlushCachedWrites` keeps the counts.** -/
theorem flushCachedWrites_counted (hm : m.cpuAddr = base * bytesPerPage)
    (h : Counted updates (untrackedWith m.words base untracked)) :
    Counted (updates ++ m.flushCachedWrites.2)
      (untrackedWith m.flushCachedWrites.1.words base untracked) := by
  refine overWords_inv (I := fun words us =>
    Counted (updates ++ us) (untrackedWith words base untracked))
    (by rwa [List.append_nil]) fun words us c hc h => ?_
  obtain ⟨index, hindex, rfl⟩ := List.mem_map.mp hc
  dsimp only
  rw [hm, ← List.append_assoc]
  refine h.update (List.mem_range.mp hindex) fun j hj => ?_
  rw [BitVec.getLsbD_or]
  cases (words index).cachedCpu.getLsbD j <;> simp

end WordManager

/-! ## 8. Modified pages -/

/-- A page counts as modified, by the GPU if it is tracked too. -/
def PageBits.modified (type : StateType) (b : PageBits) : Bool :=
  match type with
  | .cpu => b.cpu
  | .gpu => b.gpu && !b.untracked
  | .cachedCpu => b.cachedCpu
  | .preflushable => b.preflushable

theorem modifiedBits_bit (hj : j < 64) : (modifiedBits type mask w).getLsbD j =
    (mask.getLsbD j && (w.bits j).modified type) := by
  cases type <;> simp [-getLsbD_eq_getElem, modifiedBits, PageBits.modified, PageWord.bits,
    hj, Bool.and_comm, Bool.and_left_comm]

/-- The runs that `IteratePages` finds in words one after another. -/
def wordRuns (word : Nat → BitVec 64) (first count : Nat) : List (Nat × Nat) :=
  (List.range' first count).flatMap fun w =>
    (iteratePages (word w)).map fun r => (w * pagesPerWord + r.1, r.2)

section Ranges

variable {word : Nat → BitVec 64} {first count : Nat} {r : Nat × Nat} {rs : List (Nat × Nat)}
  {m : WordManager} {p : Nat}

theorem mem_wordRuns (h : r ∈ wordRuns word first count) : ∃ w, first ≤ w ∧ w < first + count ∧
    w * 64 ≤ r.1 ∧ 0 < r.2 ∧ r.1 + r.2 ≤ w * 64 + 64 := by
  obtain ⟨w, hw, hr⟩ := mem_flatMap.mp h
  obtain ⟨s, hs, rfl⟩ := mem_map.mp hr
  obtain ⟨-, h2, h3⟩ := (iteratePages_runs (word w)).inside s hs
  rw [mem_range'_1] at hw
  refine ⟨w, hw.1, hw.2, Nat.le_add_right _ _, h2, ?_⟩
  dsimp only [pagesPerWord]
  omega

theorem wordRuns_ordered : OrderedRuns (wordRuns word first count) := by
  induction count generalizing first with
  | zero => exact List.Pairwise.nil
  | succ count ih =>
    rw [wordRuns, range'_succ, flatMap_cons]
    refine pairwise_append.mpr ⟨?_, ih, fun r hr s hs => ?_⟩
    · refine pairwise_map.mpr ((iteratePages_runs (word first)).ordered.imp fun h => ?_)
      dsimp only
      omega
    · obtain ⟨t, ht, rfl⟩ := mem_map.mp hr
      have hle := ((iteratePages_runs (word first)).inside t ht).2.2
      obtain ⟨w, hw, -, hs1, -⟩ := mem_wordRuns hs
      dsimp only [pagesPerWord]
      omega

theorem inRuns_wordRuns : InRuns (wordRuns word first count) p ↔
    (first ≤ p / 64 ∧ p / 64 < first + count) ∧ (word (p / 64)).getLsbD (p % 64) = true := by
  have hbit : ∀ w, (word w).getLsbD (p % 64) = true ↔
      ∃ r ∈ iteratePages (word w), r.1 ≤ p % 64 ∧ p % 64 < r.1 + r.2 := fun w =>
    (iteratePages_runs (word w)).covers (p % 64) (Nat.zero_le _) (Nat.mod_lt p (by decide))
  constructor
  · rintro ⟨r, hr, hin⟩
    obtain ⟨w, hw, hr⟩ := mem_flatMap.mp hr
    obtain ⟨s, hs, rfl⟩ := mem_map.mp hr
    have hle := ((iteratePages_runs (word w)).inside s hs).2.2
    rw [mem_range'_1] at hw
    dsimp only [pagesPerWord] at hin
    obtain rfl : p / 64 = w := by omega
    exact ⟨hw, (hbit _).mpr ⟨s, hs, by omega, by omega⟩⟩
  · rintro ⟨hw, hset⟩
    obtain ⟨s, hs, hin⟩ := (hbit _).mp hset
    refine ⟨_, mem_flatMap.mpr ⟨p / 64, mem_range'_1.mpr hw, mem_map.mpr ⟨s, hs, rfl⟩⟩, ?_⟩
    dsimp only [pagesPerWord]
    omega

theorem finish_foldl_addRun {released : List (Nat × Nat)} :
    (rs.foldl Pending.addRun ⟨some (r.1, r.1 + r.2), released⟩).finish =
      released ++ (joinRuns r rs).map fun r => (r.1, r.1 + r.2) := by
  induction rs generalizing r released with
  | nil => rfl
  | cons s rs ih =>
    rw [foldl_cons, joinRuns]
    by_cases htouch : r.1 + r.2 = s.1
    · have hadd : Pending.addRun ⟨some (r.1, r.1 + r.2), released⟩ s =
          ⟨some (r.1, r.1 + (r.2 + s.2)), released⟩ := by
        rw [← Nat.add_assoc]
        exact if_pos htouch
      rw [hadd, if_pos htouch]
      exact ih (r := (r.1, r.2 + s.2))
    · have hadd : Pending.addRun ⟨some (r.1, r.1 + r.2), released⟩ s =
          ⟨some (s.1, s.1 + s.2), released ++ [(r.1, r.1 + r.2)]⟩ := if_neg htouch
      rw [hadd, if_neg htouch, ih, List.map_cons, List.append_assoc]
      rfl

/-- The ranges that `ForEachModifiedRange` passes on. -/
def passedRuns : List (Nat × Nat) → List (Nat × Nat)
  | [] => []
  | r :: rs => joinRuns r rs

theorem finish_addRuns : (rs.foldl Pending.addRun ⟨none, []⟩).finish =
    (passedRuns rs).map fun r => (r.1, r.1 + r.2) := by
  cases rs with
  | nil => rfl
  | cons r rs =>
    rw [foldl_cons, Pending.addRun, finish_foldl_addRun, nil_append]
    rfl

theorem passedRuns_spec (h : OrderedRuns rs) (hpos : ∀ r ∈ rs, 0 < r.2) :
    OrderedRuns (passedRuns rs) ∧ (∀ i, InRuns (passedRuns rs) i ↔ InRuns rs i) ∧
      ∀ r ∈ passedRuns rs, 0 < r.2 := by
  cases rs with
  | nil => exact ⟨h, fun _ => Iff.rfl, hpos⟩
  | cons r rs =>
    obtain ⟨h1, h2, h3⟩ := joinRuns_spec h hpos
    exact ⟨h1, h2, fun s hs => (h3 s hs).2⟩

theorem foldl_wordRuns {updates : Nat → List Update} {us : List Update} {pending : Pending} :
    ((List.range' first count).foldl (fun (s : List Update × Pending) w =>
      (s.1 ++ updates w, (iteratePages (word w)).foldl
        (fun p run => p.addRun (w * pagesPerWord + run.1, run.2)) s.2)) (us, pending)).2 =
      (wordRuns word first count).foldl Pending.addRun pending := by
  induction count generalizing first us pending with
  | zero => rfl
  | succ count ih =>
    rw [wordRuns, range'_succ, foldl_cons, ih, flatMap_cons, foldl_append, foldl_map]
    rfl

theorem chunk_iff (hin : ∀ p, InChunk offset size p → first ≤ p / 64 ∧ p / 64 < first + count) :
    ((first ≤ p / 64 ∧ p / 64 < first + count) ∧
      (modifiedBits type (pageMask offset size (p / 64)) (m.words (p / 64))).getLsbD (p % 64) = true) ↔
      InChunk offset size p ∧ (m.bits p).modified type = true := by
  rw [modifiedBits_bit (Nat.mod_lt p (by decide)), pageMask_bit, Bool.and_eq_true,
    decide_eq_true_eq, WordManager.bits]
  exact ⟨fun h => h.2, fun h => ⟨hin p h.1, h⟩⟩

/-- **The ranges passed on** are apart from each other and hold the modified pages of the range. -/
theorem WordManager.forEachModifiedRange_ranges (m : WordManager) (type : StateType) (clear : Bool)
    (hsize : 0 < size) (hend : offset + size ≤ higherPageSize) :
    ∃ rs, (m.forEachModifiedRange type clear offset size).2.2 =
        rs.map (fun r => (m.cpuAddr + r.1 * bytesPerPage, r.2 * bytesPerPage)) ∧
      OrderedRuns rs ∧ (∀ r ∈ rs, 0 < r.2) ∧
      ∀ p, InRuns rs p ↔ InChunk offset size p ∧ (m.bits p).modified type = true := by
  obtain ⟨first, count, hcalls, -, hin⟩ := iterateWords_eq hsize hend
  have hpos : ∀ r ∈ wordRuns (fun w => modifiedBits type (pageMask offset size w) (m.words w))
      first count, 0 < r.2 := fun r hr => by
    obtain ⟨w, -, -, -, h, -⟩ := mem_wordRuns hr
    exact h
  obtain ⟨hordered, hruns, hpos'⟩ := passedRuns_spec wordRuns_ordered hpos
  refine ⟨_, ?_, hordered, hpos', fun p => ?_⟩
  · rw [forEachModifiedRange, hcalls, overWords_range]
    dsimp only
    rw [foldl_wordRuns, finish_addRuns, map_map]
    refine map_congr_left fun r _ => ?_
    dsimp only [Function.comp]
    rw [Nat.add_sub_cancel_left]
  · rw [hruns, inRuns_wordRuns, chunk_iff hin]

/-- **`IsRegionModified`** finds a modified page of the range if there is one. -/
theorem WordManager.isRegionModified_iff (hsize : 0 < size)
    (hend : offset + size ≤ higherPageSize) : m.isRegionModified type offset size = true ↔
      ∃ p, InChunk offset size p ∧ (m.bits p).modified type = true := by
  obtain ⟨first, count, hcalls, -, hin⟩ := iterateWords_eq hsize hend
  rw [isRegionModified, hcalls, any_eq_true]
  constructor
  · rintro ⟨c, hc, hword⟩
    obtain ⟨w, hw, rfl⟩ := mem_map.mp hc
    rw [mem_range'_1] at hw
    obtain ⟨j, hj, hbit⟩ := word_ne_zero_iff.mp (of_decide_eq_true hword)
    have hdiv : (w * 64 + j) / 64 = w := by omega
    have hmod : (w * 64 + j) % 64 = j := by omega
    refine ⟨w * 64 + j, (chunk_iff hin).mp ?_⟩
    rw [hdiv, hmod]
    exact ⟨hw, hbit⟩
  · rintro ⟨p, hp⟩
    obtain ⟨hw, hbit⟩ := (chunk_iff hin).mpr hp
    refine ⟨_, mem_map.mpr ⟨p / 64, mem_range'_1.mpr hw, rfl⟩, decide_eq_true ?_⟩
    exact word_ne_zero_iff.mpr ⟨p % 64, Nat.mod_lt p (by decide), hbit⟩

/-- One round of the loop of `ModifiedRegion`. -/
def regionStep (word : Nat → BitVec 64) (s : Nat × Nat) (w : Nat) : Nat × Nat :=
  if word w = 0 then s
  else (min s.1 (w * pagesPerWord + countrZero 64 (word w).toNat),
    w * pagesPerWord + (pagesPerWord - (word w).clz.toNat))

theorem regionStep_hull {s : Nat × Nat} {w : Nat} (hw : w < 16) (h : HullOf (2 ^ 64 - 1, 0)
      (fun p => (first ≤ p / 64 ∧ p / 64 < w) ∧ (word (p / 64)).getLsbD (p % 64) = true) 1 s)
    (hfirst : first ≤ w) :
    HullOf (2 ^ 64 - 1, 0)
      (fun p => (first ≤ p / 64 ∧ p / 64 < w + 1) ∧ (word (p / 64)).getLsbD (p % 64) = true) 1
      (regionStep word s w) := by
  have hsplit : ∀ p, ((first ≤ p / 64 ∧ p / 64 < w) ∧ (word (p / 64)).getLsbD (p % 64) = true ∨
      p / 64 = w ∧ (word w).getLsbD (p % 64) = true) ↔
      (first ≤ p / 64 ∧ p / 64 < w + 1) ∧ (word (p / 64)).getLsbD (p % 64) = true := by
    intro p
    constructor
    · rintro (⟨hp, hbit⟩ | ⟨hp, hbit⟩)
      · exact ⟨by omega, hbit⟩
      · exact ⟨by omega, hp ▸ hbit⟩
    · rintro ⟨hp, hbit⟩
      by_cases hpw : p / 64 = w
      · exact .inr ⟨hpw, hpw ▸ hbit⟩
      · exact .inl ⟨by omega, hbit⟩
  rw [regionStep]
  split
  · rename_i hzero
    refine h.congr fun p => (hsplit p).symm.trans ?_ |>.symm
    refine ⟨fun hp => hp.resolve_right fun ⟨_, hbit⟩ => ?_, .inl⟩
    rw [hzero] at hbit
    simp at hbit
  · rename_i hne
    obtain ⟨hlow, hone⟩ := countrZero_bits (word w)
    obtain ⟨hlt, hlo⟩ := hone hne
    obtain ⟨hlt', hhi, hhigh⟩ := clz_spec hne
    generalize countrZero 64 (word w).toNat = lo at *
    generalize (word w).clz.toNat = z at *
    have hlo' : (w * 64 + lo) / 64 = w ∧ (word w).getLsbD ((w * 64 + lo) % 64) = true := by
      have hmod : (w * 64 + lo) % 64 = lo := by omega
      rw [hmod]
      exact ⟨by omega, hlo⟩
    have hhi' : (w * 64 + (63 - z)) / 64 = w ∧ (word w).getLsbD ((w * 64 + (63 - z)) % 64) = true := by
      have hmod : (w * 64 + (63 - z)) % 64 = 64 - 1 - z := by omega
      rw [hmod]
      exact ⟨by omega, hhi⟩
    have hbounds : ∀ p, p / 64 = w ∧ (word w).getLsbD (p % 64) = true →
        w * 64 + lo ≤ p ∧ p ≤ w * 64 + (63 - z) := by
      rintro p ⟨hp, hbit⟩
      constructor
      · by_contra hlt
        rw [hlow (p % 64) (by omega)] at hbit
        cases hbit
      · by_contra hgt
        have hzero := hhigh (63 - p % 64) (by omega)
        have hplace : 64 - 1 - (63 - p % 64) = p % 64 := by omega
        rw [hplace, hbit] at hzero
        cases hzero
    have hunion := h.union (T := fun p => p / 64 = w ∧ (word w).getLsbD (p % 64) = true)
      hlo' hhi' hbounds (by omega)
    have hend : s.2 ≤ w * 64 := by
      rcases h with ⟨rfl, -⟩ | ⟨_, hi, -, ⟨hhi, -⟩, -, rfl⟩
      · exact Nat.zero_le _
      · dsimp only
        omega
    have hpair : (min s.1 (w * pagesPerWord + lo), w * pagesPerWord + (pagesPerWord - z)) =
        (min s.1 ((w * 64 + lo) * 1), max s.2 ((w * 64 + (63 - z) + 1) * 1)) := by
      unfold pagesPerWord
      refine Prod.ext ?_ ?_
      · rw [Nat.mul_one]
      · dsimp only
        omega
    rw [hpair]
    exact hunion.congr hsplit

theorem foldl_regionStep_hull (hcount : first + count ≤ 16) :
    HullOf (2 ^ 64 - 1, 0) (fun p => (first ≤ p / 64 ∧ p / 64 < first + count) ∧
      (word (p / 64)).getLsbD (p % 64) = true) 1
      ((List.range' first count).foldl (regionStep word) (2 ^ 64 - 1, 0)) := by
  induction count with
  | zero => exact .inl ⟨rfl, fun p hp => by omega⟩
  | succ count ih =>
    rw [range'_1_concat, foldl_append]
    have hlt : first + count < 16 := by omega
    exact regionStep_hull hlt (ih (by omega)) (Nat.le_add_right _ _)

/-- **`ModifiedRegion`** is the hull of the modified pages of the range. -/
theorem WordManager.modifiedRegion_hull (m : WordManager) (type : StateType) (hsize : 0 < size)
    (hend : offset + size ≤ higherPageSize) :
    HullOf (0, 0) (fun p => InChunk offset size p ∧ (m.bits p).modified type = true) bytesPerPage
      (m.modifiedRegion type offset size) := by
  obtain ⟨first, count, hcalls, hcount, hin⟩ := iterateWords_eq hsize hend
  have hfold : HullOf (2 ^ 64 - 1, 0) (fun p => InChunk offset size p ∧ (m.bits p).modified type = true) 1
      ((List.range' first count).foldl
        (regionStep fun w => modifiedBits type (pageMask offset size w) (m.words w))
        (2 ^ 64 - 1, 0)) :=
    (foldl_regionStep_hull hcount).congr fun p => chunk_iff hin
  rw [modifiedRegion, hcalls, foldl_map]
  exact hfold.scaled

end Ranges

end Yuzu.VideoCore
