/-
  File:      Yuzu/Core/DevicePageCaching.lean
  Subject:   DeviceMemoryManager::UpdatePagesCachedCount (core/device_memory_manager.inc).

  Every backed page of a range has its count changed by one, and where a count begins or stops to be
  zero, the process of the page is told with `MarkRegionCaching`. Pages that follow each other are told
  in one call. A call is read as the marks it makes, page by page.

  The loop compares the process of each page with that of the first page of the range, not with that of
  the page before. And a batch that a page of another kind ends is told without looking whether there is
  a process.
-/
import Mathlib.Algebra.Order.BigOperators.Group.List
import Mathlib.Algebra.Order.Ring.Nat
import Mathlib.Data.List.Range
import Yuzu.Core.DeviceMemory

namespace Yuzu.Core

open Function List Option

/-! ## 1. The update -/

/-- A call of `MarkRegionCaching`. -/
structure CachingCall (Mem : Type) where
  memory : Option Mem
  address : Nat
  size : Nat
  cached : Bool
  deriving DecidableEq

/-- The backings of the device pages, the processes and the counts. A null pointer is `none`. -/
structure PageCaching (Mem : Type) where
  cpuBackingAddress : Nat → Nat
  registeredProcesses : Nat → Option Mem
  cachedPages : Nat → UInt8

/-- What the loop of `UpdatePagesCachedCount` keeps. -/
structure CachingBatch (Mem : Type) where
  uncacheBegin : Nat := 0
  cacheBegin : Nat := 0
  uncacheBytes : Nat := 0
  cacheBytes : Nat := 0
  memory : Option Mem
  oldVpage : Nat
  counts : Nat → UInt8
  calls : List (CachingCall Mem) := []

namespace CachingBatch

variable {Mem : Type}

/-- `release_pending`. -/
def releasePending (b : CachingBatch Mem) : CachingBatch Mem :=
  let b :=
    if 0 < b.uncacheBytes then
      { b with
        calls := if b.memory.isSome then
          b.calls ++ [⟨b.memory, b.uncacheBegin <<< pageBits, b.uncacheBytes, false⟩] else b.calls
        uncacheBytes := 0 }
    else b
  if 0 < b.cacheBytes then
    { b with
      calls := if b.memory.isSome then
        b.calls ++ [⟨b.memory, b.cacheBegin <<< pageBits, b.cacheBytes, true⟩] else b.calls
      cacheBytes := 0 }
  else b

/-- The call that ends the batch of pages that stop to be cached. -/
def endUncache (b : CachingBatch Mem) : CachingBatch Mem :=
  { b with
    calls := b.calls ++ [⟨b.memory, b.uncacheBegin <<< pageBits, b.uncacheBytes, false⟩]
    uncacheBytes := 0 }

/-- The call that ends the batch of pages that begin to be cached. -/
def endCache (b : CachingBatch Mem) : CachingBatch Mem :=
  { b with
    calls := b.calls ++ [⟨b.memory, b.cacheBegin <<< pageBits, b.cacheBytes, true⟩]
    cacheBytes := 0 }

/-- The first batch, once a page's new count was stored: it goes on, begins, or ends. -/
def countUncache (b : CachingBatch Mem) (count : UInt8) (vpage : Nat) : CachingBatch Mem :=
  if count = 0 then
    { b with
      uncacheBegin := if b.uncacheBytes = 0 then vpage else b.uncacheBegin
      uncacheBytes := b.uncacheBytes + pageSize }
  else if 0 < b.uncacheBytes then b.endUncache
  else b

/-- The second batch, likewise. -/
def countCache (b : CachingBatch Mem) (delta : Int) (count : UInt8) (vpage : Nat) : CachingBatch Mem :=
  if count = 1 ∧ 0 < delta then
    { b with
      cacheBegin := if b.cacheBytes = 0 then vpage else b.cacheBegin
      cacheBytes := b.cacheBytes + pageSize }
  else if 0 < b.cacheBytes then b.endCache
  else b

/-- The store of a page's new count. -/
def stored (b : CachingBatch Mem) (page vpage : Nat) (count : UInt8) : CachingBatch Mem :=
  { b with oldVpage := vpage, counts := update b.counts page count }

/-- The batches for a page whose new count was stored. -/
def counted (b : CachingBatch Mem) (delta : Int) (count : UInt8) (vpage : Nat) : CachingBatch Mem :=
  (b.countUncache count vpage).countCache delta count vpage

end CachingBatch

namespace PageCaching

variable {Mem : Type}

/-- `guest_max_as_bits`. -/
def guestMaxAsBits : Nat := 39

/-- The process of a device page, by `ExtractCPUBacking`. -/
def asid (m : PageCaching Mem) (page : Nat) : Nat := m.cpuBackingAddress page >>> guestMaxAsBits

/-- The CPU page of a device page, by `ExtractCPUBacking`. -/
def vpage (m : PageCaching Mem) (page : Nat) : Nat :=
  (m.cpuBackingAddress page % 2 ^ guestMaxAsBits) >>> pageBits

/-- A turn of the loop. -/
def visit (m : PageCaching Mem) (first : Nat) (delta : Int) (b : CachingBatch Mem) (page : Nat) :
    CachingBatch Mem :=
  if m.vpage page = 0 then b.releasePending
  else
    let b :=
      if first ≠ m.asid page then
        { b.releasePending with memory := m.registeredProcesses (m.asid page) }
      else b
    let b := if m.vpage page ≠ (b.oldVpage + 1) % 2 ^ 64 then b.releasePending else b
    let count := b.counts page + UInt8.ofInt delta
    (b.stored page (m.vpage page) count).counted delta count (m.vpage page)

/-- The loop over `n` pages. -/
def visits (m : PageCaching Mem) (first : Nat) (delta : Int) :
    Nat → Nat → CachingBatch Mem → CachingBatch Mem
  | 0, _, b => b
  | n + 1, page, b => visits m first delta n (page + 1) (m.visit first delta b page)

/-- The first page of a range. -/
def firstPage (addr : Nat) : Nat := addr >>> pageBits

/-- The pages of a range, up to `page_end`. -/
def pageCount (addr size : Nat) : Nat := (addr + size + (pageSize - 1)) / pageSize - firstPage addr

/-- `UpdatePagesCachedCount`: the counts and the calls. -/
def updatePagesCachedCount (m : PageCaching Mem) (addr size : Nat) (delta : Int) : CachingBatch Mem :=
  let page := firstPage addr
  (m.visits (m.asid page) delta (pageCount addr size) page
    { memory := m.registeredProcesses (m.asid page)
      oldVpage := (m.vpage page + (2 ^ 64 - 1)) % 2 ^ 64
      counts := m.cachedPages }).releasePending

end PageCaching

/-! ## 2. What is claimed -/

/-- A CPU page of a process that is marked as cached or not. -/
structure Mark (Mem : Type) where
  memory : Option Mem
  vpage : Nat
  cached : Bool
  deriving DecidableEq

/-- The CPU pages of a region. -/
def pagesFrom (begin bytes : Nat) : List Nat := (List.range (bytes / pageSize)).map (begin + ·)

/-- The marks of a call. -/
def CachingCall.marks {Mem : Type} (c : CachingCall Mem) : List (Mark Mem) :=
  (pagesFrom (c.address / pageSize) c.size).map (⟨c.memory, ·, c.cached⟩)

/-- The marks of all calls, in order. -/
def CachingBatch.marks {Mem : Type} (b : CachingBatch Mem) : List (Mark Mem) :=
  b.calls.flatMap CachingCall.marks

namespace PageCaching

variable {Mem : Type}

/-- The page has a CPU page behind it. -/
def Backed (m : PageCaching Mem) (page : Nat) : Prop := m.vpage page ≠ 0

instance (m : PageCaching Mem) (page : Nat) : Decidable (m.Backed page) :=
  inferInstanceAs (Decidable (¬m.vpage page = 0))

/-- The new count of a page. -/
def newCount (m : PageCaching Mem) (delta : Int) (page : Nat) : UInt8 :=
  m.cachedPages page + UInt8.ofInt delta

/-- **What becomes of a page**: it stops to be cached where its count became 0, and begins where the
count went from 0 to 1. -/
def change (m : PageCaching Mem) (delta : Int) (page : Nat) : Option Bool :=
  if m.newCount delta page = 0 then some false
  else if m.cachedPages page = 0 ∧ m.newCount delta page = 1 then some true
  else none

/-- The marks that a page should get: on the memory of its own process, if there is one. -/
def dueMarks (m : PageCaching Mem) (delta : Int) (page : Nat) : List (Mark Mem) :=
  if m.Backed page then
    match m.change delta page, m.registeredProcesses (m.asid page) with
    | some cached, some memory => [⟨some memory, m.vpage page, cached⟩]
    | _, _ => []
  else []

/-- **The notifications are right**: the count of each backed page of the range is changed once, and the
calls mark the pages whose count begins or stops to be zero, each on its own process. -/
def NotifiesRight (m : PageCaching Mem) (addr size : Nat) (delta : Int) : Prop :=
  (∀ page, (m.updatePagesCachedCount addr size delta).counts page =
    if (firstPage addr ≤ page ∧ page < firstPage addr + pageCount addr size) ∧ m.Backed page then
      m.newCount delta page else m.cachedPages page) ∧
  ((m.updatePagesCachedCount addr size delta).marks).Perm
    ((List.range' (firstPage addr) (pageCount addr size)).flatMap (m.dueMarks delta))

/-- The pages of a range. -/
def InPages (start n page : Nat) : Prop := start ≤ page ∧ page < start + n

/-- A changed page of the first page's process does not come behind one of another process, but where
both have the same memory. -/
def OwnMemory (m : PageCaching Mem) (delta : Int) (start n : Nat) : Prop :=
  ∀ p q, InPages start n p → InPages start n q → q < p → m.Backed p → m.Backed q →
    m.asid p = m.asid start → m.asid q ≠ m.asid start →
    (∀ r, q < r → r < p → m.Backed r → m.asid r = m.asid start) → m.change delta p ≠ none →
    m.registeredProcesses (m.asid q) = m.registeredProcesses (m.asid start)

/-- A changed page that is followed by a page of the first page's process, at the next CPU page and with
another change, has a process. -/
def NoNullCall (m : PageCaching Mem) (delta : Int) (start n : Nat) : Prop :=
  ∀ p, InPages start n p → InPages start n (p + 1) → m.Backed p → m.Backed (p + 1) →
    m.asid (p + 1) = m.asid start → m.vpage (p + 1) = m.vpage p + 1 → m.change delta p ≠ none →
    m.change delta (p + 1) ≠ m.change delta p → m.registeredProcesses (m.asid p) ≠ none

end PageCaching

/-! ## 3. What is pending -/

namespace CachingBatch

variable {Mem : Type} {b : CachingBatch Mem} {count : UInt8} {delta : Int} {vpage : Nat}

/-- The pages that the batches hold. -/
def pending (b : CachingBatch Mem) : List (Nat × Bool) :=
  (pagesFrom b.uncacheBegin b.uncacheBytes).map (·, false) ++
    (pagesFrom b.cacheBegin b.cacheBytes).map (·, true)

/-- The marks of what is pending, on the memory of the batch. -/
def pendingMarks (b : CachingBatch Mem) : List (Mark Mem) :=
  b.pending.map fun p => ⟨b.memory, p.1, p.2⟩

/-- Which batch holds pages. -/
def kind (b : CachingBatch Mem) : Option Bool :=
  if 0 < b.uncacheBytes then some false else if 0 < b.cacheBytes then some true else none

/-- **One batch at a time** holds pages, and they end at the page that was visited last. -/
structure Sound (b : CachingBatch Mem) : Prop where
  uncache : ∃ k, b.uncacheBytes = k * pageSize ∧
    (0 < k → b.cacheBytes = 0 ∧ b.oldVpage + 1 = b.uncacheBegin + k)
  cache : ∃ k, b.cacheBytes = k * pageSize ∧ (0 < k → b.oldVpage + 1 = b.cacheBegin + k)

theorem pagesFrom_zero (begin : Nat) : pagesFrom begin 0 = [] := rfl

theorem pagesFrom_succ (begin k : Nat) :
    pagesFrom begin (k * pageSize + pageSize) = pagesFrom begin (k * pageSize) ++ [begin + k] := by
  have hpos : 0 < pageSize := by decide
  rw [pagesFrom, pagesFrom, ← Nat.succ_mul, Nat.mul_div_cancel _ hpos, Nat.mul_div_cancel _ hpos,
    range_succ, map_append, map_singleton]

theorem marks_call (memory : Option Mem) (begin bytes : Nat) (cached : Bool) :
    (CachingCall.mk memory (begin <<< pageBits) bytes cached).marks =
      ((pagesFrom begin bytes).map (·, cached)).map fun p => ⟨memory, p.1, p.2⟩ := by
  have hshift : begin <<< pageBits / pageSize = begin := by
    rw [Nat.shiftLeft_eq]
    exact Nat.mul_div_cancel _ (by decide)
  rw [CachingCall.marks, List.map_map]
  rw [hshift]
  rfl

theorem marks_append (c : CachingCall Mem) (calls : List (CachingCall Mem)) :
    (calls ++ [c]).flatMap CachingCall.marks = calls.flatMap CachingCall.marks ++ c.marks := by
  rw [flatMap_append, flatMap_singleton]

/-- **What `release_pending` does.** -/
theorem releasePending_spec (b : CachingBatch Mem) :
    b.releasePending.marks = b.marks ++ (if b.memory.isSome then b.pendingMarks else []) ∧
      b.releasePending.uncacheBytes = 0 ∧ b.releasePending.cacheBytes = 0 ∧
      b.releasePending.memory = b.memory ∧ b.releasePending.oldVpage = b.oldVpage ∧
      b.releasePending.counts = b.counts := by
  obtain ⟨uncacheBegin, cacheBegin, uncacheBytes, cacheBytes, memory, oldVpage, counts, calls⟩ := b
  rcases Nat.eq_zero_or_pos uncacheBytes with rfl | hu <;>
  rcases Nat.eq_zero_or_pos cacheBytes with rfl | hc <;>
  cases memory <;>
  simp_all [releasePending, marks, pendingMarks, pending, pagesFrom_zero, marks_call]

theorem pending_of_kind_none (h : b.kind = none) : b.pending = [] := by
  rw [kind] at h
  split at h
  · cases h
  · rename_i hu
    split at h
    · cases h
    · rename_i hc
      rw [pending, Nat.eq_zero_of_not_pos hu, Nat.eq_zero_of_not_pos hc]
      rfl

theorem kind_of_zero (hu : b.uncacheBytes = 0) (hc : b.cacheBytes = 0) : b.kind = none := by
  rw [kind, hu, hc]
  rfl

theorem sound_of_zero (hu : b.uncacheBytes = 0) (hc : b.cacheBytes = 0) : b.Sound :=
  ⟨⟨0, by rw [hu, Nat.zero_mul], fun h => absurd h (Nat.lt_irrefl 0)⟩,
    ⟨0, by rw [hc, Nat.zero_mul], fun h => absurd h (Nat.lt_irrefl 0)⟩⟩

/-- The change that a new count stands for. -/
def kindOf (delta : Int) (count : UInt8) : Option Bool :=
  if count = 0 then some false else if count = 1 ∧ 0 < delta then some true else none

theorem uncache_spec {k : Nat} (hu : b.uncacheBytes = k * pageSize) (hk : 0 < k) (hc : b.cacheBytes = 0)
    (hold : b.oldVpage + 1 = b.uncacheBegin + k) : b.Sound ∧ b.kind = some false ∧
      b.pending = (pagesFrom b.uncacheBegin (k * pageSize)).map (·, false) := by
  refine ⟨⟨⟨k, hu, fun _ => ⟨hc, hold⟩⟩, ⟨0, by rw [hc, Nat.zero_mul], fun h => absurd h (Nat.lt_irrefl 0)⟩⟩,
    if_pos ?_, ?_⟩
  · rw [hu]
    exact Nat.mul_pos hk (by decide)
  · rw [pending, hu, hc, pagesFrom_zero, map_nil, append_nil]

theorem cache_spec {l : Nat} (hu : b.uncacheBytes = 0) (hc : b.cacheBytes = l * pageSize) (hl : 0 < l)
    (hold : b.oldVpage + 1 = b.cacheBegin + l) : b.Sound ∧ b.kind = some true ∧
      b.pending = (pagesFrom b.cacheBegin (l * pageSize)).map (·, true) := by
  refine ⟨⟨⟨0, by rw [hu, Nat.zero_mul], fun h => absurd h (Nat.lt_irrefl 0)⟩, ⟨l, hc, fun _ => hold⟩⟩, ?_, ?_⟩
  · rw [kind, hu, hc, if_neg (Nat.lt_irrefl 0), if_pos (Nat.mul_pos hl (by decide))]
  · rw [pending, hu, hc, pagesFrom_zero, map_nil, nil_append]

theorem pagesFrom_one (begin : Nat) : pagesFrom begin pageSize = [begin] := by
  have h := pagesFrom_succ begin 0
  exact h

/-- What a page that is counted does to the batches: the one of its kind goes on, the other one ends. -/
structure Counted (b b' : CachingBatch Mem) (vpage : Nat) (kind : Option Bool) : Prop where
  sound : b'.Sound
  kind_eq : b'.kind = kind
  memory : b'.memory = b.memory
  oldVpage : b'.oldVpage = vpage
  counts : b'.counts = b.counts
  goesOn : b.kind ≠ none → b.kind = kind →
    b'.marks = b.marks ∧ b'.pending = b.pending ++ kind.toList.map (vpage, ·)
  ends : b.kind = none ∨ b.kind ≠ kind →
    b'.marks = b.marks ++ b.pendingMarks ∧ b'.pending = kind.toList.map (vpage, ·)

theorem not_both (h : count = 0) : ¬(count = 1 ∧ 0 < delta) := by
  rw [h]
  exact fun h => absurd h.1 (by decide)

/-- **A page that is counted**, with nothing pending. -/
theorem counted_fresh (hu : b.uncacheBytes = 0) (hc : b.cacheBytes = 0) (hold : b.oldVpage = vpage) :
    Counted b (b.counted delta count vpage) vpage (kindOf delta count) := by
  have hkind := kind_of_zero hu hc
  have hmarks : b.pendingMarks = [] := by rw [pendingMarks, pending_of_kind_none hkind, map_nil]
  have hnu : ¬0 < b.uncacheBytes := by rw [hu]; exact Nat.lt_irrefl 0
  have hnc : ¬0 < b.cacheBytes := by rw [hc]; exact Nat.lt_irrefl 0
  rw [kindOf, counted, countUncache]
  by_cases h0 : count = 0
  · have e : (CachingBatch.mk (if b.uncacheBytes = 0 then vpage else b.uncacheBegin) b.cacheBegin
        (b.uncacheBytes + pageSize) b.cacheBytes b.memory b.oldVpage b.counts b.calls).countCache
          delta count vpage =
        { b with uncacheBegin := vpage, uncacheBytes := pageSize } := by
      rw [countCache, if_neg (not_both h0), if_neg hnc, if_pos hu, hu, Nat.zero_add]
    rw [if_pos h0, if_pos h0, e]
    obtain ⟨hs, hkind', hp⟩ := uncache_spec
      (b := { b with uncacheBegin := vpage, uncacheBytes := pageSize }) (k := 1)
      (Nat.one_mul _).symm Nat.one_pos hc (congrArg (· + 1) hold)
    refine ⟨hs, hkind', rfl, hold, rfl, fun h => absurd hkind h, fun _ => ?_⟩
    rw [hp, hmarks, append_nil, Nat.one_mul, pagesFrom_one]
    exact ⟨rfl, rfl⟩
  · rw [if_neg h0, if_neg h0, if_neg hnu, countCache]
    by_cases h1 : count = 1 ∧ 0 < delta
    · rw [if_pos h1, if_pos h1, if_pos hc, hc, Nat.zero_add]
      obtain ⟨hs, hkind', hp⟩ := cache_spec
        (b := { b with cacheBegin := vpage, cacheBytes := pageSize }) (l := 1)
        hu (Nat.one_mul _).symm Nat.one_pos (congrArg (· + 1) hold)
      refine ⟨hs, hkind', rfl, hold, rfl, fun h => absurd hkind h, fun _ => ?_⟩
      rw [hp, hmarks, append_nil, Nat.one_mul, pagesFrom_one]
      exact ⟨rfl, rfl⟩
    · rw [if_neg h1, if_neg h1, if_neg hnc]
      refine ⟨sound_of_zero hu hc, hkind, rfl, hold, rfl, fun h => absurd hkind h, fun _ => ?_⟩
      rw [hmarks, append_nil, pending_of_kind_none hkind]
      exact ⟨rfl, rfl⟩

theorem Counted.after {b1 b' : CachingBatch Mem} {kind : Option Bool} (h : Counted b1 b' vpage kind)
    (hkind1 : b1.kind = none) (hmemory : b1.memory = b.memory) (hcounts : b1.counts = b.counts)
    (hmarks : b1.marks = b.marks ++ b.pendingMarks) (hkind : b.kind ≠ kind) :
    Counted b b' vpage kind := by
  obtain ⟨hm, hp⟩ := h.ends (.inl hkind1)
  have hnone : b1.pendingMarks = [] := by rw [pendingMarks, pending_of_kind_none hkind1, map_nil]
  refine ⟨h.sound, h.kind_eq, h.memory.trans hmemory, h.oldVpage, h.counts.trans hcounts,
    fun _ e => absurd e hkind, fun _ => ⟨?_, hp⟩⟩
  rw [hm, hmarks, hnone, append_nil]

/-- A page that is counted, while the first batch holds pages. -/
theorem counted_uncache {k : Nat} (hu : b.uncacheBytes = k * pageSize) (hk : 0 < k) (hc : b.cacheBytes = 0)
    (hold : b.oldVpage = vpage) (hnext : vpage = b.uncacheBegin + k) :
    Counted b (b.counted delta count vpage) vpage (kindOf delta count) := by
  have hbytes : 0 < b.uncacheBytes := by
    rw [hu]
    exact Nat.mul_pos hk (by decide)
  have hkind : b.kind = some false := if_pos hbytes
  have hpending : b.pending = (pagesFrom b.uncacheBegin (k * pageSize)).map (·, false) := by
    rw [pending, hu, hc, pagesFrom_zero, map_nil, append_nil]
  by_cases h0 : count = 0
  · have e : b.counted delta count vpage = { b with uncacheBytes := b.uncacheBytes + pageSize } := by
      rw [counted, countUncache, if_pos h0, countCache, if_neg (not_both h0), if_neg (Nat.ne_of_gt hbytes)]
      exact if_neg (by rw [hc]; exact Nat.lt_irrefl 0)
    obtain ⟨hs, hkind', hp⟩ := uncache_spec (b := { b with uncacheBytes := b.uncacheBytes + pageSize })
      (k := k + 1) (by rw [Nat.succ_mul, ← hu]) (Nat.succ_pos k) hc
      (by dsimp only; rw [hold, hnext, Nat.add_assoc])
    rw [kindOf, if_pos h0, e]
    refine ⟨hs, hkind', rfl, hold, rfl, fun _ _ => ?_, fun h => ?_⟩
    · rw [hp, Nat.succ_mul, hpending, pagesFrom_succ, map_append, ← hnext]
      exact ⟨rfl, rfl⟩
    · rw [hkind] at h
      simp at h
  · have e : b.counted delta count vpage = b.endUncache.counted delta count vpage := by
      rw [counted, counted, countUncache, countUncache, if_neg h0, if_neg h0, if_pos hbytes]
      exact congrArg (countCache · delta count vpage) (if_neg (Nat.lt_irrefl 0)).symm
    have hmarks : b.endUncache.marks = b.marks ++ b.pendingMarks := by
      rw [marks, endUncache, marks_append, marks_call, pendingMarks, hpending, hu]
      rfl
    rw [e]
    refine (counted_fresh (b := b.endUncache) rfl hc hold).after (kind_of_zero rfl hc) rfl rfl hmarks ?_
    rw [hkind, kindOf, if_neg h0]
    split <;> simp

/-- A page that is counted, while the second batch holds pages. -/
theorem counted_cache {l : Nat} (hu : b.uncacheBytes = 0) (hc : b.cacheBytes = l * pageSize) (hl : 0 < l)
    (hold : b.oldVpage = vpage) (hnext : vpage = b.cacheBegin + l) :
    Counted b (b.counted delta count vpage) vpage (kindOf delta count) := by
  have hnu : ¬0 < b.uncacheBytes := by rw [hu]; exact Nat.lt_irrefl 0
  have hbytes : 0 < b.cacheBytes := by
    rw [hc]
    exact Nat.mul_pos hl (by decide)
  have hkind : b.kind = some true := by rw [kind, if_neg hnu, if_pos hbytes]
  have hpending : b.pending = (pagesFrom b.cacheBegin (l * pageSize)).map (·, true) := by
    rw [pending, hu, hc, pagesFrom_zero, map_nil, nil_append]
  by_cases h1 : count = 1 ∧ 0 < delta
  · have h0 : ¬count = 0 := fun h0 => not_both h0 h1
    have e : b.counted delta count vpage = { b with cacheBytes := b.cacheBytes + pageSize } := by
      rw [counted, countUncache, if_neg h0, if_neg hnu, countCache, if_pos h1, if_neg (Nat.ne_of_gt hbytes)]
    obtain ⟨hs, hkind', hp⟩ := cache_spec (b := { b with cacheBytes := b.cacheBytes + pageSize })
      (l := l + 1) hu (by rw [Nat.succ_mul, ← hc]) (Nat.succ_pos l)
      (by dsimp only; rw [hold, hnext, Nat.add_assoc])
    rw [kindOf, if_neg h0, if_pos h1, e]
    refine ⟨hs, hkind', rfl, hold, rfl, fun _ _ => ?_, fun h => ?_⟩
    · rw [hp, Nat.succ_mul, hpending, pagesFrom_succ, map_append, ← hnext]
      exact ⟨rfl, rfl⟩
    · rw [hkind] at h
      simp at h
  · have e : b.counted delta count vpage = b.endCache.counted delta count vpage := by
      rw [counted, counted, countUncache, countUncache]
      by_cases h0 : count = 0
      · rw [if_pos h0, if_pos h0, countCache, countCache, if_neg h1, if_neg h1]
        exact (if_pos hbytes).trans (if_neg (Nat.lt_irrefl 0)).symm
      · rw [if_neg h0, if_neg h0, if_neg hnu, if_neg (show ¬0 < b.endCache.uncacheBytes from hnu), countCache,
          countCache, if_neg h1, if_neg h1, if_pos hbytes]
        exact (if_neg (Nat.lt_irrefl 0)).symm
    have hmarks : b.endCache.marks = b.marks ++ b.pendingMarks := by
      rw [marks, endCache, marks_append, marks_call, pendingMarks, hpending, hc]
      rfl
    rw [e]
    refine (counted_fresh (b := b.endCache) hu rfl hold).after (kind_of_zero hu rfl) rfl rfl hmarks ?_
    rw [hkind, kindOf]
    split
    · simp
    · simp

/-- **A page that is counted**, whatever is pending. `b` has the page as the last one visited, and the
pages that are pending end in front of it. -/
theorem counted_spec (h : b.Sound) (hnext : b.kind ≠ none → b.oldVpage + 1 = vpage) :
    Counted { b with oldVpage := vpage }
      (({ b with oldVpage := vpage } : CachingBatch Mem).counted delta count vpage) vpage
      (kindOf delta count) := by
  obtain ⟨k, hu, huncache⟩ := h.uncache
  obtain ⟨l, hc, hcache⟩ := h.cache
  have hpage : 0 < pageSize := by decide
  rcases Nat.eq_zero_or_pos k with rfl | hk
  · rw [Nat.zero_mul] at hu
    rcases Nat.eq_zero_or_pos l with rfl | hl
    · rw [Nat.zero_mul] at hc
      exact counted_fresh hu hc rfl
    · have hkind : b.kind = some true := by
        rw [kind, hu, hc, if_neg (Nat.lt_irrefl 0), if_pos (Nat.mul_pos hl hpage)]
      have hvpage := hnext (by rw [hkind]; exact some_ne_none true)
      exact counted_cache hu hc hl rfl (by rw [← hvpage]; exact hcache hl)
  · obtain ⟨hc, hold⟩ := huncache hk
    have hkind : b.kind = some false := if_pos (by rw [hu]; exact Nat.mul_pos hk hpage)
    have hvpage := hnext (by rw [hkind]; exact some_ne_none false)
    exact counted_uncache hu hk hc rfl (by rw [← hvpage]; exact hold)

end CachingBatch

/-! ## 4. The loop -/

namespace PageCaching

variable {Mem : Type} {m : PageCaching Mem} {delta : Int} {first n page : Nat} {b : CachingBatch Mem}

/-- A batch that ends with a CPU page is told without a look at the process: the next pages go on with it,
and then one of another kind ends it. -/
def flushedInline (m : PageCaching Mem) (first : Nat) (delta : Int) (cached : Bool) : Nat → Nat → Nat → Bool
  | 0, _, _ => false
  | n + 1, page, last =>
    decide (m.Backed page ∧ m.asid page = first ∧ m.vpage page = last + 1) &&
      (decide (m.change delta page ≠ some cached) ||
        flushedInline m first delta cached n (page + 1) (m.vpage page))

/-- The memory that a page's marks go to, from that of the page before. -/
def nextMemory (m : PageCaching Mem) (first : Nat) (memory : Option Mem) (page : Nat) : Option Mem :=
  if m.asid page ≠ first then m.registeredProcesses (m.asid page) else memory

/-- The marks that are made of the page, and with which memory. -/
def marksOf (m : PageCaching Mem) (first : Nat) (delta : Int) (memory : Option Mem) (n page : Nat) :
    List (Mark Mem) :=
  match m.change delta page with
  | some cached =>
    if memory.isSome || m.flushedInline first delta cached n (page + 1) (m.vpage page) then
      [⟨memory, m.vpage page, cached⟩]
    else []
  | none => []

/-- The marks that are made of `n` pages. -/
def madeMarks (m : PageCaching Mem) (first : Nat) (delta : Int) : Option Mem → Nat → Nat → List (Mark Mem)
  | _, 0, _ => []
  | memory, n + 1, page =>
    if m.Backed page then
      m.marksOf first delta (m.nextMemory first memory page) n page ++
        madeMarks m first delta (m.nextMemory first memory page) n (page + 1)
    else madeMarks m first delta memory n (page + 1)

/-- The marks that come of what is pending. -/
def pendingMade (m : PageCaching Mem) (first : Nat) (delta : Int) (b : CachingBatch Mem) (n page : Nat) :
    List (Mark Mem) :=
  match b.kind with
  | some cached =>
    if b.memory.isSome || m.flushedInline first delta cached n page b.oldVpage then b.pendingMarks else []
  | none => []

theorem vpage_lt (m : PageCaching Mem) (page : Nat) : m.vpage page < 2 ^ 27 := by
  rw [vpage, Nat.shiftRight_eq_div_pow]
  have : m.cpuBackingAddress page % 2 ^ guestMaxAsBits < 2 ^ 39 := Nat.mod_lt _ (by decide)
  rw [pageBits]
  omega

/-- With a change by one, the code's test of the new count is the change of the page. -/
theorem kindOf_newCount (hdelta : delta = 1 ∨ delta = -1) :
    CachingBatch.kindOf delta (m.newCount delta page) = m.change delta page := by
  rw [CachingBatch.kindOf, change]
  by_cases h0 : m.newCount delta page = 0
  · rw [if_pos h0, if_pos h0]
  · rw [if_neg h0, if_neg h0]
    refine if_congr ?_ rfl rfl
    rw [newCount] at h0 ⊢
    generalize m.cachedPages page = old at *
    rcases hdelta with rfl | rfl
    · constructor
      · intro ⟨h, _⟩
        refine ⟨?_, h⟩
        have e : old = old + UInt8.ofInt 1 - 1 := by
          exact (UInt8.add_sub_cancel old 1).symm
        rw [e, h]
        rfl
      · exact fun h => ⟨h.2, by decide⟩
    · constructor
      · exact fun h => absurd h.2 (by decide)
      · intro ⟨h, h'⟩
        rw [h] at h'
        exact absurd h' (by decide)

theorem visit_unbacked (hpage : ¬m.Backed page) : m.visit first delta b page = b.releasePending :=
  if_pos (not_not.mp hpage)

/-- What a turn has before it counts a backed page: the batches as they were, or told. -/
structure Prepared (m : PageCaching Mem) (first : Nat) (delta : Int) (b b' : CachingBatch Mem) (page : Nat) :
    Prop where
  memory : b'.memory = m.nextMemory first b.memory page
  counts : b'.counts = update b.counts page (m.newCount delta page)
  batches : ((b.kind ≠ none → m.asid page = first ∧ m.vpage page = b.oldVpage + 1) ∧ b'.kind = b.kind ∧
      b'.pending = b.pending ∧ b'.marks = b.marks ∧ b'.memory = b.memory) ∨
    ((b.kind ≠ none → ¬(m.asid page = first ∧ m.vpage page = b.oldVpage + 1)) ∧ b'.kind = none ∧
      b'.marks = b.marks ++ if b.memory.isSome then b.pendingMarks else [])

/-- **A turn for a backed page**: a batch that does not go on is told, then the page is counted. -/
theorem visit_backed (hdelta : delta = 1 ∨ delta = -1) (hpage : m.Backed page) (hb : b.Sound)
    (hold : b.kind ≠ none → b.oldVpage < 2 ^ 27) (hcount : b.counts page = m.cachedPages page) :
    ∃ b', Prepared m first delta b b' page ∧
      CachingBatch.Counted b' (m.visit first delta b page) (m.vpage page) (m.change delta page) := by
  have hcounted : ∀ b1 : CachingBatch Mem, b1.Sound → (b1.kind ≠ none → b1.oldVpage + 1 = m.vpage page) →
      b1.counts = b.counts →
      CachingBatch.Counted (b1.stored page (m.vpage page) (b1.counts page + UInt8.ofInt delta))
        ((b1.stored page (m.vpage page) (b1.counts page + UInt8.ofInt delta)).counted delta
          (b1.counts page + UInt8.ofInt delta) (m.vpage page)) (m.vpage page) (m.change delta page) ∧
      (b1.stored page (m.vpage page) (b1.counts page + UInt8.ofInt delta)).counts =
        update b.counts page (m.newCount delta page) := by
    intro b1 hsound hnext hcounts
    have hnew : b1.counts page + UInt8.ofInt delta = m.newCount delta page := by
      rw [hcounts, hcount, newCount]
    rw [hnew, ← kindOf_newCount hdelta]
    refine ⟨CachingBatch.counted_spec
      (b := { b1 with counts := update b1.counts page (m.newCount delta page) })
      ⟨hsound.uncache, hsound.cache⟩ hnext, ?_⟩
    rw [CachingBatch.stored, hcounts]
  have hzero : ∀ {b1 : CachingBatch Mem}, b1.uncacheBytes = 0 → b1.cacheBytes = 0 →
      b1.kind ≠ none → b1.oldVpage + 1 = m.vpage page := fun hu hc h =>
    absurd (CachingBatch.kind_of_zero hu hc) h
  obtain ⟨hrmarks, hru, hrc, hrmemory, hrold, hrcounts⟩ := b.releasePending_spec
  by_cases hasid : first ≠ m.asid page
  · -- another process
    have hvisit : ∃ b1 : CachingBatch Mem, m.visit first delta b page =
        (b1.stored page (m.vpage page) (b1.counts page + UInt8.ofInt delta)).counted delta
          (b1.counts page + UInt8.ofInt delta) (m.vpage page) ∧
        b1.uncacheBytes = 0 ∧ b1.cacheBytes = 0 ∧ b1.memory = m.registeredProcesses (m.asid page) ∧
        b1.counts = b.counts ∧ b1.marks = b.releasePending.marks := by
      rw [visit, if_neg hpage, if_pos hasid]
      dsimp only
      split
      · obtain ⟨h1, h2, h3, h4, h5, h6⟩ := CachingBatch.releasePending_spec
          { b.releasePending with memory := m.registeredProcesses (m.asid page) }
        refine ⟨_, rfl, h2, h3, h4, h6.trans hrcounts, h1.trans ?_⟩
        have hp : CachingBatch.pending
            { b.releasePending with memory := m.registeredProcesses (m.asid page) } = [] :=
          CachingBatch.pending_of_kind_none (CachingBatch.kind_of_zero hru hrc)
        have hnone : CachingBatch.pendingMarks
            { b.releasePending with memory := m.registeredProcesses (m.asid page) } = [] := by
          rw [CachingBatch.pendingMarks, hp, map_nil]
        rw [hnone, ite_self, append_nil]
        rfl
      · exact ⟨_, rfl, hru, hrc, rfl, hrcounts, rfl⟩
    obtain ⟨b1, hvisit, hu, hc, hmemory, hcounts, hmarks⟩ := hvisit
    obtain ⟨h, hstored⟩ := hcounted b1 (CachingBatch.sound_of_zero hu hc) (hzero hu hc) hcounts
    rw [hvisit]
    refine ⟨_, ⟨?_, hstored, .inr ⟨fun _ e => hasid e.1.symm, CachingBatch.kind_of_zero hu hc, ?_⟩⟩, h⟩
    · rw [nextMemory, if_pos (Ne.symm hasid)]
      exact hmemory
    · exact hmarks.trans hrmarks
  · have hnext : m.nextMemory first b.memory page = b.memory := by
      rw [nextMemory, if_neg fun h => hasid h.symm]
    by_cases hcont : m.vpage page ≠ (b.oldVpage + 1) % 2 ^ 64
    · -- another place
      have hvisit : m.visit first delta b page = (b.releasePending.stored page (m.vpage page)
            (b.releasePending.counts page + UInt8.ofInt delta)).counted
              delta (b.releasePending.counts page + UInt8.ofInt delta) (m.vpage page) := by
        rw [visit, if_neg hpage, if_neg hasid]
        dsimp only
        rw [if_pos hcont]
      obtain ⟨h, hstored⟩ := hcounted _ (CachingBatch.sound_of_zero hru hrc) (hzero hru hrc) hrcounts
      rw [hvisit]
      refine ⟨b.releasePending.stored page _ _, ⟨hrmemory.trans hnext.symm, hstored, .inr ⟨fun hkind e => hcont ?_,
        CachingBatch.kind_of_zero hru hrc, hrmarks⟩⟩, h⟩
      have := hold hkind
      omega
    · have hcont : m.vpage page = (b.oldVpage + 1) % 2 ^ 64 := not_not.mp hcont
      have hvisit : m.visit first delta b page =
          (b.stored page (m.vpage page) (b.counts page + UInt8.ofInt delta)).counted delta
            (b.counts page + UInt8.ofInt delta) (m.vpage page) := by
        rw [visit, if_neg hpage, if_neg hasid]
        dsimp only
        rw [if_neg (not_not_intro hcont)]
      have hfollow : b.kind ≠ none → m.vpage page = b.oldVpage + 1 := by
        intro hkind
        have := hold hkind
        omega
      obtain ⟨h, hstored⟩ := hcounted b hb (fun hkind => (hfollow hkind).symm) rfl
      rw [hvisit]
      exact ⟨b.stored page _ _, ⟨hnext.symm, hstored, .inl ⟨fun hkind => ⟨(not_not.mp hasid).symm, hfollow hkind⟩,
        rfl, rfl, rfl, rfl⟩⟩, h⟩

theorem pendingMade_of_kind_none (h : b.kind = none) : m.pendingMade first delta b n page = [] := by
  rw [pendingMade, h]

theorem pendingMade_of_kind {cached : Bool} (h : b.kind = some cached) :
    m.pendingMade first delta b n page =
      if b.memory.isSome || m.flushedInline first delta cached n page b.oldVpage then b.pendingMarks else [] := by
  rw [pendingMade, h]

/-- The marks of a turn for a backed page: those that come of what was pending, and that of the page,
which may still be pending. -/
theorem turn_marks {b1 : CachingBatch Mem} (hpage : m.Backed page) (hprepared : Prepared m first delta b b1 page)
    (hcounted : CachingBatch.Counted b1 (m.visit first delta b page) (m.vpage page) (m.change delta page)) :
    (m.visit first delta b page).marks ++ m.pendingMade first delta (m.visit first delta b page) n (page + 1) =
      b.marks ++ m.pendingMade first delta b (n + 1) page ++
        m.marksOf first delta (m.nextMemory first b.memory page) n page := by
  generalize m.visit first delta b page = b' at hcounted ⊢
  have hmemory : b'.memory = m.nextMemory first b.memory page := hcounted.memory.trans hprepared.memory
  -- what is pending after the page
  have hafter : ∀ cached, m.change delta page = some cached → m.pendingMade first delta b' n (page + 1) =
        if (m.nextMemory first b.memory page).isSome ||
            m.flushedInline first delta cached n (page + 1) (m.vpage page) then b'.pendingMarks else [] := by
    intro cached h
    rw [pendingMade_of_kind (hcounted.kind_eq.trans h), hmemory, hcounted.oldVpage]
  have hsingle : b'.pending = (m.change delta page).toList.map (m.vpage page, ·) →
      m.pendingMade first delta b' n (page + 1) =
        m.marksOf first delta (m.nextMemory first b.memory page) n page := by
    intro hpending
    cases hchange : m.change delta page with
    | none => rw [pendingMade_of_kind_none (hcounted.kind_eq.trans hchange), marksOf, hchange]
    | some cached =>
      rw [hafter cached hchange, marksOf, hchange, CachingBatch.pendingMarks, hpending, hchange, hmemory]
      rfl
  rcases hprepared.batches with ⟨hcont, hkind, hpending, hmarks, hsame⟩ | ⟨hcont, hkind, hmarks⟩
  · cases hb : b.kind with
    | none =>
      obtain ⟨hm, hp⟩ := hcounted.ends (.inl (hkind.trans hb))
      rw [hm, hmarks, CachingBatch.pendingMarks, hpending, CachingBatch.pending_of_kind_none hb, map_nil,
        append_nil, hsingle hp, pendingMade_of_kind_none hb, append_nil]
    | some cached =>
      obtain ⟨hasid, hvpage⟩ := hcont (by rw [hb]; exact some_ne_none cached)
      have hnext : m.nextMemory first b.memory page = b.memory := hprepared.memory.symm.trans hsame
      have hall : m.flushedInline first delta cached (n + 1) page b.oldVpage =
          (decide (m.change delta page ≠ some cached) ||
            m.flushedInline first delta cached n (page + 1) (m.vpage page)) := by
        rw [flushedInline, decide_eq_true ⟨hpage, hasid, hvpage⟩, Bool.true_and]
      by_cases hchange : m.change delta page = some cached
      · -- the batch goes on
        obtain ⟨hm, hp⟩ := hcounted.goesOn (by rw [hkind, hb]; exact some_ne_none cached)
          (by rw [hkind, hb, hchange])
        rw [hm, hmarks, hafter cached hchange, pendingMade_of_kind hb, marksOf, hchange]
        dsimp only
        rw [hall, decide_eq_false (not_not_intro hchange), Bool.false_or, hnext,
          CachingBatch.pendingMarks, hp, hchange, hpending, hmemory, hnext]
        split
        · rw [map_append, append_assoc]
          rfl
        · rw [append_nil, append_nil]
      · -- the batch ends
        obtain ⟨hm, hp⟩ := hcounted.ends (.inr (by rw [hkind, hb]; exact fun h => hchange h.symm))
        rw [hm, hmarks, hsingle hp, pendingMade_of_kind hb, hall, decide_eq_true hchange, Bool.true_or,
          Bool.or_true, if_pos rfl, CachingBatch.pendingMarks, hpending, hsame]
        rfl
  · obtain ⟨hm, hp⟩ := hcounted.ends (.inl hkind)
    have hnone : b1.pendingMarks = [] := by
      rw [CachingBatch.pendingMarks, CachingBatch.pending_of_kind_none hkind, map_nil]
    rw [hm, hmarks, hnone, append_nil, hsingle hp]
    congr 2
    cases hb : b.kind with
    | none =>
      rw [pendingMade_of_kind_none hb, CachingBatch.pendingMarks, CachingBatch.pending_of_kind_none hb,
        map_nil, ite_self]
    | some cached =>
      have hnot := hcont (by rw [hb]; exact some_ne_none cached)
      rw [pendingMade_of_kind hb, flushedInline, decide_eq_false fun h => hnot h.2, Bool.false_and,
        Bool.or_false]

/-- **The loop makes the marks**: those that come of what is pending, then those of the pages, by induction
on their number. -/
theorem visits_marks (hdelta : delta = 1 ∨ delta = -1) (hb : b.Sound)
    (hold : b.kind ≠ none → b.oldVpage < 2 ^ 27) (hcounts : ∀ p, page ≤ p → b.counts p = m.cachedPages p) :
    (m.visits first delta n page b).releasePending.marks =
      b.marks ++ m.pendingMade first delta b n page ++ m.madeMarks first delta b.memory n page := by
  induction n generalizing page b with
  | zero =>
    rw [visits, b.releasePending_spec.1, madeMarks, append_nil]
    congr 1
    cases hkind : b.kind with
    | none =>
      rw [pendingMade_of_kind_none hkind, CachingBatch.pendingMarks, CachingBatch.pending_of_kind_none hkind,
        map_nil, ite_self]
    | some cached => rw [pendingMade_of_kind hkind, flushedInline, Bool.or_false]
  | succ n ih =>
    rw [visits, madeMarks]
    by_cases hpage : m.Backed page
    · obtain ⟨b1, hprepared, hcounted⟩ := visit_backed hdelta hpage hb hold (hcounts page (Nat.le_refl page))
      rw [if_pos hpage, ih hcounted.sound (fun _ => by rw [hcounted.oldVpage]; exact vpage_lt m page)
        fun p hp => by
          rw [hcounted.counts, hprepared.counts, update_of_ne (by omega)]
          exact hcounts p (by omega)]
      rw [hcounted.memory, hprepared.memory]
      rw [← append_assoc]
      congr 1
      exact turn_marks hpage hprepared hcounted
    · rw [if_neg hpage, visit_unbacked hpage]
      obtain ⟨hmarks, hu, hc, hmemory, -, hcounts'⟩ := b.releasePending_spec
      rw [ih (CachingBatch.sound_of_zero hu hc) (fun h => absurd (CachingBatch.kind_of_zero hu hc) h)
        fun p hp => by rw [hcounts']; exact hcounts p (by omega)]
      rw [pendingMade_of_kind_none (CachingBatch.kind_of_zero hu hc), append_nil, hmemory, hmarks]
      congr 2
      cases hkind : b.kind with
      | none =>
        rw [pendingMade_of_kind_none hkind, CachingBatch.pendingMarks,
          CachingBatch.pending_of_kind_none hkind, map_nil, ite_self]
      | some cached =>
        rw [pendingMade_of_kind hkind, flushedInline, decide_eq_false fun h => hpage h.1, Bool.false_and,
          Bool.or_false]

/-- **The loop changes each count once**: those of the backed pages that it visits. -/
theorem visits_counts (hdelta : delta = 1 ∨ delta = -1) (hb : b.Sound)
    (hold : b.kind ≠ none → b.oldVpage < 2 ^ 27) (hcounts : ∀ p, page ≤ p → b.counts p = m.cachedPages p)
    (p : Nat) :
    (m.visits first delta n page b).counts p =
      if (page ≤ p ∧ p < page + n) ∧ m.Backed p then m.newCount delta p else b.counts p := by
  induction n generalizing page b with
  | zero => rw [visits, if_neg (by omega)]
  | succ n ih =>
    rw [visits]
    by_cases hpage : m.Backed page
    · obtain ⟨b1, hprepared, hcounted⟩ := visit_backed hdelta hpage hb hold (hcounts page (Nat.le_refl page))
      have hnew : (m.visit first delta b page).counts = update b.counts page (m.newCount delta page) :=
        hcounted.counts.trans hprepared.counts
      rw [ih hcounted.sound (fun _ => by rw [hcounted.oldVpage]; exact vpage_lt m page)
        fun q hq => by
          rw [hnew, update_of_ne (by omega)]
          exact hcounts q (by omega), hnew]
      by_cases hp : p = page
      · rw [hp, update_self, if_neg (by omega), if_pos ⟨by omega, hpage⟩]
      · rw [update_of_ne hp]
        exact if_congr (and_congr_left fun _ => by omega) rfl rfl
    · rw [visit_unbacked hpage]
      obtain ⟨-, hu, hc, -, -, hcounts'⟩ := b.releasePending_spec
      rw [ih (CachingBatch.sound_of_zero hu hc) (fun h => absurd (CachingBatch.kind_of_zero hu hc) h)
        fun q hq => by rw [hcounts']; exact hcounts q (by omega), hcounts']
      by_cases hp : p = page
      · rw [hp, if_neg (by omega), if_neg fun h => hpage h.2]
      · exact if_congr (and_congr_left fun _ => by omega) rfl rfl

/-! ## 5. When the notifications are right -/

/-- The memory that the loop has when it comes to a page. -/
def memoryBefore (m : PageCaching Mem) (start : Nat) : Nat → Option Mem
  | 0 => m.registeredProcesses (m.asid start)
  | page + 1 =>
    if page < start then m.registeredProcesses (m.asid start)
    else if m.Backed page then m.nextMemory (m.asid start) (memoryBefore m start page) page
    else memoryBefore m start page

/-- The memory that a page's marks go to. -/
def memoryAt (m : PageCaching Mem) (start page : Nat) : Option Mem :=
  m.nextMemory (m.asid start) (m.memoryBefore start page) page

/-- The marks that are made of a page of a range that ends at `stop`. -/
def madeOf (m : PageCaching Mem) (delta : Int) (start stop page : Nat) : List (Mark Mem) :=
  if m.Backed page then m.marksOf (m.asid start) delta (m.memoryAt start page) (stop - (page + 1)) page else []

variable {start : Nat}

theorem memoryBefore_start (m : PageCaching Mem) (start : Nat) :
    m.memoryBefore start start = m.registeredProcesses (m.asid start) := by
  cases start with
  | zero => rfl
  | succ start => exact if_pos (Nat.lt_succ_self start)

theorem memoryBefore_succ (h : start ≤ page) : m.memoryBefore start (page + 1) =
      if m.Backed page then m.memoryAt start page else m.memoryBefore start page :=
  if_neg (Nat.not_lt.mpr h)

theorem madeMarks_eq (h : start ≤ page) :
    m.madeMarks (m.asid start) delta (m.memoryBefore start page) n page =
      (List.range' page n).flatMap (m.madeOf delta start (page + n)) := by
  induction n generalizing page with
  | zero => rfl
  | succ n ih =>
    have hnext := @ih (page + 1) (by omega)
    rw [memoryBefore_succ h, show page + 1 + n = page + (n + 1) by omega] at hnext
    rw [madeMarks, range'_succ, flatMap_cons, madeOf]
    by_cases hpage : m.Backed page
    · rw [if_pos hpage] at hnext
      rw [if_pos hpage, if_pos hpage, ← hnext, show page + (n + 1) - (page + 1) = n by omega]
      rfl
    · rw [if_neg hpage] at hnext
      rw [if_neg hpage, if_neg hpage, ← hnext, nil_append]

theorem marks_updatePagesCachedCount (hdelta : delta = 1 ∨ delta = -1) (addr size : Nat) :
    (m.updatePagesCachedCount addr size delta).marks =
      (List.range' (firstPage addr) (pageCount addr size)).flatMap
        (m.madeOf delta (firstPage addr) (firstPage addr + pageCount addr size)) := by
  rw [updatePagesCachedCount,
    visits_marks hdelta (CachingBatch.sound_of_zero rfl rfl) (fun h => absurd rfl h) fun _ _ => rfl,
    pendingMade_of_kind_none rfl, append_nil, ← madeMarks_eq (Nat.le_refl _), memoryBefore_start]
  rfl

theorem counts_updatePagesCachedCount (hdelta : delta = 1 ∨ delta = -1) (addr size p : Nat) :
    (m.updatePagesCachedCount addr size delta).counts p =
      if (firstPage addr ≤ p ∧ p < firstPage addr + pageCount addr size) ∧ m.Backed p then
        m.newCount delta p else m.cachedPages p := by
  rw [updatePagesCachedCount, (CachingBatch.releasePending_spec _).2.2.2.2.2,
    visits_counts hdelta (CachingBatch.sound_of_zero rfl rfl) (fun h => absurd rfl h) fun _ _ => rfl]

theorem memoryAt_of_ne (h : m.asid page ≠ m.asid start) :
    m.memoryAt start page = m.registeredProcesses (m.asid page) :=
  if_pos h

theorem memoryAt_of_eq (h : m.asid page = m.asid start) :
    m.memoryAt start page = m.memoryBefore start page :=
  if_neg (not_not_intro h)

/-- **The memory the loop comes with** is that of the last page of another process, or of the first page if
there was none. -/
theorem memoryBefore_spec (h : start ≤ page) :
    (∃ q, (start ≤ q ∧ q < page) ∧ m.Backed q ∧ m.asid q ≠ m.asid start ∧
      (∀ r, q < r → r < page → m.Backed r → m.asid r = m.asid start) ∧
      m.memoryBefore start page = m.registeredProcesses (m.asid q)) ∨
    (∀ r, start ≤ r → r < page → m.Backed r → m.asid r = m.asid start) ∧
      m.memoryBefore start page = m.registeredProcesses (m.asid start) := by
  induction page, h using Nat.le_induction with
  | base => exact .inr ⟨fun r h1 h2 => absurd h1 (Nat.not_le.mpr h2), memoryBefore_start m start⟩
  | succ page hpage ih =>
    rw [memoryBefore_succ hpage]
    by_cases hother : m.Backed page ∧ m.asid page ≠ m.asid start
    · rw [if_pos hother.1, memoryAt_of_ne hother.2]
      exact .inl ⟨page, ⟨hpage, Nat.lt_succ_self page⟩, hother.1, hother.2, fun r h1 h2 => by omega, rfl⟩
    · have hsame : m.Backed page → m.asid page = m.asid start := fun h => by
        by_contra hne
        exact hother ⟨h, hne⟩
      have hmemory : (if m.Backed page then m.memoryAt start page else m.memoryBefore start page) =
          m.memoryBefore start page := by
        split
        · rename_i h
          exact memoryAt_of_eq (hsame h)
        · rfl
      have hlast : ∀ r, r < page + 1 → ¬r < page → m.Backed r → m.asid r = m.asid start := fun r h1 h2 h => by
        obtain rfl : r = page := by omega
        exact hsame h
      rw [hmemory]
      rcases ih with ⟨q, hq, hbacked, hne, hbetween, hm⟩ | ⟨hall, hm⟩
      · refine .inl ⟨q, ⟨hq.1, by omega⟩, hbacked, hne, fun r h1 h2 h => ?_, hm⟩
        by_cases hr : r < page
        · exact hbetween r h1 hr h
        · exact hlast r h2 hr h
      · refine .inr ⟨fun r h1 h2 h => ?_, hm⟩
        by_cases hr : r < page
        · exact hall r h1 hr h
        · exact hlast r h2 hr h

/-- The condition on the memories says that every changed page has its own. -/
theorem ownMemory_iff :
    m.OwnMemory delta start n ↔ ∀ p, InPages start n p → m.Backed p → m.change delta p ≠ none →
      m.memoryAt start p = m.registeredProcesses (m.asid p) := by
  constructor
  · intro h p hp hbacked hchange
    by_cases hne : m.asid p ≠ m.asid start
    · exact memoryAt_of_ne hne
    · have heq : m.asid p = m.asid start := not_not.mp hne
      rw [memoryAt_of_eq heq]
      rcases memoryBefore_spec hp.1 with ⟨q, hq, hqb, hqne, hbetween, hm⟩ | ⟨-, hm⟩
      · rw [hm, heq]
        exact h p q hp ⟨hq.1, by have := hp.2; omega⟩ hq.2 hbacked hqb heq hqne hbetween hchange
      · rw [hm, heq]
  · intro h p q hp hq hlt hbacked hqb heq hqne hbetween hchange
    have hown := h p hp hbacked hchange
    rw [memoryAt_of_eq heq] at hown
    rcases memoryBefore_spec (m := m) hp.1 with ⟨q', hq', hqb', hqne', hbetween', hm⟩ | ⟨hall, -⟩
    · -- there is one last page of another process
      have hqq : q' = q := by
        rcases Nat.lt_trichotomy q' q with hl | hl | hl
        · exact absurd (hbetween' q hl hlt hqb) hqne
        · exact hl
        · exact absurd (hbetween q' hl hq'.2 hqb') hqne'
      rw [← hqq, ← hm, hown, heq]
    · exact absurd (hall q hq.1 hlt hqb) hqne

theorem flushedInline_spec {cached : Bool}
    (h : m.flushedInline (m.asid start) delta cached n (page + 1) (m.vpage page))
    (hpage : start ≤ page) (hbacked : m.Backed page) (hchange : m.change delta page = some cached) :
    ∃ p, page ≤ p ∧ p < page + n ∧ m.Backed p ∧ m.change delta p = some cached ∧
      m.memoryAt start p = m.memoryAt start page ∧ m.Backed (p + 1) ∧ m.asid (p + 1) = m.asid start ∧
      m.vpage (p + 1) = m.vpage p + 1 ∧ m.change delta (p + 1) ≠ some cached := by
  induction n generalizing page with
  | zero => exact absurd h (by rw [flushedInline]; exact Bool.false_ne_true)
  | succ n ih =>
    rw [flushedInline, Bool.and_eq_true, decide_eq_true_iff, Bool.or_eq_true, decide_eq_true_iff] at h
    obtain ⟨⟨hnext, hasid, hvpage⟩, hrest⟩ := h
    by_cases hend : m.change delta (page + 1) = some cached
    · obtain ⟨p, h1, h2, h3, h4, h5, h6⟩ := ih (hrest.resolve_left (not_not_intro hend)) (by omega) hnext hend
      refine ⟨p, by omega, by omega, h3, h4, ?_, h6⟩
      rw [h5, memoryAt_of_eq hasid, memoryBefore_succ hpage, if_pos hbacked]
    · exact ⟨page, Nat.le_refl page, by omega, hbacked, hchange, rfl, hnext, hasid, hvpage, hend⟩

theorem flushedInline_of_next {cached : Bool} (hn : 0 < n) (hnext : m.Backed (page + 1))
    (hasid : m.asid (page + 1) = first) (hvpage : m.vpage (page + 1) = m.vpage page + 1)
    (hend : m.change delta (page + 1) ≠ some cached) :
    m.flushedInline first delta cached n (page + 1) (m.vpage page) := by
  obtain ⟨n, rfl⟩ := Nat.exists_eq_succ_of_ne_zero (Nat.ne_of_gt hn)
  rw [flushedInline, decide_eq_true ⟨hnext, hasid, hvpage⟩, decide_eq_true hend]
  rfl

theorem madeOf_of_change {cached : Bool} (hbacked : m.Backed page)
    (hchange : m.change delta page = some cached) (start stop : Nat) :
    m.madeOf delta start stop page =
      if (m.memoryAt start page).isSome ||
          m.flushedInline (m.asid start) delta cached (stop - (page + 1)) (page + 1) (m.vpage page) then
        [⟨m.memoryAt start page, m.vpage page, cached⟩]
      else [] := by
  rw [madeOf, if_pos hbacked, marksOf, hchange]

theorem made_due_nil (h : ¬(m.Backed page ∧ m.change delta page ≠ none)) (start stop : Nat) :
    m.madeOf delta start stop page = [] ∧ m.dueMarks delta page = [] := by
  rw [madeOf, dueMarks]
  by_cases hbacked : m.Backed page
  · have hchange : m.change delta page = none := by
      by_contra hne
      exact h ⟨hbacked, hne⟩
    rw [if_pos hbacked, if_pos hbacked, marksOf, hchange]
    exact ⟨rfl, rfl⟩
  · rw [if_neg hbacked, if_neg hbacked]
    exact ⟨rfl, rfl⟩

theorem dueMarks_of_change {cached : Bool} (hbacked : m.Backed page)
    (hchange : m.change delta page = some cached) :
    m.dueMarks delta page =
      if (m.registeredProcesses (m.asid page)).isSome then
        [⟨m.registeredProcesses (m.asid page), m.vpage page, cached⟩] else [] := by
  rw [dueMarks, if_pos hbacked, hchange]
  cases m.registeredProcesses (m.asid page) <;> rfl

/-- **Under the two conditions, each page gets the marks that are due.** -/
theorem madeOf_eq_dueMarks (hown : m.OwnMemory delta start n) (hnull : m.NoNullCall delta start n)
    (hp : InPages start n page) : m.madeOf delta start (start + n) page = m.dueMarks delta page := by
  rw [ownMemory_iff] at hown
  by_cases hdue : m.Backed page ∧ m.change delta page ≠ none
  · obtain ⟨hbacked, hne⟩ := hdue
    obtain ⟨cached, hchange⟩ := ne_none_iff_exists'.mp hne
    have hmemory := hown page hp hbacked hne
    rw [madeOf_of_change hbacked hchange start, dueMarks_of_change hbacked hchange, hmemory]
    refine if_congr ?_ rfl rfl
    rw [Bool.or_eq_true]
    refine or_iff_left_of_imp fun hflush => ?_
    -- the page whose change is ended next has the same memory
    obtain ⟨p, h1, h2, hpb, hpc, hpm, hnext, hasid, hvpage, hend⟩ :=
      flushedInline_spec hflush hp.1 hbacked hchange
    have hpne : m.change delta p ≠ none := by rw [hpc]; exact some_ne_none cached
    have hstart := hp.1
    have hin : InPages start n p := ⟨by omega, by omega⟩
    have hproc := hnull p hin ⟨by omega, by omega⟩ hpb hnext hasid hvpage hpne (by rw [hpc]; exact hend)
    rw [← hown p hin hpb hpne, hpm, hmemory] at hproc
    exact isSome_iff_ne_none.mpr hproc
  · obtain ⟨hmade, hdue⟩ := made_due_nil hdue start (start + n)
    rw [hmade, hdue]

theorem countP_eq_of_perm {α β : Type} {l : List α} {f g : α → List β} (kind : β → Bool)
    (h : (l.flatMap f).Perm (l.flatMap g)) (hle : ∀ x ∈ l, (f x).countP kind ≤ (g x).countP kind) :
    ∀ x ∈ l, (f x).countP kind = (g x).countP kind := by
  have hsum := h.countP_eq kind
  rw [countP_flatMap, countP_flatMap] at hsum
  clear h
  induction l with
  | nil => exact fun x hx => absurd hx not_mem_nil
  | cons y l ih =>
    have hhead := hle y mem_cons_self
    have htail : (l.map (List.countP kind ∘ f)).sum ≤ (l.map (List.countP kind ∘ g)).sum :=
      sum_le_sum fun x hx => hle x (mem_cons_of_mem y hx)
    rw [map_cons, map_cons, sum_cons, sum_cons, Function.comp_apply, Function.comp_apply] at hsum
    intro x hx
    rcases mem_cons.mp hx with rfl | hx
    · omega
    · exact ih (fun x hx => hle x (mem_cons_of_mem y hx)) (by omega) x hx

/-- **Right notifications give no mark to a null process**. -/
theorem no_null_mark (h : ((List.range' start n).flatMap (m.madeOf delta start (start + n))).Perm
      ((List.range' start n).flatMap (m.dueMarks delta)))
    (hp : InPages start n page) (mark : Mark Mem) (hmark : mark ∈ m.madeOf delta start (start + n) page) :
    mark.memory ≠ none := by
  have hin : page ∈ List.range' start n := mem_range'_1.mpr hp
  obtain ⟨q, -, hq⟩ := mem_flatMap.mp (h.mem_iff.mp (mem_flatMap.mpr ⟨page, hin, hmark⟩))
  rw [dueMarks] at hq
  split at hq
  · split at hq
    · obtain rfl := mem_singleton.mp hq
      exact some_ne_none _
    · exact absurd hq not_mem_nil
  · exact absurd hq not_mem_nil

theorem madeOf_of_null {cached : Bool}
    (h : ((List.range' start n).flatMap (m.madeOf delta start (start + n))).Perm
      ((List.range' start n).flatMap (m.dueMarks delta)))
    (hp : InPages start n page) (hbacked : m.Backed page) (hchange : m.change delta page = some cached) :
    m.madeOf delta start (start + n) page =
      if (m.memoryAt start page).isSome then [⟨m.memoryAt start page, m.vpage page, cached⟩] else [] := by
  have hmade := madeOf_of_change hbacked hchange start (start + n)
  rw [hmade]
  refine if_congr ?_ rfl rfl
  rw [Bool.or_eq_true]
  refine or_iff_left_of_imp fun hflush => ?_
  rw [hflush, Bool.or_true, if_pos rfl] at hmade
  exact isSome_iff_ne_none.mpr (no_null_mark h hp ⟨m.memoryAt start page, m.vpage page, cached⟩
      (by rw [hmade]; exact mem_singleton.mpr rfl))

/-- **Right notifications give every page its own memory**: with a registered process of the first page, no
page has more marks on its memory than are due; without one, no page has fewer marks than are due. -/
theorem ownMemory_of_perm (h : ((List.range' start n).flatMap (m.madeOf delta start (start + n))).Perm
      ((List.range' start n).flatMap (m.dueMarks delta))) : m.OwnMemory delta start n := by
  classical
  rw [ownMemory_iff]
  intro p hp hbacked hne
  obtain ⟨cached, hchange⟩ := ne_none_iff_exists'.mp hne
  by_cases hasid : m.asid p ≠ m.asid start
  · exact memoryAt_of_ne hasid
  have hasid : m.asid p = m.asid start := not_not.mp hasid
  have hin : p ∈ List.range' start n := mem_range'_1.mpr hp
  -- a page of another process makes what is due
  have hother : ∀ q ∈ List.range' start n, m.asid q ≠ m.asid start →
      m.madeOf delta start (start + n) q = m.dueMarks delta q := by
    intro q hq hne
    by_cases hdue : m.Backed q ∧ m.change delta q ≠ none
    · obtain ⟨cached, hchange⟩ := ne_none_iff_exists'.mp hdue.2
      rw [madeOf_of_null h (mem_range'_1.mp hq) hdue.1 hchange, dueMarks_of_change hdue.1 hchange,
        memoryAt_of_ne hne]
    · obtain ⟨hmade, hdue⟩ := made_due_nil hdue start (start + n)
      rw [hmade, hdue]
  rw [hasid]
  cases hfirst : m.registeredProcesses (m.asid start) with
  | some first =>
    have hcount := countP_eq_of_perm (fun mark : Mark Mem => decide (mark.memory = some first)) h ?_ p hin
    · rw [madeOf_of_null h hp hbacked hchange, dueMarks_of_change hbacked hchange, hasid, hfirst] at hcount
      by_contra hmemory
      split at hcount
      · simp [hmemory] at hcount
      · simp at hcount
    · intro q hq
      by_cases hqa : m.asid q ≠ m.asid start
      · exact Nat.le_of_eq (by rw [hother q hq hqa])
      · by_cases hdue : m.Backed q ∧ m.change delta q ≠ none
        · obtain ⟨cached, hchange⟩ := ne_none_iff_exists'.mp hdue.2
          rw [madeOf_of_null h (mem_range'_1.mp hq) hdue.1 hchange, dueMarks_of_change hdue.1 hchange,
            not_not.mp hqa, hfirst]
          refine Nat.le_trans (Nat.le_trans countP_le_length (?_ : _ ≤ 1)) (by simp)
          split <;> simp
        · obtain ⟨hmade, hdue⟩ := made_due_nil hdue start (start + n)
          rw [hmade, hdue]
  | none =>
    have hcount := countP_eq_of_perm (fun _ : Mark Mem => true) h.symm ?_ p hin
    · rw [madeOf_of_null h hp hbacked hchange, dueMarks_of_change hbacked hchange, hasid, hfirst] at hcount
      by_contra hmemory
      rw [if_pos (isSome_iff_ne_none.mpr hmemory)] at hcount
      simp at hcount
    · intro q hq
      by_cases hqa : m.asid q ≠ m.asid start
      · exact Nat.le_of_eq (by rw [hother q hq hqa])
      · by_cases hdue : m.Backed q ∧ m.change delta q ≠ none
        · obtain ⟨cached, hchange⟩ := ne_none_iff_exists'.mp hdue.2
          rw [dueMarks_of_change hdue.1 hchange, not_not.mp hqa, hfirst]
          exact Nat.zero_le _
        · rw [(made_due_nil hdue start (start + n)).2]
          exact Nat.zero_le _

/-- **Right notifications make no call on a null process.** -/
theorem noNullCall_of_perm (h : ((List.range' start n).flatMap (m.madeOf delta start (start + n))).Perm
      ((List.range' start n).flatMap (m.dueMarks delta))) : m.NoNullCall delta start n := by
  intro p hp hnext hbacked hbnext hasid hvpage hne hend
  obtain ⟨cached, hchange⟩ := ne_none_iff_exists'.mp hne
  rw [← (ownMemory_iff.mp (ownMemory_of_perm h)) p hp hbacked hne]
  have hflush : m.flushedInline (m.asid start) delta cached (start + n - (p + 1)) (p + 1) (m.vpage p) :=
    flushedInline_of_next (by have := hnext.2; omega) hbnext hasid hvpage (by rw [← hchange]; exact hend)
  have hmade := madeOf_of_change hbacked hchange start (start + n)
  rw [hflush, Bool.or_true, if_pos rfl] at hmade
  exact no_null_mark h hp ⟨m.memoryAt start p, m.vpage p, cached⟩
    (by rw [hmade]; exact mem_singleton.mpr rfl)

/-- **When the notifications reach the right process.** The counts are always right; the marks are just where
every changed page has its own memory, and no batch of a missing process is ended by another change. -/
theorem updatePagesCachedCount_iff (m : PageCaching Mem) (addr size : Nat) (delta : Int)
    (hdelta : delta = 1 ∨ delta = -1) :
    m.NotifiesRight addr size delta ↔ m.OwnMemory delta (firstPage addr) (pageCount addr size) ∧
        m.NoNullCall delta (firstPage addr) (pageCount addr size) := by
  rw [NotifiesRight, marks_updatePagesCachedCount hdelta]
  constructor
  · exact fun h => ⟨ownMemory_of_perm h.2, noNullCall_of_perm h.2⟩
  · intro ⟨hown, hnull⟩
    refine ⟨counts_updatePagesCachedCount hdelta addr size, List.Perm.of_eq ?_⟩
    exact flatMap_congr fun p hp => madeOf_eq_dueMarks hown hnull (mem_range'_1.mp hp)

/-- Device pages 1 to 3 in front of the CPU pages of the same number, the second one of another process. -/
def mixedPages : PageCaching Nat where
  cpuBackingAddress page := page <<< pageBits + if page = 2 then 1 <<< guestMaxAsBits else 0
  registeredProcesses asid := some (10 + asid)
  cachedPages _ := 0

/-- Device pages of one process. -/
def ownPages : PageCaching Nat := { mixedPages with cpuBackingAddress := fun page => page <<< pageBits }

/-- With one process the marks are right. -/
theorem updatePagesCachedCount_ownPages : ownPages.NotifiesRight 0x1000 0x3000 1 := by
  refine (updatePagesCachedCount_iff ownPages 0x1000 0x3000 1 (.inl rfl)).mpr ⟨?_, ?_⟩
  · intro p q _ hq _ _ _ _ hne _ _
    have hq : 1 ≤ q ∧ q < 1 + 3 := hq
    have h : q = 1 ∨ q = 2 ∨ q = 3 := by omega
    rcases h with rfl | rfl | rfl <;> exact absurd (by decide) hne
  · exact fun p _ _ _ _ _ _ _ _ => some_ne_none _

/-- **A page of the first process is marked on the second one**: it comes behind a page of that process. -/
theorem third_page_on_second_process :
    ¬∀ (m : PageCaching Nat) (addr size : Nat) (delta : Int), delta = 1 ∨ delta = -1 →
      m.NotifiesRight addr size delta := by
  intro h
  have hmarks := (h mixedPages 0x1000 0x3000 1 (.inl rfl)).2
  have hmem : (⟨some 11, 3, true⟩ : Mark Nat) ∈ (mixedPages.updatePagesCachedCount 0x1000 0x3000 1).marks := by
    decide
  exact absurd (hmarks.mem_iff.mp hmem) (by decide)

end PageCaching

end Yuzu.Core
