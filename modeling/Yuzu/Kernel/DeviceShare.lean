/-
  File:      Yuzu/Kernel/DeviceShare.lean
  Subject:   Sharing page ranges with a device and taking them back (UpdateLock with
             ShareToDevice and UnshareToDevice), in any order.

  A run shares ranges and unshares outstanding ones. What the block list must be at any point is
  a function of the initial list and of the outstanding ranges alone (`SharedBy`):
  * a page's use count is the number of outstanding ranges over it;
  * the count at a left edge is the number of outstanding ranges that begin there, the count at a
    right edge the number that end there.
  In particular the clamp in the unshare path never bites, and a list with nothing outstanding is
  the initial one, block for block.
-/
import Yuzu.Kernel.MemoryBlockRefinement
import Mathlib.Algebra.Order.Ring.Int

namespace Yuzu.Kernel

open KMemoryBlockDisableMergeAttribute (allLeft allRight deviceLeft deviceRight)
open KMemoryAttribute (deviceShared)

/-! ## 1. A lock function over a range -/

/-- **A lock function over a range**, for a member that acts on the edges by `gl` and `gr` and can
    be called wherever the list reads as it does: the call returns, and the list reads as the old
    one with the pages and edges of the range changed. -/
theorem KMemoryBlockManager.updateLock_spec {m : KMemoryBlockManager} (f : LockFunction)
    (perm : KMemoryPermission) (address numPages : Nat) (gl : Bool → Page → LeftMark → LeftMark)
    (gr : Bool → RightMark → RightMark)
    (hmarks : ∀ left right b c, f.call perm left right b = some c →
      c.leftMark = gl left b.page b.leftMark ∧ c.rightMark = gr right b.rightMark)
    (hgl : ∀ q, gl false q default = default) (hgr : gr false default = default)
    (hsome : ∀ b : KMemoryBlock, address ≤ b.address → b.endAddress ≤ address + numPages * 4096 →
      b.address < b.endAddress → pageAt m.blocks b.address = some b.page →
      leftAt m.blocks b.address = b.leftMark → rightAt m.blocks b.endAddress = b.rightMark →
      (f.call perm (b.address == address) (b.endAddress == address + numPages * 4096) b).isSome = true)
    (ha : m.startAddress % 4096 = 0) (hc : Covers m.startAddress m.endAddress m.blocks)
    (hno : NoMerge m.startAddress m.blocks) (hal : address % 4096 = 0) (hn : numPages ≠ 0)
    (h1 : m.startAddress ≤ address) (h2 : address + numPages * 4096 ≤ m.endAddress) :
    ∃ m' mid, m.updateLock address numPages f perm = some m' ∧
      m'.startAddress = m.startAddress ∧ m'.endAddress = m.endAddress ∧
      NoMerge m.startAddress m'.blocks ∧ Coalesced m.startAddress m.endAddress mid m'.blocks ∧
      UpdateFrame (f.onPage perm) (fun _ => True)
        (fun p pg mk mk' => ∀ q, pg = some q → mk' = gl (p == address) q mk)
        (fun p mk mk' => mk' = gr (p == address + numPages * 4096) mk)
        m.startAddress m.endAddress address (address + numPages * 4096) m.blocks mid := by
  have he : address < m.endAddress := by omega
  -- the loop finishes
  obtain ⟨mid, hmid⟩ : ∃ mid, m.updateBlocks address numPages (fun _ => false) (fun b =>
      f.call perm (b.address == address) (b.endAddress == address + numPages * PageSize) b) =
        some mid := by
    obtain ⟨xs, b, ys, hbs, hfind, hxs, hb1, hb2, hb3, hys⟩ := findIterator_spec hc h1 he
    have hloop := updateLoop_isSome (fun b => f.call perm (b.address == address)
      (b.endAddress == address + numPages * PageSize) b) (fun _ => rfl) h2
      ((b :: ys).length + 1) (b :: ys) hal (hxs.aligned ha)
      ⟨rfl, hb3, hys⟩ hb1 (fun c hc _ => by cases hc; exact hb2) rfl
      (fun _ => Nat.le_succ _) (fun c hc1 hc2 hc3 hp hl hr => by
        rw [hbs] at hsome
        refine hsome c hc1 hc2 hc3 ?_ ?_ ?_
        · exact (hxs.valueAt_append (by omega)).trans hp
        · exact (hxs.markLo_append (by omega)).trans hl
        · exact (hxs.markHi_append (by omega)).trans hr)
    obtain ⟨tail, ht⟩ := Option.isSome_iff_exists.mp hloop
    refine ⟨{ m with blocks := xs ++ tail }, ?_⟩
    rw [updateBlocks, assert_bind_of (show address % PageSize = 0 from hal), hfind, hbs]
    dsimp only
    rw [List.drop_left, List.take_left, ht]
    rfl
  obtain ⟨hs, hen, hf⟩ := updateBlocks_spec (g := f.onPage perm) (K := fun _ => True)
    (L := fun p pg mk mk' => ∀ q, pg = some q → mk' = gl (p == address) q mk)
    (R := fun p mk mk' => mk' = gr (p == address + numPages * 4096) mk)
    (fun b h => by cases h) (fun _ _ _ => rfl)
    (fun b c _ hcall => ⟨KMemoryBlock.call_image hcall, trivial,
      fun q hq => by
        cases hq
        exact (hmarks _ _ b c hcall).1,
      (hmarks _ _ b c hcall).2⟩)
    (fun p q hp q _ => by
      rw [beq_false_of_ne (by omega), hgl])
    (fun p hp => by rw [beq_false_of_ne (by omega), hgr])
    ha hc h1 h2 hmid
  -- coalescing returns
  have hcov : Covers mid.startAddress mid.endAddress mid.blocks := by
    rw [hs, hen]
    exact hf.covers
  have hfirst : address = mid.startAddress ∨ ∀ b ∈ mid.blocks.head?, b.endAddress ≤ address := by
    by_cases hst : address = m.startAddress
    · exact .inl (hst.trans hs.symm)
    · exact .inr (updateBlocks_head ha hc (by omega) he (fun _ _ => .inr ⟨hn, rfl⟩) hmid)
  obtain ⟨m', hm'⟩ := Option.isSome_iff_exists.mp
    (coalesceForUpdate_isSome numPages hcov (by omega) (by omega) hfirst)
  obtain ⟨hs', he', hno', hco⟩ := coalesce_updated hno h1 h2 hs hen hf hm'
  refine ⟨m', mid.blocks, ?_, hs', he', hno', hco, hf⟩
  rw [updateLock, updateRange, hmid]
  exact hm'

/-! ## 2. Sharing on a page and on an edge -/

def LeftMark.share (left : Bool) (mk : LeftMark) : LeftMark :=
  if left then { mk with flags := mk.flags ||| deviceLeft, deviceCount := mk.deviceCount + 1 }
  else mk

def RightMark.share (right : Bool) (mk : RightMark) : RightMark :=
  if right then { mk with flags := mk.flags ||| deviceRight, deviceCount := mk.deviceCount + 1 }
  else mk

/-- Unsharing at a left edge of pages with the use count `use`. -/
def LeftMark.unshare (left : Bool) (use : BitVec 16) (mk : LeftMark) : LeftMark :=
  if left ∧ mk.deviceCount = 0 then mk
  else
    let count := if left then mk.deviceCount - 1 else mk.deviceCount
    let count := if count ≤ use then count else use
    { mk with
      deviceCount := count
      flags := if count = 0 then mk.flags &&& ~~~deviceLeft else mk.flags }

def RightMark.unshare (right : Bool) (mk : RightMark) : RightMark :=
  if right then { mk with
    deviceCount := mk.deviceCount - 1
    flags := if mk.deviceCount = 1 then mk.flags &&& ~~~deviceRight else mk.flags }
  else mk

theorem disableMerge_bits (d : KMemoryBlockDisableMergeAttribute) :
    (d ||| deviceLeft) &&& allLeft = (d &&& allLeft) ||| deviceLeft ∧
    (d ||| deviceRight) &&& allLeft = d &&& allLeft ∧
    (d ||| deviceLeft) &&& allRight = d &&& allRight ∧
    (d ||| deviceRight) &&& allRight = (d &&& allRight) ||| deviceRight ∧
    d &&& ~~~deviceLeft &&& allLeft = d &&& allLeft &&& ~~~deviceLeft ∧
    d &&& ~~~deviceRight &&& allLeft = d &&& allLeft ∧
    d &&& ~~~deviceLeft &&& allRight = d &&& allRight ∧
    d &&& ~~~deviceRight &&& allRight = d &&& allRight &&& ~~~deviceRight := by
  revert d
  decide

theorem clear_deviceLeft (P : Prop) [Decidable P] (d : KMemoryBlockDisableMergeAttribute) :
    (if P then d &&& ~~~deviceLeft else d) &&& allLeft =
        (if P then d &&& allLeft &&& ~~~deviceLeft else d &&& allLeft) ∧
      (if P then d &&& ~~~deviceLeft else d) &&& allRight = d &&& allRight := by
  obtain ⟨-, -, -, -, d5, -, d7, -⟩ := disableMerge_bits d
  split
  · exact ⟨d5, d7⟩
  · exact ⟨rfl, rfl⟩

theorem clear_deviceRight (P : Prop) [Decidable P] (d : KMemoryBlockDisableMergeAttribute) :
    (if P then d &&& ~~~deviceRight else d) &&& allLeft = d &&& allLeft ∧
      (if P then d &&& ~~~deviceRight else d) &&& allRight =
        if P then d &&& allRight &&& ~~~deviceRight else d &&& allRight := by
  obtain ⟨-, -, -, -, -, d6, -, d8⟩ := disableMerge_bits d
  split
  · exact ⟨d6, d8⟩
  · exact ⟨rfl, rfl⟩

namespace KMemoryBlock

variable {b c : KMemoryBlock} {left right : Bool}

theorem shareLeft_marks (h : b.updateDeviceDisableMergeStateForShareLeft left = some c) :
    c.leftMark = b.leftMark.share left ∧ c.rightMark = b.rightMark := by
  obtain ⟨d1, -, d3, -⟩ := disableMerge_bits b.disableMergeAttribute
  unfold updateDeviceDisableMergeStateForShareLeft at h
  split at h
  · rename_i hl
    simp only [assert_bind_eq_some, Option.pure_def, Option.some.injEq] at h
    obtain ⟨_, rfl⟩ := h
    simp only [leftMark, rightMark, LeftMark.share, hl, d1, d3, if_true, and_self]
  · rename_i hl
    cases h
    simp only [LeftMark.share, hl, if_false, and_self, Bool.false_eq_true]

theorem shareRight_marks (h : b.updateDeviceDisableMergeStateForShareRight right = some c) :
    c.leftMark = b.leftMark ∧ c.rightMark = b.rightMark.share right := by
  obtain ⟨-, d2, -, d4, -⟩ := disableMerge_bits b.disableMergeAttribute
  unfold updateDeviceDisableMergeStateForShareRight at h
  split at h
  · rename_i hr
    simp only [assert_bind_eq_some, Option.pure_def, Option.some.injEq] at h
    obtain ⟨_, rfl⟩ := h
    simp only [leftMark, rightMark, RightMark.share, hr, d2, d4, if_true, and_self]
  · rename_i hr
    cases h
    simp only [RightMark.share, hr, if_false, and_self, Bool.false_eq_true]

theorem shareToDevice_marks (h : b.shareToDevice left right = some c) :
    c.leftMark = b.leftMark.share left ∧ c.rightMark = b.rightMark.share right := by
  simp only [shareToDevice, assert_bind_eq_some] at h
  obtain ⟨-, -, h⟩ := h
  simp only [updateDeviceDisableMergeStateForShare, Option.bind_eq_bind, Option.bind_eq_some_iff] at h
  obtain ⟨d, h1, h2⟩ := h
  obtain ⟨l1, r1⟩ := shareLeft_marks h1
  obtain ⟨l2, r2⟩ := shareRight_marks h2
  exact ⟨l2.trans l1, by rw [r2, r1]; rfl⟩

theorem unshareLeft_marks (b : KMemoryBlock) (left : Bool) :
    (b.updateDeviceDisableMergeStateForUnshareLeft left).leftMark =
        b.leftMark.unshare left b.deviceUseCount ∧
      (b.updateDeviceDisableMergeStateForUnshareLeft left).rightMark = b.rightMark := by
  unfold updateDeviceDisableMergeStateForUnshareLeft LeftMark.unshare
  by_cases hl : left = true ∧ b.deviceDisableMergeLeftCount = 0
  · rw [if_pos hl, if_pos (show left = true ∧ b.leftMark.deviceCount = 0 from hl)]
    exact ⟨rfl, rfl⟩
  · rw [if_neg hl, if_neg (show ¬(left = true ∧ b.leftMark.deviceCount = 0) from hl)]
    exact ⟨LeftMark.ext (clear_deviceLeft _ _).1 rfl rfl, RightMark.ext (clear_deviceLeft _ _).2 rfl⟩

theorem unshareRight_marks (h : b.updateDeviceDisableMergeStateForUnshareRight right = some c) :
    c.leftMark = b.leftMark ∧ c.rightMark = b.rightMark.unshare right := by
  unfold updateDeviceDisableMergeStateForUnshareRight at h
  split at h
  · rename_i hr
    simp only [assert_bind_eq_some, Option.pure_def, Option.some.injEq] at h
    obtain ⟨_, rfl⟩ := h
    rw [RightMark.unshare, if_pos hr]
    exact ⟨LeftMark.ext (clear_deviceRight _ _).1 rfl rfl, RightMark.ext (clear_deviceRight _ _).2 rfl⟩
  · rename_i hr
    cases h
    simp only [RightMark.unshare, hr, if_false, and_self, Bool.false_eq_true]

theorem unshareToDevice_marks (h : b.unshareToDevice left right = some c) :
    c.leftMark = b.leftMark.unshare left (b.deviceUseCount - 1) ∧
      c.rightMark = b.rightMark.unshare right := by
  simp only [unshareToDevice, Option.bind_eq_bind, Option.bind_eq_some_iff] at h
  obtain ⟨d, hd, h⟩ := h
  simp only [unshare, assert_bind_eq_some, Option.pure_def, Option.some.injEq] at hd
  obtain ⟨-, -, rfl⟩ := hd
  obtain ⟨l1, r1⟩ := unshareLeft_marks { b with
    deviceUseCount := b.deviceUseCount - 1
    attr := if b.deviceUseCount = 1 then b.attr &&& ~~~deviceShared else b.attr } left
  obtain ⟨l2, r2⟩ := unshareRight_marks h
  exact ⟨l2.trans l1, by rw [r2, r1]; rfl⟩

end KMemoryBlock

/-! ## 3. Pages and edges under a number of shares -/

theorem ofNat_inj {k l : Nat} (hk : k < 2 ^ 16) (hl : l < 2 ^ 16) :
    BitVec.ofNat 16 k = BitVec.ofNat 16 l ↔ k = l := by
  rw [← BitVec.toNat_inj, BitVec.toNat_ofNat, BitVec.toNat_ofNat, Nat.mod_eq_of_lt hk, Nat.mod_eq_of_lt hl]

theorem ofNat_succ_sub_one (k : Nat) : BitVec.ofNat 16 (k + 1) - 1 = BitVec.ofNat 16 k := by
  rw [BitVec.ofNat_add]
  exact BitVec.add_sub_cancel _ _

/-- No page of it is shared. -/
def Page.DeviceFree (q : Page) : Prop := q.attr &&& deviceShared = 0#8 ∧ q.deviceUseCount = 0

def LeftMark.DeviceFree (mk : LeftMark) : Prop :=
  mk.flags &&& deviceLeft = 0#5 ∧ mk.deviceCount = 0

def RightMark.DeviceFree (mk : RightMark) : Prop :=
  mk.flags &&& deviceRight = 0#5 ∧ mk.deviceCount = 0

/-- No page of the block is shared, and no share has left a trace at its edges. -/
def KMemoryBlock.DeviceFree (b : KMemoryBlock) : Prop :=
  b.page.DeviceFree ∧ b.leftMark.DeviceFree ∧ b.rightMark.DeviceFree

/-- The page under `k` shares. -/
def Page.shared (k : Nat) (q : Page) : Page :=
  if k = 0 then q
  else { q with deviceUseCount := BitVec.ofNat 16 k, attr := q.attr ||| deviceShared }

/-- The left edge at which `k` shares begin. -/
def LeftMark.shared (k : Nat) (mk : LeftMark) : LeftMark :=
  if k = 0 then mk
  else { mk with flags := mk.flags ||| deviceLeft, deviceCount := BitVec.ofNat 16 k }

/-- The right edge at which `k` shares end. -/
def RightMark.shared (k : Nat) (mk : RightMark) : RightMark :=
  if k = 0 then mk
  else { mk with flags := mk.flags ||| deviceRight, deviceCount := BitVec.ofNat 16 k }

section Shared

variable {q q' : Page} {lm : LeftMark} {rm : RightMark} {k l : Nat}

theorem Page.DeviceFree.shared_useCount (h : q.DeviceFree) :
    (q.shared k).deviceUseCount = BitVec.ofNat 16 k := by
  unfold Page.shared
  split
  · rename_i hk
    rw [hk, h.2]
    rfl
  · rfl

theorem LeftMark.DeviceFree.shared_count (h : lm.DeviceFree) :
    (lm.shared k).deviceCount = BitVec.ofNat 16 k := by
  unfold LeftMark.shared
  split
  · rename_i hk
    rw [hk, h.2]
    rfl
  · rfl

theorem RightMark.DeviceFree.shared_count (h : rm.DeviceFree) :
    (rm.shared k).deviceCount = BitVec.ofNat 16 k := by
  unfold RightMark.shared
  split
  · rename_i hk
    rw [hk, h.2]
    rfl
  · rfl

theorem Page.shared_attr_of_pos (hk : k ≠ 0) : (q.shared k).attr &&& deviceShared = deviceShared := by
  have hbits : ∀ x : KMemoryAttribute, (x ||| deviceShared) &&& deviceShared = deviceShared := by
    decide
  rw [Page.shared, if_neg hk]
  exact hbits _

theorem LeftMark.shared_flags_eq_zero (h : (lm.shared k).flags = 0) : k = 0 ∧ lm.flags = 0 := by
  have hbits : ∀ x : KMemoryBlockDisableMergeAttribute, x ||| deviceLeft ≠ 0 := by decide
  unfold LeftMark.shared at h
  split at h
  · exact ⟨‹_›, h⟩
  · exact absurd h (hbits _)

theorem RightMark.shared_flags_eq_zero (h : (rm.shared k).flags = 0) : k = 0 ∧ rm.flags = 0 := by
  have hbits : ∀ x : KMemoryBlockDisableMergeAttribute, x ||| deviceRight ≠ 0 := by decide
  unfold RightMark.shared at h
  split at h
  · exact ⟨‹_›, h⟩
  · exact absurd h (hbits _)

theorem Page.DeviceFree.shared_inj (h : q.DeviceFree) (h' : q'.DeviceFree) (hk : k < 2 ^ 16)
    (hl : l < 2 ^ 16) (he : q.shared k = q'.shared l) : q = q' := by
  have hbits : ∀ x : KMemoryAttribute, x &&& deviceShared = 0#8 →
      (x ||| deviceShared) &&& ~~~deviceShared = x := by decide
  obtain rfl : k = l := by
    rw [← ofNat_inj hk hl, ← h.shared_useCount, ← h'.shared_useCount, he]
  unfold Page.shared at he
  split at he
  · exact he
  · have ha : q.attr = q'.attr := by
      rw [← hbits _ h.1, ← hbits _ h'.1, (Page.mk.inj he).2.2.2.1]
    have hu : q.deviceUseCount = q'.deviceUseCount := h.2.trans h'.2.symm
    obtain ⟨e1, e2, e3, -, e5, -⟩ := Page.mk.inj he
    cases q
    cases q'
    simp_all

theorem Page.share_shared (h : q.DeviceFree) (perm : KMemoryPermission) :
    LockFunction.shareToDevice.onPage perm (q.shared k) = q.shared (k + 1) := by
  have hu := h.shared_useCount (k := k)
  unfold LockFunction.onPage
  dsimp only
  rw [hu, Page.shared, Page.shared, if_neg (Nat.succ_ne_zero k), BitVec.ofNat_add]
  split
  · rfl
  · dsimp only
    rw [BitVec.or_assoc, BitVec.or_self]
    rfl

theorem Page.unshare_shared (h : q.DeviceFree) (hk : k + 1 < 2 ^ 16) (perm : KMemoryPermission) :
    LockFunction.unshareToDevice.onPage perm (q.shared (k + 1)) = q.shared k := by
  have hbits : ∀ x : KMemoryAttribute, x &&& deviceShared = 0#8 →
      (x ||| deviceShared) &&& ~~~deviceShared = x := by decide
  have hone : BitVec.ofNat 16 (k + 1) = 1 ↔ k = 0 := by
    rw [show (1 : BitVec 16) = BitVec.ofNat 16 1 from rfl, ofNat_inj hk (by decide)]
    omega
  unfold LockFunction.onPage
  dsimp only
  rw [h.shared_useCount, ofNat_succ_sub_one]
  simp only [hone]
  rw [Page.shared, if_neg (Nat.succ_ne_zero k), Page.shared]
  by_cases hk0 : k = 0
  · simp only [hk0, if_true]
    rw [hbits _ h.1, show 0#16 = q.deviceUseCount from h.2.symm]
  · simp only [hk0, if_false]

theorem LeftMark.share_shared (h : lm.DeviceFree) (left : Bool) :
    (lm.shared k).share left = lm.shared (k + left.toNat) := by
  cases left with
  | false => rfl
  | true =>
    have hc := h.shared_count (k := k)
    rw [LeftMark.share, if_pos rfl, hc, LeftMark.shared, LeftMark.shared, Bool.toNat_true,
      if_neg (Nat.succ_ne_zero k), BitVec.ofNat_add]
    split
    · rfl
    · dsimp only
      rw [BitVec.or_assoc, BitVec.or_self]
      rfl

theorem RightMark.share_shared (h : rm.DeviceFree) (right : Bool) :
    (rm.shared k).share right = rm.shared (k + right.toNat) := by
  cases right with
  | false => rfl
  | true =>
    have hc := h.shared_count (k := k)
    rw [RightMark.share, if_pos rfl, hc, RightMark.shared, RightMark.shared, Bool.toNat_true,
      if_neg (Nat.succ_ne_zero k), BitVec.ofNat_add]
    split
    · rfl
    · dsimp only
      rw [BitVec.or_assoc, BitVec.or_self]
      rfl

/-- The clamp does not bite while no more shares begin at the edge than lie over the page. -/
theorem LeftMark.unshare_shared (h : lm.DeviceFree) (left : Bool) (hkl : k ≤ l) (hl : l + 1 < 2 ^ 16) :
    (lm.shared (k + left.toNat)).unshare left (BitVec.ofNat 16 l) = lm.shared k := by
  have hbits : ∀ x : KMemoryBlockDisableMergeAttribute, x &&& deviceLeft = 0#5 →
      x &&& ~~~deviceLeft = x ∧ (x ||| deviceLeft) &&& ~~~deviceLeft = x := by decide
  have hb : left.toNat ≤ 1 := Bool.toNat_le left
  have hc := h.shared_count (k := k + left.toNat)
  have hcount : (if left then BitVec.ofNat 16 (k + left.toNat) - 1
      else BitVec.ofNat 16 (k + left.toNat)) = BitVec.ofNat 16 k := by
    cases left with
    | false => rfl
    | true => exact ofNat_succ_sub_one k
  have hle : BitVec.ofNat 16 k ≤ BitVec.ofNat 16 l := by
    rw [BitVec.le_def, BitVec.toNat_ofNat, BitVec.toNat_ofNat, Nat.mod_eq_of_lt (by omega),
      Nat.mod_eq_of_lt (by omega)]
    exact hkl
  have hz : BitVec.ofNat 16 k = 0 ↔ k = 0 := ofNat_inj (by omega) (by decide)
  have hne : ¬(left = true ∧ (lm.shared (k + left.toNat)).deviceCount = 0) := by
    rintro ⟨rfl, h0⟩
    rw [hc, Bool.toNat_true] at h0
    have := (ofNat_inj (l := 0) (by omega) (by decide)).mp h0
    omega
  rw [LeftMark.unshare, if_neg hne]
  dsimp only
  rw [hc, hcount, if_pos hle]
  simp only [hz]
  by_cases hk : k = 0
  · subst hk
    rw [if_pos rfl]
    cases left with
    | false =>
      simp only [LeftMark.shared, Bool.toNat_false, Nat.add_zero, if_true]
      rw [(hbits _ h.1).1]
      exact LeftMark.ext rfl h.2.symm rfl
    | true =>
      simp only [LeftMark.shared, Bool.toNat_true, Nat.zero_add, Nat.one_ne_zero, if_false, if_true]
      rw [(hbits _ h.1).2]
      exact LeftMark.ext rfl h.2.symm rfl
  · simp only [LeftMark.shared, hk, if_false]
    rw [if_neg (by omega)]

theorem LeftMark.unshare_default (q : Page) :
    (default : LeftMark).unshare false (q.deviceUseCount - 1) = default := by
  rw [LeftMark.unshare, if_neg (by simp)]
  simp [LeftMark.default_def]

theorem RightMark.unshare_shared (h : rm.DeviceFree) (right : Bool) (hk : k + 1 < 2 ^ 16) :
    (rm.shared (k + right.toNat)).unshare right = rm.shared k := by
  cases right with
  | false => rfl
  | true =>
    have hbits : ∀ x : KMemoryBlockDisableMergeAttribute, x &&& deviceRight = 0#5 →
        (x ||| deviceRight) &&& ~~~deviceRight = x := by decide
    have hone : BitVec.ofNat 16 (k + 1) = 1 ↔ k = 0 := by
      rw [show (1 : BitVec 16) = BitVec.ofNat 16 1 from rfl, ofNat_inj hk (by decide)]
      omega
    rw [RightMark.unshare, if_pos rfl, Bool.toNat_true, h.shared_count, ofNat_succ_sub_one]
    simp only [hone]
    by_cases hk0 : k = 0
    · subst hk0
      simp only [RightMark.shared, Nat.zero_add, Nat.one_ne_zero, if_false, if_true]
      rw [hbits _ h.1]
      exact RightMark.ext rfl h.2.symm
    · simp only [RightMark.shared, hk0, if_false]
      rw [if_neg (by omega)]

end Shared

/-! ## 4. Runs -/

structure PageRange where
  address : Nat
  numPages : Nat
  deriving DecidableEq, Repr

namespace PageRange

def stop (r : PageRange) : Nat := r.address + r.numPages * PageSize

def contains (r : PageRange) (p : Nat) : Bool := decide (r.address ≤ p ∧ p < r.stop)

/-- Aligned, not empty, and inside the space. -/
structure InSpace (r : PageRange) (m : KMemoryBlockManager) : Prop where
  aligned : r.address % PageSize = 0
  pos : r.numPages ≠ 0
  start_le : m.startAddress ≤ r.address
  stop_le : r.stop ≤ m.endAddress

theorem InSpace.lt_stop {r : PageRange} {m : KMemoryBlockManager} (h : r.InSpace m) :
    r.address < r.stop := by
  have := h.pos
  simp only [stop, PageSize]
  omega

end PageRange

/-- One call of a run. -/
inductive DeviceOp where
  | share (r : PageRange) (perm : KMemoryPermission)
  | unshare (r : PageRange) (perm : KMemoryPermission)
  deriving DecidableEq, Repr

namespace DeviceOp

def run : DeviceOp → KMemoryBlockManager → Option KMemoryBlockManager
  | share r perm, m => m.updateLock r.address r.numPages .shareToDevice perm
  | unshare r perm, m => m.updateLock r.address r.numPages .unshareToDevice perm

/-- The outstanding ranges after the call. -/
def outstanding : DeviceOp → List PageRange → List PageRange
  | share r _, out => r :: out
  | unshare r _, out => out.erase r

/-- A share stays within the space and below the limit, an unshare names an outstanding range. -/
def Legal (m : KMemoryBlockManager) (out : List PageRange) : DeviceOp → Prop
  | share r _ => r.InSpace m ∧ out.length + 1 < 2 ^ 16
  | unshare r _ => r ∈ out

end DeviceOp

/-- A run of legal calls from the outstanding ranges `out` to `out'`. -/
inductive LegalRun (m : KMemoryBlockManager) :
    List PageRange → List DeviceOp → List PageRange → Prop
  | nil (out : List PageRange) : LegalRun m out [] out
  | cons {out out' : List PageRange} {op : DeviceOp} {ops : List DeviceOp} (h : op.Legal m out)
      (hs : LegalRun m (op.outstanding out) ops out') : LegalRun m out (op :: ops) out'

/-- The calls of a run, one after the other. -/
def runDeviceOps (m : KMemoryBlockManager) (ops : List DeviceOp) : Option KMemoryBlockManager :=
  ops.foldlM (fun m op => op.run m) m

def coverCount (out : List PageRange) (p : Nat) : Nat := out.countP fun r => r.contains p
def beginCount (out : List PageRange) (p : Nat) : Nat := out.countP fun r => p == r.address
def endCount (out : List PageRange) (p : Nat) : Nat := out.countP fun r => p == r.stop

namespace KMemoryBlockManager

/-- A list `CheckState` accepts, with nothing shared and no trace of a share. -/
structure DeviceFree (m : KMemoryBlockManager) : Prop where
  aligned : m.startAddress % PageSize = 0
  covers : Covers m.startAddress m.endAddress m.blocks
  checked : m.checkState = true
  free : ∀ b ∈ m.blocks, b.DeviceFree

variable {m : KMemoryBlockManager} {p : Nat}

theorem DeviceFree.page (h : m.DeviceFree) {q : Page} (hq : pageAt m.blocks p = some q) :
    q.DeviceFree :=
  (forall_page_iff h.covers).mp (fun b hb => (h.free b hb).1) p q hq

theorem DeviceFree.left (h : m.DeviceFree) : (leftAt m.blocks p).DeviceFree := by
  rcases markAt_eq_default_or KMemoryBlock.address KMemoryBlock.leftMark p m.blocks with
    e | ⟨b, hb, e⟩
  · rw [leftAt, e]
    exact ⟨rfl, rfl⟩
  · rw [leftAt, e]
    exact (h.free b hb).2.1

theorem DeviceFree.right (h : m.DeviceFree) : (rightAt m.blocks p).DeviceFree := by
  rcases markAt_eq_default_or KMemoryBlock.endAddress KMemoryBlock.rightMark p m.blocks with
    e | ⟨b, hb, e⟩
  · rw [rightAt, e]
    exact ⟨rfl, rfl⟩
  · rw [rightAt, e]
    exact (h.free b hb).2.2

theorem initializeSpace_deviceFree {st nd : Nat} (hlt : st < nd)
    (h : initializeSpace st nd = some m) : m.DeviceFree := by
  have hw := initializeSpace_wellFormed hlt h
  refine ⟨hw.aligned, hw.covers, hw.checked, ?_⟩
  simp only [initializeSpace, assert_bind_eq_some, Option.pure_def, Option.some.injEq] at h
  obtain ⟨-, -, rfl⟩ := h
  intro b hb
  rw [List.mem_singleton] at hb
  subst hb
  refine ⟨⟨?_, rfl⟩, ⟨?_, rfl⟩, ?_, rfl⟩
  · dsimp only [KMemoryBlock.page]
    decide
  · dsimp only [KMemoryBlock.leftMark]
    decide
  · dsimp only [KMemoryBlock.rightMark]
    decide

end KMemoryBlockManager

/-- `bs` reads as the list of `m₀` with the ranges `out` shared. -/
structure ReadsShared (m₀ : KMemoryBlockManager) (out : List PageRange) (bs : List KMemoryBlock) :
    Prop where
  page : ∀ p, pageAt bs p = (pageAt m₀.blocks p).map (Page.shared (coverCount out p))
  left : ∀ p, leftAt bs p = (leftAt m₀.blocks p).shared (beginCount out p)
  right : ∀ p, rightAt bs p = (rightAt m₀.blocks p).shared (endCount out p)

/-- **The invariant of a run**: the list reads as the initial one with the outstanding ranges
    shared, and it is coalesced. -/
structure SharedBy (m₀ : KMemoryBlockManager) (out : List PageRange) (m : KMemoryBlockManager) :
    Prop where
  start_eq : m.startAddress = m₀.startAddress
  end_eq : m.endAddress = m₀.endAddress
  covers : Covers m₀.startAddress m₀.endAddress m.blocks
  noMerge : NoMerge m₀.startAddress m.blocks
  reads : ReadsShared m₀ out m.blocks
  inSpace : ∀ r ∈ out, r.InSpace m₀
  few : out.length < 2 ^ 16

/-! ## 5. The invariant holds along every run -/

section Counts

variable {r : PageRange} {out : List PageRange} {p : Nat}

theorem coverCount_cons : coverCount (r :: out) p = coverCount out p + (r.contains p).toNat := by
  cases h : r.contains p <;> simp [coverCount, h]

theorem beginCount_cons : beginCount (r :: out) p = beginCount out p + (p == r.address).toNat := by
  cases h : (p == r.address) <;> simp [beginCount, h]

theorem endCount_cons : endCount (r :: out) p = endCount out p + (p == r.stop).toNat := by
  cases h : (p == r.stop) <;> simp [endCount, h]

theorem counts_erase (h : r ∈ out) : coverCount out p = coverCount (out.erase r) p + (r.contains p).toNat ∧
      beginCount out p = beginCount (out.erase r) p + (p == r.address).toNat ∧
      endCount out p = endCount (out.erase r) p + (p == r.stop).toNat := by
  have hp := List.perm_cons_erase h
  rw [← coverCount_cons, ← beginCount_cons, ← endCount_cons]
  exact ⟨hp.countP_eq _, hp.countP_eq _, hp.countP_eq _⟩

theorem beginCount_le_coverCount {m : KMemoryBlockManager} (h : ∀ r ∈ out, r.InSpace m) :
    beginCount out p ≤ coverCount out p := by
  refine List.countP_mono_left fun r hr hp => ?_
  have := (h r hr).lt_stop
  simp only [beq_iff_eq] at hp
  simp only [PageRange.contains, decide_eq_true_eq]
  omega

end Counts

theorem NoMerge.startsAt_iff {a z j : Nat} {bs : List KMemoryBlock} (h : NoMerge a bs)
    (hc : Covers a z bs) (ha : a < j) (hz : j < z) : StartsAt bs j ↔ ¬ MergeableAt bs j := by
  refine ⟨h j ha, fun hm => Classical.byContradiction fun hs => hm ?_⟩
  obtain ⟨hp, hr⟩ := Tiles.valueAt_pred (e := KMemoryBlock.page) (d := KMemoryBlock.rightMark) hc ha hz hs
  refine ⟨hp, ?_, ?_⟩
  · rw [rightAt, hr]
    rfl
  · rw [leftAt, markAt_of_not_starts hs]
    rfl

/-- **A coalesced list is determined by its readings.** -/
theorem NoMerge.eq_of_readings {a z : Nat} {bs cs : List KMemoryBlock} (hb : NoMerge a bs)
    (hc : NoMerge a cs) (hbc : Covers a z bs) (hcc : Covers a z cs)
    (hp : ∀ p, pageAt bs p = pageAt cs p) (hl : ∀ p, leftAt bs p = leftAt cs p)
    (hr : ∀ p, rightAt bs p = rightAt cs p) : bs = cs := by
  refine Tiles.eq_of_starts (fun b hbm c hcm h1 h2 => ?_) hbc hcc fun p => ?_
  · refine KMemoryBlock.ext_parts h1 ?_ ?_ ?_ ?_
    · rw [KMemoryBlock.endAddress_eq, KMemoryBlock.endAddress_eq] at h2
      omega
    · have e := hp b.address
      rw [pageAt, hbc.valueAt_mem b hbm, h1, pageAt, hcc.valueAt_mem c hcm] at e
      exact Option.some.inj e
    · have e := hl b.address
      rwa [leftAt, hbc.markLo_mem b hbm, h1, leftAt, hcc.markLo_mem c hcm] at e
    · have e := hr b.endAddress
      rwa [rightAt, hbc.markHi_mem b hbm, h2, rightAt, hcc.markHi_mem c hcm] at e
  · by_cases hpz : a ≤ p ∧ p < z
    · by_cases hpa : p = a
      · rw [hpa]
        exact iff_of_true (hbc.starts_first (by omega)) (hcc.starts_first (by omega))
      · have e : MergeableAt bs p ↔ MergeableAt cs p := by
          simp only [MergeableAt, hp, hl, hr]
        exact (hb.startsAt_iff hbc (by omega) hpz.2).trans
          ((not_congr e).trans (hc.startsAt_iff hcc (by omega) hpz.2).symm)
    · exact iff_of_false (fun h => hpz (hbc.starts_bounds h)) (fun h => hpz (hcc.starts_bounds h))

theorem Covers.pageAt_isSome : ∀ {bs : List KMemoryBlock} {a z p : Nat}, Covers a z bs → a ≤ p →
    p < z → ∃ q, pageAt bs p = some q
  | [], a, z, p, h, h1, h2 => by
    have e := tiles_nil.mp h
    omega
  | b :: bs, a, z, p, ⟨h0, h1, h2⟩, hp, hz => by
    rw [pageAt_cons]
    split
    · exact ⟨_, rfl⟩
    · exact Covers.pageAt_isSome h2 (by omega) hz

section Step

variable {m₀ m : KMemoryBlockManager} {out : List PageRange} {bs : List KMemoryBlock}

/-- Where a merge is possible under shares it was possible without them, so a coalesced initial
    list has bare edges there. -/
theorem ReadsShared.mergeSafe (h : ReadsShared m₀ out bs) (h0 : m₀.DeviceFree)
    (hfew : out.length < 2 ^ 16) : MergeSafe m₀.startAddress bs := by
  rintro j hj ⟨hp, hr, hl⟩
  have hno := KMemoryBlockManager.noMerge_of_go h0.covers h0.checked
  have hlt : ∀ p, coverCount out p < 2 ^ 16 := fun p =>
    Nat.lt_of_le_of_lt List.countP_le_length hfew
  rw [h.right] at hr
  rw [h.left] at hl
  obtain ⟨hr0, hr⟩ := RightMark.shared_flags_eq_zero hr
  obtain ⟨hl0, hl⟩ := LeftMark.shared_flags_eq_zero hl
  rw [h.page, h.page] at hp
  have hns : ¬ StartsAt m₀.blocks j := by
    intro hs
    have hb := h0.covers.starts_bounds hs
    obtain ⟨q1, hq1⟩ := h0.covers.pageAt_isSome (p := j - 1) (by omega) (by omega)
    obtain ⟨q2, hq2⟩ := h0.covers.pageAt_isSome hb.1 hb.2
    rw [hq1, hq2, Option.map_some, Option.map_some, Option.some.injEq] at hp
    have e := (h0.page hq1).shared_inj (h0.page hq2) (hlt _) (hlt _) hp
    exact hno j hj hs ⟨by rw [hq1, hq2, e], hr, hl⟩
  have hl' : leftAt m₀.blocks j = default := markAt_of_not_starts hns
  have hr' : rightAt m₀.blocks j = default := by
    rcases Nat.lt_trichotomy j m₀.endAddress with hje | hje | hje
    · exact (Tiles.valueAt_pred (e := KMemoryBlock.page) h0.covers hj hje hns).2
    · obtain ⟨q1, hq1⟩ := h0.covers.pageAt_isSome (p := j - 1) (by omega) (by omega)
      rw [hq1, h0.covers.pageAt_none (.inr (Nat.le_of_eq hje.symm))] at hp
      cases hp
    · exact h0.covers.rightAt_default (.inr hje)
  rw [h.left, h.right, hl0, hr0, hl', hr']
  exact ⟨rfl, rfl⟩

theorem ReadsShared.coalesced {bs' : List KMemoryBlock} (h : ReadsShared m₀ out bs)
    (h0 : m₀.DeviceFree) (hfew : out.length < 2 ^ 16)
    (hco : Coalesced m₀.startAddress m₀.endAddress bs bs') : ReadsShared m₀ out bs' := by
  have he := hco.edges (h.mergeSafe h0 hfew)
  exact ⟨fun p => (hco.page p).trans (h.page p), fun p => (he p).1.trans (h.left p),
    fun p => (he p).2.trans (h.right p)⟩

theorem SharedBy.init (h : m₀.DeviceFree) : SharedBy m₀ [] m₀ where
  start_eq := rfl
  end_eq := rfl
  covers := h.covers
  noMerge := KMemoryBlockManager.noMerge_of_go h.covers h.checked
  reads := ⟨fun p => by cases hq : pageAt m₀.blocks p <;> rfl, fun _ => rfl, fun _ => rfl⟩
  inSpace r hr := by cases hr
  few := by decide

theorem SharedBy.eq_of_nil (h : SharedBy m₀ [] m) (h0 : m₀.DeviceFree) : m.blocks = m₀.blocks := by
  have hi := SharedBy.init h0
  exact NoMerge.eq_of_readings h.noMerge hi.noMerge h.covers hi.covers
    (fun p => (h.reads.page p).trans (hi.reads.page p).symm)
    (fun p => (h.reads.left p).trans (hi.reads.left p).symm)
    (fun p => (h.reads.right p).trans (hi.reads.right p).symm)

theorem shareToDevice_isSome {b : KMemoryBlock} {left right : Bool}
    (h1 : b.attr &&& deviceShared = deviceShared ∨ b.deviceUseCount = 0)
    (h2 : b.deviceUseCount + 1 ≠ 0) (h3 : b.deviceDisableMergeLeftCount + 1 ≠ 0)
    (h4 : b.deviceDisableMergeRightCount + 1 ≠ 0) : (b.shareToDevice left right).isSome = true := by
  have hl : ∀ c : KMemoryBlock, c.leftMark = b.leftMark → c.rightMark = b.rightMark →
      (c.updateDeviceDisableMergeStateForShare left right).isSome = true := by
    intro c hcl hcr
    have h3' : c.deviceDisableMergeLeftCount + 1 ≠ 0 := by
      rwa [show c.deviceDisableMergeLeftCount = _ from congrArg LeftMark.deviceCount hcl]
    obtain ⟨d, hd⟩ : ∃ d, c.updateDeviceDisableMergeStateForShareLeft left = some d := by
      cases left with
      | false => exact ⟨_, rfl⟩
      | true => exact ⟨_, assert_bind_of h3'⟩
    have h4' : d.deviceDisableMergeRightCount + 1 ≠ 0 := by
      have e := congrArg RightMark.deviceCount ((KMemoryBlock.shareLeft_marks hd).2.trans hcr)
      rwa [show d.deviceDisableMergeRightCount = _ from e]
    rw [KMemoryBlock.updateDeviceDisableMergeStateForShare, hd]
    cases right with
    | false => rfl
    | true => exact congrArg Option.isSome (assert_bind_of h4')
  rw [KMemoryBlock.shareToDevice, assert_bind_of h1]
  dsimp only
  rw [assert_bind_of h2]
  exact hl _ rfl rfl

theorem unshareToDevice_isSome {b : KMemoryBlock} {left right : Bool}
    (h1 : b.attr &&& deviceShared = deviceShared) (h2 : b.deviceUseCount ≠ 0)
    (h3 : right = true → b.deviceDisableMergeRightCount ≠ 0) :
    (b.unshareToDevice left right).isSome = true := by
  have hr : ∀ c : KMemoryBlock, c.rightMark.deviceCount = b.rightMark.deviceCount →
      (c.updateDeviceDisableMergeStateForUnshareRight right).isSome = true := by
    intro c hc
    unfold KMemoryBlock.updateDeviceDisableMergeStateForUnshareRight
    split
    · rename_i hr
      have hc' : c.deviceDisableMergeRightCount ≠ 0 := by
        rw [show c.deviceDisableMergeRightCount = _ from hc]
        exact h3 hr
      rw [assert_bind_of hc']
      rfl
    · rfl
  rw [KMemoryBlock.unshareToDevice, KMemoryBlock.unshare, assert_bind_of h1, assert_bind_of h2]
  refine hr _ ?_
  rw [(KMemoryBlock.unshareLeft_marks _ left).2]
  rfl

theorem SharedBy.share (h : SharedBy m₀ out m) (h0 : m₀.DeviceFree) {r : PageRange}
    (hr : r.InSpace m₀) (hfew : out.length + 1 < 2 ^ 16) (perm : KMemoryPermission) :
    ∃ m', m.updateLock r.address r.numPages .shareToDevice perm = some m' ∧ SharedBy m₀ (r :: out) m' := by
  have hlen : ∀ (f : PageRange → Bool), out.countP f + 1 < 2 ^ 16 := fun f =>
    Nat.lt_of_le_of_lt (Nat.succ_le_succ List.countP_le_length) hfew
  have hne : ∀ {k : Nat}, k + 1 < 2 ^ 16 → BitVec.ofNat 16 k + 1 ≠ 0 := fun hk e => by
    have := (ofNat_inj (l := 0) hk (by decide)).mp (by rw [BitVec.ofNat_add]; exact e)
    omega
  have hstop : r.stop = r.address + r.numPages * 4096 := rfl
  have hal := hr.aligned
  have h1 := hr.start_le
  have h2 := hr.stop_le
  obtain ⟨m', mid, hm', hs, he, hno, hco, hf⟩ := KMemoryBlockManager.updateLock_spec (m := m)
    .shareToDevice perm r.address r.numPages (fun left _ mk => mk.share left) RightMark.share
    (fun left right b c hc => KMemoryBlock.shareToDevice_marks hc) (fun _ => rfl) rfl
    (fun b hb1 hb2 hb3 hp hl hrt => by
      rw [h.reads.page] at hp
      obtain ⟨q, hq, e⟩ := Option.map_eq_some_iff.mp hp
      have hu := (h0.page hq).shared_useCount (k := coverCount out b.address)
      rw [e] at hu
      have hlc := (h0.left (p := b.address)).shared_count (k := beginCount out b.address)
      rw [← h.reads.left, hl] at hlc
      have hrc := (h0.right (p := b.endAddress)).shared_count (k := endCount out b.endAddress)
      rw [← h.reads.right, hrt] at hrc
      refine shareToDevice_isSome ?_ ?_ ?_ ?_
      · by_cases hk : coverCount out b.address = 0
        · rw [hk] at hu
          exact .inr hu
        · exact .inl (show b.page.attr &&& deviceShared = _ from e ▸ Page.shared_attr_of_pos hk)
      · rw [show b.deviceUseCount = _ from hu]
        exact hne (hlen _)
      · rw [show b.deviceDisableMergeLeftCount = _ from hlc]
        exact hne (hlen _)
      · rw [show b.deviceDisableMergeRightCount = _ from hrc]
        exact hne (hlen _))
    (by rw [h.start_eq]; exact h0.aligned) (by rw [h.start_eq, h.end_eq]; exact h.covers)
    (by rw [h.start_eq]; exact h.noMerge) hal hr.pos (by rw [h.start_eq]; exact h1)
    (by rw [h.end_eq]; exact h2)
  rw [h.start_eq] at hs hno hco hf
  rw [h.end_eq] at he hco hf
  have hread : ReadsShared m₀ (r :: out) mid := by
    refine ⟨fun p => ?_, fun p => ?_, fun p => ?_⟩
    · rw [coverCount_cons]
      by_cases hp : r.address ≤ p ∧ p < r.stop
      · rw [(hf.page_in p hp.1 hp.2).1, h.reads.page, PageRange.contains, decide_eq_true hp]
        cases hq : pageAt m₀.blocks p with
        | none => rfl
        | some q =>
          simp only [Option.map_some, Bool.toNat_true, Page.share_shared (h0.page hq)]
      · rw [hf.page_out p (by omega), h.reads.page, PageRange.contains, decide_eq_false hp]
        rfl
    · rw [beginCount_cons, ← LeftMark.share_shared h0.left, ← h.reads.left]
      by_cases hp : r.address ≤ p ∧ p < r.stop
      · obtain ⟨q, hq⟩ := h.covers.pageAt_isSome (p := p) (by omega) (by omega)
        exact hf.left_in p hp.1 hp.2 q hq
      · have := hr.lt_stop
        rw [hf.left_out p (by omega), beq_false_of_ne (by omega)]
        rfl
    · rw [endCount_cons, ← RightMark.share_shared h0.right, ← h.reads.right]
      by_cases hp : r.address < p ∧ p ≤ r.stop
      · exact hf.right_in p hp.1 hp.2
      · have := hr.lt_stop
        rw [hf.right_out p (by omega), beq_false_of_ne (by omega)]
        rfl
  exact ⟨m', hm', hs, he, hco.covers, hno, hread.coalesced h0 hfew hco,
    List.forall_mem_cons.mpr ⟨hr, h.inSpace⟩, hfew⟩

theorem SharedBy.unshare (h : SharedBy m₀ out m) (h0 : m₀.DeviceFree) {r : PageRange}
    (hr : r ∈ out) (perm : KMemoryPermission) :
    ∃ m', m.updateLock r.address r.numPages .unshareToDevice perm = some m' ∧
      SharedBy m₀ (out.erase r) m' := by
  have hlen : ∀ (f : PageRange → Bool), (out.erase r).countP f + 1 < 2 ^ 16 := fun f => by
    have h1 := List.countP_le_length (p := f) (l := out.erase r)
    have h2 := List.length_erase_of_mem hr
    have h3 := List.length_pos_of_mem hr
    have h4 := h.few
    omega
  have hin : ∀ r' ∈ out.erase r, r'.InSpace m₀ := fun r' h' =>
    h.inSpace r' (List.mem_of_mem_erase h')
  have hstop : r.stop = r.address + r.numPages * 4096 := rfl
  have hrs := h.inSpace r hr
  have h1 := hrs.start_le
  have h2 := hrs.stop_le
  have hlt := hrs.lt_stop
  have hcount : ∀ p, r.address ≤ p → p < r.stop →
      coverCount out p = coverCount (out.erase r) p + 1 := fun p hp1 hp2 => by
    rw [(counts_erase hr).1, PageRange.contains, decide_eq_true ⟨hp1, hp2⟩]
    rfl
  have hpred : ∀ {k : Nat}, k + 1 < 2 ^ 16 → BitVec.ofNat 16 (k + 1) ≠ 0 := fun hk e => by
    have := (ofNat_inj (l := 0) hk (by decide)).mp e
    omega
  obtain ⟨m', mid, hm', hs, he, hno, hco, hf⟩ := KMemoryBlockManager.updateLock_spec (m := m)
    .unshareToDevice perm r.address r.numPages
    (fun left q mk => mk.unshare left (q.deviceUseCount - 1)) RightMark.unshare
    (fun left right b c hc => KMemoryBlock.unshareToDevice_marks hc)
    LeftMark.unshare_default rfl
    (fun b hb1 hb2 hb3 hp hl hrt => by
      rw [h.reads.page] at hp
      obtain ⟨q, hq, e⟩ := Option.map_eq_some_iff.mp hp
      have hu := (h0.page hq).shared_useCount (k := coverCount out b.address)
      have hk := hcount b.address hb1 (by omega)
      rw [e, hk] at hu
      have hrc := (h0.right (p := b.endAddress)).shared_count (k := endCount out b.endAddress)
      rw [← h.reads.right, hrt] at hrc
      refine unshareToDevice_isSome ?_ ?_ fun hright => ?_
      · exact show b.page.attr &&& deviceShared = _ from e ▸ Page.shared_attr_of_pos (by omega)
      · rw [show b.deviceUseCount = _ from hu]
        exact hpred (hlen _)
      · rw [show b.deviceDisableMergeRightCount = _ from hrc, (counts_erase hr).2.2,
          show (b.endAddress == r.stop) = true from hright]
        exact hpred (hlen _))
    (by rw [h.start_eq]; exact h0.aligned) (by rw [h.start_eq, h.end_eq]; exact h.covers)
    (by rw [h.start_eq]; exact h.noMerge) hrs.aligned hrs.pos (by rw [h.start_eq]; exact h1)
    (by rw [h.end_eq]; exact h2)
  rw [h.start_eq] at hs hno hco hf
  rw [h.end_eq] at he hco hf
  have hread : ReadsShared m₀ (out.erase r) mid := by
    refine ⟨fun p => ?_, fun p => ?_, fun p => ?_⟩
    · by_cases hp : r.address ≤ p ∧ p < r.stop
      · rw [(hf.page_in p hp.1 hp.2).1, h.reads.page, hcount p hp.1 hp.2]
        cases hq : pageAt m₀.blocks p with
        | none => rfl
        | some q => exact congrArg some (Page.unshare_shared (h0.page hq) (hlen _) perm)
      · rw [hf.page_out p (by omega), h.reads.page, (counts_erase hr).1, PageRange.contains,
          decide_eq_false hp]
        rfl
    · by_cases hp : r.address ≤ p ∧ p < r.stop
      · obtain ⟨q, hq⟩ := h.covers.pageAt_isSome (p := p) (by omega) (by omega)
        have hu := hq
        rw [h.reads.page] at hu
        obtain ⟨q0, hq0, rfl⟩ := Option.map_eq_some_iff.mp hu
        rw [hf.left_in p hp.1 hp.2 _ hq, (h0.page hq0).shared_useCount, hcount p hp.1 hp.2,
          ofNat_succ_sub_one, h.reads.left, (counts_erase hr).2.1]
        exact LeftMark.unshare_shared h0.left _ (beginCount_le_coverCount hin) (hlen _)
      · rw [hf.left_out p (by omega), h.reads.left, (counts_erase hr).2.1, beq_false_of_ne (by omega)]
        rfl
    · by_cases hp : r.address < p ∧ p ≤ r.stop
      · rw [hf.right_in p hp.1 hp.2, h.reads.right, (counts_erase hr).2.2]
        exact RightMark.unshare_shared h0.right _ (hlen _)
      · rw [hf.right_out p (by omega), h.reads.right, (counts_erase hr).2.2, beq_false_of_ne (by omega)]
        rfl
  have hfew : (out.erase r).length < 2 ^ 16 :=
    Nat.lt_of_le_of_lt (List.length_erase_le) h.few
  exact ⟨m', hm', hs, he, hco.covers, hno, hread.coalesced h0 hfew hco, hin, hfew⟩

theorem SharedBy.step (h : SharedBy m₀ out m) (h0 : m₀.DeviceFree) {op : DeviceOp}
    (hop : op.Legal m₀ out) : ∃ m', op.run m = some m' ∧ SharedBy m₀ (op.outstanding out) m' := by
  cases op with
  | share r perm => exact h.share h0 hop.1 hop.2 perm
  | unshare r perm => exact h.unshare h0 hop perm

theorem SharedBy.run (h0 : m₀.DeviceFree) {out' : List PageRange} {ops : List DeviceOp}
    (hr : LegalRun m₀ out ops out') : ∀ {m}, SharedBy m₀ out m →
    ∃ m', runDeviceOps m ops = some m' ∧ SharedBy m₀ out' m' := by
  induction hr with
  | nil out => exact fun h => ⟨_, rfl, h⟩
  | cons hop _ ih =>
    intro m h
    obtain ⟨m1, hm1, h1⟩ := h.step h0 hop
    obtain ⟨m', hm', h'⟩ := ih h1
    refine ⟨m', ?_, h'⟩
    rw [runDeviceOps, List.foldlM_cons, hm1]
    exact hm'

end Step

/-- **Sharing and unsharing in any order.** From a list with nothing shared and no trace of a share,
    every run of legal calls returns; at its end, and so at every point of a longer run, a page's
    use count is the number of outstanding ranges over it, and with nothing outstanding the list is
    the initial one, block for block. -/
theorem runDeviceOps_counts (m₀ : KMemoryBlockManager) (h₀ : m₀.DeviceFree) (ops : List DeviceOp)
    (out : List PageRange) (hr : LegalRun m₀ [] ops out) :
    ∃ m, runDeviceOps m₀ ops = some m ∧
      (∀ p, ∀ q ∈ pageAt m.blocks p, q.deviceUseCount.toNat = coverCount out p) ∧
      (out = [] → m.blocks = m₀.blocks) := by
  obtain ⟨m, hm, h⟩ := SharedBy.run h₀ hr (SharedBy.init h₀)
  refine ⟨m, hm, fun p q hq => ?_, fun hout => ?_⟩
  · rw [h.reads.page] at hq
    obtain ⟨q₀, hq₀, rfl⟩ := Option.mem_map.mp hq
    have hlt : coverCount out p < 2 ^ 16 := Nat.lt_of_le_of_lt List.countP_le_length h.few
    rw [(h₀.page hq₀).shared_useCount, BitVec.toNat_ofNat, Nat.mod_eq_of_lt hlt]
  · subst hout
    exact h.eq_of_nil h₀

theorem runDeviceOps_counts_overlap : ∃ m₀ m, KMemoryBlockManager.initializeSpace 0 0x8000 = some m₀ ∧
      runDeviceOps m₀ [.share ⟨0x1000, 4⟩ 0, .share ⟨0x3000, 4⟩ 0, .unshare ⟨0x1000, 4⟩ 0,
        .unshare ⟨0x3000, 4⟩ 0] = some m ∧ m.blocks = m₀.blocks := by
  obtain ⟨m₀, h⟩ : ∃ m₀, KMemoryBlockManager.initializeSpace 0 0x8000 = some m₀ := ⟨_, rfl⟩
  have h₀ := KMemoryBlockManager.initializeSpace_deviceFree (by decide) h
  cases h
  obtain ⟨m, hm, -, hback⟩ := runDeviceOps_counts _ h₀
    [.share ⟨0x1000, 4⟩ 0, .share ⟨0x3000, 4⟩ 0, .unshare ⟨0x1000, 4⟩ 0, .unshare ⟨0x3000, 4⟩ 0]
    [] (.cons ⟨⟨by decide, by decide, by decide, by decide⟩, by decide⟩
      (.cons ⟨⟨by decide, by decide, by decide, by decide⟩, by decide⟩
        (.cons (by simp [DeviceOp.Legal, DeviceOp.outstanding])
          (.cons (by simp [DeviceOp.Legal, DeviceOp.outstanding]) (.nil _)))))
  exact ⟨_, m, rfl, hm, hback rfl⟩

/-- A list that `CheckState` accepts and no page of which is shared may still carry a count at a
    left edge, as `UpdateDeviceDisableMergeStateForShareLeft` alone leaves one: sharing and unsharing
    over it clamps that count away. And an empty range inside the first block leaves coalescing
    without a block to step back to. -/
theorem runDeviceOps_loses_stale_count : ∃ m₀ : KMemoryBlockManager, m₀ = ⟨0, 0x4000,
        [⟨1, 0, 0, 4, 5, 0, 0, 0, 3, 0, 0, deviceLeft⟩]⟩ ∧ m₀.checkState = true ∧
      (∀ b ∈ m₀.blocks, b.attr &&& deviceShared = 0 ∧ b.deviceUseCount = 0) ∧
      (runDeviceOps m₀ [.share ⟨0, 4⟩ 0, .unshare ⟨0, 4⟩ 0]).isSome = true ∧
      runDeviceOps m₀ [.share ⟨0, 4⟩ 0, .unshare ⟨0, 4⟩ 0] ≠ some m₀ ∧
      runDeviceOps m₀ [.share ⟨0x1000, 0⟩ 0] = none :=
  ⟨_, rfl, by decide, by decide, by decide, by decide, by decide⟩

end Yuzu.Kernel
