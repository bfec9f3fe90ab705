/-
  File:      Yuzu/Service/NvMapEviction.lean
  Subject:   Whether `NvMap::PinHandle` makes room: the loop that unmaps the handles of the unmap
             queue until the allocator of device addresses has an answer.

  The allocator is that of the device memory manager. What it answers in one round of the loop
  depends on what the rounds before it gave back.
-/
import Yuzu.Common.FlatAllocator
import Yuzu.Service.NvMapPins

namespace Yuzu.Service.NvCore

open List Option

open Yuzu.Common (AllocOp Block FlatAddressSpaceMap FlatAllocator)

/-! ## 1. The loop and its allocator -/

/-- nvmap and the allocator of the device addresses. -/
structure Host1x where
  nvmap : NvMap
  allocator : FlatAllocator

namespace Host1x

/-- `UnmapHandle`: the address of a handle that is not in the heap goes back to the allocator. -/
def unmapHandle (c : Container) (o : Nat) (h : Handle) (s : Host1x) : Option Host1x := do
  let n ← s.nvmap.unmapHandle c o h
  let allocator ←
    if h.inHeap then some s.allocator else s.allocator.free h.dAddress h.deviceSize
  return ⟨n, allocator⟩

/-- What a round of the loop does after an allocation that failed. The check reads the address of
the handle that is to be pinned. -/
def round (c : Container) (dAddress : Nat) (s : Host1x) : Option Host1x :=
  match s.nvmap.unmapQueue with
  | [] => none
  | (_, front) :: _ => do
    let h ← s.nvmap.objects[front]?
    if dAddress ≠ 0 then s.unmapHandle c front h else some s

/-- What `smmu.Allocate` answers in so many rounds. -/
def answers (c : Container) (dAddress size : Nat) : Nat → Host1x → List Nat
  | 0, _ => []
  | rounds + 1, s =>
    match s.allocator.allocate size with
    | none => []
    | some (address, allocator) =>
      if address ≠ 0 then [address]
      else match round c dAddress { s with allocator := allocator } with
        | none => [address]
        | some s => address :: answers c dAddress size rounds s

/-- All handles of the queue unmapped, from the front on. -/
def unmapQueued (c : Container) : List (Nat × Nat) → Host1x → Option Host1x
  | [], s => some s
  | (_, front) :: queue, s => do
    let h ← s.nvmap.objects[front]?
    let s ← s.unmapHandle c front h
    unmapQueued c queue s

/-- `smmu.Allocate` answers an address. -/
def Allocates (s : Host1x) (size : Nat) : Prop :=
  ∃ address allocator, s.allocator.allocate size = some (address, allocator) ∧ address ≠ 0

/-- It would, once all handles of the queue are unmapped. -/
def WouldAllocate (c : Container) (s : Host1x) (size : Nat) : Prop :=
  ∃ s', s.unmapQueued c s.nvmap.unmapQueue = some s' ∧ s'.Allocates size

/-- **The pin makes progress**: it returns after some rounds, the handles it unmapped are the first
of the queue, and no other handle has changed than these and its own. -/
def PinProgresses (c : Container) (s : Host1x) (id : HandleId) (lowAreaPin : Bool)
    (lowAnswer o : Nat) (h : Handle) : Prop :=
  ∃ rounds d n' k,
    s.nvmap.pinHandle c id lowAreaPin (s.answers c h.dAddress h.deviceSize rounds) lowAnswer =
      some (d, n') ∧
    n'.unmapQueue = s.nvmap.unmapQueue.drop k ∧
    ∀ p, p ≠ o → p ∉ (s.nvmap.unmapQueue.take k).map Prod.snd → n'.objects[p]? = s.nvmap.objects[p]?

end Host1x

/-! ## 2. What the rounds do -/

theorem searchGap_mem {sp : FlatAddressSpaceMap 1 Unit} {size start : Nat} {b : Block 1 Unit}
    {l : List (Block 1 Unit)} (h : FlatAllocator.searchGap sp size b l = some start) :
    ∃ g ∈ b :: l, g.virt = start := by
  induction l generalizing b with
  | nil => cases h
  | cons e l ih =>
    rw [FlatAllocator.searchGap] at h
    split at h
    · obtain ⟨g, hg, hvirt⟩ := ih h
      exact ⟨g, mem_cons_of_mem b hg, hvirt⟩
    · exact ⟨b, mem_cons_self, some.inj h⟩

/-- **An allocation that fails changes nothing.** The blocks of the allocator are in order. -/
theorem allocate_failed {a a' : FlatAllocator} {size : Nat}
    (hsorted : a.space.blocks.Pairwise (·.virt < ·.virt))
    (halloc : a.allocate size = some (0, a')) : a' = a := by
  rw [FlatAllocator.allocate, bind_eq_bind] at halloc
  obtain ⟨start, -, halloc⟩ := bind_eq_some_iff.mp halloc
  split at halloc
  · rename_i hstart
    obtain ⟨_, -, heq⟩ := map_eq_some_iff.mp halloc
    exact absurd (congrArg Prod.fst heq) hstart
  · rw [FlatAllocator.findGap] at halloc
    split at halloc
    · rename_i first p q rest hblocks
      rw [hblocks] at hsorted
      split at halloc
      · rename_i start' hgap
        -- only the first block starts at 0, and no gap is looked for there
        obtain ⟨_, -, heq⟩ := map_eq_some_iff.mp halloc
        obtain ⟨g, hg, hvirt⟩ := searchGap_mem hgap
        have hlt := rel_of_pairwise_cons hsorted hg
        have hzero : start' = 0 := congrArg Prod.fst heq
        omega
      · cases halloc
        rfl
    · cases halloc

section Rounds

variable {c : Container} {s : Host1x} {size dAddress : Nat}

/-- Without the first answer no round changes anything, and no answer is an address. -/
theorem answers_eq_zero (hsorted : s.allocator.space.blocks.Pairwise (·.virt < ·.virt))
    (hfail : ¬ s.Allocates size) {rounds a : Nat} (ha : a ∈ s.answers c 0 size rounds) : a = 0 := by
  induction rounds with
  | zero => exact absurd ha not_mem_nil
  | succ rounds ih =>
    rw [Host1x.answers] at ha
    cases halloc : s.allocator.allocate size with
    | none =>
      rw [halloc] at ha
      exact absurd ha not_mem_nil
    | some answer =>
      obtain ⟨address, allocator⟩ := answer
      have hzero : address = 0 := by
        by_contra hne
        exact hfail ⟨address, allocator, halloc, hne⟩
      subst hzero
      obtain rfl := allocate_failed hsorted halloc
      rw [halloc] at ha
      simp only [ne_eq, not_true_eq_false, if_false] at ha
      split at ha
      · exact mem_singleton.mp ha
      · rename_i s' hround
        have hsame : s' = s := by
          rw [Host1x.round] at hround
          split at hround
          · cases hround
          · obtain ⟨h, -, hround⟩ := bind_eq_some_iff.mp hround
            simp only [ne_eq, not_true_eq_false, if_false, Option.some.injEq] at hround
            exact hround.symm
        rcases mem_cons.mp ha with rfl | ha
        · rfl
        · exact ih (hsame ▸ ha)

theorem answers_one {address : Nat} {allocator : FlatAllocator}
    (halloc : s.allocator.allocate size = some (address, allocator)) (hne : address ≠ 0) :
    s.answers c dAddress size 1 = [address] := by
  rw [Host1x.answers, halloc]
  exact if_pos hne

end Rounds

/-! ## 3. The pin of an unmapped handle -/

section Pin

variable {c : Container} {s : Host1x} {n n' : NvMap} {id : HandleId} {o d : Nat} {h : Handle}
  {h' : Handle} {lowAreaPin : Bool} {lowAnswer : Nat} {ans : List Nat}

theorem pinHandle_unmapped (hget : n.getHandle id = some (o, h)) (hpins : h.pins = 0)
    (hentry : h.unmapQueueEntry = none) : n.pinHandle c id lowAreaPin ans lowAnswer =
      (n.mapDevice c ans h).map fun r => r.2.completePin lowAreaPin lowAnswer o r.1 := by
  rw [NvMap.pinHandle, hget]
  dsimp only
  rw [if_pos hpins, if_neg (by rw [hentry]; exact fun hne => hne rfl)]
  cases n.mapDevice c ans h <;> rfl

theorem completePin_frame : (n.completePin lowAreaPin lowAnswer o h).2.unmapQueue = n.unmapQueue ∧
    ∀ p, p ≠ o → (n.completePin lowAreaPin lowAnswer o h).2.objects[p]? = n.objects[p]? := by
  rw [NvMap.completePin]
  cases lowAreaPin with
  | true => exact ⟨rfl, fun p hp => List.getElem?_set_ne (Ne.symm hp)⟩
  | false => exact ⟨rfl, fun p hp => List.getElem?_set_ne (Ne.symm hp)⟩

theorem progresses_of_mapDevice {rounds : Nat} (hget : s.nvmap.getHandle id = some (o, h))
    (hpins : h.pins = 0) (hentry : h.unmapQueueEntry = none)
    (hmap : s.nvmap.mapDevice c (s.answers c h.dAddress h.deviceSize rounds) h = some (h', n))
    (hqueue : n.unmapQueue = s.nvmap.unmapQueue) (hobjects : n.objects = s.nvmap.objects) :
    s.PinProgresses c id lowAreaPin lowAnswer o h := by
  obtain ⟨hqueue', hobjects'⟩ := @completePin_frame n o h' lowAreaPin lowAnswer
  have hpin : s.nvmap.pinHandle c id lowAreaPin (s.answers c h.dAddress h.deviceSize rounds)
      lowAnswer = some ((n.completePin lowAreaPin lowAnswer o h').1,
        (n.completePin lowAreaPin lowAnswer o h').2) := by
    rw [pinHandle_unmapped hget hpins hentry, hmap]
    rfl
  refine ⟨rounds, _, _, 0, hpin, ?_, fun p hp _ => ?_⟩
  · rw [hqueue', hqueue, drop_zero]
  · rw [hobjects' p hp, hobjects]

theorem not_progresses (hsorted : s.allocator.space.blocks.Pairwise (·.virt < ·.virt))
    (hget : s.nvmap.getHandle id = some (o, h)) (hpins : h.pins = 0)
    (hentry : h.unmapQueueEntry = none) (hunmapped : h.dAddress = 0)
    (harea : (c.mapper h.sessionId).filter (·.isInBounds h.address h.alignedSize) = none)
    (hfail : ¬ s.Allocates h.deviceSize) : ¬ s.PinProgresses c id lowAreaPin lowAnswer o h := by
  intro hprogress
  obtain ⟨rounds, d, n', _, hpin, -⟩ := hprogress
  rw [pinHandle_unmapped hget hpins hentry] at hpin
  obtain ⟨⟨h', n⟩, hmap, -⟩ := map_eq_some_iff.mp hpin
  simp only [NvMap.mapDevice, harea, bind_eq_bind] at hmap
  obtain ⟨⟨address, n⟩, halloc, -⟩ := bind_eq_some_iff.mp hmap
  rw [hunmapped] at halloc
  obtain ⟨hne, hmem, -⟩ := allocateDevice_spec halloc
  exact hne (answers_eq_zero hsorted hfail hmem)

end Pin

/-- **Eviction never makes progress.** The pin of an unmapped handle does exactly where nothing
has to be unmapped: the handle lies in the preallocated area of its session, or the first
allocation has an answer. -/
theorem pin_progresses_iff (c : Container) (s : Host1x) (id : HandleId) (lowAreaPin : Bool)
    (lowAnswer o : Nat) (h : Handle)
    (hsorted : s.allocator.space.blocks.Pairwise (·.virt < ·.virt))
    (hget : s.nvmap.getHandle id = some (o, h)) (hpins : h.pins = 0)
    (hentry : h.unmapQueueEntry = none) (hunmapped : h.dAddress = 0) :
    s.PinProgresses c id lowAreaPin lowAnswer o h ↔
      (∃ m, c.mapper h.sessionId = some m ∧ m.isInBounds h.address h.alignedSize = true) ∨
        s.Allocates h.deviceSize := by
  constructor
  · intro hprogress
    refine or_iff_not_imp_left.mpr fun hno => ?_
    have harea : (c.mapper h.sessionId).filter (·.isInBounds h.address h.alignedSize) = none := by
      refine filter_eq_none_iff.mpr fun m hm hbounds => hno ⟨m, hm, hbounds⟩
    by_contra hfail
    exact not_progresses hsorted hget hpins hentry hunmapped harea hfail hprogress
  · intro hcase
    cases harea : (c.mapper h.sessionId).filter (·.isInBounds h.address h.alignedSize) with
    | some m =>
      obtain ⟨h', n, hmap, hqueue, hobjects⟩ : ∃ h' n,
          s.nvmap.mapDevice c (s.answers c h.dAddress h.deviceSize 0) h = some (h', n) ∧
            n.unmapQueue = s.nvmap.unmapQueue ∧ n.objects = s.nvmap.objects := by
        simp only [NvMap.mapDevice, harea]
        exact ⟨_, _, rfl, rfl, rfl⟩
      exact progresses_of_mapDevice hget hpins hentry hmap hqueue hobjects
    | none =>
      obtain ⟨address, allocator, halloc, hne⟩ := hcase.resolve_left fun hin => by
        obtain ⟨m, hm, hbounds⟩ := hin
        exact filter_eq_none_iff.mp harea m hm hbounds
      obtain ⟨h', n, hmap, hqueue, hobjects⟩ : ∃ h' n,
          s.nvmap.mapDevice c (s.answers c h.dAddress h.deviceSize 1) h = some (h', n) ∧
            n.unmapQueue = s.nvmap.unmapQueue ∧ n.objects = s.nvmap.objects := by
        simp only [NvMap.mapDevice, harea, answers_one halloc hne, NvMap.allocateDevice, if_pos hne]
        exact ⟨_, _, rfl, rfl, rfl⟩
      exact progresses_of_mapDevice hget hpins hentry hmap hqueue hobjects

/-- A fresh host with one handle of a page. -/
def oneHandle : Host1x where
  nvmap := { freshNvMap with
    objects := [((Handle.new 0x1000 4).alloc 0 0x1000 0 0x10000 0).2]
    handles := fun id => if id = 4 then some 0 else none }
  allocator := .make 34 0x1000 0x3FFFFFFFF (by decide)

theorem pin_progresses_first : oneHandle.PinProgresses plainContainer 4 false 0 0
    ((Handle.new 0x1000 4).alloc 0 0x1000 0 0x10000 0).2 :=
  (pin_progresses_iff plainContainer oneHandle 4 false 0 0 _ (by decide) rfl rfl rfl rfl).mpr
    (.inr ⟨0x1000, _, rfl, by decide⟩)

/-! ## 4. A full address space -/

/-- Three handles of 4 GiB are pinned, the second is unpinned, and there is a fourth. -/
def fillingCalls : List NvMap.Call :=
  [.createHandle 0xFFFFFFFF, .alloc 4 0 0x80000000 0 0x100000000 0, .pinHandle 4 false [0x1000] 0,
    .createHandle 0xFFFFFFFF, .alloc 8 0 0x80000000 0 0x300000000 0,
    .pinHandle 8 false [0x100001000] 0,
    .createHandle 0xFFFFFFFF, .alloc 12 0 0x80000000 0 0x500000000 0,
    .pinHandle 12 false [0x200001000] 0,
    .createHandle 0xFFFFFFFF, .alloc 16 0 0x80000000 0 0x700000000 0,
    .unpinHandle 8]

/-- The three allocations, in the address space of 16 GiB. -/
def fullAllocator : FlatAllocator :=
  ⟨⟨34, 0, false, 0x3FFFFFFFF, by decide, [⟨0, 0, ()⟩, ⟨0x1000, 1, ()⟩, ⟨0x100001000, 1, ()⟩,
    ⟨0x200001000, 1, ()⟩, ⟨0x300001000, 0, ()⟩]⟩, 0x1000, 0x300001000⟩

/-- **The fourth handle is never pinned**, though there is room for it once the second is unmapped:
its own address is 0, so the loop unmaps nothing. -/
theorem eviction_stuck : ∃ n h, fillingCalls.foldlM (NvMap.call plainContainer) freshNvMap = some n ∧
    AllocOp.run (.make 34 0x1000 0x3FFFFFFFF (by decide))
      [.allocate 0x100000000, .allocate 0x100000000, .allocate 0x100000000] = some fullAllocator ∧
    n.getHandle 16 = some (3, h) ∧ h.pins = 0 ∧ h.unmapQueueEntry = none ∧ h.dAddress = 0 ∧
    Host1x.WouldAllocate plainContainer ⟨n, fullAllocator⟩ h.deviceSize ∧
    ¬ Host1x.PinProgresses plainContainer ⟨n, fullAllocator⟩ 16 false 0 3 h := by
  refine ⟨_, _, rfl, by decide, rfl, rfl, rfl, rfl, ?_, ?_⟩
  · exact ⟨_, rfl, 0x100001000, _, rfl, by decide⟩
  · refine not_progresses (by decide) rfl rfl rfl rfl rfl fun hallocates => ?_
    obtain ⟨address, allocator, halloc, hne⟩ := hallocates
    have hfull : fullAllocator.allocate 0x100000000 = some (0, fullAllocator) := by decide
    exact hne (congrArg Prod.fst (some.inj (hfull.symm.trans halloc))).symm

end Yuzu.Service.NvCore
